import Fibers.Proofs.Texts.Numerals
import Mathlib.Algebra.Ring.Nat

set_option autoImplicit false

/-! # The notation of strategies

`Spells t strategy` is the grammar of the three strategies over texts in lower case without
blanks at the ends. `Strategy.grammar` says that the reader accepts exactly the texts that come to
one of these, each for its strategy, and that it reads back what is shown of every strategy but
the one with a bound of zero, whose text no strategy has.
-/

namespace Fibers.Strategy

/-! ## The grammar -/

/-- The texts of each strategy. The bound of the last one is a positive number of 64 bits, written
with or without a plus sign. -/
inductive Spells : String → Strategy → Prop where
  | sequential : Spells "sequential" .sequential
  | concurrent : Spells "concurrent" .concurrent
  | bounded {limit : String} {n : Nat} (numeral : Text.Numeral limit.toList n)
      (positive : 1 ≤ n) (fits : n < 2 ^ 64) : Spells ("concurrent:" ++ limit) (.bounded n)

/-- The bound of a strategy is a number of 64 bits. -/
def Fits : Strategy → Prop
  | .bounded n => n < 2 ^ 64
  | _ => True

theorem Spells.fits {t : String} {strategy : Strategy} (h : Spells t strategy) :
    strategy.Fits := by
  cases h with
  | sequential => trivial
  | concurrent => trivial
  | bounded _ _ fits => exact fits

theorem isPrefixOf_mark (mark rest : List Char) : mark.isPrefixOf (mark ++ rest) = true :=
  List.isPrefixOf_iff_prefix.mpr (List.prefix_append mark rest)

theorem toList_bounded (limit : String) :
    ("concurrent:" ++ limit).toList = boundMark ++ limit.toList :=
  String.toList_append

theorem eq_append_of_isPrefixOf {t : String} (h : boundMark.isPrefixOf t.toList = true) :
    t = "concurrent:" ++ String.ofList (t.toList.drop boundMark.length) := by
  obtain ⟨rest, hrest⟩ := List.isPrefixOf_iff_prefix.mp h
  have hdrop : t.toList.drop boundMark.length = rest := by
    rw [← hrest]
    exact List.drop_left
  apply String.toList_injective
  rw [hdrop, toList_bounded, String.toList_ofList, hrest]

/-- A word that does not start with the mark is no text with a bound. -/
theorem append_ne_of_take_ne {word : String}
    (h : word.toList.take boundMark.length ≠ boundMark) (limit : String) :
    "concurrent:" ++ limit ≠ word := by
  intro heq
  apply h
  rw [← heq, toList_bounded]
  exact List.take_left

theorem parseBound_eq_ok_iff {s : String} {strategy : Strategy} :
    parseBound s = .ok strategy ↔
      ∃ n, strategy = .bounded n ∧ Text.Numeral s.toList n ∧ 1 ≤ n ∧ n < 2 ^ 64 := by
  have hbound : Text.Decimal.bound = 2 ^ 64 := by decide
  unfold parseBound
  constructor
  · intro h
    split at h
    next n hn =>
        obtain ⟨hnumeral, hfits⟩ := Text.Decimal.parse_eq_ok_iff.mp hn
        exact ⟨n + 1, (Except.ok.inj h).symm, hnumeral, by omega, by omega⟩
    next => cases h
  · rintro ⟨n, rfl, hnumeral, hpositive, hfits⟩
    rw [Text.Decimal.parse_eq_ok_iff.mpr ⟨hnumeral, by omega⟩]
    obtain ⟨m, rfl⟩ : ∃ m, n = m + 1 := ⟨n - 1, by omega⟩
    rfl

/-- The reader accepts the texts of the grammar and no others. -/
theorem parse_eq_ok_iff {s : String} {strategy : Strategy} :
    parse s = .ok strategy ↔ Spells (Text.lowercase (Text.trim s)) strategy := by
  unfold parse
  generalize Text.lowercase (Text.trim s) = t
  constructor
  · intro h
    dsimp only at h
    split_ifs at h with hseq hcon hmark
    · rw [hseq, ← Except.ok.inj h]
      exact .sequential
    · rw [hcon, ← Except.ok.inj h]
      exact .concurrent
    · obtain ⟨n, rfl, hnumeral, hpositive, hfits⟩ := parseBound_eq_ok_iff.mp h
      rw [eq_append_of_isPrefixOf hmark]
      exact .bounded hnumeral hpositive hfits
  · intro h
    cases h with
    | sequential => rfl
    | concurrent => rfl
    | @bounded limit n hnumeral hpositive hfits =>
        have hseq : "concurrent:" ++ limit ≠ "sequential" := append_ne_of_take_ne (by decide) limit
        have hcon : "concurrent:" ++ limit ≠ "concurrent" := append_ne_of_take_ne (by decide) limit
        have hdrop : (boundMark ++ limit.toList).drop boundMark.length = limit.toList :=
          List.drop_left
        dsimp only
        rw [if_neg hseq, if_neg hcon, toList_bounded, if_pos (isPrefixOf_mark _ _), hdrop,
          String.ofList_toList]
        exact parseBound_eq_ok_iff.mpr ⟨n, rfl, hnumeral, hpositive, hfits⟩

/-- What the reader gives has a bound of 64 bits. -/
theorem fits_of_parse {s : String} {strategy : Strategy} (h : parse s = .ok strategy) :
    strategy.Fits :=
  (parse_eq_ok_iff.mp h).fits

/-! ## What is shown is read back -/

theorem plain_display (strategy : Strategy) : Text.Plain strategy.display := by
  cases strategy with
  | sequential => decide
  | concurrent => decide
  | bounded n => exact Text.Plain.append (by decide) (Text.plain_toString n)

theorem spells_display {strategy : Strategy} (hzero : strategy ≠ .bounded 0)
    (hfits : strategy.Fits) : Spells strategy.display strategy := by
  cases strategy with
  | sequential => exact .sequential
  | concurrent => exact .concurrent
  | bounded n =>
      have hpositive : 1 ≤ n := by
        rcases Nat.eq_zero_or_pos n with rfl | h
        · exact absurd rfl hzero
        · exact h
      refine .bounded ?_ hpositive hfits
      rw [Nat.toString_eq_ofList_toDigits, String.toList_ofList]
      exact Text.numeral_toDigits n

theorem parse_display {strategy : Strategy} (hzero : strategy ≠ .bounded 0)
    (hfits : strategy.Fits) : parse strategy.display = .ok strategy := by
  rw [parse_eq_ok_iff, (plain_display strategy).trim_eq, (plain_display strategy).lowercase_eq]
  exact spells_display hzero hfits

/-- The reader of strategies, on the text `t` that trimming and lower case leave of `s`: it gives
a strategy exactly if `t` is a text of this strategy, and fails exactly if `t` is a text of none.
It reads back what is shown of every strategy but the one with a bound of zero. -/
theorem grammar :
    (∀ s strategy, parse s = .ok strategy ↔ Spells (Text.lowercase (Text.trim s)) strategy) ∧
    (∀ s, (∃ e, parse s = .error e) ↔
      ∀ strategy, ¬ Spells (Text.lowercase (Text.trim s)) strategy) ∧
    (∀ strategy : Strategy, strategy ≠ .bounded 0 → strategy.Fits →
      parse strategy.display = .ok strategy) := by
  refine ⟨fun s strategy => parse_eq_ok_iff, fun s => ?_, fun strategy => parse_display⟩
  constructor
  · rintro ⟨e, he⟩ strategy hspells
    rw [parse_eq_ok_iff.mpr hspells] at he
    cases he
  · intro hnone
    cases hs : parse s with
    | error e => exact ⟨e, rfl⟩
    | ok strategy => exact absurd (parse_eq_ok_iff.mp hs) (hnone strategy)

/-- Capitals, blanks at the ends, a plus sign and leading zeros do not matter, and the largest
bound is read back. -/
theorem grammar_padded :
    parse " Concurrent:+007 " = .ok (.bounded 7) ∧
    Strategy.bounded (2 ^ 64 - 1) ≠ .bounded 0 ∧ Fits (.bounded (2 ^ 64 - 1)) ∧
    parse (display (.bounded (2 ^ 64 - 1))) = .ok (.bounded (2 ^ 64 - 1)) := by
  have hpadded : Text.lowercase (Text.trim " Concurrent:+007 ") = "concurrent:" ++ "+007" := by
    decide +kernel
  have hseven : Text.Numeral "+007".toList 7 :=
    .signed (show ['0', '0', '7'] ≠ [] by decide) (List.all_eq_true.mp (by decide))
  have hzero : Strategy.bounded (2 ^ 64 - 1) ≠ .bounded 0 := by decide
  have hfits : Fits (.bounded (2 ^ 64 - 1)) := show 2 ^ 64 - 1 < 2 ^ 64 by decide
  refine ⟨(grammar.1 _ _).mpr ?_, hzero, hfits, grammar.2.2 _ hzero hfits⟩
  rw [hpadded]
  exact .bounded hseven (by decide) (by decide)

/-- A blank before the bound is a fault, and so is a bound of zero. -/
example : parse "concurrent: 7" = .error (.badBound " 7") ∧
    parse "concurrent:0" = .error (.badBound "0") := by
  decide +kernel

end Fibers.Strategy
