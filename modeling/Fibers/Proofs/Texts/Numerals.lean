import Fibers.Strategy
import Mathlib.Tactic.Common

set_option autoImplicit false

/-! # Numerals

Two notions of text that the notations of settings are built from.

* `Numeral chars n`: the grammar of unsigned decimal numbers, said without the loop that reads
  them. The loop stops at the first fault and looks for an overflow at every digit;
  `Decimal.parse_eq_ok_iff` says that it accepts exactly the numerals whose value is below
  `2 ^ 64`. What carries it is `le_ofDigitChars`: the value read so far never shrinks, so an
  overflow half-way is an overflow at the end.
* `Plain s`: the texts that neither trimming nor lower case changes, among them every numeral
  without a sign that `toString` writes.
-/

namespace Fibers.Text

/-! ## The grammar of numbers -/

/-- The texts of a number: digits, at least one of them, with or without a plus sign. -/
inductive Numeral : List Char → Nat → Prop where
  | plain {digits : List Char} (nonempty : digits ≠ []) (all : ∀ c ∈ digits, c.isDigit = true) :
      Numeral digits (Nat.ofDigitChars 10 digits 0)
  | signed {digits : List Char} (nonempty : digits ≠ []) (all : ∀ c ∈ digits, c.isDigit = true) :
      Numeral ('+' :: digits) (Nat.ofDigitChars 10 digits 0)

/-- What is printed of a number is a text of it. -/
theorem numeral_toDigits (n : Nat) : Numeral (Nat.toDigits 10 n) n := by
  have h : Numeral (Nat.toDigits 10 n) (Nat.ofDigitChars 10 (Nat.toDigits 10 n) 0) :=
    .plain Nat.toDigits_ne_nil fun c hc => Nat.isDigit_of_mem_toDigits (by decide) (by decide) hc
  rwa [Nat.ofDigitChars_ten_toDigits] at h

namespace Decimal

/-- A digit and its value. -/
theorem digit?_eq_some_iff {c : Char} {d : Nat} :
    digit? c = some d ↔ c.isDigit = true ∧ c.toNat - '0'.toNat = d := by
  have hdigit : ('0' ≤ c ∧ c ≤ '9') ↔ c.isDigit = true := by
    simp [Char.isDigit, Char.le_def]
  unfold digit?
  constructor
  · intro h
    split at h
    · exact ⟨hdigit.mp ‹_›, Option.some.inj h⟩
    · cases h
  · rintro ⟨hc, hd⟩
    rw [if_pos (hdigit.mpr hc), ← hd]
    rfl

/-- Reading on never makes the value smaller. -/
theorem le_ofDigitChars (chars : List Char) (value : Nat) :
    value ≤ Nat.ofDigitChars 10 chars value := by
  induction chars generalizing value with
  | nil => exact Nat.le_refl value
  | cons c rest ih =>
      rw [Nat.ofDigitChars_cons]
      calc value ≤ 10 * value + (c.toNat - '0'.toNat) := by omega
        _ ≤ Nat.ofDigitChars 10 rest (10 * value + (c.toNat - '0'.toNat)) := ih _

/-- The loop from a value that fits: it ends well on digits whose value fits. -/
theorem digits_eq_ok_iff {chars : List Char} {value n : Nat} (hvalue : value < bound) :
    digits value chars = .ok n ↔
      (∀ c ∈ chars, c.isDigit = true) ∧ Nat.ofDigitChars 10 chars value = n ∧ n < bound := by
  induction chars generalizing value with
  | nil =>
      constructor
      · intro h
        obtain rfl : value = n := Except.ok.inj h
        exact ⟨by simp, rfl, hvalue⟩
      · rintro ⟨-, h, -⟩
        exact congrArg Except.ok h
  | cons c rest ih =>
      rw [Nat.ofDigitChars_cons]
      unfold digits
      cases hc : digit? c with
      | none =>
          constructor
          · intro h
            cases h
          · rintro ⟨hall, -, -⟩
            have hd := digit?_eq_some_iff.mpr ⟨hall c (List.mem_cons_self ..), rfl⟩
            rw [hc] at hd
            cases hd
      | some d =>
          obtain ⟨hdigit, hd⟩ := digit?_eq_some_iff.mp hc
          have hnext : 10 * value + (c.toNat - '0'.toNat) = value * 10 + d := by omega
          rw [hnext]
          show (if value * 10 + d < bound then digits (value * 10 + d) rest else .error .overflow)
            = Except.ok n ↔ _
          by_cases hfits : value * 10 + d < bound
          · rw [if_pos hfits, ih hfits]
            simp [hdigit]
          · -- the value is past the bound here, so it is past it at the end
            rw [if_neg hfits]
            constructor
            · intro h
              cases h
            · rintro ⟨-, hn, hbound⟩
              have hle := le_ofDigitChars rest (value * 10 + d)
              omega

/-- The reader accepts exactly the numerals that fit. -/
theorem parse_eq_ok_iff {s : String} {n : Nat} :
    parse s = .ok n ↔ Numeral s.toList n ∧ n < bound := by
  have hzero : 0 < bound := by decide
  have hplus : ('+').isDigit = false := by decide
  unfold parse
  split
  next h =>
      rw [h]
      constructor
      · intro h
        cases h
      · rintro ⟨hnum, -⟩
        cases hnum
        contradiction
  next h =>
      rw [h]
      constructor
      · intro h
        cases h
      · rintro ⟨hnum, -⟩
        cases hnum with
        | plain _ hall => simp [hplus] at hall
        | signed hne _ => exact absurd rfl hne
  next rest hrest h =>
      rw [h, digits_eq_ok_iff hzero]
      constructor
      · rintro ⟨hall, rfl, hfits⟩
        exact ⟨.signed (by rintro rfl; exact hrest rfl) hall, hfits⟩
      · rintro ⟨hnum, hfits⟩
        cases hnum with
        | plain _ hall => simp [hplus] at hall
        | signed _ hall => exact ⟨hall, rfl, hfits⟩
  next hnil hlone hsign =>
      rw [digits_eq_ok_iff hzero]
      constructor
      · rintro ⟨hall, rfl, hfits⟩
        exact ⟨.plain hnil hall, hfits⟩
      · rintro ⟨hnum, hfits⟩
        generalize hs : s.toList = chars at hnum hsign
        cases hnum with
        | plain _ hall => exact ⟨hall, rfl, hfits⟩
        | signed _ _ => exact absurd rfl (hsign _)

end Decimal

/-! ## Texts without capitals and blanks -/

/-- A visible character of ASCII that is no capital. -/
def IsPlain (c : Char) : Prop :=
  0x21 ≤ c.toNat ∧ c.toNat ≤ 0x40 ∨ 0x5B ≤ c.toNat ∧ c.toNat ≤ 0x7E

instance (c : Char) : Decidable (IsPlain c) := inferInstanceAs (Decidable (_ ∨ _))

/-- A text of such characters. -/
def Plain (s : String) : Prop := ∀ c ∈ s.toList, IsPlain c

instance (s : String) : Decidable (Plain s) := List.decidableBAll IsPlain s.toList

theorem isPlain_of_isDigit {c : Char} (h : c.isDigit = true) : IsPlain c := by
  have hc : 48 ≤ c.toNat ∧ c.toNat ≤ 57 := by
    simpa [Char.isDigit, UInt32.le_iff_toNat_le] using h
  exact Or.inl ⟨by omega, by omega⟩

theorem Plain.append {s t : String} (hs : Plain s) (ht : Plain t) : Plain (s ++ t) := by
  intro c hc
  rw [String.toList_append] at hc
  rcases List.mem_append.mp hc with hc | hc
  · exact hs c hc
  · exact ht c hc

theorem plain_toString (n : Nat) : Plain (toString n) := by
  intro c hc
  rw [Nat.toString_eq_ofList_toDigits, String.toList_ofList] at hc
  exact isPlain_of_isDigit (Nat.isDigit_of_mem_toDigits (by decide) (by decide) hc)

theorem IsPlain.not_blank {c : Char} (h : IsPlain c) : isBlank c = false := by
  unfold IsPlain at h
  simp only [isBlank, Bool.or_eq_false_iff, Bool.and_eq_false_iff, decide_eq_false_iff_not,
    beq_eq_false_iff_ne]
  omega

/-- The runs of capitals below `0xC0` are the capitals of ASCII. -/
theorem smallForms_ranges : ∀ r ∈ smallForms, 0x41 ≤ r.1 ∧ r.2.1 ≤ 0x5A ∨ 0xC0 ≤ r.1 := by
  decide +kernel

theorem IsPlain.toSmall_eq {c : Char} (h : IsPlain c) : toSmall c = c := by
  have hnone : smallForms.find? (fun r =>
      r.1 ≤ c.toNat && c.toNat ≤ r.2.1 && (c.toNat - r.1) % r.2.2.1 == 0) = none := by
    rw [List.find?_eq_none]
    intro r hr
    have hrange := smallForms_ranges r hr
    unfold IsPlain at h
    simp only [Bool.and_eq_true, decide_eq_true_eq, not_and]
    omega
  simp only [toSmall, hnone]

theorem lowerFrom_of_plain {chars : List Char} (h : ∀ c ∈ chars, IsPlain c) (before : List Char) :
    lowerFrom before chars = chars := by
  induction chars generalizing before with
  | nil => rfl
  | cons c rest ih =>
      have hc : IsPlain c := h c (List.mem_cons_self ..)
      have hrange : c.toNat ≠ 0x130 ∧ c.toNat ≠ 0x3A3 := by
        unfold IsPlain at hc
        omega
      rw [lowerFrom, if_neg hrange.1, if_neg hrange.2, hc.toSmall_eq,
        ih fun c hc => h c (List.mem_cons_of_mem _ hc)]
      rfl

/-- Lower case keeps a plain text. -/
theorem Plain.lowercase_eq {s : String} (h : Plain s) : lowercase s = s := by
  rw [lowercase, lowerFrom_of_plain h, String.ofList_toList]

/-- Trimming keeps a plain text. -/
theorem Plain.trim_eq {s : String} (h : Plain s) : trim s = s := by
  have hkeep : ∀ chars : List Char, (∀ c ∈ chars, IsPlain c) → chars.dropWhile isBlank = chars := by
    intro chars hall
    cases chars with
    | nil => rfl
    | cons c rest =>
        have hc := (hall c (List.mem_cons_self ..)).not_blank
        rw [List.dropWhile_cons_of_neg (by simp [hc])]
  rw [trim, dropTrailing, hkeep _ h, hkeep _ fun c hc => h c (List.mem_reverse.mp hc),
    List.reverse_reverse, String.ofList_toList]

end Fibers.Text
