import Fibers.Proofs.Causes.Outline
import Mathlib.Algebra.Ring.Nat

set_option autoImplicit false

/-! # Decoding a rendering

A rendering gives back the outline of the cause. Its lines are rows with known depths, so the
question is how rows in a line belong to nodes. The answer is in what can follow the rows of a
node at some depth: never a frame of this depth or a deeper one (`Ends`), since the frames of a
node stand directly behind its parts, and those of the nodes around it are less deep. With such a
rest, the rows of an outline are cut off in one way only (`rows_append_inj`, by induction on the
outline for every depth and every rest).

`Cause.decodable` is the main statement; it counts the lines of each kind as well.
-/

namespace Fibers.Cause

namespace Outline

/-- What follows the rows of a node does not start with a frame as deep as the node. -/
def Ends (depth : Nat) (rest : List (Nat × Row)) : Prop :=
  ∀ d text, rest.head? = some (d, .frame text) → d < depth

theorem ends_nil (depth : Nat) : Ends depth [] := by
  intro d text h
  cases h

theorem Ends.mono {depth depth' : Nat} {rest : List (Nat × Row)} (h : Ends depth rest)
    (hle : depth ≤ depth') : Ends depth' rest := by
  intro d text hhead
  have hlt := h d text hhead
  omega

/-- The rows of an outline start with its node, so what follows does not start with a frame. -/
theorem ends_rows (o : Outline) (depth depth' : Nat) (rest : List (Nat × Row)) :
    Ends depth (o.rows depth' ++ rest) := by
  intro d text h
  cases o with
  | leaf l frames => cases h
  | join j a b frames => cases h

/-- The frames of a node and what follows it follow its parts. -/
theorem Ends.frameRows {depth : Nat} {rest : List (Nat × Row)} (h : Ends depth rest)
    (frames : List String) : Ends (depth + 1) (Outline.frameRows depth frames ++ rest) := by
  cases frames with
  | nil => exact h.mono (Nat.le_succ depth)
  | cons text more =>
      intro d text' hhead
      cases hhead
      exact Nat.lt_succ_self depth

/-- Frames end where a row comes that is none of their depth. -/
theorem frameRows_append_inj {depth : Nat} {frames frames' : List String}
    {rest rest' : List (Nat × Row)} (hrest : Ends depth rest) (hrest' : Ends depth rest')
    (h : frameRows depth frames ++ rest = frameRows depth frames' ++ rest') :
    frames = frames' ∧ rest = rest' := by
  induction frames generalizing frames' with
  | nil =>
      cases frames' with
      | nil => exact ⟨rfl, h⟩
      | cons text more =>
          have hhead : rest.head? = some (depth, .frame text) := by
            rw [show rest = _ from h]
            rfl
          exact absurd (hrest _ _ hhead) (Nat.lt_irrefl depth)
  | cons text more ih =>
      cases frames' with
      | nil =>
          have hhead : rest'.head? = some (depth, .frame text) := by
            rw [show rest' = _ from h.symm]
            rfl
          exact absurd (hrest' _ _ hhead) (Nat.lt_irrefl depth)
      | cons text' more' =>
          obtain ⟨hrow, htail⟩ := List.cons.inj h
          obtain ⟨rfl, hmore⟩ := ih htail
          cases hrow
          exact ⟨rfl, hmore⟩

/-- The rows of an outline are cut off from what follows in one way only. -/
theorem rows_append_inj {o o' : Outline} {depth : Nat} {rest rest' : List (Nat × Row)}
    (hrest : Ends depth rest) (hrest' : Ends depth rest')
    (h : o.rows depth ++ rest = o'.rows depth ++ rest') : o = o' ∧ rest = rest' := by
  induction o generalizing o' depth rest rest' with
  | leaf l frames =>
      cases o' with
      | leaf l' frames' =>
          obtain ⟨hrow, htail⟩ := List.cons.inj h
          cases hrow
          obtain ⟨hframes, hend⟩ := frameRows_append_inj hrest hrest' htail
          rw [hframes]
          exact ⟨rfl, hend⟩
      | join j' a' b' frames' => cases (List.cons.inj h).1
  | join j a b frames iha ihb =>
      cases o' with
      | leaf l' frames' => cases (List.cons.inj h).1
      | join j' a' b' frames' =>
          obtain ⟨hrow, htail⟩ := List.cons.inj h
          cases hrow
          have hparts :
              a.rows (depth + 1) ++ (b.rows (depth + 1) ++ (frameRows depth frames ++ rest)) =
                a'.rows (depth + 1) ++
                  (b'.rows (depth + 1) ++ (frameRows depth frames' ++ rest')) := by
            simpa [List.append_assoc] using htail
          -- first the left part, behind which the right one starts, then the right part, behind
          -- which frames of this node or rows around it come, then the frames
          obtain ⟨hleft, hright⟩ := iha (ends_rows b _ _ _) (ends_rows b' _ _ _) hparts
          obtain ⟨hright, hframes⟩ := ihb (hrest.frameRows frames) (hrest'.frameRows frames') hright
          obtain ⟨hframes, hend⟩ := frameRows_append_inj hrest hrest' hframes
          rw [hleft, hright, hframes]
          exact ⟨rfl, hend⟩

theorem rows_injective {o o' : Outline} (h : o.rows 0 = o'.rows 0) : o = o' := by
  refine (rows_append_inj (ends_nil 0) (ends_nil 0) ?_).1
  rw [List.append_nil, List.append_nil, h]

end Outline

variable {ε : Type}

/-- Two renderings that are equal show one outline. -/
theorem outline_eq_of_pretty_eq {showError : ε → String} {c c' : Cause ε}
    (hc : c.SingleLine showError) (hc' : c'.SingleLine showError)
    (h : c.pretty showError = c'.pretty showError) :
    c.outline showError = c'.outline showError := by
  have hlines := congrArg Text.lines h
  rw [lines_pretty hc, lines_pretty hc'] at hlines
  exact Outline.rows_injective ((List.map_inj_right fun _ _ => Row.line_injective).mp hlines)

/-- The outline without its frames. -/
def Outline.bare : Outline → Outline
  | .leaf l _ => .leaf l []
  | .join j a b _ => .join j a.bare b.bare []

theorem Outline.bare_annotate (more : List String) (o : Outline) :
    (o.annotate more).bare = o.bare := by
  cases o <;> rfl

/-- Removing the traces removes the frames and nothing else. -/
theorem outline_stripTraces (showError : ε → String) (c : Cause ε) :
    c.stripTraces.outline showError = (c.outline showError).bare := by
  induction c with
  | fail e => rfl
  | die d => rfl
  | interrupt id => rfl
  | andThen a b iha ihb => rw [stripTraces, outline, outline, iha, ihb, Outline.bare]
  | both a b iha ihb => rw [stripTraces, outline, outline, iha, ihb, Outline.bare]
  | traced c t ih => rw [stripTraces, outline, Outline.bare_annotate, ih]

/-! ## Counting lines -/

/-- The number of joins. -/
def joins : Cause ε → Nat
  | .andThen a b => a.joins + b.joins + 1
  | .both a b => a.joins + b.joins + 1
  | .traced c _ => c.joins
  | _ => 0

/-- What a line can tell of. -/
inductive Kind where
  | leaf
  | join
  | frame
  deriving DecidableEq, Repr

/-- What a line without its indentation tells of, by the words it starts with. -/
def kind? (line : List Char) : Option Kind :=
  if "Fail: ".toList.isPrefixOf line ∨ "Die: ".toList.isPrefixOf line ∨
      "Interrupted by ".toList.isPrefixOf line then some .leaf
  else if line = "Then".toList ∨ line = "Both".toList then some .join
  else if "at ".toList.isPrefixOf line then some .frame
  else none

/-- What a row tells of. -/
def Row.kind : Row → Kind
  | .leaf _ => .leaf
  | .join _ => .join
  | .frame _ => .frame

@[simp] theorem Row.kind_leaf (l : Shown) : (Row.leaf l).kind = .leaf := rfl

@[simp] theorem Row.kind_join (j : Join) : (Row.join j).kind = .join := rfl

@[simp] theorem Row.kind_frame (text : String) : (Row.frame text).kind = .frame := rfl

theorem kind?_words (row : Row) : kind? row.words.toList = some row.kind := by
  rcases row with (_ | _ | _) | (_ | _) | _ <;>
    simp [Row.words, kind?, List.isPrefixOf]

/-- The rows of a kind in a cause. -/
def rowsOf (showError : ε → String) (kind : Kind) (depth : Nat) (c : Cause ε) : List Row :=
  (((c.outline showError).rows depth).map Prod.snd).filter (·.kind = kind)

theorem filter_frameRows (kind : Kind) (depth : Nat) (frames : List String) :
    ((Outline.frameRows depth frames).map Prod.snd).filter (·.kind = kind) =
      if kind = .frame then frames.map .frame else [] := by
  induction frames with
  | nil => cases kind <;> rfl
  | cons text rest ih =>
      rw [Outline.frameRows, List.map_cons, List.map_cons, List.filter_cons, ← Outline.frameRows,
        ih]
      cases kind <;> simp

section RowsOf

variable (showError : ε → String) (kind : Kind) (depth : Nat) (a b c : Cause ε) (t : Trace)

theorem rowsOf_andThen : (Cause.andThen a b).rowsOf showError kind depth =
    (if kind = .join then [.join .andThen] else []) ++
      (a.rowsOf showError kind (depth + 1) ++ b.rowsOf showError kind (depth + 1)) := by
  cases kind <;> simp [rowsOf, outline, Outline.rows, Outline.frameRows]

theorem rowsOf_both : (Cause.both a b).rowsOf showError kind depth =
    (if kind = .join then [.join .both] else []) ++
      (a.rowsOf showError kind (depth + 1) ++ b.rowsOf showError kind (depth + 1)) := by
  cases kind <;> simp [rowsOf, outline, Outline.rows, Outline.frameRows]

theorem rowsOf_traced : (Cause.traced c t).rowsOf showError kind depth =
    c.rowsOf showError kind depth ++
      (if kind = .frame then t.frames.reverse.map fun frame => .frame frame.display else []) := by
  rw [rowsOf, outline, Outline.rows_annotate, List.map_append, List.filter_append, filter_frameRows,
    List.map_map]
  rfl

end RowsOf

/-- The rows of leaves are those of the leaves, in their order. -/
theorem rowsOf_leaf (showError : ε → String) (c : Cause ε) (depth : Nat) :
    c.rowsOf showError .leaf depth = c.leaves.map fun leaf => .leaf (shown showError leaf) := by
  induction c generalizing depth with
  | fail e => rfl
  | die d => rfl
  | interrupt id => rfl
  | andThen a b iha ihb => rw [rowsOf_andThen, iha, ihb, leaves, List.map_append]; rfl
  | both a b iha ihb => rw [rowsOf_both, iha, ihb, leaves, List.map_append]; rfl
  | traced c t ih =>
      rw [rowsOf_traced, ih]
      exact List.append_nil _

theorem length_rowsOf_join (showError : ε → String) (c : Cause ε) (depth : Nat) :
    (c.rowsOf showError .join depth).length = c.joins := by
  induction c generalizing depth with
  | fail e => rfl
  | die d => rfl
  | interrupt id => rfl
  | andThen a b iha ihb =>
      rw [rowsOf_andThen, if_pos rfl, joins, ← iha (depth + 1), ← ihb (depth + 1)]
      simp
  | both a b iha ihb =>
      rw [rowsOf_both, if_pos rfl, joins, ← iha (depth + 1), ← ihb (depth + 1)]
      simp
  | traced c t ih =>
      rw [rowsOf_traced, joins, ← ih depth]
      simp

theorem length_rowsOf_frame (showError : ε → String) (c : Cause ε) (depth : Nat) :
    (c.rowsOf showError .frame depth).length = (c.traces.map Trace.size).sum := by
  induction c generalizing depth with
  | fail e => rfl
  | die d => rfl
  | interrupt id => rfl
  | andThen a b iha ihb =>
      rw [rowsOf_andThen, traces, List.map_append, List.sum_append, ← iha (depth + 1),
        ← ihb (depth + 1)]
      simp
  | both a b iha ihb =>
      rw [rowsOf_both, traces, List.map_append, List.sum_append, ← iha (depth + 1),
        ← ihb (depth + 1)]
      simp
  | traced c t ih =>
      rw [rowsOf_traced, if_pos rfl, traces, List.map_cons, List.sum_cons, ← ih depth]
      simp [Trace.size, Nat.add_comm]

/-- Every row tells of one thing. -/
theorem length_eq_of_kinds (rows : List Row) :
    rows.length = (rows.filter (·.kind = .leaf)).length + (rows.filter (·.kind = .join)).length +
      (rows.filter (·.kind = .frame)).length := by
  induction rows with
  | nil => rfl
  | cons row rest ih =>
      cases row with
      | leaf l =>
          simp only [List.filter_cons, Row.kind_leaf]
          simp
          omega
      | join j =>
          simp only [List.filter_cons, Row.kind_join]
          simp
          omega
      | frame text =>
          simp only [List.filter_cons, Row.kind_frame]
          simp
          omega

/-- The lines of a kind are the words of the rows of this kind. -/
theorem filter_lines {showError : ε → String} {c : Cause ε} (h : c.SingleLine showError)
    (kind : Kind) :
    ((Text.lines (c.pretty showError)).map Text.unindented).filter (kind? · = some kind) =
      (c.rowsOf showError kind 0).map (·.words.toList) := by
  rw [lines_pretty h, rowsOf]
  simp only [List.filter_map, List.map_map, Function.comp_def, Row.unindented_line, kind?_words,
    Option.some.injEq]

/-! ## The main statement -/

/-- The rendering shows the outline and nothing more. -/
theorem pretty_eq_of_outline_eq {showError : ε → String} {c c' : Cause ε}
    (h : c.outline showError = c'.outline showError) :
    c.pretty showError = c'.pretty showError := by
  apply String.toList_injective
  rw [pretty, pretty, toList_prettyAt, toList_prettyAt, h]

/-- A rendering can be decoded. If no text in two causes has a line break, their renderings are
equal exactly if they have the same outline: the same tree of joins, with leaves that show alike
and with the same frames shown at every node. Then they are also alike without their traces. The
lines of a rendering are one for each leaf, in the order of the leaves, one for each join and one
for each frame of a trace. -/
theorem decodable {showError : ε → String} {c : Cause ε} (hc : c.SingleLine showError) :
    (∀ c' : Cause ε, c'.SingleLine showError →
      (c.pretty showError = c'.pretty showError ↔
        c.outline showError = c'.outline showError) ∧
      (c.pretty showError = c'.pretty showError →
        c.stripTraces.outline showError = c'.stripTraces.outline showError)) ∧
    ((Text.lines (c.pretty showError)).map Text.unindented).filter (kind? · = some .leaf) =
      (c.leaves.map fun leaf => (Row.leaf (shown showError leaf)).words.toList) ∧
    (((Text.lines (c.pretty showError)).map Text.unindented).filter
      (kind? · = some .join)).length = c.joins ∧
    (((Text.lines (c.pretty showError)).map Text.unindented).filter
      (kind? · = some .frame)).length = (c.traces.map Trace.size).sum ∧
    (Text.lines (c.pretty showError)).length =
      c.leaves.length + c.joins + (c.traces.map Trace.size).sum := by
  refine ⟨?_, ?_, ?_, ?_, ?_⟩
  · intro c' hc'
    constructor
    · exact ⟨outline_eq_of_pretty_eq hc hc', pretty_eq_of_outline_eq⟩
    · intro h
      rw [outline_stripTraces, outline_stripTraces, outline_eq_of_pretty_eq hc hc' h]
  · rw [filter_lines hc, rowsOf_leaf, List.map_map]
    rfl
  · rw [filter_lines hc, List.length_map, length_rowsOf_join]
  · rw [filter_lines hc, List.length_map, length_rowsOf_frame]
  · calc (Text.lines (c.pretty showError)).length
        = (((c.outline showError).rows 0).map Prod.snd).length := by
          rw [lines_pretty hc, List.length_map, List.length_map]
      _ = (c.rowsOf showError .leaf 0).length + (c.rowsOf showError .join 0).length +
          (c.rowsOf showError .frame 0).length := length_eq_of_kinds _
      _ = c.leaves.length + c.joins + (c.traces.map Trace.size).sum := by
          rw [rowsOf_leaf, List.length_map, length_rowsOf_join, length_rowsOf_frame]

/-- A failure under one trace of two frames, and an interruption after it. -/
def tracedOnce : Cause String :=
  .andThen (.traced (.fail "read") ⟨[.label "load", .label "open"]⟩) (.interrupt ⟨3, .zero⟩)

/-- The same with the two frames in two traces, one around the other. -/
def tracedTwice : Cause String :=
  .andThen (.traced (.traced (.fail "read") ⟨[.label "open"]⟩) ⟨[.label "load"]⟩)
    (.interrupt ⟨3, .zero⟩)

/-- Two causes that are not equal and show alike: which trace a frame stands in is not shown. -/
theorem decodable_traced :
    tracedOnce.SingleLine id ∧ tracedTwice.SingleLine id ∧ tracedOnce ≠ tracedTwice ∧
    tracedOnce.pretty id =
      "Then\n  Fail: read\n      at open\n      at load\n  Interrupted by F3\n" ∧
    tracedOnce.pretty id = tracedTwice.pretty id ∧
    tracedOnce.outline id = tracedTwice.outline id ∧
    tracedOnce.stripTraces.outline id = tracedTwice.stripTraces.outline id ∧
    (Text.lines (tracedOnce.pretty id)).length = 5 := by
  have honce : tracedOnce.SingleLine id :=
    ⟨⟨show '\n' ∉ "read".toList by decide, by simp [Frame.display]⟩, trivial⟩
  have htwice : tracedTwice.SingleLine id :=
    ⟨⟨⟨show '\n' ∉ "read".toList by decide, by simp [Frame.display]⟩, by simp [Frame.display]⟩,
      trivial⟩
  have hpretty : tracedOnce.pretty id = tracedTwice.pretty id := by decide +kernel
  obtain ⟨hdecode, -, -, -, hlength⟩ := decodable honce
  obtain ⟨houtline, hbare⟩ := hdecode tracedTwice htwice
  exact ⟨honce, htwice, by decide, by decide +kernel, hpretty, houtline.mp hpretty, hbare hpretty,
    hlength⟩

end Fibers.Cause
