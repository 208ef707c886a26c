import Fibers.Cause.Render
import Fibers.Proofs.Texts.Lines
import Fibers.Proofs.Texts.Numerals

set_option autoImplicit false

/-! # The outline of a cause

What a rendering shows of a cause is its `outline`: the tree of its joins and leaves, where a leaf
is what is shown of it, with the frames of all traces at a node collected there, the innermost
trace first and of each trace the newest frame first.

A rendering is a list of rows, each with a depth, and every row is one line (`Row.line`): blanks,
two for each level and four more in front of a frame, and the words of the row. The words never
start with a blank, so a line gives back its depth and its row (`line_injective`). `toList_prettyAt`
says that the rendering is the lines of the outline's rows.
-/

namespace Fibers

namespace Cause

/-- What is shown of a leaf. -/
inductive Shown where
  | fail (text : String)
  | die (text : String)
  | interrupt (text : String)
  deriving DecidableEq, Repr

/-- The two ways to join causes. -/
inductive Join where
  | andThen
  | both
  deriving DecidableEq, Repr

/-- What a line of a rendering tells: a leaf, a join, or a frame of the part above it. -/
inductive Row where
  | leaf (leaf : Shown)
  | join (join : Join)
  | frame (text : String)
  deriving DecidableEq, Repr

/-- The tree that a rendering shows. Every node has its frames, in the order of their lines. -/
inductive Outline where
  | leaf (leaf : Shown) (frames : List String)
  | join (join : Join) (left right : Outline) (frames : List String)
  deriving DecidableEq, Repr

namespace Outline

/-- The outline with more frames at its top, behind those that are there. -/
def annotate (more : List String) : Outline → Outline
  | .leaf l frames => .leaf l (frames ++ more)
  | .join j a b frames => .join j a b (frames ++ more)

/-- Frames as rows. -/
def frameRows (depth : Nat) (frames : List String) : List (Nat × Row) :=
  frames.map fun text => (depth, .frame text)

/-- The rows of an outline with their depths: the node, its parts, and its frames. -/
def rows (depth : Nat) : Outline → List (Nat × Row)
  | .leaf l frames => (depth, .leaf l) :: frameRows depth frames
  | .join j a b frames =>
      (depth, .join j) :: (a.rows (depth + 1) ++ (b.rows (depth + 1) ++ frameRows depth frames))

theorem rows_annotate (depth : Nat) (more : List String) (o : Outline) :
    (o.annotate more).rows depth = o.rows depth ++ frameRows depth more := by
  cases o with
  | leaf l frames => simp [annotate, rows, frameRows]
  | join j a b frames => simp [annotate, rows, frameRows]

end Outline

variable {ε : Type}

/-- What is shown of each leaf. -/
def shown (showError : ε → String) : Leaf ε → Shown
  | .fail e => .fail (showError e)
  | .die d => .die d.message
  | .interrupt id => .interrupt id.display

/-- The outline of a cause. -/
def outline (showError : ε → String) : Cause ε → Outline
  | .fail e => .leaf (shown showError (.fail e)) []
  | .die d => .leaf (shown showError (.die d)) []
  | .interrupt id => .leaf (shown showError (.interrupt id)) []
  | .andThen a b => .join .andThen (a.outline showError) (b.outline showError) []
  | .both a b => .join .both (a.outline showError) (b.outline showError) []
  | .traced c t => (c.outline showError).annotate (t.frames.reverse.map Frame.display)

/-- No text in the cause has a line break: no error, no message of a defect, and no frame. -/
def SingleLine (showError : ε → String) : Cause ε → Prop
  | .fail e => '\n' ∉ (showError e).toList
  | .die d => '\n' ∉ d.message.toList
  | .interrupt _ => True
  | .andThen a b => a.SingleLine showError ∧ b.SingleLine showError
  | .both a b => a.SingleLine showError ∧ b.SingleLine showError
  | .traced c t => c.SingleLine showError ∧ ∀ frame ∈ t.frames, '\n' ∉ frame.display.toList

/-! ## Lines -/

namespace Row

/-- The words of a row. -/
def words : Row → String
  | .leaf (.fail text) => "Fail: " ++ text
  | .leaf (.die text) => "Die: " ++ text
  | .leaf (.interrupt text) => "Interrupted by " ++ text
  | .join .andThen => "Then"
  | .join .both => "Both"
  | .frame text => "at " ++ text

/-- The blanks in front of a row. -/
def indent (depth : Nat) : Row → Nat
  | .frame _ => 2 * depth + 4
  | _ => 2 * depth

/-- The line of a row at a depth. -/
def line (row : Nat × Row) : List Char :=
  List.replicate (row.2.indent row.1) ' ' ++ row.2.words.toList

theorem head_words (row : Row) : row.words.toList.head? ≠ some ' ' := by
  rcases row with (_ | _ | _) | (_ | _) | _ <;> simp [words]

/-- The first letter of the words tells the kind of the row, and what stands behind the first words
is the text. -/
theorem words_injective {row row' : Row} (h : row.words.toList = row'.words.toList) :
    row = row' := by
  rcases row with (_ | _ | _) | (_ | _) | _ <;> rcases row' with (_ | _ | _) | (_ | _) | _ <;>
    simp_all [words, String.toList_inj]

theorem unindented_line (row : Nat × Row) : Text.unindented (line row) = row.2.words.toList :=
  Text.unindented_replicate_append _ row.2.head_words

theorem line_injective {row row' : Nat × Row} (h : line row = line row') : row = row' := by
  obtain ⟨depth, row⟩ := row
  obtain ⟨depth', row'⟩ := row'
  have hwords : row.words.toList = row'.words.toList := by
    have hunindented := congrArg Text.unindented h
    rwa [unindented_line, unindented_line] at hunindented
  obtain rfl := words_injective hwords
  have hindent : row.indent depth = row.indent depth' := by
    have hlength := congrArg List.length h
    simpa [line] using hlength
  have hdepth : depth = depth' := by
    cases row <;> simp only [indent] at hindent <;> omega
  rw [hdepth]

end Row

theorem toList_pad (depth : Nat) : (pad depth).toList = List.replicate (2 * depth) ' ' := by
  induction depth with
  | zero => rfl
  | succ depth ih =>
      rw [pad, String.toList_append, ih]
      rfl

/-- The line of a leaf with its line break. -/
theorem toList_leaf (depth : Nat) (leaf : Shown) {mark text : String}
    (h : (Row.leaf leaf).words = mark ++ text) :
    (pad depth ++ mark ++ text ++ "\n").toList = Row.line (depth, .leaf leaf) ++ ['\n'] := by
  rw [show pad depth ++ mark ++ text = pad depth ++ (mark ++ text) from String.append_assoc, ← h,
    String.toList_append, String.toList_append, toList_pad]
  rfl

/-- The line of a join with its line break. -/
theorem toList_join (depth : Nat) (join : Join) {word : String}
    (h : word.toList = (Row.join join).words.toList ++ ['\n']) :
    (pad depth ++ word).toList = Row.line (depth, .join join) ++ ['\n'] := by
  rw [String.toList_append, toList_pad, h, ← List.append_assoc]
  rfl

/-- The line of a frame: the four blanks in front of it go with the indentation. -/
theorem toList_frame (depth : Nat) (text : String) :
    (pad depth ++ "    at " ++ text ++ "\n").toList =
      Row.line (depth, .frame text) ++ ['\n'] := by
  have hat : "    at ".toList = List.replicate 4 ' ' ++ "at ".toList := rfl
  rw [String.toList_append, String.toList_append, String.toList_append, toList_pad, hat, Row.line,
    Row.words, Row.indent, String.toList_append, ← List.replicate_append_replicate]
  simp only [List.append_assoc]
  rfl

/-- The lines of a trace are those of its frames, the newest first. -/
theorem toList_lines (depth : Nat) (t : Trace) :
    (t.lines (pad depth)).toList =
      (Outline.frameRows depth (t.frames.reverse.map Frame.display)).flatMap
        (fun row => Row.line row ++ ['\n']) := by
  rw [Trace.lines, String.toList_join, Outline.frameRows, List.flatMap_map, List.flatMap_map,
    List.flatMap_map]
  congr 1
  funext frame
  exact toList_frame depth frame.display

/-- A rendering is the lines of the rows of the outline. -/
theorem toList_prettyAt (showError : ε → String) (c : Cause ε) (depth : Nat) :
    (prettyAt showError depth c).toList =
      ((c.outline showError).rows depth).flatMap (fun row => Row.line row ++ ['\n']) := by
  induction c generalizing depth with
  | fail e =>
      exact (toList_leaf depth (.fail (showError e)) rfl).trans (List.flatMap_singleton _ _).symm
  | die d => exact (toList_leaf depth (.die d.message) rfl).trans (List.flatMap_singleton _ _).symm
  | interrupt id =>
      exact (toList_leaf depth (.interrupt id.display) rfl).trans (List.flatMap_singleton _ _).symm
  | andThen a b iha ihb =>
      rw [prettyAt, String.toList_append, String.toList_append, toList_join depth .andThen rfl, iha,
        ihb, outline, Outline.rows, List.flatMap_cons, List.flatMap_append, List.flatMap_append,
        List.append_assoc]
      simp [Outline.frameRows]
  | both a b iha ihb =>
      rw [prettyAt, String.toList_append, String.toList_append, toList_join depth .both rfl, iha,
        ihb, outline, Outline.rows, List.flatMap_cons, List.flatMap_append, List.flatMap_append,
        List.append_assoc]
      simp [Outline.frameRows]
  | traced c t ih =>
      rw [prettyAt, String.toList_append, ih, toList_lines, outline, Outline.rows_annotate,
        List.flatMap_append]

/-! ## Line breaks -/

/-- The text of an id is a letter with a dash or digits behind it. -/
theorem newline_not_mem_display (id : FiberId) : '\n' ∉ id.display.toList := by
  unfold FiberId.display
  split
  · decide
  · intro hmem
    rw [String.toList_append] at hmem
    rcases List.mem_append.mp hmem with hmem | hmem
    · exact absurd hmem (by decide)
    · rw [Nat.toString_eq_ofList_toDigits, String.toList_ofList] at hmem
      have hdigit := Nat.isDigit_of_mem_toDigits (b := 10) (by decide) (by decide) hmem
      exact absurd hdigit (by decide)

theorem newline_not_mem_line {depth : Nat} {row : Row} (h : '\n' ∉ row.words.toList) :
    '\n' ∉ Row.line (depth, row) := by
  intro hmem
  rcases List.mem_append.mp hmem with hmem | hmem
  · exact absurd (List.eq_of_mem_replicate hmem) (by decide)
  · exact h hmem

theorem newline_not_mem_leaf {leaf : Shown} {depth : Nat}
    (h : '\n' ∉ (Row.leaf leaf).words.toList) :
    ∀ row ∈ (Outline.leaf leaf []).rows depth, '\n' ∉ Row.line row := by
  intro row hrow
  obtain rfl := List.mem_singleton.mp hrow
  exact newline_not_mem_line h

theorem newline_not_mem_join {join : Join} {a b : Outline} {depth : Nat}
    (ha : ∀ row ∈ a.rows (depth + 1), '\n' ∉ Row.line row)
    (hb : ∀ row ∈ b.rows (depth + 1), '\n' ∉ Row.line row) :
    ∀ row ∈ (Outline.join join a b []).rows depth, '\n' ∉ Row.line row := by
  intro row hrow
  rcases List.mem_cons.mp hrow with rfl | hrow
  · refine newline_not_mem_line ?_
    cases join <;> simp [Row.words]
  · rcases List.mem_append.mp hrow with hrow | hrow
    · exact ha row hrow
    · exact hb row (by simpa [Outline.frameRows] using hrow)

/-- The rows of a cause without line breaks in its texts are lines without line breaks. -/
theorem SingleLine.rows {showError : ε → String} {c : Cause ε} (h : c.SingleLine showError)
    (depth : Nat) : ∀ row ∈ (c.outline showError).rows depth, '\n' ∉ Row.line row := by
  induction c generalizing depth with
  | fail e =>
      have hline : '\n' ∉ (showError e).toList := h
      exact newline_not_mem_leaf (by simpa [Row.words, shown] using hline)
  | die d =>
      have hline : '\n' ∉ d.message.toList := h
      exact newline_not_mem_leaf (by simpa [Row.words, shown] using hline)
  | interrupt id =>
      have hline := newline_not_mem_display id
      exact newline_not_mem_leaf (by simpa [Row.words, shown] using hline)
  | andThen a b iha ihb => exact newline_not_mem_join (iha h.1 (depth + 1)) (ihb h.2 (depth + 1))
  | both a b iha ihb => exact newline_not_mem_join (iha h.1 (depth + 1)) (ihb h.2 (depth + 1))
  | traced c t ih =>
      intro row hrow
      rw [outline, Outline.rows_annotate] at hrow
      rcases List.mem_append.mp hrow with hrow | hrow
      · exact ih h.1 depth row hrow
      · obtain ⟨text, htext, rfl⟩ := List.mem_map.mp hrow
        obtain ⟨frame, hframe, rfl⟩ := List.mem_map.mp htext
        have hline := h.2 frame (List.mem_reverse.mp hframe)
        exact newline_not_mem_line (by simpa [Row.words] using hline)

/-- The lines of a rendering are the lines of the rows of the outline. -/
theorem lines_pretty {showError : ε → String} {c : Cause ε} (h : c.SingleLine showError) :
    Text.lines (c.pretty showError) = ((c.outline showError).rows 0).map Row.line := by
  refine Text.lines_of_toList ?_ ?_
  · intro line hline
    obtain ⟨row, hrow, rfl⟩ := List.mem_map.mp hline
    exact h.rows 0 row hrow
  · rw [pretty, toList_prettyAt, List.flatMap_map]

end Cause

end Fibers
