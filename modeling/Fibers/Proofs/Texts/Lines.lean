import Mathlib.Tactic.Common

set_option autoImplicit false

/-! # Lines of a text

`lines` cuts a text behind its line breaks, and `unindented` drops the blanks in front of a line.
A text that is put together of lines without line breaks, each with a break behind it, is cut into
these lines again (`lines_of_toList`), so it is put together in one way only.
-/

namespace Fibers.Text

/-- The lines of a text, each as its characters. A line ends with a line break, which does not
belong to it; what stands behind the last break is no line. -/
def lines (s : String) : List (List Char) := (s.toList.splitOn '\n').dropLast

/-- A line without the blanks it starts with. -/
def unindented (line : List Char) : List Char := line.dropWhile (· == ' ')

theorem splitOn_flatMap {rows : List (List Char)} (h : ∀ row ∈ rows, '\n' ∉ row) :
    (rows.flatMap (· ++ ['\n'])).splitOn '\n' = rows ++ [[]] := by
  induction rows with
  | nil => rfl
  | cons row rest ih =>
      have hrow : row.splitOn '\n' = [row] :=
        List.splitOn_eq_singleton (h row (List.mem_cons_self ..))
      have hrest := ih fun row hr => h row (List.mem_cons_of_mem _ hr)
      calc ((row :: rest).flatMap (· ++ ['\n'])).splitOn '\n'
          = (row ++ '\n' :: rest.flatMap (· ++ ['\n'])).splitOn '\n' := by
            rw [List.flatMap_cons, List.append_assoc]
            rfl
        _ = row.splitOn '\n' ++ (rest.flatMap (· ++ ['\n'])).splitOn '\n' :=
            List.splitOn_append_cons_self ..
        _ = row :: rest ++ [[]] := by rw [hrow, hrest]; rfl

/-- The lines that a text was put together of. -/
theorem lines_of_toList {s : String} {rows : List (List Char)} (h : ∀ row ∈ rows, '\n' ∉ row)
    (hs : s.toList = rows.flatMap (· ++ ['\n'])) : lines s = rows := by
  rw [lines, hs, splitOn_flatMap h, List.dropLast_concat]

/-- Blanks in front of a text that does not start with one are all the blanks it starts with. -/
theorem unindented_replicate_append (n : Nat) {words : List Char} (h : words.head? ≠ some ' ') :
    unindented (List.replicate n ' ' ++ words) = words := by
  have hblanks : ∀ c ∈ List.replicate n ' ', (c == ' ') = true := by
    intro c hc
    rw [List.eq_of_mem_replicate hc]
    rfl
  rw [unindented, List.dropWhile_append_of_pos hblanks]
  cases words with
  | nil => rfl
  | cons c rest =>
      have hc : (c == ' ') = false := by
        rw [beq_eq_false_iff_ne]
        intro heq
        exact h (congrArg some heq)
      rw [List.dropWhile_cons_of_neg (by simp [hc])]

end Fibers.Text
