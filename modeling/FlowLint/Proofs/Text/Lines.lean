import FlowLint.Proofs.Text.Layout
import Mathlib.Algebra.GroupWithZero.Nat

/-!
Rows written one after the other, each ended by a line feed, and the lines that such a text has. A
row that holds no line feed of its own is read back as it was; one that does takes a line more for
each.
-/

namespace FlowLint.Text

/-- The rows one after the other, each ended by a line feed. -/
def ended (rows : List (List Char)) : List Char := rows.flatMap (· ++ ['\n'])

@[simp] theorem ended_nil : ended [] = [] := rfl

@[simp] theorem ended_cons (row : List Char) (rows : List (List Char)) :
    ended (row :: rows) = row ++ '\n' :: ended rows := by
  rw [ended, List.flatMap_cons, List.append_assoc]
  rfl

/-- Only a line feed starts a line: any other character belongs to the line after it, if there is
    one. -/
theorem length_lines_cons {c : Char} (plain : c ≠ '\n') {cs : List Char} (more : cs ≠ []) :
    (lines (c :: cs)).length = (lines cs).length := by
  by_cases ends : EndsLine c cs
  · rcases ends with rfl | ⟨rfl, follows⟩
    · exact absurd rfl plain
    · obtain ⟨u, rfl⟩ := List.head?_eq_some_iff.1 follows
      rw [lines_return]
  · have some := List.length_pos_iff.2 (lines_ne_nil more)
    rw [lines_cons ends, List.length_cons, List.length_tail]
    omega

/-- Up to a line feed there are as many lines as there are line feeds. -/
theorem length_lines_append (row rest : List Char) :
    (lines (row ++ '\n' :: rest)).length = row.count '\n' + 1 + (lines rest).length := by
  induction row with
  | nil =>
    rw [List.nil_append, lines_feed, List.length_cons, List.count_nil]
    omega
  | cons c row ih =>
    rw [List.cons_append, List.count_cons]
    by_cases feed : c = '\n'
    · subst feed
      rw [lines_feed, List.length_cons, ih, if_pos (beq_self_eq_true _)]
      omega
    · rw [length_lines_cons feed (by simp), ih, if_neg (by simpa using feed)]

/-- Each row takes a line, and one more for each line feed in it. -/
theorem length_lines_ended (rows : List (List Char)) :
    (lines (ended rows)).length = rows.length + (rows.map (List.count '\n')).sum := by
  induction rows with
  | nil => rfl
  | cons row rows ih =>
    rw [ended_cons, length_lines_append, ih, List.length_cons, List.map_cons, List.sum_cons]
    omega

/-- A row without a line feed is a line, if no carriage return stands before its end. -/
theorem lines_append {row : List Char} (plain : '\n' ∉ row) (closed : row.getLast? ≠ some '\r')
    (rest : List Char) : lines (row ++ '\n' :: rest) = row :: lines rest := by
  induction row with
  | nil => rw [List.nil_append, lines_feed]
  | cons c row ih =>
    obtain ⟨hc, hrow⟩ := List.ne_and_not_mem_of_not_mem_cons plain
    have ends : ¬ EndsLine c (row ++ '\n' :: rest) := by
      rintro (rfl | ⟨rfl, follows⟩)
      · exact hc rfl
      · cases row with
        | nil => exact closed rfl
        | cons d row =>
          rw [List.cons_append, List.head?_cons] at follows
          exact hrow (Option.some.inj follows ▸ List.mem_cons_self)
    have later : row.getLast? ≠ some '\r' := by
      intro last
      refine closed ?_
      rw [List.getLast?_cons, last]
      rfl
    rw [List.cons_append, lines_cons ends, ih hrow later, List.headD_cons, List.tail_cons]

/-- Rows without line feeds are the lines of the text that they make up. -/
theorem lines_ended {rows : List (List Char)} (plain : ∀ row ∈ rows, '\n' ∉ row)
    (closed : ∀ row ∈ rows, row.getLast? ≠ some '\r') : lines (ended rows) = rows := by
  induction rows with
  | nil => rfl
  | cons row rows ih =>
    obtain ⟨first, others⟩ := List.forall_mem_cons.1 plain
    obtain ⟨firstClosed, othersClosed⟩ := List.forall_mem_cons.1 closed
    rw [ended_cons, lines_append first firstClosed, ih others othersClosed]

end FlowLint.Text
