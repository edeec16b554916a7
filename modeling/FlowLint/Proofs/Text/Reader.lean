import FlowLint.Proofs.Text.Layout
import Mathlib.Data.List.Induction

/-!
The position of a reader against the position of a byte. A reader counts bytes, and the byte that it
has just taken counts for the line after it if it is a line feed; so in ASCII, where a character is
a byte, a reader stands where the byte that it took last stands, unless that is a line feed.
-/

namespace FlowLint.Text

/-- A character is a byte. -/
def Ascii (cs : List Char) : Prop := ∀ c ∈ cs, c.toNat < 128

instance (cs : List Char) : Decidable (Ascii cs) :=
  List.decidableBAll (fun c : Char => c.toNat < 128) cs

theorem utf8Size_of_ascii {c : Char} (h : c.toNat < 128) : c.utf8Size = 1 := by
  rw [Char.utf8Size_eq_one_iff, UInt32.le_iff_toNat_le]
  exact Nat.le_of_lt_succ h

theorem Ascii.byteLength_eq {cs : List Char} (h : Ascii cs) : byteLength cs = cs.length := by
  induction cs with
  | nil => rfl
  | cons c cs ih =>
    obtain ⟨hc, hcs⟩ := List.forall_mem_cons.1 h
    rw [byteLength_cons, utf8Size_of_ascii hc, ih hcs, List.length_cons, Nat.add_comm]

/-! ### The start of the last line -/

theorem byteLength_reverse (cs : List Char) : byteLength cs.reverse = byteLength cs := by
  induction cs with
  | nil => rfl
  | cons c cs ih =>
    rw [List.reverse_cons, byteLength_append, ih, byteLength_cons, byteLength_cons, byteLength_nil]
    omega

theorem lineStart_le (cs : List Char) : lineStart cs ≤ byteLength cs := by
  rw [lineStart, ← byteLength_reverse cs]
  exact byteLength_le_of_suffix (List.dropWhile_suffix _)

theorem lineStart_feed (cs : List Char) : lineStart (cs ++ ['\n']) = byteLength (cs ++ ['\n']) := by
  rw [lineStart, List.reverse_concat, List.dropWhile_cons_of_neg (by simp),
    ← List.reverse_concat, byteLength_reverse]

theorem lineStart_concat {c : Char} (h : c ≠ '\n') (cs : List Char) :
    lineStart (cs ++ [c]) = lineStart cs := by
  rw [lineStart, List.reverse_concat, List.dropWhile_cons_of_pos (by simpa using h), lineStart]

/-! ### Positions -/

/-- The line feeds so far and the characters since the last one. -/
theorem foldl_next_eq {cs : List Char} (h : Ascii cs) : cs.foldl Position.next .start =
    ⟨1 + cs.count '\n', byteLength cs - lineStart cs + 1⟩ := by
  induction cs using List.reverseRecOn with
  | nil => rfl
  | append_singleton cs c ih =>
    obtain ⟨hcs, hc⟩ := List.forall_mem_append.1 h
    have size := utf8Size_of_ascii (hc c (List.mem_singleton_self c))
    have before := lineStart_le cs
    rw [List.foldl_append, ih hcs, List.foldl_cons, List.foldl_nil, Position.next,
      List.count_append]
    by_cases feed : c = '\n'
    · subst feed
      rw [if_pos rfl, lineStart_feed]
      simp
      omega
    · rw [if_neg feed, lineStart_concat feed, byteLength_append, byteLength_cons, size]
      simp [feed]
      omega

/-- A reader stands no further on than the count of bytes allows. -/
theorem readerPosition_le {text : List Char} {taken : Nat} (h : taken ≤ byteLength text) :
    (readerPosition text taken).line ≤ byteLength text + 1 ∧
      (readerPosition text taken).column ≤ byteLength text := by
  have length := length_charsBefore_le text taken
  have feeds := List.count_le_length (a := '\n') (l := charsBefore text taken)
  rw [readerPosition]
  dsimp only
  omega

/-- A reader that has just taken a byte stands where that byte does, or before the next line if it
    is a line feed. -/
theorem readerPosition_eq {before : List Char} {c : Char} (h : Ascii (before ++ [c]))
    (after : List Char) {p : Position}
    (hp : p = position (before ++ c :: after) (byteLength before)) :
    readerPosition (before ++ c :: after) (byteLength before + 1) =
      if c = '\n' then ⟨p.line + 1, 0⟩ else p := by
  obtain ⟨hb, hc⟩ := List.forall_mem_append.1 h
  have size := utf8Size_of_ascii (hc c (List.mem_singleton_self c))
  have taken : byteLength before + 1 = byteLength (before ++ [c]) := by
    rw [byteLength_append, byteLength_cons, size, byteLength_nil]
  have text : before ++ c :: after = (before ++ [c]) ++ after := by simp
  have start := lineStart_le before
  rw [position_append, foldl_next_eq hb] at hp
  rw [readerPosition, taken, text, charsBefore_append, hp, List.count_append]
  by_cases feed : c = '\n'
  · subst feed
    rw [if_pos rfl, lineStart_feed, Nat.sub_self]
    simp [Nat.add_assoc]
  · rw [if_neg feed, lineStart_concat feed, ← taken]
    simp [feed]
    omega

end FlowLint.Text
