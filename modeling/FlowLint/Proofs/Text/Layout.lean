import FlowLint.Text.Layout

/-!
Positions and lines say the same of a text. A character that is no part of a line's end stands, in
the line on which its first byte falls, at the column on which that byte falls; so the position of
such a character is inside the text.
-/

namespace FlowLint.Text

/-- The text has a character at that line and column. -/
structure Inside (text : List Char) (line column : Nat) : Prop where
  line_pos   : 1 ≤ line
  line_le    : line ≤ (lines text).length
  column_pos : 1 ≤ column
  column_le  : column ≤ (lineText text line).length

/-! ### Lengths -/

theorem byteLength_pos (c : Char) (cs : List Char) : 0 < byteLength (c :: cs) := by
  have pos := c.utf8Size_pos
  rw [byteLength_cons]
  omega

theorem byteLength_le_of_suffix {cs ds : List Char} (h : cs <:+ ds) :
    byteLength cs ≤ byteLength ds := by
  obtain ⟨es, rfl⟩ := h
  rw [byteLength_append]
  omega

/-! ### Positions -/

theorem charsBefore_zero (cs : List Char) : charsBefore cs 0 = [] := by cases cs <;> rfl

/-- A character that starts before byte `n` is passed, though the byte may be one of its own. -/
theorem charsBefore_cons {n : Nat} (h : 0 < n) (c : Char) (cs : List Char) :
    charsBefore (c :: cs) n = c :: charsBefore cs (n - c.utf8Size) := by
  obtain ⟨n, rfl⟩ := Nat.exists_eq_add_one_of_ne_zero (Nat.ne_of_gt h)
  rfl

/-- Beyond the end of the first part of a text the second part is counted from its start. -/
theorem charsBefore_append_add (before after : List Char) (k : Nat) :
    charsBefore (before ++ after) (byteLength before + k) = before ++ charsBefore after k := by
  induction before with
  | nil => rw [byteLength_nil, Nat.zero_add, List.nil_append, List.nil_append]
  | cons c before ih =>
    have pos := c.utf8Size_pos
    rw [byteLength_cons, Nat.add_assoc, List.cons_append, charsBefore_cons (by omega),
      Nat.add_sub_cancel_left, ih, List.cons_append]

/-- Before the end of the first part of a text stands that part. -/
theorem charsBefore_append (before after : List Char) :
    charsBefore (before ++ after) (byteLength before) = before := by
  have all := charsBefore_append_add before after 0
  rwa [Nat.add_zero, charsBefore_zero, List.append_nil] at all

theorem position_append (before after : List Char) :
    position (before ++ after) (byteLength before) = before.foldl Position.next .start := by
  rw [position, charsBefore_append]

/-- From one line further down a run of characters leads one line further down. -/
theorem foldl_next_line (cs : List Char) (l k : Nat) :
    cs.foldl Position.next ⟨l + 1, k⟩ =
      ⟨(cs.foldl Position.next ⟨l, k⟩).line + 1, (cs.foldl Position.next ⟨l, k⟩).column⟩ := by
  induction cs generalizing l k with
  | nil => rfl
  | cons c cs ih =>
    rw [List.foldl_cons, List.foldl_cons, Position.next, Position.next]
    split
    · exact ih (l + 1) 1
    · exact ih l (k + 1)

/-- From one column further on a run of characters leads one column further on, if it stays in the
    line, and else to the same place. -/
theorem foldl_next_column (cs : List Char) (l k : Nat) :
    l ≤ (cs.foldl Position.next ⟨l, k⟩).line ∧
      cs.foldl Position.next ⟨l, k + 1⟩ =
        if (cs.foldl Position.next ⟨l, k⟩).line = l
        then ⟨l, (cs.foldl Position.next ⟨l, k⟩).column + 1⟩
        else cs.foldl Position.next ⟨l, k⟩ := by
  induction cs generalizing k with
  | nil => simp
  | cons c cs ih =>
    rw [List.foldl_cons, List.foldl_cons, Position.next, Position.next]
    split
    · -- after a line feed the column no longer counts
      have below := (ih 1).1
      rw [foldl_next_line]
      exact ⟨Nat.le_succ_of_le below, (if_neg (Nat.ne_of_gt (Nat.lt_succ_of_le below))).symm⟩
    · exact ih (k + 1)

theorem length_charsBefore_le (text : List Char) (n : Nat) :
    (charsBefore text n).length ≤ byteLength text := by
  induction text generalizing n with
  | nil => cases n <;> exact Nat.le_refl 0
  | cons c cs ih =>
    cases n with
    | zero => exact Nat.zero_le _
    | succ n =>
      have pos := c.utf8Size_pos
      have rest := ih (n + 1 - c.utf8Size)
      rw [charsBefore, List.length_cons, byteLength_cons]
      omega

/-- A run of characters leads at most as far down, and at most as far to the right, as it is
    long. -/
theorem foldl_next_le (cs : List Char) (p : Position) :
    (cs.foldl Position.next p).line ≤ p.line + cs.length ∧
      (cs.foldl Position.next p).column ≤ max p.column 1 + cs.length := by
  induction cs generalizing p with
  | nil => exact ⟨Nat.le_refl _, Nat.le_max_left ..⟩
  | cons c cs ih =>
    have rest := ih (p.next c)
    rw [List.foldl_cons, List.length_cons]
    by_cases feed : c = '\n'
    · rw [Position.next, if_pos feed] at *
      dsimp only at *
      omega
    · rw [Position.next, if_neg feed] at *
      dsimp only at *
      omega

/-- No line and no column is higher than the count of bytes allows. -/
theorem position_le (text : List Char) (n : Nat) :
    (position text n).line ≤ byteLength text + 1 ∧
      (position text n).column ≤ byteLength text + 1 := by
  have length := length_charsBefore_le text n
  have far := foldl_next_le (charsBefore text n) .start
  rw [position]
  rw [Position.start] at *
  dsimp only at far
  omega

/-- In the order of reading, line by line. -/
def Position.Before (p q : Position) : Prop :=
  p.line < q.line ∨ p.line = q.line ∧ p.column < q.column

theorem Position.Before.trans {p q r : Position} (h : p.Before q) (h' : q.Before r) :
    p.Before r := by
  rw [Before] at *
  omega

theorem Position.Before.ne {p q : Position} (h : p.Before q) : p ≠ q := by
  rintro rfl
  rw [Before] at h
  omega

theorem Position.before_next (p : Position) (c : Char) : p.Before (p.next c) := by
  rw [Position.next, Position.Before]
  split <;> simp

/-- Any run of characters leads on. -/
theorem before_foldl_next (p : Position) (c : Char) (cs : List Char) :
    p.Before ((c :: cs).foldl Position.next p) := by
  induction cs generalizing p c with
  | nil => exact p.before_next c
  | cons d cs ih => exact (p.before_next c).trans (ih (p.next c) d)

/-- Further on in a text the position is a later one. -/
theorem position_before (before : List Char) {between : List Char} (some : between ≠ [])
    (after : List Char) :
    (position (before ++ (between ++ after)) (byteLength before)).Before
      (position (before ++ (between ++ after)) (byteLength (before ++ between))) := by
  obtain ⟨c, cs, rfl⟩ := List.exists_cons_of_ne_nil some
  rw [position_append, ← List.append_assoc, position_append, List.foldl_append]
  exact before_foldl_next _ c cs

/-! ### Lines -/

/-- The character starts a line's end. -/
def EndsLine (c : Char) (after : List Char) : Prop :=
  c = '\n' ∨ c = '\r' ∧ after.head? = some '\n'

theorem lines_feed (cs : List Char) : lines ('\n' :: cs) = [] :: lines cs := by rw [lines]

theorem lines_return (cs : List Char) : lines ('\r' :: '\n' :: cs) = lines ('\n' :: cs) := by
  rw [lines_feed, lines]

/-- Any other character stands at the start of the first line. -/
theorem lines_cons {c : Char} {cs : List Char} (h : ¬ EndsLine c cs) :
    lines (c :: cs) = (c :: (lines cs).headD []) :: (lines cs).tail := by
  rw [EndsLine, not_or, not_and] at h
  rw [lines]
  · cases lines cs <;> rfl
  · exact h.1
  · rintro u rfl rfl
    exact h.2 rfl rfl

theorem lines_ne_nil {cs : List Char} (h : cs ≠ []) : lines cs ≠ [] := by
  obtain ⟨c, cs, rfl⟩ := List.exists_cons_of_ne_nil h
  by_cases e : EndsLine c cs
  · rcases e with rfl | ⟨rfl, follows⟩
    · simp [lines_feed]
    · obtain ⟨u, rfl⟩ := List.head?_eq_some_iff.1 follows
      simp [lines_return, lines_feed]
  · simp [lines_cons e]

/-! ### Positions and lines -/

/-- Where the characters before lead to, the text has the character. -/
def Stands (before text : List Char) (c : Char) : Prop :=
  ∃ (l k : Nat) (row : List Char), before.foldl Position.next ⟨1, 1⟩ = ⟨l + 1, k + 1⟩ ∧
    (lines text)[l]? = some row ∧ row[k]? = some c

namespace Stands

variable {c x : Char} {before text : List Char}

theorem first (h : ¬ EndsLine c text) : Stands [] (c :: text) c :=
  ⟨0, 0, _, rfl, by rw [lines_cons h, List.getElem?_cons_zero], rfl⟩

/-- A line feed in front moves all one line down. -/
theorem feed (h : Stands before text c) : Stands ('\n' :: before) ('\n' :: text) c := by
  obtain ⟨l, k, row, there, found, char⟩ := h
  have down := foldl_next_line before 1 1
  rw [there] at down
  exact ⟨l + 1, k, row, down, by rw [lines_feed]; exact found, char⟩

/-- A carriage return before a line feed moves nothing: the rest of its line is empty, so the
    character is on a later one. -/
theorem ret (h : Stands before ('\n' :: text) c) :
    Stands ('\r' :: before) ('\r' :: '\n' :: text) c := by
  obtain ⟨l, k, row, there, found, char⟩ := h
  have later : l ≠ 0 := by
    rintro rfl
    rw [lines_feed] at found
    cases found
    cases char
  have on := (foldl_next_column before 1 1).2
  rw [there, if_neg (by simpa using later)] at on
  exact ⟨l, k, row, on, by rw [lines_return]; exact found, char⟩

/-- Any other character in front moves what is left of its line one column on. -/
theorem cons (h : Stands before text c) (ends : ¬ EndsLine x text) :
    Stands (x :: before) (x :: text) c := by
  obtain ⟨l, k, row, there, found, char⟩ := h
  have on := (foldl_next_column before 1 1).2
  have noFeed : x ≠ '\n' := fun e => ends (.inl e)
  rw [there] at on
  rw [Stands, List.foldl_cons, Position.next, if_neg noFeed, lines_cons ends]
  cases l with
  | zero =>
    have start : (lines text).headD [] = row := by
      rw [List.headD_eq_head?_getD, List.head?_eq_getElem?, found, Option.getD_some]
    exact ⟨0, k + 1, x :: row, on, by rw [start, List.getElem?_cons_zero], char⟩
  | succ l =>
    refine ⟨l + 1, k, row, on, ?_, char⟩
    rw [List.getElem?_cons_succ, List.getElem?_tail, found]

end Stands

/-- After a run of characters the next one stands where the run leads to. -/
theorem stands_append {c : Char} {after : List Char} (h : ¬ EndsLine c after) (before : List Char) :
    Stands before (before ++ c :: after) c := by
  induction before with
  | nil => exact .first h
  | cons x before ih =>
    rw [List.cons_append]
    by_cases ends : EndsLine x (before ++ c :: after)
    · rcases ends with rfl | ⟨rfl, follows⟩
      · exact ih.feed
      · obtain ⟨u, hu⟩ := List.head?_eq_some_iff.1 follows
        rw [hu] at ih ⊢
        exact ih.ret
    · exact ih.cons ends

/-- The position of a character leads to it, unless it is part of a line's end. -/
theorem lineText_position {c : Char} {after : List Char} (h : ¬ EndsLine c after)
    (before : List Char) {p : Position}
    (hp : p = position (before ++ c :: after) (byteLength before)) :
    Inside (before ++ c :: after) p.line p.column ∧
      (lineText (before ++ c :: after) p.line)[p.column - 1]? = some c := by
  obtain ⟨l, k, row, there, found, char⟩ := stands_append h before
  rw [position_append, Position.start, there] at hp
  subst hp
  have text : lineText (before ++ c :: after) (l + 1) = row := by
    rw [lineText, Nat.add_sub_cancel, found, Option.getD_some]
  obtain ⟨inLines, -⟩ := List.getElem?_eq_some_iff.1 found
  obtain ⟨inLine, -⟩ := List.getElem?_eq_some_iff.1 char
  rw [text]
  exact ⟨⟨Nat.le_add_left .., inLines, Nat.le_add_left .., text ▸ inLine⟩, char⟩

end FlowLint.Text
