import FlowLint.Proofs.Text.Layout

/-!
Bytes at which characters start. Their positions come in the order of the bytes, so each has a
position of its own; the other bytes of a character share the position of the next one, and all
bytes beyond the text that of its end. Read the other way, the position of a character leads back to
it in the lines of the text.
-/

namespace FlowLint.Text

/-- A character starts at the byte, or the text ends there. -/
def Boundary (text : List Char) (n : Nat) : Prop :=
  ∃ before after, text = before ++ after ∧ byteLength before = n

variable {text : List Char} {m n : Nat}

/-- Between two boundaries stand the characters from the first to the second. -/
theorem Boundary.exists_between (hm : Boundary text m) (hn : Boundary text n) (h : m < n) :
    ∃ before between after, text = before ++ (between ++ after) ∧ between ≠ [] ∧
      byteLength before = m ∧ byteLength (before ++ between) = n := by
  obtain ⟨before, rest, rfl, rfl⟩ := hm
  obtain ⟨longer, after, same, rfl⟩ := hn
  rcases List.append_eq_append_iff.1 same with ⟨between, rfl, rfl⟩ | ⟨between, rfl, rfl⟩
  · refine ⟨before, between, after, rfl, ?_, rfl, rfl⟩
    rintro rfl
    rw [List.append_nil] at h
    exact Nat.lt_irrefl _ h
  · rw [byteLength_append] at h
    omega

/-- A later boundary has a later position. -/
theorem Boundary.position_before (hm : Boundary text m) (hn : Boundary text n) (h : m < n) :
    (position text m).Before (position text n) := by
  obtain ⟨before, between, after, rfl, some, rfl, rfl⟩ := hm.exists_between hn h
  exact Text.position_before before some after

/-- Boundaries have different positions. -/
theorem Boundary.position_inj (hm : Boundary text m) (hn : Boundary text n)
    (same : position text m = position text n) : m = n := by
  rcases Nat.lt_trichotomy m n with h | h | h
  · exact absurd same (hm.position_before hn h).ne
  · exact h
  · exact absurd same.symm (hn.position_before hm h).ne

/-- From the end of the text on the position stays the same. -/
theorem position_of_le (h : byteLength text ≤ n) :
    position text n = position text (byteLength text) := by
  have beyond (k : Nat) : charsBefore text (byteLength text + k) = text := by
    have all := charsBefore_append_add text [] k
    rwa [List.append_nil, charsBefore, List.append_nil] at all
  obtain ⟨k, rfl⟩ := Nat.exists_eq_add_of_le h
  rw [position, position, beyond k, ← Nat.add_zero (byteLength text), beyond 0]

/-- A byte within a character has the position of the next character. -/
theorem position_within (before : List Char) (c : Char) (after : List Char)
    (h : byteLength before < n) (within : n ≤ byteLength before + c.utf8Size) :
    position (before ++ c :: after) n =
      position (before ++ c :: after) (byteLength before + c.utf8Size) := by
  have pos := c.utf8Size_pos
  have passed (k : Nat) (some : 0 < k) (le : k ≤ c.utf8Size) :
      charsBefore (before ++ c :: after) (byteLength before + k) = before ++ [c] := by
    rw [charsBefore_append_add, charsBefore_cons some, Nat.sub_eq_zero_of_le le, charsBefore_zero]
  obtain ⟨k, rfl⟩ := Nat.exists_eq_add_of_lt h
  rw [position, position, Nat.add_assoc, passed (k + 1) (Nat.succ_pos k) (by omega),
    passed c.utf8Size pos (Nat.le_refl _)]

/-- Positions and lines lay a text out alike. The positions of boundaries come in the order of the
    boundaries, and no two share one; other bytes have the position of the next character or of the
    end; and a character that is no part of a line's end stands at the line and column on which its
    first byte falls. -/
theorem layout_agrees (text : List Char) :
    (∀ m n, Boundary text m → Boundary text n → m < n →
      (position text m).Before (position text n)) ∧
    (∀ m n, Boundary text m → Boundary text n → position text m = position text n → m = n) ∧
    (∀ n, byteLength text ≤ n → position text n = position text (byteLength text)) ∧
    (∀ before c after n, text = before ++ c :: after → byteLength before < n →
      n < byteLength before + c.utf8Size →
        position text n = position text (byteLength before + c.utf8Size)) ∧
    ∀ before c after p, text = before ++ c :: after → ¬ EndsLine c after →
      p = position text (byteLength before) →
        Inside text p.line p.column ∧ (lineText text p.line)[p.column - 1]? = some c := by
  refine ⟨fun m n hm hn => hm.position_before hn, fun m n hm hn => hm.position_inj hn,
    fun n => position_of_le, ?_, ?_⟩
  · rintro before c after n rfl first within
    exact position_within before c after first (Nat.le_of_lt within)
  · rintro before c after p rfl plain rfl
    exact lineText_position plain before rfl

/-- A line with a character of two bytes, ended by a carriage return and a line feed, and another
    line that the text ends without. -/
def mixedEnds : List Char := ['é', '\r', '\n', 'b']

theorem layout_agrees_mixedEnds :
    Boundary mixedEnds 3 ∧ Boundary mixedEnds 4 ∧
      (position mixedEnds 3).Before (position mixedEnds 4) ∧
        (position mixedEnds 3 = position mixedEnds 4 → 3 = 4) ∧
          position mixedEnds 9 = position mixedEnds 5 ∧
            position mixedEnds 1 = position mixedEnds 2 ∧
              Inside mixedEnds 2 1 ∧ (lineText mixedEnds 2)[0]? = some 'b' := by
  obtain ⟨increasing, injective, constant, within, shown⟩ := layout_agrees mixedEnds
  have third : Boundary mixedEnds 3 := ⟨['é', '\r'], ['\n', 'b'], rfl, rfl⟩
  have fourth : Boundary mixedEnds 4 := ⟨['é', '\r', '\n'], ['b'], rfl, rfl⟩
  have plain : ¬ EndsLine 'b' [] := by simp [EndsLine]
  obtain ⟨inside, char⟩ := shown ['é', '\r', '\n'] 'b' [] ⟨2, 1⟩ rfl plain rfl
  exact ⟨third, fourth, increasing 3 4 third fourth (by decide), injective 3 4 third fourth,
    constant 9 (by decide), within [] 'é' _ 1 rfl (by decide) (by decide), inside, char⟩

end FlowLint.Text
