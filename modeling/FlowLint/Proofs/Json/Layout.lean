import Mathlib.Data.List.Forall2
import FlowLint.Json.Layout
import FlowLint.Proofs.Json.Completeness
import FlowLint.Proofs.Json.Lookup

/-!
JSON laid out for reading is JSON. A layout writes a value if its text is a spelling of it at every
depth of indentation; each way to put layouts together keeps that, so the reader gives back what was
laid out.
-/

namespace FlowLint.Json

/-! ### Literals -/

/-- The hex digits of a control character are its code. -/
theorem code?_control (n : Nat) (h : n < 0x20) :
    Literal.code? '0' '0' (Nat.digitChar (n / 16)) (Nat.digitChar (n % 16)) = some n ∧
      (!Literal.isLeading n && !Literal.isTrailing n) := by
  revert n
  decide

/-- A character is spelled by what stands for it in a literal. -/
theorem body_quotedChar (c : Char) {t cs : List Char} (more : Literal.Body t cs) :
    Literal.Body (quotedChar c ++ t) (c :: cs) := by
  have letter {e : Char} (h : Literal.ofLetter? e = some c) :
      Literal.Body (['\\', e] ++ t) (c :: cs) := .escape (.letter h) more
  rw [quotedChar]
  split_ifs with quote slash back form feed ret tab control
  · exact letter (by rw [quote]; rfl)
  · exact letter (by rw [slash]; rfl)
  · exact letter (by rw [back]; rfl)
  · exact letter (by rw [form]; rfl)
  · exact letter (by rw [feed]; rfl)
  · exact letter (by rw [ret]; rfl)
  · exact letter (by rw [tab]; rfl)
  · obtain ⟨code, lone⟩ := code?_control c.toNat control
    have escape := Literal.Escape.code code lone
    rw [Char.ofNat_toNat] at escape
    exact .escape escape more
  · exact .plain quote slash control more

theorem body_flatMap_quotedChar (cs : List Char) :
    Literal.Body (cs.flatMap quotedChar ++ ['"']) cs := by
  induction cs with
  | nil => exact .close
  | cons c cs ih =>
    rw [List.flatMap_cons, List.append_assoc]
    exact body_quotedChar c ih

/-- The literal of a text. -/
def Quoted.ofText (s : String) : Quoted :=
  ⟨s.toList.flatMap quotedChar ++ ['"'], s.toList, body_flatMap_quotedChar s.toList⟩

@[simp] theorem Quoted.ofText_text (s : String) : (Quoted.ofText s).text = quoted s := rfl

@[simp] theorem Quoted.ofText_value (s : String) : (Quoted.ofText s).value = s :=
  String.ofList_toList

/-- The name of a member as a layout writes it, with a blank after the colon. -/
def Label.ofText (s : String) : Label :=
  ⟨.ofText s, ⟨[], by simp⟩, ⟨[' '], by simp [Text.isJsonBlank]⟩⟩

@[simp] theorem Label.ofText_name (s : String) : (Label.ofText s).name = s := Quoted.ofText_value s

@[simp] theorem Label.ofText_text (s : String) :
    (Label.ofText s).text = Json.quoted s ++ [':', ' '] := rfl

/-! ### Counts -/

/-- Decimal digits start with zero only where the number is zero. -/
theorem whole_toDigits (n : Nat) : Numeral.Whole (Nat.toDigits 10 n) := by
  induction n using Nat.strongRecOn with
  | ind n ih =>
    have digits {m : Nat} : ∀ c ∈ Nat.toDigits 10 m, c.isDigit := fun c hc =>
      Nat.isDigit_of_mem_toDigits (by decide) (by decide) hc
    by_cases small : n < 10
    · have digit := @digits n
      rw [Nat.toDigits_of_lt_base small] at digit ⊢
      by_cases zero : n = 0
      · subst zero
        exact .zero
      · have nonzero : ∀ m < 10, m ≠ 0 → Nat.digitChar m ≠ '0' := by decide
        exact .digits (digit _ List.mem_cons_self) (nonzero n small zero) (by simp)
    · have shorter := ih (n / 10) (by omega)
      have value : Nat.ofDigitChars 10 (Nat.toDigits 10 (n / 10)) 0 = n / 10 :=
        Nat.ofDigitChars_toDigits (by decide) (by decide)
      have all := @digits n
      rw [Nat.toDigits_of_base_le (by decide) (by omega)] at all ⊢
      generalize Nat.toDigits 10 (n / 10) = w at *
      cases shorter with
      | zero =>
        have tenth : n / 10 = 0 := value.symm
        omega
      | digits lead nonzero _ =>
        exact .digits lead nonzero fun c hc => all c (List.mem_cons_of_mem _ hc)

/-- Digits that write a number spell it. -/
theorem digitsValue_toDigits (n : Nat) : Decimal.digitsValue (Nat.toDigits 10 n) = n :=
  Nat.ofDigitChars_toDigits (by decide) (by decide)

/-- A count is read from its digits and nothing else, as long as it fits 64 bits. -/
theorem isScalar_count_iff {t : List Char} {k : Nat} : IsScalar t (.number (.int k)) ↔
    Numeral.Whole t ∧ Decimal.digitsValue t = k ∧ k ≤ Numeral.maxSignificand := by
  constructor
  · rintro ⟨⟩
    next n spelled value =>
    exact spelled.whole_of_value value
  · rintro ⟨whole, rfl, fits⟩
    refine .number (n := ⟨false, t, [], none⟩) ?_ ?_
    · exact .plain rfl ⟨[], [], whole, .absent, .absent, by simp⟩
    · rw [Numeral.value, if_pos ⟨rfl, fits⟩]
      rfl

/-- A count that fits 64 bits is read as it is written. -/
theorem isScalar_toDigits {n : Nat} (h : n ≤ Numeral.maxSignificand) :
    IsScalar (Nat.toDigits 10 n) (.number (.int n)) :=
  isScalar_count_iff.2 ⟨whole_toDigits n, digitsValue_toDigits n, h⟩

/-! ### Layouts -/

/-- A value, or null for none. -/
def orNull (json : α → Json) : Option α → Json
  | some x => json x
  | none   => .null

theorem noRepeats_orNull {json : α → Json} (h : ∀ x, (json x).NoRepeats) (o : Option α) :
    (orNull json o).NoRepeats := by
  cases o with
  | none => exact .null
  | some x => exact h x

theorem noRepeats_array_map {json : α → Json} (h : ∀ x, (json x).NoRepeats) (xs : List α) :
    (Json.array (xs.map json)).NoRepeats := by
  refine .array fun v hv => ?_
  obtain ⟨x, -, rfl⟩ := List.mem_map.1 hv
  exact h x

/-- No blanks. -/
def Blanks.none : Blanks := ⟨[], by simp⟩

/-- The blanks of a line's start. -/
def Blanks.newline (depth : Nat) : Blanks := ⟨Layout.newline depth, by
  intro c hc
  rcases List.mem_cons.1 hc with rfl | hc
  · rfl
  · rw [List.eq_of_mem_replicate hc]
    rfl⟩

namespace Layout

/-- However far in it stands, the layout spells the value with at most `depth` containers within
    each other. -/
def Writes (depth : Nat) (l : Layout) (v : Json) : Prop :=
  ∀ n, ∃ c : Spelling, c.text = l n ∧ c.tree = v ∧ c.depth ≤ depth

variable {depth : Nat}

theorem writes_null : Writes depth null .null := fun _ =>
  ⟨.scalar ⟨_, _, .null⟩, rfl, rfl, Nat.zero_le depth⟩

theorem writes_text (s : String) : Writes depth (text s) (.string s) := fun _ =>
  ⟨.string (.ofText s), rfl, congrArg Json.string (Quoted.ofText_value s), Nat.zero_le depth⟩

theorem writes_count {n : Nat} (h : n ≤ Numeral.maxSignificand) :
    Writes depth (count n) (.number (.int n)) := fun _ =>
  ⟨.scalar ⟨_, _, isScalar_toDigits h⟩, rfl, rfl, Nat.zero_le depth⟩

theorem writes_orNull {layout : α → Layout} {json : α → Json} {o : Option α}
    (h : ∀ x ∈ o, Writes depth (layout x) (json x)) :
    Writes depth (orNull layout o) (Json.orNull json o) := by
  cases o with
  | none => exact writes_null
  | some x => exact h x rfl

/-- A layout writes what stands in an array, one item to a line. The induction is on the items: each
    but the last is followed by a comma and a new line, the last by the line of the bracket. -/
theorem exists_items {l : Layout} {v : Json} {ls : List Layout} {vs : List Json} (n : Nat)
    (first : Writes depth l v) (others : List.Forall₂ (Writes depth) ls vs) :
    ∃ items : ItemSpellings, items.trees = v :: vs ∧ items.depth ≤ depth ∧
      items.text = newline (n + 1) ++
        List.intercalate (',' :: newline (n + 1)) ((l :: ls).map (· (n + 1))) ++ newline n := by
  induction others generalizing l v with
  | nil =>
    obtain ⟨c, text, rfl, hd⟩ := first (n + 1)
    exact ⟨.last (.newline (n + 1)) c (.newline n), rfl, hd, by
      simp [ItemSpellings.text, Blanks.newline, text]⟩
  | cons next _ ih =>
    obtain ⟨c, text, rfl, hd⟩ := first (n + 1)
    obtain ⟨items, trees, depths, texts⟩ := ih next
    refine ⟨.more (.newline (n + 1)) c .none items, ?_, Nat.max_le.2 ⟨hd, depths⟩, ?_⟩
    · rw [ItemSpellings.trees, trees]
    · simp only [List.map_cons, List.intercalate_cons_cons] at texts ⊢
      rw [ItemSpellings.text, texts]
      simp [Blanks.newline, Blanks.none, text]

theorem writes_array {ls : List Layout} {vs : List Json} (h : List.Forall₂ (Writes depth) ls vs) :
    Writes (depth + 1) (array ls) (.array vs) := by
  intro n
  cases h with
  | nil => exact ⟨.emptyArray .none, rfl, rfl, Nat.le_add_left ..⟩
  | cons first others =>
    obtain ⟨items, trees, depths, texts⟩ := exists_items n first others
    refine ⟨.array items, ?_, congrArg Json.array trees, Nat.succ_le_succ depths⟩
    simp [Spelling.text, texts, array, container]

theorem writes_array_map {layout : α → Layout} {json : α → Json} {xs : List α}
    (h : ∀ x ∈ xs, Writes depth (layout x) (json x)) :
    Writes (depth + 1) (array (xs.map layout)) (.array (xs.map json)) := by
  refine writes_array ?_
  rw [List.forall₂_map_left_iff, List.forall₂_map_right_iff, List.forall₂_same]
  exact h

/-- A member is laid out under its name. -/
def WritesMember (depth : Nat) (m : String × Layout) (w : String × Json) : Prop :=
  m.1 = w.1 ∧ Writes depth m.2 w.2

/-- The same for members. -/
theorem exists_members {m : String × Layout} {w : String × Json} {ms : List (String × Layout)}
    {ws : List (String × Json)} (n : Nat) (first : WritesMember depth m w)
    (others : List.Forall₂ (WritesMember depth) ms ws) :
    ∃ members : MemberSpellings, members.trees = w :: ws ∧ members.depth ≤ depth ∧
      members.text = newline (n + 1) ++ List.intercalate (',' :: newline (n + 1))
        (((m :: ms).map member).map (· (n + 1))) ++ newline n := by
  induction others generalizing m w with
  | nil =>
    obtain ⟨name, writes⟩ := first
    obtain ⟨c, text, tree, hd⟩ := writes (n + 1)
    refine ⟨.last (.newline (n + 1)) (.ofText m.1) c (.newline n), ?_, hd, ?_⟩
    · rw [MemberSpellings.trees, Label.ofText_name, name, tree]
    · simp [MemberSpellings.text, Blanks.newline, text, member]
  | cons next _ ih =>
    obtain ⟨name, writes⟩ := first
    obtain ⟨c, text, tree, hd⟩ := writes (n + 1)
    obtain ⟨members, trees, depths, texts⟩ := ih next
    refine ⟨.more (.newline (n + 1)) (.ofText m.1) c .none members, ?_,
      Nat.max_le.2 ⟨hd, depths⟩, ?_⟩
    · rw [MemberSpellings.trees, trees, Label.ofText_name, name, tree]
    · simp only [List.map_cons, List.intercalate_cons_cons] at texts ⊢
      rw [MemberSpellings.text, texts]
      simp [Blanks.newline, Blanks.none, text, member]

theorem writes_object {ms : List (String × Layout)} {ws : List (String × Json)}
    (h : List.Forall₂ (WritesMember depth) ms ws) :
    Writes (depth + 1) (object ms) (.object ws) := by
  intro n
  cases h with
  | nil => exact ⟨.emptyObject .none, rfl, rfl, Nat.le_add_left ..⟩
  | cons first others =>
    obtain ⟨members, trees, depths, texts⟩ := exists_members n first others
    refine ⟨.object members, ?_, congrArg Json.object trees, Nat.succ_le_succ depths⟩
    simp [Spelling.text, texts, object, container]

/-- What a layout writes is read from it, with a line feed at the end. -/
theorem Writes.parses {l : Layout} {v : Json} (h : Writes depth l v) (shallow : depth ≤ maxDepth)
    (distinct : v.NoRepeats) : parse? (l 0 ++ ['\n']) = .ok v := by
  obtain ⟨c, text, rfl, hd⟩ := h 0
  have reads : tree? (l 0 ++ ['\n']) = .ok c.tree := by
    refine tree?_eq_ok_iff.2 ⟨⟨.none, c, ⟨['\n'], by simp [Text.isJsonBlank]⟩⟩, ?_, rfl, ?_⟩
    · rw [Document.text, text]
      rfl
    · exact Nat.le_trans hd shallow
  rw [parse?_of_tree? reads, distinct.settled_eq]

end Layout

end FlowLint.Json
