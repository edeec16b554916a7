import FlowLint.Proofs.Json.Spelling

/-!
The reader of values reads nothing but spellings, which stand in the text as they are.
-/

namespace FlowLint.Json

/-! ### Blanks -/

/-- What is skipped are blanks. -/
theorem exists_blanks (s : List Char) : ∃ b : Blanks, s = b.text ++ skipBlank s :=
  ⟨⟨s.takeWhile Text.isJsonBlank, List.all_eq_true.1 List.all_takeWhile⟩,
    List.takeWhile_append_dropWhile.symm⟩

@[simp] theorem skipBlank_append (b : Blanks) (s : List Char) :
    skipBlank (b.text ++ s) = skipBlank s :=
  List.dropWhile_append_of_pos b.blank

theorem skipBlank_cons {c : Char} {s : List Char} (h : ¬ Text.isJsonBlank c) :
    skipBlank (c :: s) = c :: s :=
  List.dropWhile_cons_of_neg h

/-! ### Values -/

/-- All that `read` reads are spellings, blanks before them, of at most that depth. -/
def ReadsSpellings (read : Reader Json) (depth : Nat) : Prop :=
  ∀ {s r : List Char} {v : Json}, Yields (read s) v r →
    ∃ (b : Blanks) (c : Spelling), s = b.text ++ (c.text ++ r) ∧ c.tree = v ∧ c.depth ≤ depth

section Sound

variable {read : Reader Json} {depth : Nat} {s t r : List Char}

/-- The rest of an array after an item: its end, or a comma and more items. -/
def ItemsEnd (depth : Nat) (t : List Char) (vs : List Json) (r : List Char) : Prop :=
  ∃ a : Blanks, (t = a.text ++ ']' :: r ∧ vs = []) ∨
    ∃ items : ItemSpellings, t = a.text ++ ',' :: (items.text ++ ']' :: r) ∧
      items.trees = vs ∧ items.depth ≤ depth

/-- An item and the rest of its array are items. -/
theorem ItemsEnd.cons {b : Blanks} {c : Spelling} {vs : List Json} (hc : c.depth ≤ depth)
    (h : ItemsEnd depth t vs r) :
    ∃ items : ItemSpellings, b.text ++ (c.text ++ t) = items.text ++ ']' :: r ∧
      items.trees = c.tree :: vs ∧ items.depth ≤ depth := by
  obtain ⟨a, ⟨rfl, rfl⟩ | ⟨items, rfl, rfl, hd⟩⟩ := h
  · exact ⟨.last b c a, by simp [ItemSpellings.text], rfl, hc⟩
  · exact ⟨.more b c a items, by simp [ItemSpellings.text], rfl, Nat.max_le.2 ⟨hc, hd⟩⟩

/-- What is read behind an item is the rest of an array. -/
theorem itemsEnd_of_yields (hread : ReadsSpellings read depth) {vs : List Json}
    (h : Yields (readMoreItems read s) vs r) : ItemsEnd depth s vs r := by
  fun_induction readMoreItems read s generalizing vs with
  | case1 => simp at h
  | case2 s t hs =>
    obtain ⟨rfl, rfl⟩ : [] = vs ∧ t = r := by simpa [Rest.ofToken] using h
    obtain ⟨a, ha⟩ := exists_blanks s
    exact ⟨a, .inl ⟨hs ▸ ha, rfl⟩⟩
  | case3 => simp at h
  | case4 => simp at h
  | case5 s t hs _ _ ih =>
    rw [yields_bind] at h
    obtain ⟨v, u, hu, e, h⟩ := h
    rw [yields_bind] at h
    obtain ⟨ws, w, _, e', h⟩ := h
    obtain ⟨rfl, rfl⟩ : v :: ws = vs ∧ w = r := by simpa [Rest.trans] using h
    obtain ⟨a, ha⟩ := exists_blanks s
    obtain ⟨b, c, rfl, rfl, hc⟩ := hread (.intro e)
    obtain ⟨items, text, trees, hd⟩ := (ih ⟨u, hu⟩ (.intro e')).cons (b := b) hc
    exact ⟨a, .inr ⟨items, by rw [← text, ← hs]; exact ha, trees, hd⟩⟩
  | case6 => simp at h

/-- What is read behind the bracket makes an array with it. -/
theorem spelling_of_readItems (hread : ReadsSpellings read depth) {vs : List Json}
    (h : Yields (readItems read s) vs r) :
    ∃ c : Spelling, '[' :: s = c.text ++ r ∧ c.tree = .array vs ∧ c.depth ≤ depth + 1 := by
  unfold readItems at h
  split at h
  · simp at h
  · next t hs =>
    obtain ⟨rfl, rfl⟩ : [] = vs ∧ t = r := by simpa [Rest.ofToken] using h
    obtain ⟨b, hb⟩ := exists_blanks s
    refine ⟨.emptyArray b, ?_, rfl, Nat.le_add_left ..⟩
    rw [hs] at hb
    simp [Spelling.text, hb]
  · rw [yields_bind] at h
    obtain ⟨v, u, _, e, h⟩ := h
    rw [yields_bind] at h
    obtain ⟨ws, w, _, e', h⟩ := h
    obtain ⟨rfl, rfl⟩ : v :: ws = vs ∧ w = r := by simpa [Rest.trans] using h
    obtain ⟨b, c, rfl, rfl, hc⟩ := hread (.intro e)
    obtain ⟨items, text, trees, hd⟩ := (itemsEnd_of_yields hread (.intro e')).cons (b := b) hc
    exact ⟨.array items, by simp [Spelling.text, text], congrArg _ trees, Nat.succ_le_succ hd⟩

/-- The rest of an object after a member: its end, or a comma and more members. -/
def MembersEnd (depth : Nat) (t : List Char) (ms : List (String × Json)) (r : List Char) : Prop :=
  ∃ a : Blanks, (t = a.text ++ '}' :: r ∧ ms = []) ∨
    ∃ members : MemberSpellings, t = a.text ++ ',' :: (members.text ++ '}' :: r) ∧
      members.trees = ms ∧ members.depth ≤ depth

theorem MembersEnd.cons {b : Blanks} {l : Label} {c : Spelling} {ms : List (String × Json)}
    (hc : c.depth ≤ depth) (h : MembersEnd depth t ms r) :
    ∃ members : MemberSpellings,
      b.text ++ (l.text ++ (c.text ++ t)) = members.text ++ '}' :: r ∧
      members.trees = (l.name, c.tree) :: ms ∧ members.depth ≤ depth := by
  obtain ⟨a, ⟨rfl, rfl⟩ | ⟨members, rfl, rfl, hd⟩⟩ := h
  · exact ⟨.last b l c a, by simp [MemberSpellings.text], rfl, hc⟩
  · exact ⟨.more b l c a members, by simp [MemberSpellings.text], rfl, Nat.max_le.2 ⟨hc, hd⟩⟩

/-- A member that is read is a label and a value. -/
theorem label_of_readMember (hread : ReadsSpellings read depth) {m : String × Json}
    (h : Yields (readMember Literal.read (fun _ => read) s) m r) :
    ∃ (l : Label) (c : Spelling), '"' :: s = l.text ++ (c.text ++ r) ∧ (l.name, c.tree) = m ∧
      c.depth ≤ depth := by
  rw [readMember, yields_bind] at h
  obtain ⟨k, t, _, e, h⟩ := h
  obtain ⟨body, chars, hbody, rfl, rfl⟩ := Literal.yields_read.1 (.intro e)
  simp only at h
  split at h
  · simp at h
  · next u hu =>
    rw [yields_bind] at h
    obtain ⟨v, w, _, e', h⟩ := h
    obtain ⟨rfl, rfl⟩ : (String.ofList chars, v) = m ∧ w = r := by simpa [Rest.trans] using h
    obtain ⟨a, ha⟩ := exists_blanks t
    obtain ⟨b, c, rfl, rfl, hc⟩ := hread (.intro e')
    rw [hu] at ha
    refine ⟨⟨⟨body, chars, hbody⟩, a, b⟩, c, ?_, rfl, hc⟩
    simp [Label.text, Quoted.text, ha]
  · simp at h

theorem membersEnd_of_yields (hread : ReadsSpellings read depth) {ms : List (String × Json)}
    (h : Yields (readMoreMembers Literal.read (fun _ => read) s) ms r) :
    MembersEnd depth s ms r := by
  fun_induction readMoreMembers Literal.read (fun _ => read) s generalizing ms with
  | case1 => simp at h
  | case2 s t hs =>
    obtain ⟨rfl, rfl⟩ : [] = ms ∧ t = r := by simpa [Rest.ofToken] using h
    obtain ⟨a, ha⟩ := exists_blanks s
    exact ⟨a, .inl ⟨hs ▸ ha, rfl⟩⟩
  | case3 => simp at h
  | case4 s t hs u hu ih =>
    rw [yields_bind] at h
    obtain ⟨m, w, hw, e, h⟩ := h
    rw [yields_bind] at h
    obtain ⟨ns, x, _, e', h⟩ := h
    obtain ⟨rfl, rfl⟩ : m :: ns = ms ∧ x = r := by simpa [Rest.trans] using h
    obtain ⟨a, ha⟩ := exists_blanks s
    obtain ⟨b, hb⟩ := exists_blanks t
    obtain ⟨l, c, text, rfl, hc⟩ := label_of_readMember hread (.intro e)
    obtain ⟨members, text', trees, hd⟩ := (ih ⟨w, hw⟩ (.intro e')).cons (b := b) (l := l) hc
    refine ⟨a, .inr ⟨members, ?_, trees, hd⟩⟩
    rw [← text', ← text, ← hu, ← hb, ← hs]
    exact ha
  | case5 => simp at h
  | case6 => simp at h
  | case7 => simp at h

theorem spelling_of_readMembers (hread : ReadsSpellings read depth) {ms : List (String × Json)}
    (h : Yields (readMembers Literal.read (fun _ => read) s) ms r) :
    ∃ c : Spelling, '{' :: s = c.text ++ r ∧ c.tree = .object ms ∧ c.depth ≤ depth + 1 := by
  unfold readMembers at h
  split at h
  · simp at h
  · next t hs =>
    obtain ⟨rfl, rfl⟩ : [] = ms ∧ t = r := by simpa [Rest.ofToken] using h
    obtain ⟨b, hb⟩ := exists_blanks s
    refine ⟨.emptyObject b, ?_, rfl, Nat.le_add_left ..⟩
    rw [hs] at hb
    simp [Spelling.text, hb]
  · next t hs =>
    rw [yields_bind] at h
    obtain ⟨m, u, _, e, h⟩ := h
    rw [yields_bind] at h
    obtain ⟨ns, w, _, e', h⟩ := h
    obtain ⟨rfl, rfl⟩ : m :: ns = ms ∧ w = r := by simpa [Rest.trans] using h
    obtain ⟨b, hb⟩ := exists_blanks s
    obtain ⟨l, c, text, rfl, hc⟩ := label_of_readMember hread (.intro e)
    obtain ⟨members, text', trees, hd⟩ :=
      (membersEnd_of_yields hread (.intro e')).cons (b := b) (l := l) hc
    rw [hs, text, text'] at hb
    exact ⟨.object members, by simp [Spelling.text, hb], congrArg _ trees, Nat.succ_le_succ hd⟩
  · simp at h

/-- A word that is read is its letters, the first of which was seen before. -/
theorem scalar_of_readWord {w : List Char} {v : Json} {c : Char} (hs : skipBlank s = c :: t)
    (hw : IsScalar (c :: w) v) {f : {u : List Char // u.length ≤ t.length} → Json × Rest s}
    (hf : ∀ u, f u = (v, .ofWord hs u)) {x : Json} (h : Yields ((readWord w t).map f) x r) :
    ∃ c : Spelling, skipBlank s = c.text ++ r ∧ c.tree = x ∧ c.depth = 0 := by
  cases e : readWord w t with
  | error _ => simp [e, Except.map] at h
  | ok u =>
    obtain ⟨rfl, rfl⟩ : v = x ∧ u.val = r := by simpa [e, Except.map, hf, Rest.ofWord] using h
    have text : t = w ++ u.val := readWord_eq_ok.1 ⟨_, e⟩
    exact ⟨.scalar ⟨_, _, hw⟩, hs.trans (congrArg (c :: ·) text), rfl, rfl⟩

/-- The value of a number does not hang on what follows it. -/
theorem value_eq_ok {n : Numeral} {x : Number} {r : List Char} (h : n.value r = .ok x)
    (t : List Char) : n.value t = .ok x := by
  simp only [Numeral.value] at h ⊢
  by_cases fits : n.isInteger ∧ Decimal.digitsValue n.whole ≤ Numeral.maxSignificand
  · rw [if_pos fits] at h ⊢
    exact h
  · rw [if_neg fits] at h ⊢
    simp only [Numeral.toFloat] at h ⊢
    split at h
    · next excess _ =>
      split at h
      · simp at h
      · next down => rw [if_neg down]; exact h
    · split at h
      · exact h
      · simp at h

theorem yields_text {v : Json} : Yields (treeBuilder.text s) v r ↔
    ∃ q : Quoted, s = q.body ++ r ∧ v = .string q.value := by
  rw [treeBuilder, yields_map]
  constructor
  · rintro ⟨t, u, _, e, rfl, rfl⟩
    obtain ⟨body, chars, h, rfl, rfl⟩ := Literal.yields_read.1 (.intro e)
    exact ⟨⟨body, chars, h⟩, rfl, rfl⟩
  · rintro ⟨q, rfl, rfl⟩
    obtain ⟨_, e⟩ := (Literal.yields_read (r := r)).2 ⟨_, _, q.spelled, rfl, rfl⟩
    exact ⟨_, _, _, e, rfl, rfl⟩

/-- What is read for a value spells it, if that holds one level down. The cases are those of the
    first character. -/
theorem spelling_of_readValueWith (depth : Nat) {nested : Option (Reader Json)}
    (hnested : ∀ read ∈ nested, 0 < depth ∧ ReadsSpellings read (depth - 1)) {v : Json}
    (h : Yields (readValueWith treeBuilder nested s) v r) :
    ∃ c : Spelling, skipBlank s = c.text ++ r ∧ c.tree = v ∧ c.depth ≤ depth := by
  unfold readValueWith at h
  split at h
  · simp at h
  · next t hs =>
    obtain ⟨c, text, tree, hd⟩ := scalar_of_readWord hs .null (fun _ => rfl) h
    exact ⟨c, text, tree, hd ▸ Nat.zero_le _⟩
  · next t hs =>
    obtain ⟨c, text, tree, hd⟩ := scalar_of_readWord hs .true (fun _ => rfl) h
    exact ⟨c, text, tree, hd ▸ Nat.zero_le _⟩
  · next t hs =>
    obtain ⟨c, text, tree, hd⟩ := scalar_of_readWord hs .false (fun _ => rfl) h
    exact ⟨c, text, tree, hd ▸ Nat.zero_le _⟩
  · next t hs =>
    rw [yields_map] at h
    obtain ⟨x, u, _, e, rfl, rfl⟩ := h
    obtain ⟨q, rfl, rfl⟩ := yields_text.1 (.intro e)
    exact ⟨.string q, hs, rfl, Nat.zero_le _⟩
  · next t hs =>
    split at h
    · simp at h
    · next read =>
      obtain ⟨pos, hread⟩ := hnested read rfl
      rw [yields_map] at h
      obtain ⟨vs, u, _, e, rfl, rfl⟩ := h
      obtain ⟨c, text, tree, hd⟩ := spelling_of_readItems hread (.intro e)
      exact ⟨c, hs.trans text, tree, by omega⟩
  · next t hs =>
    split at h
    · simp at h
    · next read =>
      obtain ⟨pos, hread⟩ := hnested read rfl
      rw [yields_map] at h
      obtain ⟨ms, u, _, e, rfl, rfl⟩ := h
      obtain ⟨c, text, tree, hd⟩ := spelling_of_readMembers hread (.intro e)
      exact ⟨c, hs.trans text, tree, by omega⟩
  · next c t _ _ _ _ _ _ hs =>
    split at h
    · rw [yields_bind] at h
      obtain ⟨n, u, _, e, h⟩ := h
      obtain ⟨text, hn, hu⟩ := Numeral.spelled_of_yields (.intro e)
      simp only [treeBuilder] at h
      cases ex : n.value u with
      | error _ => simp [ex, bind, Except.bind, Except.map] at h
      | ok x =>
        obtain ⟨rfl, rfl⟩ : .number x = v ∧ u = r := by
          simpa [ex, bind, Except.bind, Except.map] using h
        exact ⟨.scalar ⟨text, _, .number hn (value_eq_ok ex [])⟩, hs.trans hu, rfl, Nat.zero_le _⟩
    · simp at h

theorem readsSpellings_readValue : ∀ depth, ReadsSpellings (readValue treeBuilder depth) depth
  | 0, s, r, v, h => by
    obtain ⟨b, hb⟩ := exists_blanks s
    obtain ⟨c, text, tree, hd⟩ := spelling_of_readValueWith 0 (by simp) h
    exact ⟨b, c, text ▸ hb, tree, hd⟩
  | depth + 1, s, r, v, h => by
    obtain ⟨b, hb⟩ := exists_blanks s
    obtain ⟨c, text, tree, hd⟩ := spelling_of_readValueWith (depth + 1)
      (fun _ hread => by cases hread; exact ⟨Nat.succ_pos _, readsSpellings_readValue depth⟩) h
    exact ⟨b, c, text ▸ hb, tree, hd⟩

end Sound

end FlowLint.Json
