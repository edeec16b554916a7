import FlowLint.Proofs.Json.Soundness

/-!
The reader of values reads every spelling that is not nested too deeply, and takes just its text.
With the converse a text has the value `v` exactly if it is a document that spells `v`.
-/

namespace FlowLint.Json

/-! ### Starts -/

/-- Blanks are skipped up to the next token. -/
theorem skipBlank_token {b : Blanks} {c : Char} {t : List Char} (h : ¬ Text.isJsonBlank c) :
    skipBlank (b.text ++ c :: t) = c :: t := by
  rw [skipBlank_append, skipBlank_cons h]

/-- Brackets, quotes, and the characters of words and numbers start a value. -/
def StartsValue (c : Char) : Prop := c = '[' ∨ c = '{' ∨ c = '"' ∨ isWordChar c

theorem StartsValue.not_blank {c : Char} (h : StartsValue c) : ¬ Text.isJsonBlank c := by
  intro blank
  rcases isJsonBlank_iff.1 blank with rfl | rfl | rfl | rfl <;> revert h <;> simp [StartsValue] <;>
    decide

/-- No bracket that closes starts a value. -/
theorem StartsValue.not_closing {c : Char} (h : StartsValue c) : c ≠ ']' ∧ c ≠ '}' := by
  constructor <;> rintro rfl <;> revert h <;> simp [StartsValue] <;> decide

theorem Scalar.exists_cons (s : Scalar) : ∃ c t, s.text = c :: t ∧ isWordChar c := by
  obtain ⟨text, value, h⟩ := s
  have word := h.wordChar
  obtain ⟨c, t, rfl⟩ : ∃ c t, text = c :: t := by
    cases h with
    | null => exact ⟨_, _, rfl⟩
    | true => exact ⟨_, _, rfl⟩
    | false => exact ⟨_, _, rfl⟩
    | number h _ =>
      obtain ⟨c, t, e, -⟩ := h.exists_cons
      exact ⟨c, t, e⟩
  exact ⟨c, t, rfl, word c List.mem_cons_self⟩

/-- A value is some text, the first character of which starts a value. -/
theorem Spelling.exists_cons (c : Spelling) : ∃ h t, c.text = h :: t ∧ StartsValue h := by
  cases c with
  | scalar s =>
    obtain ⟨h, t, e, word⟩ := s.exists_cons
    exact ⟨h, t, e, .inr (.inr (.inr word))⟩
  | string q => exact ⟨_, _, rfl, .inr (.inr (.inl rfl))⟩
  | emptyArray b => exact ⟨_, _, rfl, .inl rfl⟩
  | array items => exact ⟨_, _, rfl, .inl rfl⟩
  | emptyObject b => exact ⟨_, _, rfl, .inr (.inl rfl)⟩
  | object ms => exact ⟨_, _, rfl, .inr (.inl rfl)⟩

/-! ### Single steps -/

section Steps

variable {read : Reader Json} {nested : Option (Reader Json)} {s t r : List Char}

theorem yields_array (hs : skipBlank s = '[' :: t) {vs : List Json}
    (h : Yields (readItems read t) vs r) :
    Yields (readValueWith treeBuilder (some read) s) (.array vs) r := by
  obtain ⟨_, e⟩ := h
  unfold readValueWith
  split <;> rename_i h <;> cases hs.symm.trans h
  · rw [yields_map]
    exact ⟨_, _, _, e, rfl, rfl⟩
  · contradiction

theorem yields_object (hs : skipBlank s = '{' :: t) {ms : List (String × Json)}
    (h : Yields (readMembers Literal.read (fun _ => read) t) ms r) :
    Yields (readValueWith treeBuilder (some read) s) (.object ms) r := by
  obtain ⟨_, e⟩ := h
  unfold readValueWith
  split <;> rename_i h <;> cases hs.symm.trans h
  · rw [yields_map]
    exact ⟨_, _, _, e, rfl, rfl⟩
  · contradiction

theorem yields_string (q : Quoted) (hs : skipBlank s = q.text ++ r) :
    Yields (readValueWith treeBuilder nested s) (.string q.value) r := by
  obtain ⟨_, e⟩ := yields_text.2 ⟨q, rfl, rfl⟩
  unfold readValueWith
  split <;> rename_i h <;> cases hs.symm.trans h
  · rw [yields_map]
    exact ⟨_, _, _, e, rfl, rfl⟩
  · contradiction

/-- A word is read whatever follows it. -/
theorem yields_word {β : Type} {P : List Char → Prop} {w : List Char} {v : β}
    {f : {u : List Char // u.length ≤ (w ++ r).length} → β × {u : List Char // P u}}
    (hf : ∀ u, (f u).1 = v ∧ (f u).2.val = u.val) : Yields ((readWord w (w ++ r)).map f) v r := by
  obtain ⟨_, e⟩ := readWord_eq_ok.2 (rfl : w ++ r = _)
  rw [e]
  exact (yields_ok ..).2 (hf _)

/-- A number is read with what follows it in view, which may not go on with it. -/
theorem yields_number {text : List Char} {n : Numeral} {x : Number} (hn : n.Spelled text)
    (hx : n.value [] = .ok x) (hr : Delimited r) (hs : skipBlank s = text ++ r) :
    Yields (readValueWith treeBuilder nested s) (.number x) r := by
  obtain ⟨_, e⟩ := hn.yields hr.stops
  obtain ⟨c, t, rfl, hc⟩ := hn.exists_cons
  have start : c ≠ 'n' ∧ c ≠ 't' ∧ c ≠ 'f' ∧ c ≠ '"' ∧ c ≠ '[' ∧ c ≠ '{' := by
    refine ⟨?_, ?_, ?_, ?_, ?_, ?_⟩ <;> rintro rfl <;> revert hc <;> decide
  unfold readValueWith
  split <;> rename_i h <;> cases hs.symm.trans h
  any_goals simp at start
  have hc : (c == '-' || c.isDigit) = true := by simpa using hc
  rw [if_pos hc, yields_bind]
  refine ⟨_, _, _, e, ?_⟩
  simp [treeBuilder, value_eq_ok hx r, Except.map, bind, Except.bind]

theorem yields_scalar (c : Scalar) (hr : Delimited r) (hs : skipBlank s = c.text ++ r) :
    Yields (readValueWith treeBuilder nested s) c.value r := by
  obtain ⟨text, value, h⟩ := c
  cases h with
  | null =>
    change skipBlank s = 'n' :: ("ull".toList ++ r) at hs
    unfold readValueWith
    split <;> rename_i h <;> cases hs.symm.trans h
    · exact yields_word fun _ => ⟨rfl, rfl⟩
    · contradiction
  | true =>
    change skipBlank s = 't' :: ("rue".toList ++ r) at hs
    unfold readValueWith
    split <;> rename_i h <;> cases hs.symm.trans h
    · exact yields_word fun _ => ⟨rfl, rfl⟩
    · contradiction
  | false =>
    change skipBlank s = 'f' :: ("alse".toList ++ r) at hs
    unfold readValueWith
    split <;> rename_i h <;> cases hs.symm.trans h
    · exact yields_word fun _ => ⟨rfl, rfl⟩
    · contradiction
  | number hn hx => exact yields_number hn hx hr hs

theorem yields_lastItem (hs : skipBlank s = ']' :: r) : Yields (readMoreItems read s) [] r := by
  rw [readMoreItems]
  split <;> rename_i h <;> cases hs.symm.trans h
  · simp [Rest.ofToken]
  · contradiction

/-- Behind a comma there is an item, and then what is behind that. -/
theorem yields_moreItems {u : List Char} {c : Char} {v : Json} {vs : List Json}
    (hs : skipBlank s = ',' :: u) (hu : skipBlank u = c :: t) (open' : c ≠ ']') {w : List Char}
    (hv : Yields (read u) v w) (more : Yields (readMoreItems read w) vs r) :
    Yields (readMoreItems read s) (v :: vs) r := by
  obtain ⟨_, e⟩ := hv
  obtain ⟨_, e'⟩ := more
  rw [readMoreItems]
  split <;> rename_i h <;> cases hs.symm.trans h
  · rw [hu]
    split
    · contradiction
    · next h => cases h; contradiction
    · rw [yields_bind]
      refine ⟨_, _, _, e, ?_⟩
      rw [yields_bind]
      exact ⟨_, _, _, e', by simp [Rest.trans]⟩
  · contradiction

/-- A member is its name, the colon, and a value. -/
theorem yields_member (l : Label) {u : List Char} {v : Json}
    (hv : Yields (read (l.after.text ++ u)) v r) :
    Yields (readMember Literal.read (fun _ => read)
      (l.quoted.body ++ (l.before.text ++ ':' :: (l.after.text ++ u)))) (l.name, v) r := by
  obtain ⟨_, e⟩ := Literal.yields_read.2 ⟨_, _, l.quoted.spelled, rfl, rfl⟩
  obtain ⟨_, e'⟩ := hv
  rw [readMember, yields_bind]
  refine ⟨_, _, _, e, ?_⟩
  have colon :
      skipBlank (l.before.text ++ ':' :: (l.after.text ++ u)) = ':' :: (l.after.text ++ u) :=
    skipBlank_token (by decide)
  simp only
  split <;> rename_i h <;> cases colon.symm.trans h
  · rw [yields_bind]
    exact ⟨_, _, _, e', by simp [Rest.trans, Label.name, Quoted.value]⟩
  · contradiction

theorem yields_lastMember (hs : skipBlank s = '}' :: r) :
    Yields (readMoreMembers Literal.read (fun _ => read) s) [] r := by
  rw [readMoreMembers]
  split <;> rename_i h <;> cases hs.symm.trans h
  · simp [Rest.ofToken]
  · contradiction

theorem yields_moreMembers {u w : List Char} {m : String × Json} {ms : List (String × Json)}
    (hs : skipBlank s = ',' :: u) (hu : skipBlank u = '"' :: t)
    (hm : Yields (readMember Literal.read (fun _ => read) t) m w)
    (more : Yields (readMoreMembers Literal.read (fun _ => read) w) ms r) :
    Yields (readMoreMembers Literal.read (fun _ => read) s) (m :: ms) r := by
  obtain ⟨_, e⟩ := hm
  obtain ⟨_, e'⟩ := more
  rw [readMoreMembers]
  split <;> rename_i h <;> cases hs.symm.trans h
  · split <;> rename_i h' <;> cases hu.symm.trans h'
    · rw [yields_bind]
      refine ⟨_, _, _, e, ?_⟩
      rw [yields_bind]
      exact ⟨_, _, _, e', by simp [Rest.trans]⟩
    · contradiction
  · contradiction

end Steps

theorem Spelling.skipBlank_text (c : Spelling) (b : Blanks) (r : List Char) :
    skipBlank (b.text ++ (c.text ++ r)) = c.text ++ r := by
  obtain ⟨h, t, e, start⟩ := c.exists_cons
  rw [e]
  exact skipBlank_token start.not_blank

/-! ### Values -/

/-- Items are read one after the other: the first, and those after it. -/
def ReadsItems (read : Reader Json) (s : List Char) (vs : List Json) (r : List Char) : Prop :=
  ∃ v ws t, Yields (read s) v t ∧ Yields (readMoreItems read t) ws r ∧ vs = v :: ws

/-- Members are read one after the other: the first, and those after it. -/
def ReadsMembers (read : Reader Json) (s : List Char) (ms : List (String × Json))
    (r : List Char) : Prop :=
  ∃ u m ns t, skipBlank s = '"' :: u ∧ Yields (readMember Literal.read (fun _ => read) u) m t ∧
    Yields (readMoreMembers Literal.read (fun _ => read) t) ns r ∧ ms = m :: ns

/-- An array that is not closed at once is its items. -/
theorem ReadsItems.yields {read : Reader Json} {s r : List Char} {vs : List Json}
    (h : ReadsItems read s vs r) {c : Char} {t : List Char} (hs : skipBlank s = c :: t)
    (notClosed : c ≠ ']') : Yields (readItems read s) vs r := by
  obtain ⟨v, ws, t, ⟨_, e⟩, ⟨_, e'⟩, rfl⟩ := h
  rw [readItems]
  split
  · next h => cases hs.symm.trans h
  · next h =>
    cases hs.symm.trans h
    contradiction
  · rw [yields_bind]
    refine ⟨_, _, _, e, ?_⟩
    rw [yields_bind]
    exact ⟨_, _, _, e', by simp [Rest.trans]⟩

theorem ReadsMembers.yields {read : Reader Json} {s r : List Char} {ms : List (String × Json)}
    (h : ReadsMembers read s ms r) : Yields (readMembers Literal.read (fun _ => read) s) ms r := by
  obtain ⟨u, m, ns, t, hs, ⟨_, e⟩, ⟨_, e'⟩, rfl⟩ := h
  rw [readMembers]
  split <;> rename_i h <;> cases hs.symm.trans h
  · rw [yields_bind]
    refine ⟨_, _, _, e, ?_⟩
    rw [yields_bind]
    exact ⟨_, _, _, e', by simp [Rest.trans]⟩
  · contradiction

theorem yields_noItems {read : Reader Json} (b : Blanks) (r : List Char) :
    Yields (readItems read (b.text ++ ']' :: r)) [] r := by
  have hs : skipBlank (b.text ++ ']' :: r) = ']' :: r := skipBlank_token (by decide)
  rw [readItems]
  split
  · next h => cases hs.symm.trans h
  · next h =>
    cases hs.symm.trans h
    simp [Rest.ofToken]
  · next h => exact absurd hs (h r)

theorem yields_noMembers {read : Reader Json} (b : Blanks) (r : List Char) :
    Yields (readMembers Literal.read (fun _ => read) (b.text ++ '}' :: r)) [] r := by
  have hs : skipBlank (b.text ++ '}' :: r) = '}' :: r := skipBlank_token (by decide)
  rw [readMembers]
  split <;> rename_i h <;> cases hs.symm.trans h
  · simp [Rest.ofToken]
  · contradiction

/-- The first item of an array starts a value. -/
theorem ItemSpellings.exists_cons (items : ItemSpellings) (r : List Char) :
    ∃ h t, skipBlank (items.text ++ r) = h :: t ∧ StartsValue h := by
  have first (b : Blanks) (v : Spelling) (u : List Char) :
      ∃ h t, skipBlank (b.text ++ (v.text ++ u)) = h :: t ∧ StartsValue h := by
    obtain ⟨h, t, e, start⟩ := v.exists_cons
    exact ⟨h, t ++ u, by rw [v.skipBlank_text, e, List.cons_append], start⟩
  cases items with
  | last b v a =>
    rw [ItemSpellings.last_append]
    exact first b v _
  | more b v a others =>
    rw [ItemSpellings.more_append]
    exact first b v _

theorem MemberSpellings.skipBlank_append (b : Blanks) (l : Label) (r : List Char) :
    skipBlank (b.text ++ (l.text ++ r)) =
      '"' :: (l.quoted.body ++ (l.before.text ++ ':' :: (l.after.text ++ r))) := by
  rw [l.text_append]
  exact skipBlank_token (by decide)

mutual

/-- A value is read from its text wherever it stands, blanks before it. -/
theorem Spelling.yields : ∀ (c : Spelling) {depth : Nat}, c.depth ≤ depth → ∀ (b : Blanks)
    {r : List Char}, Delimited r →
    Yields (readValue treeBuilder depth (b.text ++ (c.text ++ r))) c.tree r
  | .scalar s, depth, _, b, r, hr => by
    have hs := (Spelling.scalar s).skipBlank_text b r
    cases depth with
    | zero => exact yields_scalar s hr hs
    | succ depth => exact yields_scalar s hr hs
  | .string q, depth, _, b, r, _ => by
    have hs := (Spelling.string q).skipBlank_text b r
    cases depth with
    | zero => exact yields_string q hs
    | succ depth => exact yields_string q hs
  | .emptyArray b', depth + 1, _, b, r, _ => by
    have hs := (Spelling.emptyArray b').skipBlank_text b r
    exact yields_array (hs.trans (Spelling.emptyArray_append b' r)) (yields_noItems b' r)
  | .array items, depth + 1, hd, b, r, _ => by
    have hs := (Spelling.array items).skipBlank_text b r
    obtain ⟨h, t, e, start⟩ := items.exists_cons (']' :: r)
    have reads := items.reads (Nat.le_of_succ_le_succ hd) r
    exact yields_array (hs.trans (Spelling.array_append r items))
      (reads.yields e start.not_closing.1)
  | .emptyObject b', depth + 1, _, b, r, _ => by
    have hs := (Spelling.emptyObject b').skipBlank_text b r
    exact yields_object (hs.trans (Spelling.emptyObject_append b' r)) (yields_noMembers b' r)
  | .object ms, depth + 1, hd, b, r, _ => by
    have hs := (Spelling.object ms).skipBlank_text b r
    have reads := ms.reads (Nat.le_of_succ_le_succ hd) r
    exact yields_object (hs.trans (Spelling.object_append r ms)) reads.yields

theorem ItemSpellings.reads : ∀ (items : ItemSpellings) {depth : Nat}, items.depth ≤ depth →
    ∀ r : List Char, ReadsItems (readValue treeBuilder depth) (items.text ++ ']' :: r) items.trees r
  | .last b v a, depth, hd, r => by
    have hr : Delimited (']' :: r) := delimited_cons (.inr (.inl rfl))
    have close : skipBlank (a.text ++ ']' :: r) = ']' :: r := skipBlank_token (by decide)
    rw [ItemSpellings.last_append]
    exact ⟨_, _, _, v.yields hd b (hr.append a), yields_lastItem close, rfl⟩
  | .more b v a others, depth, hd, r => by
    obtain ⟨hdv, hdo⟩ := Nat.max_le.1 hd
    obtain ⟨w, ws, t, hw, more, trees⟩ := others.reads hdo r
    obtain ⟨h, u, e, start⟩ := others.exists_cons (']' :: r)
    have hr : Delimited (',' :: (others.text ++ ']' :: r)) := delimited_cons (.inl rfl)
    have comma : skipBlank (a.text ++ ',' :: (others.text ++ ']' :: r)) = ',' :: _ :=
      skipBlank_token (by decide)
    rw [ItemSpellings.more_append]
    exact ⟨_, _, _, v.yields hdv b (hr.append a),
      yields_moreItems comma e start.not_closing.1 hw more, congrArg _ trees⟩

theorem MemberSpellings.reads : ∀ (ms : MemberSpellings) {depth : Nat}, ms.depth ≤ depth →
    ∀ r : List Char, ReadsMembers (readValue treeBuilder depth) (ms.text ++ '}' :: r) ms.trees r
  | .last b l v a, depth, hd, r => by
    have hr : Delimited ('}' :: r) := delimited_cons (.inr (.inr rfl))
    have close : skipBlank (a.text ++ '}' :: r) = '}' :: r := skipBlank_token (by decide)
    rw [MemberSpellings.last_append]
    exact ⟨_, _, _, _, MemberSpellings.skipBlank_append b l _,
      yields_member l (v.yields hd l.after (hr.append a)), yields_lastMember close, rfl⟩
  | .more b l v a others, depth, hd, r => by
    obtain ⟨hdv, hdo⟩ := Nat.max_le.1 hd
    obtain ⟨u, m, ns, t, hu, hm, more, trees⟩ := others.reads hdo r
    have hr : Delimited (',' :: (others.text ++ '}' :: r)) := delimited_cons (.inl rfl)
    have comma : skipBlank (a.text ++ ',' :: (others.text ++ '}' :: r)) = ',' :: _ :=
      skipBlank_token (by decide)
    rw [MemberSpellings.more_append]
    exact ⟨_, _, _, _, MemberSpellings.skipBlank_append b l _,
      yields_member l (v.yields hdv l.after (hr.append a)),
      yields_moreMembers comma hu hm more, congrArg _ trees⟩

end

/-! ### Documents -/

/-- A text is read as a whole if nothing but blanks is left. -/
theorem readText_eq_ok {α : Type} {read : Reader α} {text : List Char} {v : α} :
    readText read text = .ok v ↔ ∃ r, Yields (read text) v r ∧ skipBlank r = [] := by
  constructor
  · intro h
    unfold readText at h
    cases e : read text with
    | error _ => simp [e, bind, Except.bind] at h
    | ok x =>
      rw [e] at h
      simp only [bind, Except.bind] at h
      split at h
      · next hr =>
        cases h
        exact ⟨x.2.val, ⟨x.2.property, rfl⟩, hr⟩
      · simp at h
  · rintro ⟨r, ⟨_, e⟩, hr⟩
    simp [readText, e, bind, Except.bind, hr, pure, Except.pure]

/-- A text has the values that documents with this text spell, if they are not nested too deeply. -/
theorem tree?_eq_ok_iff {text : List Char} {v : Json} :
    tree? text = .ok v ↔ ∃ d : Document, d.text = text ∧ d.tree = v ∧ d.root.depth ≤ maxDepth := by
  rw [tree?, readText_eq_ok]
  constructor
  · rintro ⟨r, h, hr⟩
    obtain ⟨b, c, rfl, tree, hd⟩ := readsSpellings_readValue maxDepth h
    obtain ⟨a, ha⟩ := exists_blanks r
    rw [hr, List.append_nil] at ha
    exact ⟨⟨b, c, a⟩, by rw [Document.text, ha], tree, hd⟩
  · rintro ⟨⟨b, c, a⟩, rfl, rfl, hd⟩
    have after : Delimited a.text := by simpa using delimited_nil.append a
    exact ⟨a.text, c.yields hd b after, by simpa [skipBlank] using skipBlank_append a []⟩

/-- An accepted text is the text of a document that settles to its value. -/
theorem exists_document {text : List Char} {v : Json} (h : parse? text = .ok v) :
    ∃ d : Document, d.text = text ∧ d.tree.settled = v ∧ d.root.depth ≤ maxDepth := by
  rw [parse?] at h
  split at h
  · next t ht =>
    obtain ⟨d, text, tree, hd⟩ := tree?_eq_ok_iff.1 ht
    cases h
    exact ⟨d, text, congrArg settled tree, hd⟩
  · cases h

theorem parse?_of_tree? {text : List Char} {v : Json} (h : tree? text = .ok v) :
    parse? text = .ok v.settled := by
  rw [parse?, h]

end FlowLint.Json
