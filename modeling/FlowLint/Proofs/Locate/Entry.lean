import FlowLint.Locate.Find
import FlowLint.Proofs.Json.Completeness
import FlowLint.Proofs.Json.Lookup

/-!
Places in a spelled text. An `Entry` cuts a text at a value and its label, so that the parts give
the text back; `entryAt?` goes down a spelling step by step, and what it ends at is the value that
the path leads to in the tree.
-/

namespace FlowLint

open Json Locate

/-- A value within a text, with its label where it is a member. -/
structure Entry where
  before : List Char
  label  : Option Label
  value  : Spelling
  after  : List Char

namespace Entry

/-- The name and the colon of a member, nothing for other values. -/
def labelText (e : Entry) : List Char :=
  match e.label with
  | some l => l.text
  | none   => []

/-- The text of the value with its label. -/
def shown (e : Entry) : List Char := e.labelText ++ e.value.text

/-- The whole text. -/
def text (e : Entry) : List Char := e.before ++ (e.shown ++ e.after)

/-- The stretch from the label to the end of the value. -/
def span (e : Entry) : Span :=
  ⟨Text.byteLength e.before, Text.byteLength e.before + Text.byteLength e.shown, e.shown⟩

/-- Where a walk stands that has found the entry. -/
def place (e : Entry) : Place := ⟨e.shown ++ e.after, e.value.text ++ e.after⟩

/-- The entry in a longer text. -/
def within (pre post : List Char) (e : Entry) : Entry :=
  { e with before := pre ++ e.before, after := e.after ++ post }

variable (pre post : List Char) (e : Entry)

@[simp] theorem within_label : (e.within pre post).label = e.label := rfl

@[simp] theorem within_value : (e.within pre post).value = e.value := rfl

@[simp] theorem within_shown : (e.within pre post).shown = e.shown := rfl

@[simp] theorem within_after : (e.within pre post).after = e.after ++ post := rfl

theorem within_text : (e.within pre post).text = pre ++ (e.text ++ post) := by
  simp [text, within, shown, labelText]

/-- What stands before an entry does not count for the place. -/
theorem within_place : (e.within pre post).place = (e.within [] post).place := rfl

theorem within_within_place (r : List Char) :
    ((e.within pre post).within [] r).place = (e.within [] (post ++ r)).place := by
  simp [place, within, shown, labelText]

theorem place_eq (b : List Char) (l : Option Label) (v : Spelling) (a r : List Char) :
    (Entry.within [] r ⟨b, l, v, a⟩).place =
      ⟨(match l with | some l => l.text | none => []) ++ (v.text ++ (a ++ r)),
        v.text ++ (a ++ r)⟩ := by
  simp [place, within, shown, labelText]

end Entry

/-! ### One step -/

/-- The item at an index. -/
def Json.ItemSpellings.entryAt? : ItemSpellings → Nat → Option Entry
  | .last b v a,        0     => some ⟨b.text, none, v, a.text⟩
  | .last _ _ _,        _ + 1 => none
  | .more b v a others, 0     => some ⟨b.text, none, v, a.text ++ ',' :: others.text⟩
  | .more b v a others, i + 1 =>
    (others.entryAt? i).map (Entry.within (b.text ++ (v.text ++ (a.text ++ [',']))) [])

/-- The first member of a name. -/
def Json.MemberSpellings.entryAt? : MemberSpellings → String → Option Entry
  | .last b l v a, name        => if l.name = name then some ⟨b.text, some l, v, a.text⟩ else none
  | .more b l v a others, name =>
    if l.name = name then some ⟨b.text, some l, v, a.text ++ ',' :: others.text⟩
    else (others.entryAt? name).map
      (Entry.within (b.text ++ (l.text ++ (v.text ++ (a.text ++ [','])))) [])

/-- One step down from a value. -/
def Json.Spelling.entryAt? : Spelling → Segment → Option Entry
  | .array items, .index i  => (items.entryAt? i).map (Entry.within ['['] [']'])
  | .object ms,   .key name => (ms.entryAt? name).map (Entry.within ['{'] ['}'])
  | _,            _         => none

/-- All steps down from an entry. -/
def Entry.descend? : Path → Entry → Option Entry
  | [],        e => some e
  | step :: p, e =>
    (e.value.entryAt? step).bind fun i => (i.within (e.before ++ e.labelText) e.after).descend? p

/-- The whole document as an entry. -/
def Json.Document.entry (d : Document) : Entry := ⟨d.before.text, none, d.root, d.after.text⟩

/-- What a path leads to. -/
def Json.Document.entryAt? (d : Document) (p : Path) : Option Entry := d.entry.descend? p

/-! ### Text -/

theorem Json.ItemSpellings.text_of_entryAt? : ∀ {items : ItemSpellings} {i : Nat} {e : Entry},
    items.entryAt? i = some e → e.text = items.text
  | .last b v a, 0, e, h => by
    cases h
    simp [Entry.text, Entry.shown, Entry.labelText, ItemSpellings.text]
  | .more b v a others, 0, e, h => by
    cases h
    simp [Entry.text, Entry.shown, Entry.labelText, ItemSpellings.text]
  | .more b v a others, i + 1, e, h => by
    obtain ⟨e', h', rfl⟩ := Option.map_eq_some_iff.1 h
    rw [Entry.within_text, text_of_entryAt? h', ItemSpellings.text]
    simp

theorem Json.MemberSpellings.text_of_entryAt? :
    ∀ {ms : MemberSpellings} {name : String} {e : Entry},
      ms.entryAt? name = some e → e.text = ms.text
  | .last b l v a, name, e, h => by
    rw [MemberSpellings.entryAt?] at h
    split at h <;> cases h
    simp [Entry.text, Entry.shown, Entry.labelText, MemberSpellings.text]
  | .more b l v a others, name, e, h => by
    rw [MemberSpellings.entryAt?] at h
    split at h
    · cases h
      simp [Entry.text, Entry.shown, Entry.labelText, MemberSpellings.text]
    · obtain ⟨e', h', rfl⟩ := Option.map_eq_some_iff.1 h
      rw [Entry.within_text, text_of_entryAt? h', MemberSpellings.text]
      simp

/-- A step down is a cut of the text of the value. -/
theorem Json.Spelling.text_of_entryAt? {c : Spelling} {step : Segment} {e : Entry}
    (h : c.entryAt? step = some e) : e.text = c.text := by
  cases c with
  | array items =>
    cases step with
    | key name => cases h
    | index i =>
      obtain ⟨e', h', rfl⟩ := Option.map_eq_some_iff.1 h
      rw [Entry.within_text, items.text_of_entryAt? h', Spelling.text]
      rfl
  | object ms =>
    cases step with
    | key name =>
      obtain ⟨e', h', rfl⟩ := Option.map_eq_some_iff.1 h
      rw [Entry.within_text, ms.text_of_entryAt? h', Spelling.text]
      rfl
    | index i => cases h
  | _ => cases step <;> cases h

/-- One step down from an entry, seen in the whole text. -/
theorem Entry.text_of_step {e i : Entry} {step : Segment} (h : e.value.entryAt? step = some i) :
    (i.within (e.before ++ e.labelText) e.after).text = e.text := by
  rw [Entry.within_text, Json.Spelling.text_of_entryAt? h, Entry.text, Entry.shown]
  simp

/-- Every entry is a cut of the same text. -/
theorem Entry.text_of_descend? {p : Path} {e i : Entry} (h : e.descend? p = some i) :
    i.text = e.text := by
  induction p generalizing e with
  | nil =>
    cases h
    rfl
  | cons step p ih =>
    obtain ⟨j, hj, h⟩ := Option.bind_eq_some_iff.1 h
    exact (ih h).trans (Entry.text_of_step hj)

/-! ### Values -/

theorem Json.ItemSpellings.tree_of_entryAt? :
    ∀ (items : ItemSpellings) (i : Nat), (items.entryAt? i).map (·.value.tree) = items.trees[i]?
  | .last b v a, 0 => rfl
  | .last b v a, i + 1 => rfl
  | .more b v a others, 0 => rfl
  | .more b v a others, i + 1 => by
    rw [ItemSpellings.entryAt?, Option.map_map, ItemSpellings.trees, List.getElem?_cons_succ,
      ← others.tree_of_entryAt? i]
    rfl

/-- By name the first member is found, as in the tree. -/
theorem Json.MemberSpellings.tree_of_entryAt? : ∀ (ms : MemberSpellings) (name : String),
    (ms.entryAt? name).map (·.value.tree) = ms.trees.lookup name
  | .last b l v a, name => by
    rw [MemberSpellings.entryAt?, MemberSpellings.trees, lookup_cons_ite]
    split <;> rfl
  | .more b l v a others, name => by
    rw [MemberSpellings.entryAt?, MemberSpellings.trees, lookup_cons_ite,
      ← others.tree_of_entryAt? name]
    split
    · rfl
    · rw [Option.map_map]
      rfl

theorem Json.Spelling.tree_of_entryAt? (c : Spelling) (step : Segment) :
    (c.entryAt? step).map (·.value.tree) = c.tree.child? step := by
  cases c with
  | scalar s =>
    obtain ⟨text, value, h⟩ := s
    cases step <;> cases h <;> rfl
  | array items =>
    cases step with
    | key name => rfl
    | index i =>
      rw [Spelling.entryAt?, Option.map_map]
      exact items.tree_of_entryAt? i
  | object ms =>
    cases step with
    | key name =>
      rw [Spelling.entryAt?, Option.map_map]
      exact ms.tree_of_entryAt? name
    | index i => rfl
  | _ => cases step <;> rfl

/-- A path leads to the same value in the spelling and in its tree. -/
theorem Entry.tree_of_descend? (p : Path) (e : Entry) :
    (e.descend? p).map (·.value.tree) = e.value.tree.at? p := by
  induction p generalizing e with
  | nil => rfl
  | cons step p ih =>
    rw [Entry.descend?, Option.map_bind, at?_cons, ← e.value.tree_of_entryAt? step, Option.bind_map]
    exact Option.bind_congr fun i _ => ih _

/-! ### Labels -/

/-- The name in a step. -/
def Segment.name? : Segment → Option String
  | .key name => some name
  | .index _  => none

theorem Json.MemberSpellings.label_of_entryAt? :
    ∀ {ms : MemberSpellings} {name : String} {e : Entry}, ms.entryAt? name = some e →
      e.label.map Label.name = some name
  | .last b l v a, name, e, h => by
    rw [MemberSpellings.entryAt?] at h
    split at h <;> cases h
    next h => exact congrArg some h
  | .more b l v a others, name, e, h => by
    rw [MemberSpellings.entryAt?] at h
    split at h
    · next hl =>
      cases h
      exact congrArg some hl
    · obtain ⟨e', h', rfl⟩ := Option.map_eq_some_iff.1 h
      rw [Entry.within_label]
      exact label_of_entryAt? h'

theorem Json.ItemSpellings.label_of_entryAt? : ∀ {items : ItemSpellings} {i : Nat} {e : Entry},
    items.entryAt? i = some e → e.label = none
  | .last b v a, 0, e, h => by cases h; rfl
  | .more b v a others, 0, e, h => by cases h; rfl
  | .more b v a others, i + 1, e, h => by
    obtain ⟨e', h', rfl⟩ := Option.map_eq_some_iff.1 h
    rw [Entry.within_label]
    exact label_of_entryAt? h'

/-- Only members have a label. -/
theorem Json.Spelling.label_of_entryAt? {c : Spelling} {step : Segment} {e : Entry}
    (h : c.entryAt? step = some e) : e.label.map Label.name = step.name? := by
  cases c with
  | array items =>
    cases step with
    | key name => cases h
    | index i =>
      obtain ⟨e', h', rfl⟩ := Option.map_eq_some_iff.1 h
      rw [Entry.within_label, items.label_of_entryAt? h']
      rfl
  | object ms =>
    cases step with
    | key name =>
      obtain ⟨e', h', rfl⟩ := Option.map_eq_some_iff.1 h
      rw [Entry.within_label]
      exact ms.label_of_entryAt? h'
    | index i => cases h
  | _ => cases step <;> cases h

/-- The label of an entry is the name in the last step to it. -/
theorem Entry.label_of_descend? {p : Path} {e i : Entry} (h : e.descend? p = some i) :
    i.label.map Label.name = (p.getLast?.map Segment.name?).getD (e.label.map Label.name) := by
  induction p generalizing e with
  | nil =>
    cases h
    rfl
  | cons step p ih =>
    obtain ⟨j, hj, h⟩ := Option.bind_eq_some_iff.1 h
    rw [ih h, Entry.within_label, Json.Spelling.label_of_entryAt? hj, List.getLast?_cons]
    cases p.getLast? <;> rfl

/-! ### Depth and surroundings -/

theorem Json.ItemSpellings.depth_of_entryAt? : ∀ {items : ItemSpellings} {i : Nat} {e : Entry},
    items.entryAt? i = some e → e.value.depth ≤ items.depth
  | .last b v a, 0, e, h => by
    cases h
    exact Nat.le_refl _
  | .more b v a others, 0, e, h => by
    cases h
    exact Nat.le_max_left ..
  | .more b v a others, i + 1, e, h => by
    obtain ⟨e', h', rfl⟩ := Option.map_eq_some_iff.1 h
    rw [Entry.within_value]
    exact Nat.le_trans (depth_of_entryAt? h') (Nat.le_max_right ..)

theorem Json.MemberSpellings.depth_of_entryAt? :
    ∀ {ms : MemberSpellings} {name : String} {e : Entry}, ms.entryAt? name = some e →
      e.value.depth ≤ ms.depth
  | .last b l v a, name, e, h => by
    rw [MemberSpellings.entryAt?] at h
    split at h <;> cases h
    exact Nat.le_refl _
  | .more b l v a others, name, e, h => by
    rw [MemberSpellings.entryAt?] at h
    split at h
    · cases h
      exact Nat.le_max_left ..
    · obtain ⟨e', h', rfl⟩ := Option.map_eq_some_iff.1 h
      rw [Entry.within_value]
      exact Nat.le_trans (depth_of_entryAt? h') (Nat.le_max_right ..)

/-- A step down leads to less depth. -/
theorem Json.Spelling.depth_of_entryAt? {c : Spelling} {step : Segment} {e : Entry}
    (h : c.entryAt? step = some e) : e.value.depth ≤ c.depth := by
  cases c with
  | array items =>
    cases step with
    | key name => cases h
    | index i =>
      obtain ⟨e', h', rfl⟩ := Option.map_eq_some_iff.1 h
      rw [Entry.within_value]
      exact Nat.le_succ_of_le (items.depth_of_entryAt? h')
  | object ms =>
    cases step with
    | key name =>
      obtain ⟨e', h', rfl⟩ := Option.map_eq_some_iff.1 h
      rw [Entry.within_value]
      exact Nat.le_succ_of_le (ms.depth_of_entryAt? h')
    | index i => cases h
  | _ => cases step <;> cases h

theorem Entry.depth_of_descend? {p : Path} {e i : Entry} (h : e.descend? p = some i) :
    i.value.depth ≤ e.value.depth := by
  induction p generalizing e with
  | nil =>
    cases h
    exact Nat.le_refl _
  | cons step p ih =>
    obtain ⟨j, hj, h⟩ := Option.bind_eq_some_iff.1 h
    have below := ih h
    rw [Entry.within_value] at below
    exact Nat.le_trans below (Json.Spelling.depth_of_entryAt? hj)

theorem Json.ItemSpellings.delimited_of_entryAt? : ∀ {items : ItemSpellings} {i : Nat} {e : Entry}
    (r : List Char), items.entryAt? i = some e → Delimited (e.after ++ ']' :: r)
  | .last b v a, 0, e, r, h => by
    cases h
    exact (delimited_cons (.inr (.inl rfl))).append a
  | .more b v a others, 0, e, r, h => by
    cases h
    rw [List.append_assoc]
    exact (delimited_cons (.inl rfl)).append a
  | .more b v a others, i + 1, e, r, h => by
    obtain ⟨e', h', rfl⟩ := Option.map_eq_some_iff.1 h
    rw [Entry.within_after, List.append_nil]
    exact delimited_of_entryAt? r h'

theorem Json.MemberSpellings.delimited_of_entryAt? : ∀ {ms : MemberSpellings} {name : String}
    {e : Entry} (r : List Char), ms.entryAt? name = some e → Delimited (e.after ++ '}' :: r)
  | .last b l v a, name, e, r, h => by
    rw [MemberSpellings.entryAt?] at h
    split at h <;> cases h
    exact (delimited_cons (.inr (.inr rfl))).append a
  | .more b l v a others, name, e, r, h => by
    rw [MemberSpellings.entryAt?] at h
    split at h
    · cases h
      rw [List.append_assoc]
      exact (delimited_cons (.inl rfl)).append a
    · obtain ⟨e', h', rfl⟩ := Option.map_eq_some_iff.1 h
      rw [Entry.within_after, List.append_nil]
      exact delimited_of_entryAt? r h'

/-- Behind an item or a member there is a comma or a closing bracket. -/
theorem Json.Spelling.delimited_of_entryAt? {c : Spelling} {step : Segment} {e : Entry}
    (h : c.entryAt? step = some e) (r : List Char) : Delimited (e.after ++ r) := by
  cases c with
  | array items =>
    cases step with
    | key name => cases h
    | index i =>
      obtain ⟨e', h', rfl⟩ := Option.map_eq_some_iff.1 h
      rw [Entry.within_after, List.append_assoc]
      exact items.delimited_of_entryAt? r h'
  | object ms =>
    cases step with
    | key name =>
      obtain ⟨e', h', rfl⟩ := Option.map_eq_some_iff.1 h
      rw [Entry.within_after, List.append_assoc]
      exact ms.delimited_of_entryAt? r h'
    | index i => cases h
  | _ => cases step <;> cases h

/-- What follows an entry does not run into its value. -/
theorem Entry.delimited_of_descend? {p : Path} {e i : Entry} (h : e.descend? p = some i)
    (he : Delimited e.after) : Delimited i.after := by
  induction p generalizing e with
  | nil =>
    cases h
    exact he
  | cons step p ih =>
    obtain ⟨j, hj, h⟩ := Option.bind_eq_some_iff.1 h
    exact ih h (Json.Spelling.delimited_of_entryAt? hj e.after)

/-! ### Entries of a document -/

section

variable {d : Document} {p : Path} {e : Entry}

theorem Json.Document.text_of_entryAt? (h : d.entryAt? p = some e) : e.text = d.text := by
  rw [Entry.text_of_descend? h]
  rfl

theorem Json.Document.label_of_entryAt? (h : d.entryAt? p = some e) :
    e.label.map Label.name = p.getLast?.bind Segment.name? := by
  rw [Entry.label_of_descend? h]
  cases p.getLast? <;> rfl

theorem Json.Document.delimited_of_entryAt? (h : d.entryAt? p = some e) : Delimited e.after :=
  Entry.delimited_of_descend? h (by simpa [entry] using delimited_nil.append d.after)

/-- The text of an entry without its label reads as its value. -/
theorem Json.Document.readable_of_entryAt? (h : d.entryAt? p = some e)
    (hd : d.root.depth ≤ maxDepth) : tree? e.value.text = .ok e.value.tree :=
  tree?_eq_ok_iff.2 ⟨⟨⟨[], by simp⟩, e.value, ⟨[], by simp⟩⟩, by simp [Document.text], rfl,
    Nat.le_trans (Entry.depth_of_descend? h) hd⟩

theorem Json.Document.tree_of_entryAt? (d : Document) (p : Path) :
    (d.entryAt? p).map (·.value.tree) = d.tree.at? p :=
  Entry.tree_of_descend? p d.entry

theorem Json.Document.isSome_entryAt?_iff :
    (d.entryAt? p).isSome ↔ ∃ w, d.tree.at? p = some w := by
  rw [← d.tree_of_entryAt? p, ← Option.isSome_iff_exists, Option.isSome_map]

end

end FlowLint
