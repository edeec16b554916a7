import FlowLint.Json.Basic
import FlowLint.Path.Basic

/-!
Values at paths. Two readings of an object that repeats a name meet here: `settled` lets the last
value of the name count and `earliest` the first. A path leads to the same place in a value and in
its earliest reading; in the settled one it may not.
-/

namespace FlowLint

/-! ### Members by name -/

section Members

variable {α β : Type}

theorem lookup_cons_ite (name : String) (m : String × α) (ms : List (String × α)) :
    (m :: ms).lookup name = if m.1 = name then some m.2 else ms.lookup name := by
  rw [List.lookup_cons]
  by_cases h : m.1 = name
  · simp [h]
  · rw [if_neg h, beq_false_of_ne (Ne.symm h)]

/-- To change the values does not change which one is found. -/
theorem lookup_map_value (f : α → β) (name : String) (ms : List (String × α)) :
    (ms.map fun m => (m.1, f m.2)).lookup name = (ms.lookup name).map f := by
  induction ms with
  | nil => rfl
  | cons m ms ih =>
    rw [List.map_cons, lookup_cons_ite, lookup_cons_ite, ih]
    split <;> rfl

theorem mem_of_lookup {name : String} {v : α} {ms : List (String × α)}
    (h : ms.lookup name = some v) : (name, v) ∈ ms := by
  obtain ⟨before, after, rfl, _⟩ := List.lookup_eq_some_iff.1 h
  exact List.mem_append_right _ List.mem_cons_self

/-- Where no name repeats, every member is the first of its name. -/
theorem lookup_of_mem {name : String} {v : α} {ms : List (String × α)}
    (h : (ms.map Prod.fst).Nodup) (hm : (name, v) ∈ ms) : ms.lookup name = some v := by
  induction ms with
  | nil => cases hm
  | cons m ms ih =>
    obtain ⟨fresh, h⟩ := List.nodup_cons.1 h
    rw [lookup_cons_ite]
    rcases List.mem_cons.1 hm with rfl | hm
    · exact if_pos rfl
    · have other : m.1 ≠ name := by
        rintro rfl
        exact fresh (List.mem_map.2 ⟨_, hm, rfl⟩)
      rw [if_neg other, ih h hm]

/-- Something is found under each name that there is. -/
theorem exists_lookup_iff {name : String} {ms : List (String × α)} :
    (∃ v, ms.lookup name = some v) ↔ name ∈ ms.map Prod.fst := by
  constructor
  · rintro ⟨v, h⟩
    exact List.mem_map.2 ⟨_, mem_of_lookup h, rfl⟩
  · intro h
    obtain ⟨m, hm, rfl⟩ := List.mem_map.1 h
    rw [← Option.isSome_iff_exists, List.lookup_isSome_iff]
    exact ⟨m, hm, beq_self_eq_true _⟩

/-- Each name once, in its first place and with its first value. -/
def firstOfEach : List (String × α) → List (String × α)
  | []      => []
  | m :: ms => m :: (firstOfEach ms).filter (·.1 ≠ m.1)

theorem lookup_filter_ne {name other : String} (h : other ≠ name) (ms : List (String × α)) :
    (ms.filter (·.1 ≠ other)).lookup name = ms.lookup name := by
  induction ms with
  | nil => rfl
  | cons m ms ih =>
    rw [lookup_cons_ite]
    by_cases hm : m.1 = other
    · rw [List.filter_cons_of_neg (by simpa using hm), ih, if_neg (hm ▸ h)]
    · rw [List.filter_cons_of_pos (by simpa using hm), lookup_cons_ite, ih]

/-- The first value of a name is the one that is kept. -/
theorem lookup_firstOfEach (name : String) (ms : List (String × α)) :
    (firstOfEach ms).lookup name = ms.lookup name := by
  induction ms with
  | nil => rfl
  | cons m ms ih =>
    rw [firstOfEach, lookup_cons_ite, lookup_cons_ite]
    by_cases h : m.1 = name
    · rw [if_pos h, if_pos h]
    · rw [if_neg h, if_neg h, lookup_filter_ne h, ih]

theorem lookup_put (name other : String) (v : α) (ms : List (String × α)) :
    (put other v ms).lookup name = if other = name then some v else ms.lookup name := by
  induction ms with
  | nil => rw [put, lookup_cons_ite]
  | cons m ms ih =>
    rw [put]
    by_cases h : m.1 = other
    · rw [if_pos h, lookup_cons_ite, lookup_cons_ite, h]
      split <;> rfl
    · rw [if_neg h, lookup_cons_ite, lookup_cons_ite, ih]
      by_cases h' : m.1 = name
      · rw [if_pos h', if_pos h', if_neg fun e => h (h'.trans e.symm)]
      · rw [if_neg h', if_neg h']

theorem lookup_foldl_put (name : String) (ms done : List (String × α)) :
    (ms.foldl (fun done m => put m.1 m.2 done) done).lookup name =
      (ms.reverse.lookup name).or (done.lookup name) := by
  induction ms generalizing done with
  | nil => rfl
  | cons m ms ih =>
    rw [List.foldl_cons, ih, lookup_put, List.reverse_cons, List.lookup_append, lookup_cons_ite,
      Option.or_assoc]
    split <;> rfl

/-- The last value of a name is the one that counts. -/
theorem lookup_unrepeated (name : String) (ms : List (String × α)) :
    (unrepeated ms).lookup name = ms.reverse.lookup name := by
  rw [unrepeated, lookup_foldl_put, List.lookup_nil, Option.or_none]

/-- No other member is added or changed. -/
theorem mem_put {m : String × α} {name : String} {v : α} {ms : List (String × α)}
    (h : m ∈ put name v ms) : m = (name, v) ∨ m ∈ ms := by
  induction ms with
  | nil => exact .inl (List.mem_singleton.1 h)
  | cons m' ms ih =>
    rw [put] at h
    split at h
    · rcases List.mem_cons.1 h with rfl | h
      · exact .inl rfl
      · exact .inr (List.mem_cons_of_mem _ h)
    · rcases List.mem_cons.1 h with rfl | h
      · exact .inr List.mem_cons_self
      · exact (ih h).imp id (List.mem_cons_of_mem _)

theorem nodup_put {other : String} {v : α} {ms : List (String × α)}
    (h : (ms.map Prod.fst).Nodup) : ((put other v ms).map Prod.fst).Nodup := by
  induction ms with
  | nil => simp [put]
  | cons m ms ih =>
    obtain ⟨fresh, h⟩ := List.nodup_cons.1 h
    rw [put]
    split
    · next e => exact List.nodup_cons.2 ⟨e ▸ fresh, h⟩
    · next e =>
      refine List.nodup_cons.2 ⟨fun hm => ?_, ih h⟩
      obtain ⟨m', hm', same⟩ := List.mem_map.1 hm
      rcases mem_put hm' with rfl | hm'
      · exact e same.symm
      · exact fresh (List.mem_map.2 ⟨m', hm', same⟩)

theorem mem_unrepeated {m : String × α} {ms : List (String × α)} (h : m ∈ unrepeated ms) :
    m ∈ ms := by
  suffices done : ∀ done : List (String × α),
      m ∈ ms.foldl (fun done m => put m.1 m.2 done) done → m ∈ ms ∨ m ∈ done from
    (done [] h).resolve_right List.not_mem_nil
  clear h
  induction ms with
  | nil => exact fun _ h => .inr h
  | cons m' ms ih =>
    intro done h
    rcases ih _ h with h | h
    · exact .inl (List.mem_cons_of_mem _ h)
    · rcases mem_put h with rfl | h
      · exact .inl List.mem_cons_self
      · exact .inr h

theorem put_of_not_mem {name : String} {v : α} {ms : List (String × α)}
    (fresh : name ∉ ms.map Prod.fst) : put name v ms = ms ++ [(name, v)] := by
  induction ms with
  | nil => rfl
  | cons m ms ih =>
    obtain ⟨ne, fresh⟩ := not_or.1 fun e => fresh (List.mem_cons.2 e)
    rw [put, if_neg (Ne.symm ne), ih fresh, List.cons_append]

/-- Names that do not repeat are left as they are. -/
theorem unrepeated_of_nodup {ms : List (String × α)} (h : (ms.map Prod.fst).Nodup) :
    unrepeated ms = ms := by
  suffices done : ∀ done : List (String × α), ((done ++ ms).map Prod.fst).Nodup →
      ms.foldl (fun done m => put m.1 m.2 done) done = done ++ ms from done [] h
  clear h
  induction ms with
  | nil => exact fun done _ => (List.append_nil done).symm
  | cons m ms ih =>
    intro done h
    have fresh : m.1 ∉ done.map Prod.fst := by
      intro hm
      rw [List.map_append] at h
      exact (List.nodup_append.1 h).2.2 _ hm _ List.mem_cons_self rfl
    rw [List.foldl_cons, put_of_not_mem fresh, ih, List.append_assoc, List.singleton_append]
    rw [List.append_assoc]
    exact h

/-- No name is left twice. -/
theorem nodup_unrepeated (ms : List (String × α)) : ((unrepeated ms).map Prod.fst).Nodup := by
  suffices h : ∀ done : List (String × α), (done.map Prod.fst).Nodup →
      ((ms.foldl (fun done m => put m.1 m.2 done) done).map Prod.fst).Nodup from h [] .nil
  induction ms with
  | nil => exact fun _ h => h
  | cons m ms ih => exact fun _ h => ih _ (nodup_put h)

end Members

namespace Json

/-! ### One step and many -/

/-- The value one step down: the first member of a name, or the item at an index. -/
def child? : Json → Segment → Option Json
  | .object members, .key name => members.lookup name
  | .array items,    .index i  => items[i]?
  | _,               _         => none

/-- The value at a path. -/
def at? : Json → Path → Option Json
  | v, []        => some v
  | v, step :: p => (v.child? step).bind (·.at? p)

@[simp] theorem at?_nil (v : Json) : v.at? [] = some v := rfl

theorem at?_cons (v : Json) (step : Segment) (p : Path) :
    v.at? (step :: p) = (v.child? step).bind (·.at? p) := rfl

theorem at?_concat (v : Json) (p : Path) (step : Segment) :
    v.at? (p ++ [step]) = (v.at? p).bind (·.child? step) := by
  induction p generalizing v with
  | nil =>
    rw [List.nil_append, at?_cons, at?_nil, Option.bind_some]
    exact Option.bind_fun_some _
  | cons s p ih =>
    rw [List.cons_append, at?_cons, at?_cons, Option.bind_assoc]
    exact Option.bind_congr fun u _ => ih u

/-! ### The first value of each name -/

mutual

/-- The value in which of a repeated name the first value counts, at every level. -/
def earliest : Json → Json
  | .array items    => .array (earliestItems items)
  | .object members => .object (firstOfEach (earliestMembers members))
  | v               => v

def earliestItems : List Json → List Json
  | []      => []
  | v :: vs => earliest v :: earliestItems vs

def earliestMembers : List (String × Json) → List (String × Json)
  | []           => []
  | (k, v) :: ms => (k, earliest v) :: earliestMembers ms

end

theorem earliestItems_eq_map : ∀ vs, earliestItems vs = vs.map earliest
  | []      => rfl
  | v :: vs => congrArg (earliest v :: ·) (earliestItems_eq_map vs)

theorem earliestMembers_eq_map : ∀ ms, earliestMembers ms = ms.map fun m => (m.1, m.2.earliest)
  | []           => rfl
  | (k, v) :: ms => congrArg ((k, earliest v) :: ·) (earliestMembers_eq_map ms)

/-- One step down leads to the same place in the earliest reading. -/
theorem child?_earliest (v : Json) (step : Segment) :
    v.earliest.child? step = (v.child? step).map earliest := by
  cases v with
  | array items =>
    cases step with
    | key name => rfl
    | index i => simp [earliest, child?, earliestItems_eq_map]
  | object members =>
    cases step with
    | key name =>
      rw [earliest, child?, lookup_firstOfEach, earliestMembers_eq_map, lookup_map_value, child?]
    | index i => rfl
  | _ => cases step <;> rfl

/-- A path leads to the same place in the earliest reading. -/
theorem at?_earliest (v : Json) (p : Path) : v.earliest.at? p = (v.at? p).map earliest := by
  induction p generalizing v with
  | nil => rfl
  | cons step p ih =>
    rw [at?_cons, at?_cons, child?_earliest, Option.bind_map, Option.map_bind]
    exact Option.bind_congr fun w _ => ih w

/-! ### The last value of each name -/

theorem settledItems_eq_map : ∀ vs, settledItems vs = vs.map settled
  | []      => rfl
  | v :: vs => congrArg (settled v :: ·) (settledItems_eq_map vs)

theorem settledMembers_eq_map : ∀ ms, settledMembers ms = ms.map fun m => (m.1, m.2.settled)
  | []           => rfl
  | (k, v) :: ms => congrArg ((k, settled v) :: ·) (settledMembers_eq_map ms)

/-! ### Values without repeats -/

/-- No object has a name twice, at any level. -/
inductive NoRepeats : Json → Prop
  | null : NoRepeats .null
  | bool (b : Bool) : NoRepeats (.bool b)
  | number (n : Number) : NoRepeats (.number n)
  | string (s : String) : NoRepeats (.string s)
  | array {items : List Json} (below : ∀ v ∈ items, NoRepeats v) : NoRepeats (.array items)
  | object {members : List (String × Json)} (names : (members.map Prod.fst).Nodup)
      (below : ∀ m ∈ members, NoRepeats m.2) : NoRepeats (.object members)

mutual

/-- What is settled repeats no name, however deep. -/
theorem noRepeats_settled : ∀ v : Json, v.settled.NoRepeats
  | .null           => .null
  | .bool b         => .bool b
  | .number n       => .number n
  | .string s       => .string s
  | .array items    => .array (noRepeats_settledItems items)
  | .object members =>
    .object (nodup_unrepeated _) fun m hm => noRepeats_settledMembers members m (mem_unrepeated hm)

theorem noRepeats_settledItems : ∀ (vs : List Json), ∀ v ∈ settledItems vs, v.NoRepeats
  | v :: vs, w, hw => by
    rcases List.mem_cons.1 hw with rfl | hw
    · exact noRepeats_settled v
    · exact noRepeats_settledItems vs w hw

theorem noRepeats_settledMembers :
    ∀ (ms : List (String × Json)), ∀ m ∈ settledMembers ms, m.2.NoRepeats
  | (k, v) :: ms, m, hm => by
    rcases List.mem_cons.1 hm with rfl | hm
    · exact noRepeats_settled v
    · exact noRepeats_settledMembers ms m hm

end

/-- Without repeats there is nothing to settle. -/
theorem NoRepeats.settled_eq {v : Json} (h : v.NoRepeats) : v.settled = v := by
  induction h with
  | array _ ih =>
    rw [settled, settledItems_eq_map, List.map_congr_left ih, List.map_id']
  | object names _ ih =>
    rw [settled, settledMembers_eq_map, List.map_congr_left fun m hm => by rw [ih m hm],
      List.map_id', unrepeated_of_nodup names]
  | _ => rfl

theorem NoRepeats.child {v w : Json} (h : v.NoRepeats) {step : Segment}
    (hw : v.child? step = some w) : w.NoRepeats := by
  cases h with
  | array below =>
    cases step with
    | key name => cases hw
    | index i => exact below w (List.mem_of_getElem? hw)
  | object _ below =>
    cases step with
    | key name =>
      exact below (name, w) (mem_of_lookup hw)
    | index i => cases hw
  | _ => cases step <;> cases hw

theorem NoRepeats.at? {v w : Json} (h : v.NoRepeats) {p : Path} (hw : v.at? p = some w) :
    w.NoRepeats := by
  induction p generalizing v with
  | nil =>
    cases hw
    exact h
  | cons step p ih =>
    obtain ⟨u, hu, hw⟩ := Option.bind_eq_some_iff.1 hw
    exact ih (h.child hu) hw

/-- Without repeats both readings agree along every path. -/
theorem NoRepeats.at?_settled {v : Json} (h : v.NoRepeats) (p : Path) :
    (v.at? p).map settled = v.settled.at? p := by
  rw [h.settled_eq]
  cases hw : v.at? p with
  | none => rfl
  | some w => rw [Option.map_some, (h.at? hw).settled_eq]

end Json

end FlowLint
