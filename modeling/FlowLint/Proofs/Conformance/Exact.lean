import FlowLint.Proofs.Conformance.Failures
import FlowLint.Proofs.Conformance.Values

/-!
A check reports each clause that fails once and nothing else.
-/

namespace FlowLint

/-! ### Single values -/

theorem NumberRule.mem_violated_iff [Formats] (r : NumberRule) (n : Number) (kind : ViolationKind) :
    kind ∈ r.violated n ↔ (Constraint.number r).Misses (.number n) kind := by
  have mem : kind ∈ r.violated n ↔
      (kind = .invalidType .integer ∧ r.whole = true ∧ n.toBinary64.isWhole = false) ∨
      (∃ least, kind = .belowMinimum least ∧ r.least = some least ∧
        n.toBinary64.lt least = true) ∨
      ∃ most, kind = .aboveMaximum most ∧ r.most = some most ∧ most.lt n.toBinary64 = true := by
    rw [violated, List.mem_append, List.mem_append, or_assoc]
    refine or_congr ?_ (or_congr ?_ ?_)
    · split <;> simp_all
    · cases r.least with
      | none => simp
      | some least => simp only; split <;> simp_all
    · cases r.most with
      | none => simp
      | some most => simp only; split <;> simp_all
  rw [mem]
  constructor
  · rintro (⟨rfl, asked, broken⟩ | ⟨least, rfl, asked, less⟩ | ⟨most, rfl, asked, more⟩)
    · exact .notWhole asked broken
    · exact .below asked less
    · exact .above asked more
  · intro h
    cases h with
    | notNumber other => exact absurd rfl (other n)
    | notWhole asked broken => exact .inl ⟨rfl, asked, broken⟩
    | below asked less => exact .inr (.inl ⟨_, rfl, asked, less⟩)
    | above asked more => exact .inr (.inr ⟨_, rfl, asked, more⟩)

theorem NumberRule.nodup_violated (r : NumberRule) (n : Number) : (r.violated n).Nodup := by
  rw [violated]
  cases r.least <;> cases r.most <;> simp only <;> split_ifs <;> simp

section

variable [Formats]

theorem TextFormat.mem_violated_iff (format : TextFormat) (s : String) (kind : ViolationKind) :
    kind ∈ format.violated s ↔ (Constraint.text none format).Misses (.string s) kind := by
  constructor
  · intro h
    by_cases none : s = ""
    · subst none
      rw [List.mem_singleton.1 h]
      exact .empty
    · cases format with
      | plain => simp [violated, none] at h
      | uri =>
        simp only [violated, String.isEmpty_iff, none, if_false] at h
        split at h
        · cases h
        · next bad =>
          rw [List.mem_singleton.1 h]
          exact .badUri none (by simpa using bad)
  · intro h
    cases h with
    | notText other => exact absurd rfl (other s)
    | empty => exact List.mem_singleton_self _
    | badUri some bad => simp [violated, some, bad]

/-- What a check of the value alone reports, it fails. -/
theorem Constraint.misses_of_mem_violatedBy {c : Constraint} {v : Json} {kind : ViolationKind}
    (h : kind ∈ c.violatedBy v) : c.Misses v kind := by
  cases c with
  | anything => cases v <;> cases h
  | text among format =>
    cases among with
    | none =>
      cases v with
      | string s => exact (format.mem_violated_iff s kind).1 h
      | _ =>
        rw [List.mem_singleton.1 h]
        exact .notText fun _ e => Json.noConfusion e
    | some texts =>
      cases v with
      | string s =>
        rw [violatedBy] at h
        split at h
        · cases h
        · next outside =>
          rw [List.mem_singleton.1 h]
          refine .notAmong fun s' hs' e => outside ?_
          rw [Json.string.inj e]
          exact List.contains_iff_mem.2 hs'
      | _ =>
        rw [List.mem_singleton.1 h]
        exact .notAmong fun _ _ e => Json.noConfusion e
  | number rule =>
    cases v with
    | number n => exact (rule.mem_violated_iff n kind).1 h
    | _ =>
      rw [List.mem_singleton.1 h]
      exact .notNumber fun _ e => Json.noConfusion e
  | boolean =>
    cases v with
    | bool b => cases h
    | _ =>
      rw [List.mem_singleton.1 h]
      exact .notFlag fun _ e => Json.noConfusion e
  | timestamp =>
    rw [violatedBy] at h
    split at h
    · cases h
    · next other =>
      rw [List.mem_singleton.1 h]
      exact .notTime (by rwa [Json.isTimestamp_iff] at other)
  | list r atLeast =>
    cases v with
    | array items => cases h
    | _ =>
      rw [List.mem_singleton.1 h]
      exact .notList fun _ e => Json.noConfusion e
  | positions rs atLeast =>
    cases v with
    | array items => cases h
    | _ =>
      rw [List.mem_singleton.1 h]
      exact .notPositions fun _ e => Json.noConfusion e
  | record s =>
    cases v with
    | object ms => cases h
    | _ =>
      rw [List.mem_singleton.1 h]
      exact .notRecord fun _ e => Json.noConfusion e
  | choiceRule =>
    cases v with
    | object ms => cases h
    | _ =>
      rw [List.mem_singleton.1 h]
      exact .notChoiceRule fun _ e => Json.noConfusion e

/-- A value by itself fails what a check of the value alone reports and, as an array, the number of
    items. -/
theorem Constraint.misses_iff (c : Constraint) (v : Json) (kind : ViolationKind) :
    c.Misses v kind ↔ kind ∈ c.violatedBy v ∨
      ∃ items, v = .array items ∧ items.length < c.leastItems ∧
        kind = .tooFewItems c.leastItems := by
  constructor
  · intro h
    cases h with
    | notAmong other =>
      cases v with
      | string s =>
        have outside : ¬ s ∈ _ := fun m => other s m rfl
        simp [violatedBy, outside]
      | _ => simp [violatedBy]
    | empty => exact .inl ((TextFormat.mem_violated_iff ..).2 .empty)
    | badUri some bad => exact .inl ((TextFormat.mem_violated_iff ..).2 (.badUri some bad))
    | notWhole asked broken =>
      exact .inl ((NumberRule.mem_violated_iff ..).2 (.notWhole asked broken))
    | below asked less => exact .inl ((NumberRule.mem_violated_iff ..).2 (.below asked less))
    | above asked more => exact .inl ((NumberRule.mem_violated_iff ..).2 (.above asked more))
    | notTime other => simp [violatedBy, Json.isTimestamp_iff, other]
    | fewItems few => exact .inr ⟨_, rfl, few, rfl⟩
    | fewPositions few => exact .inr ⟨_, rfl, few, rfl⟩
    | _ => cases v <;> simp_all [violatedBy]
  · rintro (h | ⟨items, rfl, few, rfl⟩)
    · exact misses_of_mem_violatedBy h
    · cases c with
      | list r atLeast => exact .fewItems few
      | positions rs atLeast => exact .fewPositions few
      | _ => cases few

end

theorem pairwise_of_length_le_one {α : Type} {R : α → α → Prop} {xs : List α}
    (h : xs.length ≤ 1) : xs.Pairwise R := by
  rcases xs with _ | ⟨x, _ | ⟨y, xs⟩⟩
  · exact .nil
  · exact List.pairwise_singleton R x
  · simp at h

section

variable [Formats]

/-- Only numbers fail more than one thing by themselves. -/
theorem Constraint.length_violatedBy_le_one {c : Constraint} {v : Json}
    (other : ∀ rule n, c = .number rule → v ≠ .number n) : (c.violatedBy v).length ≤ 1 := by
  cases c with
  | text among format =>
    cases among with
    | none =>
      cases v with
      | string s =>
        cases format <;> simp only [violatedBy, TextFormat.violated] <;> split_ifs <;> simp
      | _ => exact Nat.le_refl 1
    | some texts =>
      cases v with
      | string s =>
        rw [violatedBy]
        split_ifs <;> simp
      | _ => exact Nat.le_refl 1
  | number rule =>
    cases v with
    | number n => exact absurd rfl (other rule n rfl)
    | _ => exact Nat.le_refl 1
  | timestamp =>
    rw [violatedBy]
    split_ifs <;> simp
  | _ => cases v <;> simp [violatedBy]

theorem Constraint.nodup_violatedBy (c : Constraint) (v : Json) : (c.violatedBy v).Nodup := by
  by_cases number : ∃ rule n, c = .number rule ∧ v = .number n
  · obtain ⟨rule, n, rfl, rfl⟩ := number
    exact rule.nodup_violated n
  · exact pairwise_of_length_le_one
      (length_violatedBy_le_one fun rule n hc hv => number ⟨rule, n, hc, hv⟩)

theorem Constraint.nodup_map_violatedBy (c : Constraint) (v : Json) (p : Path) :
    ((c.violatedBy v).map (Violation.mk p)).Nodup :=
  (c.nodup_violatedBy v).map fun _ _ e => (Violation.mk.inj e).2

/-- The number of items is not looked at. -/
theorem Constraint.tooFewItems_not_mem_violatedBy (c : Constraint) (items : List Json)
    (atLeast : Nat) : .tooFewItems atLeast ∉ c.violatedBy (.array items) := by
  cases c with
  | text among format => cases among <;> simp [violatedBy]
  | timestamp => simp [violatedBy, Json.isTimestamp]
  | _ => simp [violatedBy]

end

theorem length_tooFew_le_one (count atLeast : Nat) (p : Path) :
    (tooFew count atLeast p).length ≤ 1 := by
  rw [tooFew]
  split <;> simp

/-! ### Members -/

theorem PeerRule.misses_excludes_iff {names : List String} {p : Path} {key : String}
    {peers : List String} {w : Violation} : (excludes key peers).Misses names p w ↔
      key ∈ names ∧
        ∃ peer, peers.find? (· ∈ names) = some peer ∧ w = ⟨p.member key, .conflict peer⟩ := by
  constructor
  · intro h
    cases h with
    | @conflict _ peer before after there first found =>
      refine ⟨there, peer, ?_, rfl⟩
      rw [List.find?_eq_some_iff_append]
      exact ⟨by simpa using found, before, after, rfl, by simpa using first⟩
  · rintro ⟨there, peer, culprit, rfl⟩
    obtain ⟨found, before, after, rfl, first⟩ := List.find?_eq_some_iff_append.1 culprit
    exact .conflict there (by simpa using first) (by simpa using found)

theorem PeerRule.misses_exactlyOneOf_iff (names : List String) (p : Path) (peers : List String)
    (w : Violation) : (exactlyOneOf peers).Misses names p w ↔
      w ∈ (exactlyOneOf peers).violatedBy names p := by
  have same : peers.filter (· ∈ names) = peers.filter names.contains :=
    List.filter_congr fun k _ => (List.contains_eq_mem k names).symm
  rw [violatedBy]
  constructor
  · intro h
    cases h with
    | several many =>
      rw [same] at many ⊢
      split
      · next none => simp [none] at many
      · next one => simp [one] at many
      · exact List.mem_singleton_self _
    | lacksOne none =>
      have nothing : peers.filter names.contains = [] := by simpa using none
      rw [nothing]
      exact List.mem_singleton_self _
  · intro h
    split at h
    · next nothing =>
      rw [List.mem_singleton.1 h]
      exact .lacksOne (by simpa using nothing)
    · cases h
    · next none one =>
      rw [List.mem_singleton.1 h, ← same]
      refine .several ?_
      rw [same]
      cases found : peers.filter names.contains with
      | nil => exact absurd found none
      | cons k ks =>
        cases ks with
        | nil => exact absurd found (one k)
        | cons k' ks => simp

theorem PeerRule.misses_iff (names : List String) (p : Path) (r : PeerRule) (w : Violation) :
    r.Misses names p w ↔ w ∈ r.violatedBy names p := by
  induction r with
  | excludes key peers =>
    have same : peers.find? names.contains = peers.find? (· ∈ names) :=
      congrArg (peers.find? ·) (funext fun k => List.contains_eq_mem k names)
    rw [violatedBy, misses_excludes_iff, same, List.contains_eq_mem]
    by_cases there : key ∈ names
    · cases peers.find? (· ∈ names) <;> simp [there]
    · simp [there]
  | exactlyOneOf peers => exact misses_exactlyOneOf_iff names p peers w
  | atLeastOneOf peers =>
    rw [violatedBy]
    constructor
    · intro h
      cases h with
      | lacksAll none =>
        rw [if_neg (by simpa using none)]
        exact List.mem_singleton_self _
    · intro h
      split at h
      · cases h
      · next none =>
        rw [List.mem_singleton.1 h]
        exact .lacksAll (by simpa using none)
  | keyed key present absent present_ih absent_ih =>
    rw [violatedBy, List.contains_eq_mem]
    constructor
    · intro h
      cases h with
      | present there fails =>
        rw [if_pos (by simpa using there)]
        exact present_ih.1 fails
      | absent missing fails =>
        rw [if_neg (by simpa using missing)]
        exact absent_ih.1 fails
    · intro h
      split at h
      · next there => exact .present (by simpa using there) (present_ih.2 h)
      · next missing => exact .absent (by simpa using missing) (absent_ih.2 h)

theorem PeerRule.length_violatedBy_le_one (names : List String) (p : Path) (r : PeerRule) :
    (r.violatedBy names p).length ≤ 1 := by
  induction r with
  | excludes key peers =>
    rw [violatedBy]
    split
    · split <;> simp
    · exact Nat.zero_le 1
  | exactlyOneOf peers =>
    rw [violatedBy]
    split <;> simp
  | atLeastOneOf peers =>
    rw [violatedBy]
    split <;> simp
  | keyed key present absent present_ih absent_ih =>
    rw [violatedBy]
    split
    · exact present_ih
    · exact absent_ih

section

variable [Formats]

/-- What is wrong with the members by a field. -/
inductive Field.Fails (ms : List (String × Json)) (p : Path) (f : Field Constraint) :
    Clause → Violation → Prop
  | missing {r : Constraint} (required : f.demand = .required r)
      (lacks : f.name ∉ ms.map Prod.fst) : Fails ms p f [] ⟨p.member f.name, .required⟩
  | forbidden (demand : f.demand = .forbidden) (there : f.name ∈ ms.map Prod.fst) :
      Fails ms p f [] ⟨p.member f.name, .notAllowed⟩
  | member {r : Constraint} {v : Json} {k : Clause} {w : Violation} (rule : f.rule? = some r)
      (there : ms.lookup f.name = some v) (fails : FlowLint.Fails r v (p.member f.name) k w) :
      Fails ms p f k w

section

variable {ms : List (String × Json)} {p : Path} (f : Field Constraint)

/-- Where the member is missing, a field fails if it is required. -/
theorem Field.lists_of_missing (missing : ms.lookup f.name = none) :
    Lists (f.Fails ms p) (f.violatedBy ms p) := by
  have lacks : f.name ∉ ms.map Prod.fst := by simp [← exists_lookup_iff, missing]
  rw [violatedBy, missing]
  cases demand : f.demand with
  | required r =>
    refine (Lists.of_nodup (List.nodup_singleton _)).congr fun k w => ?_
    rw [List.mem_singleton]
    constructor
    · rintro ⟨rfl, rfl⟩
      exact .missing demand lacks
    · intro h
      cases h with
      | missing required => exact ⟨rfl, rfl⟩
      | forbidden demand' there => exact absurd there lacks
      | member rule there fails => cases missing.symm.trans there
  | _ =>
    refine .nil fun k w h => ?_
    cases h with
    | missing required => cases demand.symm.trans required
    | forbidden demand' there => exact absurd there lacks
    | member rule there fails => cases missing.symm.trans there

/-- Where the member is there, a field fails what the member fails of it, or that it is there. -/
theorem Field.lists_of_there {v : Json} (there : ms.lookup f.name = some v)
    (value : ∀ c p, Lists (FlowLint.Fails c v p) (violations v c p)) :
    Lists (f.Fails ms p) (f.violatedBy ms p) := by
  have listed : f.name ∈ ms.map Prod.fst := exists_lookup_iff.1 ⟨v, there⟩
  cases rule : f.rule? with
  | some r =>
    rw [violatedBy_eq rule there]
    refine (value r (p.member f.name)).congr fun k w => ?_
    constructor
    · exact .member rule there
    · intro h
      cases h with
      | missing required lacks => exact absurd listed lacks
      | forbidden demand there' =>
        rw [rule?, demand] at rule
        cases rule
      | member rule' there' fails =>
        cases rule.symm.trans rule'
        cases there.symm.trans there'
        exact fails
  | none =>
    have demand := forbidden_of_rule? rule
    rw [violatedBy, there, demand]
    refine (Lists.of_nodup (List.nodup_singleton _)).congr fun k w => ?_
    rw [List.mem_singleton]
    constructor
    · rintro ⟨rfl, rfl⟩
      exact .forbidden demand listed
    · intro h
      cases h with
      | missing required lacks => exact absurd listed lacks
      | forbidden demand' there' => exact ⟨rfl, rfl⟩
      | member rule' there' fails => cases rule.symm.trans rule'

theorem Field.lists_violatedBy
    (members : ∀ m ∈ ms, ∀ c p, Lists (FlowLint.Fails c m.2 p) (violations m.2 c p)) :
    Lists (f.Fails ms p) (f.violatedBy ms p) := by
  cases there : ms.lookup f.name with
  | none => exact f.lists_of_missing there
  | some v => exact f.lists_of_there there (members _ (mem_of_lookup there))

end

end

theorem flatMap_eq_mapIdx {α β : Type} (f : α → List β) (xs : List α) :
    xs.flatMap f = (xs.mapIdx fun _ => f).flatten := by
  induction xs with
  | nil => rfl
  | cons x xs ih => rw [List.flatMap_cons, List.mapIdx_cons, List.flatten_cons, ih]

theorem Shape.undeclared_eq_flatMap (s : Shape Constraint) (ms : List (String × Json)) (p : Path) :
    s.undeclared (ms.map Prod.fst) p =
      ms.flatMap fun m => if s.declares m.1 then [] else [⟨p.member m.1, .notAllowed⟩] := by
  rw [undeclared]
  induction ms with
  | nil => rfl
  | cons m ms ih =>
    rw [List.flatMap_cons, ← ih, List.map_cons, List.filter_cons]
    cases s.declares m.1 <;> rfl

theorem Shape.nodup_undeclared (s : Shape Constraint) (name : String) (p : Path) :
    (if s.declares name then [] else
      [(⟨p.member name, .notAllowed⟩ : Violation)]).Nodup := by
  split <;> simp

section

variable [Formats]

/-- Of an object with a shape no type is wanting. -/
theorem Constraint.not_misses_object {c : Constraint} {s : Shape Constraint}
    (hs : c.shape? = some s) (ms : List (String × Json)) (kind : ViolationKind) :
    ¬ c.Misses (.object ms) kind := by
  intro h
  cases h with
  | notRecord other => exact other ms rfl
  | notChoiceRule other => exact other ms rfl
  | _ => cases hs

/-- An object fails what its fields, its members without a field and its rules fail. -/
theorem fails_object_iff {ms : List (String × Json)} {c : Constraint} {s : Shape Constraint}
    (hs : c.shape? = some s) (p : Path) (k : Clause) (w : Violation) :
    Fails c (.object ms) p k w ↔
      ((∃ i f k', s.fields[i]? = some f ∧ k = .field i :: k' ∧ f.Fails ms p k' w) ∨
        ∃ i m k', ms[i]? = some m ∧ k = .member i :: k' ∧ k' = [] ∧
          w ∈ if s.declares m.1 then [] else [⟨p.member m.1, .notAllowed⟩]) ∨
      ∃ i r k', s.peers[i]? = some r ∧ k = .peers i :: k' ∧ k' = [] ∧
        w ∈ r.violatedBy (ms.map Prod.fst) p := by
  constructor
  · intro h
    cases h with
    | itself h => exact absurd h (Constraint.not_misses_object hs ms _)
    | missing shape field lacks =>
      cases hs.symm.trans shape
      exact .inl (.inl ⟨_, _, _, field, rfl, .missing rfl lacks⟩)
    | forbidden shape field there =>
      cases hs.symm.trans shape
      exact .inl (.inl ⟨_, _, _, field, rfl, .forbidden rfl there⟩)
    | member shape field rule there fails =>
      cases hs.symm.trans shape
      exact .inl (.inl ⟨_, _, _, field, rfl, .member rule there fails⟩)
    | @undeclared _ _ _ _ i name v shape there unknown =>
      cases hs.symm.trans shape
      have undeclared : ¬ s.declares name := by
        rw [s.declares_iff]
        exact fun ⟨f, hf, same⟩ => unknown f hf same
      refine .inl (.inr ⟨i, (name, v), _, there, rfl, rfl, ?_⟩)
      rw [if_neg undeclared]
      exact List.mem_singleton_self _
    | peers shape rule misses =>
      cases hs.symm.trans shape
      exact .inr ⟨_, _, _, rule, rfl, rfl, (PeerRule.misses_iff ..).1 misses⟩
  · rintro ((⟨i, f, k, field, rfl, fails⟩ | ⟨i, ⟨name, v⟩, k, there, rfl, rfl, h⟩) |
      ⟨i, r, k, rule, rfl, rfl, h⟩)
    · obtain ⟨name, demand⟩ := f
      cases fails with
      | missing required lacks =>
        cases required
        exact .missing hs field lacks
      | forbidden demand there =>
        cases demand
        exact .forbidden hs field there
      | member rule there fails => exact .member hs field rule there fails
    · split at h
      · cases h
      · next unknown =>
        rw [List.mem_singleton.1 h]
        refine .undeclared hs there fun f hf same => unknown ?_
        exact (s.declares_iff name).2 ⟨f, hf, same⟩
    · exact .peers hs rule ((PeerRule.misses_iff ..).2 h)

theorem lists_object {ms : List (String × Json)} {c : Constraint} {s : Shape Constraint}
    (hs : c.shape? = some s) (p : Path)
    (members : ∀ m ∈ ms, ∀ c p, Lists (Fails c m.2 p) (violations m.2 c p)) :
    Lists (Fails c (.object ms) p) (violations (.object ms) c p) := by
  have fields := Lists.each (F := fun _ f => f.Fails ms p) (fun i j => Part.field.inj)
    fun i f (_ : s.fields[i]? = some f) => f.lists_violatedBy members
  have unknown := Lists.each (fun i j => Part.member.inj)
    fun i m (_ : ms[i]? = some m) => Lists.of_nodup (s.nodup_undeclared m.1 p)
  have rules := Lists.each (fun i j => Part.peers.inj)
    fun i r (_ : s.peers[i]? = some r) => Lists.of_nodup
      (pairwise_of_length_le_one (r.length_violatedBy_le_one (ms.map Prod.fst) p))
  rw [violations_object ms hs, s.undeclared_eq_flatMap, flatMap_eq_mapIdx, flatMap_eq_mapIdx,
    flatMap_eq_mapIdx]
  refine ((fields.append unknown ?_).append rules ?_).congr fun k w =>
    (fails_object_iff hs p k w).symm
  · rintro k w ⟨i, f, k', -, rfl, -⟩ ⟨j, m, k'', -, e, -⟩
    cases e
  · rintro k w (⟨i, f, k', -, rfl, -⟩ | ⟨i, m, k', -, rfl, -⟩) ⟨j, r, k'', -, e, -⟩ <;> cases e

/-! ### Items -/

theorem positionViolations_eq_mapIdx (p : Path) : ∀ (vs : List Json) (rs : List Constraint)
    (i : Nat), positionViolations vs rs p i =
      ((vs.zip rs).mapIdx fun j x => violations x.1 x.2 (p.item (i + j))).flatten
  | [], _, _ => rfl
  | _ :: _, [], _ => rfl
  | v :: vs, r :: rs, i => by
    rw [positionViolations, positionViolations_eq_mapIdx p vs rs (i + 1), List.zip_cons_cons,
      List.mapIdx_cons, List.flatten_cons]
    simp only [Nat.add_zero, Nat.add_right_comm i 1, Nat.add_assoc]

end

theorem mem_tooFew_iff {count atLeast : Nat} {p : Path} {w : Violation} :
    w ∈ tooFew count atLeast p ↔ count < atLeast ∧ w = ⟨p, .tooFewItems atLeast⟩ := by
  rw [tooFew]
  split <;> simp_all

variable [Formats]

/-- An array fails what its items fail of their constraints, and by itself the rest. -/
theorem fails_array_iff (items : List Json) (c : Constraint) (p : Path) (k : Clause)
    (w : Violation) :
    Fails c (.array items) p k w ↔
      (k = [] ∧ w ∈ (c.violatedBy (.array items)).map (⟨p, ·⟩)) ∨
      (∃ i x k', (items.zip (c.itemRules items))[i]? = some x ∧ k = .item i :: k' ∧
        Fails x.2 x.1 (p.item i) k' w) ∨
      k = [] ∧ w ∈ tooFew items.length c.leastItems p := by
  have itself_iff (kind : ViolationKind) := c.misses_iff (.array items) kind
  constructor
  · intro h
    cases h with
    | itself h =>
      rcases (itself_iff _).1 h with h | ⟨items', e, few, rfl⟩
      · exact .inl ⟨rfl, List.mem_map_of_mem h⟩
      · cases e
        exact .inr (.inr ⟨rfl, mem_tooFew_iff.2 ⟨few, rfl⟩⟩)
    | @item _ r atLeast _ i v k _ there fails =>
      refine .inr (.inl ⟨i, (v, r), k, ?_, rfl, fails⟩)
      rw [List.getElem?_zip_eq_some]
      exact ⟨there, by rw [Constraint.itemRules, List.getElem?_map, there]; rfl⟩
    | @position _ rs r atLeast _ i v k _ there rule fails =>
      refine .inr (.inl ⟨i, (v, r), k, ?_, rfl, fails⟩)
      rw [List.getElem?_zip_eq_some]
      exact ⟨there, rule⟩
  · rintro (⟨rfl, h⟩ | ⟨i, ⟨v, r⟩, k, there, rfl, fails⟩ | ⟨rfl, h⟩)
    · obtain ⟨kind, missed, rfl⟩ := List.mem_map.1 h
      exact .itself ((itself_iff kind).2 (.inl missed))
    · obtain ⟨found, rule⟩ := List.getElem?_zip_eq_some.1 there
      cases c with
      | list item atLeast =>
        cases item with
        | none => cases rule
        | some r' =>
          rw [Constraint.itemRules, List.getElem?_map, found] at rule
          cases rule
          exact .item found fails
      | positions rs atLeast => exact .position found rule fails
      | _ => cases rule
    · obtain ⟨few, rfl⟩ := mem_tooFew_iff.1 h
      exact .itself ((itself_iff _).2 (.inr ⟨items, rfl, few, rfl⟩))

theorem lists_array {items : List Json} (c : Constraint) (p : Path)
    (values : ∀ v ∈ items, ∀ c p, Lists (Fails c v p) (violations v c p)) :
    Lists (Fails c (.array items) p) (violations (.array items) c p) := by
  have own := Lists.of_nodup (c.nodup_map_violatedBy (.array items) p)
  have parts := Lists.each (F := fun i x => Fails x.2 x.1 (p.item i)) (fun i j => Part.item.inj)
    fun i x (there : (items.zip (c.itemRules items))[i]? = some x) =>
      values x.1 (List.of_mem_zip (List.mem_of_getElem? there)).1 x.2 (p.item i)
  have few := Lists.of_nodup
    (pairwise_of_length_le_one (length_tooFew_le_one items.length c.leastItems p))
  rw [violations_array, positionViolations_eq_mapIdx]
  simp only [Nat.zero_add]
  refine (own.append (parts.append few ?_) ?_).congr fun k w => (fails_array_iff items c p k w).symm
  · rintro k w ⟨i, x, k', -, rfl, -⟩ ⟨e, -⟩
    cases e
  · rintro k w ⟨rfl, h⟩ (⟨i, x, k', -, e, -⟩ | ⟨-, h'⟩)
    · cases e
    · obtain ⟨kind, missed, rfl⟩ := List.mem_map.1 h
      obtain ⟨few, e⟩ := mem_tooFew_iff.1 h'
      cases e
      exact c.tooFewItems_not_mem_violatedBy _ _ missed

/-! ### Whole values -/

/-- What has no parts in the eyes of a constraint fails only by itself. -/
theorem lists_itself {v : Json} {c : Constraint} {p : Path}
    (own : violations v c p = (c.violatedBy v).map (⟨p, ·⟩)) (noItems : v.items? = none)
    (noShape : v.members? = none ∨ c.shape? = none) :
    Lists (Fails c v p) (violations v c p) := by
  have shapeless {ms : List (String × Json)} {s : Shape Constraint} (hs : c.shape? = some s)
      (hv : v = .object ms) : False := by
    subst hv
    rcases noShape with none | none
    · cases none
    · cases none.symm.trans hs
  rw [own]
  refine (Lists.of_nodup (c.nodup_map_violatedBy v p)).congr fun k w => ?_
  constructor
  · rintro ⟨rfl, h⟩
    obtain ⟨kind, missed, rfl⟩ := List.mem_map.1 h
    exact .itself (Constraint.misses_of_mem_violatedBy missed)
  · intro h
    cases h with
    | itself h =>
      rcases (c.misses_iff v _).1 h with h | ⟨items, rfl, -⟩
      · exact ⟨rfl, List.mem_map_of_mem h⟩
      · cases noItems
    | item there fails => cases noItems
    | position there rule fails => cases noItems
    | missing shape => exact (shapeless shape rfl).elim
    | forbidden shape => exact (shapeless shape rfl).elim
    | member shape => exact (shapeless shape rfl).elim
    | undeclared shape => exact (shapeless shape rfl).elim
    | peers shape => exact (shapeless shape rfl).elim

mutual

/-- A check reports each clause that fails once. -/
theorem lists_violations : ∀ (v : Json) (c : Constraint) (p : Path),
    Lists (Fails c v p) (violations v c p)
  | .array items, c, p => lists_array c p (lists_itemViolations items)
  | .object ms, c, p => by
    cases hs : c.shape? with
    | none => exact lists_itself (by rw [violations, hs]) rfl (.inr hs)
    | some s => exact lists_object hs p (lists_memberViolations ms)
  | .null, c, p => lists_itself rfl rfl (.inl rfl)
  | .bool _, c, p => lists_itself rfl rfl (.inl rfl)
  | .number _, c, p => lists_itself rfl rfl (.inl rfl)
  | .string _, c, p => lists_itself rfl rfl (.inl rfl)

theorem lists_itemViolations : ∀ (items : List Json), ∀ v ∈ items, ∀ (c : Constraint) (p : Path),
    Lists (Fails c v p) (violations v c p)
  | v :: items, w, hw, c, p => by
    rcases List.mem_cons.1 hw with e | hw
    · rw [e]
      exact lists_violations v c p
    · exact lists_itemViolations items w hw c p

theorem lists_memberViolations : ∀ (ms : List (String × Json)), ∀ m ∈ ms, ∀ (c : Constraint)
    (p : Path), Lists (Fails c m.2 p) (violations m.2 c p)
  | (k, v) :: ms, m, hm, c, p => by
    rcases List.mem_cons.1 hm with rfl | hm
    · exact lists_violations v c p
    · exact lists_memberViolations ms m hm c p

end

theorem mem_violations_iff {v : Json} {c : Constraint} {p : Path} {w : Violation} :
    w ∈ violations v c p ↔ ∃ k, Fails c v p k w := (lists_violations v c p).mem_iff w

/-- The violations that a check reports are, as a multiset, those of the clauses that fail. -/
theorem violations_exact (c : Constraint) (v : Json) (p : Path) :
    ∃ failing : Finset (Clause × Violation), (∀ k w, (k, w) ∈ failing ↔ Fails c v p k w) ∧
      (violations v c p : Multiset Violation) = failing.val.map Prod.snd := by
  obtain ⟨found, distinct, all, listed⟩ := lists_violations v c p
  refine ⟨⟨found, Multiset.coe_nodup.2 distinct⟩, all, ?_⟩
  rw [← listed]
  exact (Multiset.map_coe ..).symm

end FlowLint
