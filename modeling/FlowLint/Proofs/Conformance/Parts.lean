import FlowLint.Proofs.Conformance.Anchors

/-!
Parts of a report. A part is told by a path: what is said at it or below it, and all the rest. What
is said below a member or an item of a container is just what a check of that member or item says;
and if two values differ in one place only, they differ in no other part of the report.
-/

namespace FlowLint

/-- What is said at a path or below it. -/
def below (q : Path) (gs : List Violation) : List Violation := gs.filter fun g => q <+: g.path

/-- What is said elsewhere. -/
def outside (q : Path) (gs : List Violation) : List Violation := gs.filter fun g => ¬ q <+: g.path

section

variable {q : Path} {gs hs : List Violation}

theorem below_append : below q (gs ++ hs) = below q gs ++ below q hs := List.filter_append ..

theorem outside_append : outside q (gs ++ hs) = outside q gs ++ outside q hs :=
  List.filter_append ..

theorem below_eq_self (h : ∀ g ∈ gs, q <+: g.path) : below q gs = gs :=
  List.filter_eq_self.2 fun g hg => decide_eq_true (h g hg)

/-- What is said elsewhere is not said below. -/
theorem below_eq_nil (h : ∀ g ∈ gs, ¬ q <+: g.path) : below q gs = [] :=
  List.filter_eq_nil_iff.2 fun g hg found => h g hg (of_decide_eq_true found)

theorem outside_eq_nil (h : ∀ g ∈ gs, q <+: g.path) : outside q gs = [] :=
  List.filter_eq_nil_iff.2 fun g hg found => of_decide_eq_true found (h g hg)

/-- Further down there is no more than what is below. -/
theorem below_below {q' : Path} (h : q <+: q') : below q' (below q gs) = below q' gs := by
  rw [below, below, List.filter_filter]
  refine List.filter_congr fun g _ => ?_
  rw [Bool.and_eq_left_iff_imp]
  exact fun found => decide_eq_true (h.trans (of_decide_eq_true found))

theorem count_below {w : Violation} (h : q <+: w.path) : (below q gs).count w = gs.count w :=
  List.count_filter (decide_eq_true h)

end

/-! ### Paths that part -/

section

variable {p q x : Path} {a b : Segment}

theorem Path.prefix_push (p : Path) (a : Segment) : p <+: p.push a := List.prefix_append ..

theorem Path.prefix_member (p : Path) (name : String) : p <+: p.member name := p.prefix_push _

theorem Path.prefix_item (p : Path) (i : Nat) : p <+: p.item i := p.prefix_push _

theorem Path.not_push_prefix (p : Path) (a : Segment) : ¬ p.push a <+: p := by
  intro h
  have short := h.length_le
  rw [Path.push, List.length_append] at short
  exact Nat.not_succ_le_self _ short

/-- Of the steps from one path only one leads on to another path. -/
theorem Path.step_unique (ha : p.push a <+: x) (hb : p.push b <+: x) : a = b := by
  obtain ⟨s, rfl⟩ := ha
  obtain ⟨t, h⟩ := hb
  simp only [Path.push, List.append_assoc, List.append_cancel_left_eq, List.singleton_append,
    List.cons.injEq] at h
  exact h.1.symm

/-- What is said below one step is not said below another. -/
theorem below_of_step {gs : List Violation} (hq : p.push a <+: q)
    (h : ∀ g ∈ gs, ∃ b, p.push b <+: g.path ∧ b ≠ a) : below q gs = [] := by
  refine below_eq_nil fun g hg found => ?_
  obtain ⟨b, path, other⟩ := h g hg
  exact other (Path.step_unique path (hq.trans found))

end

/-! ### Objects -/

theorem Json.Anchored.prefix_of_mem {v : Json} {p : Path} {gs : List Violation}
    (h : v.Anchored p gs) : ∀ g ∈ gs, p <+: g.path := by
  intro g hg
  obtain ⟨q, path, -⟩ := h g hg
  exact path ▸ List.prefix_append p q

/-- All that a check says, it says of the value at hand or of parts of it. -/
theorem prefix_of_mem_violations [Formats] (v : Json) (c : Constraint) (p : Path) :
    ∀ g ∈ violations v c p, p <+: g.path :=
  (anchored_violations v c p).prefix_of_mem

/-- What a field asks of a member that is there. -/
def Field.rule? (f : Field Constraint) : Option Constraint :=
  match f.demand with
  | .optional rule => some rule
  | .required rule => some rule
  | .forbidden     => none

theorem Field.forbidden_of_rule? {f : Field Constraint} (h : f.rule? = none) :
    f.demand = .forbidden := by
  rw [rule?] at h
  cases demand : f.demand <;> rw [demand] at h <;> cases h

/-- Of a member that is there a field says what its rule says. -/
theorem Field.violatedBy_eq [Formats] {ms : List (String × Json)} {f : Field Constraint}
    {r : Constraint} {v : Json} (hr : f.rule? = some r) (hv : ms.lookup f.name = some v)
    (p : Path) : f.violatedBy ms p = violations v r (p.member f.name) := by
  rw [rule?] at hr
  rw [violatedBy, hv]
  cases demand : f.demand <;> rw [demand] at hr <;> cases hr <;> rfl

theorem Field.prefix_of_mem_violatedBy [Formats] {ms : List (String × Json)} {f : Field Constraint}
    {p : Path} {g : Violation} (hg : g ∈ f.violatedBy ms p) : p.member f.name <+: g.path := by
  have own {kind : ViolationKind} (h : g ∈ [⟨p.member f.name, kind⟩]) :
      p.member f.name <+: g.path := by
    obtain rfl := List.mem_singleton.1 h
    exact List.prefix_rfl
  rw [violatedBy] at hg
  split at hg
  · exact prefix_of_mem_violations _ _ _ g hg
  · cases hg
  · exact prefix_of_mem_violations _ _ _ g hg
  · exact own hg
  · exact own hg
  · cases hg

/-- The members that a rule may blame. -/
def PeerRule.blamed : PeerRule → List String
  | .excludes key _         => [key]
  | .exactlyOneOf _         => []
  | .atLeastOneOf _         => []
  | .keyed _ present absent => present.blamed ++ absent.blamed

/-- A rule among members blames the object or one of those that it may blame. -/
theorem PeerRule.path_of_mem_violatedBy {names : List String} {p : Path} {g : Violation}
    {r : PeerRule} (h : g ∈ r.violatedBy names p) :
    g.path = p ∨ ∃ k ∈ r.blamed, g.path = p.member k := by
  induction r with
  | excludes key peers =>
    rw [violatedBy] at h
    split at h
    · split at h <;> simp_all [blamed]
    · cases h
  | exactlyOneOf peers =>
    rw [violatedBy] at h
    split at h <;> simp_all
  | atLeastOneOf peers =>
    rw [violatedBy] at h
    split at h <;> simp_all
  | keyed key present absent present_ih absent_ih =>
    rw [violatedBy] at h
    rw [blamed]
    split at h
    · rcases present_ih h with path | ⟨k, hk, path⟩
      · exact .inl path
      · exact .inr ⟨k, List.mem_append_left _ hk, path⟩
    · rcases absent_ih h with path | ⟨k, hk, path⟩
      · exact .inl path
      · exact .inr ⟨k, List.mem_append_right _ hk, path⟩

/-- The shape asks this of a member of that name, in one field and in no rule. -/
structure Shape.Asks (s : Shape Constraint) (name : String) (r : Constraint) : Prop where
  field    : ∃ f ∈ s.fields, f.name = name ∧ f.rule? = some r
  distinct : (s.fields.map Field.name).Nodup
  blamed   : ∀ rule ∈ s.peers, name ∉ rule.blamed

section

variable [Formats]

/-- What is said of a member or below it is what a check of the member says. -/
theorem below_object {ms : List (String × Json)} {c r : Constraint} {s : Shape Constraint}
    {name : String} {v : Json} {p q : Path} (hs : c.shape? = some s) (asks : s.Asks name r)
    (hv : ms.lookup name = some v) (hq : p.member name <+: q) :
    below q (violations (.object ms) c p) = below q (violations v r (p.member name)) := by
  obtain ⟨⟨f, hf, rfl, hr⟩, distinct, blamed⟩ := asks
  obtain ⟨before, after, fields⟩ := List.append_of_mem hf
  -- Neither another field nor a name without a field nor a rule says anything there.
  have others {fs : List (Field Constraint)} (h : ∀ f' ∈ fs, f'.name ≠ f.name) :
      below q (fs.flatMap (·.violatedBy ms p)) = [] := by
    refine below_of_step hq fun g hg => ?_
    obtain ⟨f', hf', hg⟩ := List.mem_flatMap.1 hg
    exact ⟨.key f'.name, Field.prefix_of_mem_violatedBy hg, by simpa using h f' hf'⟩
  have unknown : below q (s.undeclared (ms.map Prod.fst) p) = [] := by
    refine below_of_step hq fun g hg => ?_
    obtain ⟨k, hk, rfl⟩ := List.mem_map.1 hg
    refine ⟨.key k, List.prefix_rfl, fun e => ?_⟩
    cases e
    have declared : s.declares f.name := List.any_eq_true.2 ⟨f, hf, beq_self_eq_true _⟩
    simp [declared] at hk
  have rules : below q (s.peers.flatMap (·.violatedBy (ms.map Prod.fst) p)) = [] := by
    refine below_eq_nil fun g hg found => ?_
    obtain ⟨rule, hrule, hg⟩ := List.mem_flatMap.1 hg
    have here := hq.trans found
    rcases PeerRule.path_of_mem_violatedBy hg with path | ⟨k, hk, path⟩
    · rw [path] at here
      exact p.not_push_prefix _ here
    · rw [path] at here
      cases Path.step_unique here List.prefix_rfl
      exact blamed rule hrule hk
  rw [fields, List.map_append, List.map_cons, List.nodup_append] at distinct
  obtain ⟨-, distinct, apart⟩ := distinct
  have earlier : ∀ f' ∈ before, f'.name ≠ f.name := fun f' hf' =>
    apart _ (List.mem_map_of_mem hf') _ List.mem_cons_self
  have later : ∀ f' ∈ after, f'.name ≠ f.name := fun f' hf' same =>
    (List.nodup_cons.1 distinct).1 (same ▸ List.mem_map_of_mem hf')
  rw [violations_object ms hs, below_append, below_append, unknown, rules, List.append_nil,
    List.append_nil, fields, List.flatMap_append, List.flatMap_cons, below_append, below_append,
    others earlier, others later, List.append_nil, List.nil_append, Field.violatedBy_eq hr hv]

/-! ### Arrays -/

theorem exists_item_of_mem_positionViolations {p : Path} {g : Violation} :
    ∀ {vs : List Json} {rs : List Constraint} {i : Nat}, g ∈ positionViolations vs rs p i →
      ∃ k, i ≤ k ∧ p.item k <+: g.path
  | v :: vs, r :: rs, i, hg => by
    rcases List.mem_append.1 hg with hg | hg
    · exact ⟨i, Nat.le_refl i, prefix_of_mem_violations _ _ _ g hg⟩
    · obtain ⟨k, hk, path⟩ := exists_item_of_mem_positionViolations hg
      exact ⟨k, Nat.le_of_succ_le hk, path⟩
  | [], _, _, hg => nomatch hg
  | _ :: _, [], _, hg => nomatch hg

/-- The induction is on the items, which are counted from `i` on. -/
theorem below_positionViolations {p q : Path} {v : Json} {r : Constraint} :
    ∀ {vs : List Json} {rs : List Constraint} {i : Nat} (j : Nat), vs[j]? = some v →
      rs[j]? = some r → p.item (i + j) <+: q →
        below q (positionViolations vs rs p i) = below q (violations v r (p.item (i + j)))
  | w :: vs, s :: rs, i, 0, hv, hr, hq => by
    cases hv
    cases hr
    have others : below q (positionViolations vs rs p (i + 1)) = [] := by
      refine below_of_step hq fun g hg => ?_
      obtain ⟨k, hk, path⟩ := exists_item_of_mem_positionViolations hg
      refine ⟨.index k, path, fun e => ?_⟩
      cases e
      exact Nat.not_succ_le_self i hk
    rw [positionViolations, below_append, others, List.append_nil, Nat.add_zero]
  | w :: vs, s :: rs, i, j + 1, hv, hr, hq => by
    have first : below q (violations w s (p.item i)) = [] := by
      refine below_of_step hq fun g hg => ⟨.index i, prefix_of_mem_violations _ _ _ g hg, ?_⟩
      simp
    have index : i + (j + 1) = i + 1 + j := by omega
    rw [positionViolations, below_append, first, List.nil_append, index]
    exact below_positionViolations j hv hr (index ▸ hq)

end

theorem below_tooFew {p q : Path} {i : Nat} (hq : p.item i <+: q) (count atLeast : Nat) :
    below q (tooFew count atLeast p) = [] := by
  refine below_eq_nil fun g hg found => p.not_push_prefix (.index i) ?_
  rw [tooFew] at hg
  split at hg
  · obtain rfl := List.mem_singleton.1 hg
    exact hq.trans found
  · cases hg

variable [Formats]

/-- What is said of an item or below it is what a check of the item says. -/
theorem below_positions {items : List Json} {rs : List Constraint} {i : Nat} {v : Json}
    {r : Constraint} {p q : Path} (hv : items[i]? = some v) (hr : rs[i]? = some r)
    (hq : p.item i <+: q) (atLeast : Nat) :
    below q (violations (.array items) (.positions rs atLeast) p) =
      below q (violations v r (p.item i)) := by
  have first : p.item (0 + i) <+: q := by rwa [Nat.zero_add]
  have item := below_positionViolations i hv hr first
  rw [violations, below_append, below_tooFew hq, List.append_nil, item, Nat.zero_add]

theorem below_list {items : List Json} {i : Nat} {v : Json} {p q : Path}
    (hv : items[i]? = some v) (hq : p.item i <+: q) (r : Constraint) (atLeast : Nat) :
    below q (violations (.array items) (.list (some r) atLeast) p) =
      below q (violations v r (p.item i)) := by
  have hr : (items.map fun _ => r)[i]? = some r := by rw [List.getElem?_map, hv, Option.map_some]
  rw [← below_positions hv hr hq atLeast, violations, violations, itemViolations_eq]

end FlowLint
