import FlowLint.Proofs.Conformance.Objects

/-!
Where violations are. What is reported of a value stands at a path that begins where the value is
and goes on within it: to a value that is there or, for what is required, to a name that an object
lacks.
-/

namespace FlowLint

/-- Something of that kind can be said at the path `q` of the value. -/
structure Json.Anchors (v : Json) (q : Path) (kind : ViolationKind) : Prop where
  present : kind ≠ .required → ∃ w, v.at? q = some w
  missing : kind = .required → ∃ ms name, q.getLast? = some (.key name) ∧
    v.at? q.dropLast = some (.object ms) ∧ name ∉ ms.map Prod.fst

namespace Json.Anchors

variable {v w : Json} {q : Path} {step : Segment} {kind : ViolationKind}

/-- All but a lack can be said of the value itself. -/
theorem self (v : Json) (h : kind ≠ .required) : v.Anchors [] kind :=
  ⟨fun _ => ⟨v, rfl⟩, fun required => absurd required h⟩

theorem lack {ms : List (String × Json)} {name : String} (h : name ∉ ms.map Prod.fst) :
    (Json.object ms).Anchors [.key name] .required :=
  ⟨fun other => absurd rfl other, fun _ => ⟨ms, name, rfl, rfl, h⟩⟩

theorem child (h : w.Anchors q kind) (step_eq : v.child? step = some w) :
    v.Anchors (step :: q) kind where
  present other := by
    obtain ⟨u, hu⟩ := h.present other
    exact ⟨u, by rw [at?_cons, step_eq, Option.bind_some, hu]⟩
  missing required := by
    obtain ⟨ms, name, last, above, lacks⟩ := h.missing required
    obtain ⟨init, rfl⟩ := List.getLast?_eq_some_iff.1 last
    rw [List.dropLast_concat] at above
    refine ⟨ms, name, ?_, ?_, lacks⟩
    · rw [← List.cons_append, List.getLast?_concat]
    · rw [← List.cons_append, List.dropLast_concat, at?_cons, step_eq, Option.bind_some, above]

theorem member {ms : List (String × Json)} {name : String} (hv : ms.lookup name = some v)
    (h : kind ≠ .required) : (Json.object ms).Anchors [.key name] kind :=
  (self v h).child hv

end Json.Anchors

/-- All of them are said of the value, which is at `p`, or of what it holds. -/
def Json.Anchored (v : Json) (p : Path) (gs : List Violation) : Prop :=
  ∀ g ∈ gs, ∃ q, g.path = p ++ q ∧ v.Anchors q g.kind

namespace Json.Anchored

variable {v w : Json} {p : Path} {gs hs : List Violation}

theorem nil : v.Anchored p [] := nofun

theorem append (hg : v.Anchored p gs) (hh : v.Anchored p hs) : v.Anchored p (gs ++ hs) :=
  List.forall_mem_append.2 ⟨hg, hh⟩

theorem flatMap {α : Type} {xs : List α} {f : α → List Violation}
    (h : ∀ x ∈ xs, v.Anchored p (f x)) : v.Anchored p (xs.flatMap f) := by
  intro g hg
  obtain ⟨x, hx, hg⟩ := List.mem_flatMap.1 hg
  exact h x hx g hg

theorem single {q : Path} {kind : ViolationKind} (h : v.Anchors q kind) :
    v.Anchored p [⟨p ++ q, kind⟩] := by
  intro g hg
  obtain rfl := List.mem_singleton.1 hg
  exact ⟨q, rfl, h⟩

/-- All but a lack can be said of the value itself. -/
theorem here {kind : ViolationKind} (h : kind ≠ .required) : v.Anchored p [⟨p, kind⟩] := by
  have at_root := single (p := p) (Json.Anchors.self v h)
  rwa [List.append_nil] at at_root

theorem child {step : Segment} (h : w.Anchored (p.push step) gs)
    (step_eq : v.child? step = some w) : v.Anchored p gs := by
  intro g hg
  obtain ⟨q, path, anchors⟩ := h g hg
  refine ⟨step :: q, ?_, anchors.child step_eq⟩
  rw [path, Path.push, List.append_assoc, List.singleton_append]

end Json.Anchored

/-! ### What a value is reported for itself -/

theorem NumberRule.required_not_mem_violated (r : NumberRule) (n : Number) :
    .required ∉ r.violated n := by
  simp only [violated, List.mem_append, not_or]
  refine ⟨⟨?_, ?_⟩, ?_⟩
  · split <;> simp
  · cases r.least with
    | none => simp
    | some least => simp only; split <;> simp
  · cases r.most with
    | none => simp
    | some most => simp only; split <;> simp

section

variable [Formats]

theorem TextFormat.required_not_mem_violated (format : TextFormat) (s : String) :
    .required ∉ format.violated s := by
  cases format with
  | plain => simp only [violated]; split <;> simp
  | uri => simp only [violated]; split <;> (try split) <;> simp

/-- That something is missing is said by objects alone. -/
theorem Constraint.required_not_mem_violatedBy (c : Constraint) (v : Json) :
    .required ∉ c.violatedBy v := by
  cases c with
  | text among format =>
    cases among with
    | some texts =>
      cases v with
      | string s => rw [violatedBy]; split <;> simp
      | _ => simp [violatedBy]
    | none =>
      cases v with
      | string s => exact format.required_not_mem_violated s
      | _ => simp [violatedBy]
  | number rule =>
    cases v with
    | number n => exact rule.required_not_mem_violated n
    | _ => simp [violatedBy]
  | timestamp => rw [violatedBy]; split <;> simp
  | _ => cases v <;> simp [violatedBy]

theorem anchored_map (v : Json) (c : Constraint) (p : Path) :
    v.Anchored p ((c.violatedBy v).map (⟨p, ·⟩)) := by
  intro g hg
  obtain ⟨kind, hkind, rfl⟩ := List.mem_map.1 hg
  refine ⟨[], (List.append_nil p).symm, .self v ?_⟩
  rintro rfl
  exact c.required_not_mem_violatedBy v hkind

end

theorem anchored_tooFew (v : Json) (count atLeast : Nat) (p : Path) :
    v.Anchored p (tooFew count atLeast p) := by
  rw [tooFew]
  split
  · exact .here (by simp)
  · exact .nil

theorem PeerRule.anchored_violatedBy (ms : List (String × Json)) (p : Path) (r : PeerRule) :
    (Json.object ms).Anchored p (r.violatedBy (ms.map Prod.fst) p) := by
  induction r with
  | excludes key peers =>
    rw [violatedBy]
    split
    · next there =>
      obtain ⟨v, hv⟩ := exists_lookup_iff.2 (List.contains_iff_mem.1 there)
      cases peers.find? (ms.map Prod.fst).contains with
      | none => exact .nil
      | some peer => exact .single (.member hv (by simp))
    · exact .nil
  | exactlyOneOf peers =>
    rw [violatedBy]
    split
    · exact .here (by simp)
    · exact .nil
    · exact .here (by simp)
  | atLeastOneOf peers =>
    rw [violatedBy]
    split
    · exact .nil
    · exact .here (by simp)
  | keyed key present absent present_ih absent_ih =>
    rw [violatedBy]
    split
    · exact present_ih
    · exact absent_ih

/-! ### Whole values -/

/-- What a field reports, if what is said of the members is said of them and below. -/
theorem Field.anchored_violatedBy [Formats] {ms : List (String × Json)} {p : Path}
    (f : Field Constraint)
    (members : ∀ v, ms.lookup f.name = some v → ∀ r,
      v.Anchored (p.member f.name) (violations v r (p.member f.name))) :
    (Json.object ms).Anchored p (f.violatedBy ms p) := by
  rw [violatedBy]
  cases hv : ms.lookup f.name with
  | none =>
    have lacks : f.name ∉ ms.map Prod.fst := by simp [← exists_lookup_iff, hv]
    cases f.demand with
    | required rule => exact .single (.lack lacks)
    | _ => exact .nil
  | some v =>
    cases f.demand with
    | forbidden => exact .single (.member hv (by simp))
    | _ => exact (members v hv _).child hv

theorem Shape.anchored_undeclared (s : Shape Constraint) (ms : List (String × Json)) (p : Path) :
    (Json.object ms).Anchored p (s.undeclared (ms.map Prod.fst) p) := by
  intro g hg
  obtain ⟨name, hname, rfl⟩ := List.mem_map.1 hg
  obtain ⟨v, hv⟩ := exists_lookup_iff.2 (List.mem_filter.1 hname).1
  exact ⟨[.key name], rfl, .member hv (by simp)⟩

variable [Formats]

mutual

/-- Whatever is reported of a value is said of it or of what it holds. -/
theorem anchored_violations : ∀ (v : Json) (c : Constraint) (p : Path),
    v.Anchored p (violations v c p)
  | .array items, c, p => by
    cases c with
    | list item atLeast =>
      cases item with
      | none => exact anchored_tooFew _ items.length atLeast p
      | some r =>
        rw [violations, itemViolations_eq]
        refine .append (anchored_positionViolations items _ p 0 fun j w hw => ?_)
          (anchored_tooFew _ items.length atLeast p)
        rwa [Nat.zero_add]
    | positions rules atLeast =>
      refine .append (anchored_positionViolations items rules p 0 fun j w hw => ?_)
        (anchored_tooFew _ items.length atLeast p)
      rwa [Nat.zero_add]
    | _ => exact anchored_map (.array items) _ p
  | .object ms, c, p => by
    cases hs : c.shape? with
    | none =>
      rw [violations, hs]
      exact anchored_map (.object ms) c p
    | some s =>
      rw [violations_object ms hs]
      refine .append (.append (.flatMap fun f _ => ?_) (s.anchored_undeclared ms p))
        (.flatMap fun r _ => r.anchored_violatedBy ms p)
      exact f.anchored_violatedBy fun v hv r =>
        anchored_memberViolations ms _ (mem_of_lookup hv) r _
  | .null, c, p => anchored_map .null c p
  | .bool b, c, p => anchored_map (.bool b) c p
  | .number n, c, p => anchored_map (.number n) c p
  | .string s, c, p => anchored_map (.string s) c p

theorem anchored_positionViolations {v : Json} : ∀ (items : List Json) (rs : List Constraint)
    (p : Path) (i : Nat), (∀ j w, items[j]? = some w → v.child? (.index (i + j)) = some w) →
      v.Anchored p (positionViolations items rs p i)
  | [], _, _, _, _ => .nil
  | _ :: _, [], _, _, _ => .nil
  | w :: items, r :: rs, p, i, h => by
    refine .append ((anchored_violations w r (p.item i)).child (h 0 w rfl)) ?_
    refine anchored_positionViolations items rs p (i + 1) fun j u hu => ?_
    rw [Nat.add_right_comm]
    exact h (j + 1) u hu

theorem anchored_memberViolations : ∀ (ms : List (String × Json)), ∀ m ∈ ms,
    ∀ (r : Constraint) (p : Path), m.2.Anchored p (violations m.2 r p)
  | (k, v) :: ms, m, hm, r, p => by
    rcases List.mem_cons.1 hm with rfl | hm
    · exact anchored_violations v r p
    · exact anchored_memberViolations ms m hm r p

end

end FlowLint
