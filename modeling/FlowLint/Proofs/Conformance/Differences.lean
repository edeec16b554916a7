import FlowLint.Proofs.Conformance.Parts
import Mathlib.Data.List.Nodup

/-!
Values that differ in one place. Outside of that place they are reported alike, as long as the
constraints on them differ there only, too.
-/

namespace FlowLint

/-- Two values are the same but for what stands at a path. -/
inductive DifferAt : Path → Json → Json → Prop
  | here (v w : Json) : DifferAt [] v w
  | member {q : Path} {v w : Json} (before : List (String × Json)) (name : String)
      (after : List (String × Json)) (within : DifferAt q v w) :
      DifferAt (.key name :: q) (.object (before ++ (name, v) :: after))
        (.object (before ++ (name, w) :: after))
  | item {q : Path} {v w : Json} (before after : List Json) (within : DifferAt q v w) :
      DifferAt (.index before.length :: q) (.array (before ++ v :: after))
        (.array (before ++ w :: after))

/-! ### Members -/

section

variable {α : Type} {before after : List (String × α)} {name : String} {v w : α}

theorem lookup_middle (fresh : name ∉ before.map Prod.fst) :
    (before ++ (name, v) :: after).lookup name = some v := by
  rw [List.lookup_append, lookup_cons_ite, if_pos rfl]
  cases found : before.lookup name with
  | none => rfl
  | some u => exact absurd (exists_lookup_iff.1 ⟨u, found⟩) fresh

theorem lookup_middle_ne {other : String} (h : other ≠ name) :
    (before ++ (name, v) :: after).lookup other = (before ++ (name, w) :: after).lookup other := by
  rw [List.lookup_append, List.lookup_append, lookup_cons_ite, lookup_cons_ite,
    if_neg h.symm, if_neg h.symm]

theorem names_middle : (before ++ (name, v) :: after).map Prod.fst =
    (before ++ (name, w) :: after).map Prod.fst := by
  simp

theorem not_mem_of_nodup_middle {β : Type} {before after : List β} {b : β}
    (h : (before ++ b :: after).Nodup) : b ∉ before ∧ b ∉ after := by
  rw [List.nodup_middle, List.nodup_cons, List.mem_append, not_or] at h
  exact h.1

end

/-- Two objects have the same members but for the value of one name. -/
structure DifferIn (name : String) (v w : Json) (ms ns : List (String × Json)) : Prop where
  names  : ms.map Prod.fst = ns.map Prod.fst
  others : ∀ k ≠ name, ms.lookup k = ns.lookup k
  left   : ms.lookup name = some v
  right  : ns.lookup name = some w

theorem DifferIn.get?_eq {name : String} {v w : Json} {ms ns : List (String × Json)}
    (differ : DifferIn name v w ms ns) {k : String} (hk : k ≠ name) :
    (Json.object ms).get? k = (Json.object ns).get? k :=
  differ.others k hk

/-- A difference below a member is one in the member. -/
theorem DifferAt.exists_member {name : String} {q : Path} {v other : Json}
    {ms : List (String × Json)} (h : DifferAt (.key name :: q) (.object ms) other)
    (distinct : (ms.map Prod.fst).Nodup) (hv : ms.lookup name = some v) :
    ∃ before after w, ms = before ++ (name, v) :: after ∧
      other = .object (before ++ (name, w) :: after) ∧ DifferAt q v w ∧
        DifferIn name v w ms (before ++ (name, w) :: after) := by
  cases h with
  | @member _ u w before _ after within =>
    rw [List.map_append, List.map_cons] at distinct
    have fresh := (not_mem_of_nodup_middle distinct).1
    have left : (before ++ (name, u) :: after).lookup name = some u := lookup_middle fresh
    cases left.symm.trans hv
    exact ⟨before, after, w, rfl, rfl, within, names_middle, fun k hk => lookup_middle_ne hk, left,
      lookup_middle fresh⟩

/-- A difference below an item is one in the item. -/
theorem DifferAt.exists_item {i : Nat} {q : Path} {v other : Json} {items : List Json}
    (h : DifferAt (.index i :: q) (.array items) other) (hv : items[i]? = some v) :
    ∃ before after w, i = before.length ∧ items = before ++ v :: after ∧
      other = .array (before ++ w :: after) ∧ DifferAt q v w := by
  cases h with
  | @item _ u w before after within =>
    rw [List.getElem?_append_right (Nat.le_refl _), Nat.sub_self] at hv
    cases hv
    exact ⟨before, after, w, rfl, rfl, rfl, within⟩

variable [Formats]

/-- A difference in one member shows in the report of that member only. -/
theorem outside_object {name : String} {v w : Json} {ms ns : List (String × Json)}
    (differ : DifferIn name v w ms ns) {before after : List (Field Constraint)}
    {f g : Field Constraint} (hf : f.name = name) (hg : g.name = name)
    (distinct : ((before ++ f :: after).map Field.name).Nodup) {r s : Constraint}
    (hr : f.rule? = some r) (hs : g.rule? = some s) (peers : List PeerRule) {p q : Path}
    (own : outside q (violations v r (p.member name)) =
      outside q (violations w s (p.member name))) :
    outside q (violations (.object ms) (.record ⟨before ++ f :: after, peers⟩) p) =
      outside q (violations (.object ns) (.record ⟨before ++ g :: after, peers⟩) p) := by
  subst hf
  rw [List.map_append, List.map_cons] at distinct
  obtain ⟨earlier, later⟩ := not_mem_of_nodup_middle distinct
  have others {fs : List (Field Constraint)} (h : f.name ∉ fs.map Field.name) :
      fs.flatMap (·.violatedBy ms p) = fs.flatMap (·.violatedBy ns p) := by
    refine List.flatMap_congr fun f' hf' => ?_
    have other : f'.name ≠ f.name := fun same => h (same ▸ List.mem_map_of_mem hf')
    rw [Field.violatedBy, Field.violatedBy, differ.others _ other]
  have unknown : (Shape.mk (before ++ f :: after) peers).undeclared (ms.map Prod.fst) p =
      (Shape.mk (before ++ g :: after) peers).undeclared (ns.map Prod.fst) p := by
    have declares (k : String) : (Shape.mk (before ++ f :: after) peers).declares k =
        (Shape.mk (before ++ g :: after) peers).declares k := by
      simp [Shape.declares, hg]
    simp only [Shape.undeclared, differ.names, declares]
  rw [violations_object ms rfl, violations_object ns rfl, unknown, differ.names]
  simp only [List.flatMap_append, List.flatMap_cons, outside_append, others earlier, others later,
    Field.violatedBy_eq hr differ.left, Field.violatedBy_eq hs (hg ▸ differ.right), own, hg]

/-! ### Items -/

theorem outside_positionViolations (f : Json → Constraint) {v w : Json} {p q : Path}
    (after : List Json) : ∀ (before : List Json) (i : Nat),
      outside q (violations v (f v) (p.item (i + before.length))) =
          outside q (violations w (f w) (p.item (i + before.length))) →
        outside q (positionViolations (before ++ v :: after) ((before ++ v :: after).map f) p i) =
          outside q (positionViolations (before ++ w :: after) ((before ++ w :: after).map f) p i)
  | [], i, own => by
    simp only [List.nil_append, List.map_cons, positionViolations, outside_append]
    exact congrArg (· ++ _) own
  | u :: before, i, own => by
    have index : i + (u :: before).length = i + 1 + before.length := by
      rw [List.length_cons]
      omega
    rw [index] at own
    simp only [List.cons_append, List.map_cons, positionViolations, outside_append]
    exact congrArg (_ ++ ·) (outside_positionViolations f after before (i + 1) own)

/-- A difference in one item shows in the report of that item only. -/
theorem outside_positions (f : Json → Constraint) {v w : Json} {p q : Path}
    (before after : List Json) (atLeast : Nat)
    (own : outside q (violations v (f v) (p.item before.length)) =
      outside q (violations w (f w) (p.item before.length))) :
    outside q (violations (.array (before ++ v :: after))
        (.positions ((before ++ v :: after).map f) atLeast) p) =
      outside q (violations (.array (before ++ w :: after))
        (.positions ((before ++ w :: after).map f) atLeast) p) := by
  rw [← Nat.zero_add before.length] at own
  have items := outside_positionViolations f after before 0 own
  simp only [violations, outside_append, items, List.length_append, List.length_cons]

end FlowLint
