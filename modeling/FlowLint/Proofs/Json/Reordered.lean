import Mathlib.Data.List.Perm.Basic
import FlowLint.Proofs.Json.Lookup

/-!
Values that differ in the order of members only. The order of items counts, so two arrays are
related item by item; two objects are once the members of one are put in another order.
-/

namespace FlowLint

/-! ### Lists up to order -/

/-- The elements of the first list are related to those of the second, put in another order. -/
def Shuffled (R : α → β → Prop) (as : List α) (bs : List β) : Prop :=
  ∃ mid, List.Forall₂ R as mid ∧ mid.Perm bs

namespace Shuffled

variable {R : α → β → Prop} {as : List α} {bs : List β}

theorem of_forall₂ (h : List.Forall₂ R as bs) : Shuffled R as bs := ⟨bs, h, .refl bs⟩

theorem refl {R : α → α → Prop} (h : ∀ a, R a a) (as : List α) : Shuffled R as as :=
  .of_forall₂ (List.forall₂_same.2 fun a _ => h a)

theorem trans_perm {bs' : List β} (h : Shuffled R as bs) (order : bs.Perm bs') :
    Shuffled R as bs' := by
  obtain ⟨mid, each, first⟩ := h
  exact ⟨mid, each, first.trans order⟩

theorem append {as' : List α} {bs' : List β} (h : Shuffled R as bs) (h' : Shuffled R as' bs') :
    Shuffled R (as ++ as') (bs ++ bs') := by
  obtain ⟨mid, each, order⟩ := h
  obtain ⟨mid', each', order'⟩ := h'
  exact ⟨mid ++ mid', List.rel_append each each', order.append order'⟩

theorem nil_iff (h : Shuffled R as bs) : as = [] ↔ bs = [] := by
  obtain ⟨mid, each, order⟩ := h
  rw [← List.length_eq_zero_iff, ← List.length_eq_zero_iff, each.length_eq, order.length_eq]

theorem map {S : γ → δ → Prop} {f : α → γ} {g : β → δ} (h : Shuffled R as bs)
    (related : ∀ a ∈ as, ∀ b, R a b → S (f a) (g b)) : Shuffled S (as.map f) (bs.map g) := by
  obtain ⟨mid, each, order⟩ := h
  have inside := (List.forall₂_and_left as mid).2 ⟨fun _ ha => ha, each⟩
  refine ⟨mid.map g, ?_, order.map g⟩
  rw [List.forall₂_map_left_iff, List.forall₂_map_right_iff]
  exact inside.imp fun a b ⟨ha, hab⟩ => related a ha b hab

/-- What related elements share is the same in both lists, up to order. -/
theorem perm_map {f : α → γ} {g : β → γ} (h : Shuffled R as bs)
    (same : ∀ a b, R a b → f a = g b) : (as.map f).Perm (bs.map g) := by
  obtain ⟨mid, equal, order⟩ := h.map fun a _ => same a
  rw [List.forall₂_eq_eq_eq] at equal
  rwa [equal]

/-- Lists made from related elements stay related when they are put together. -/
theorem flatMap {S : γ → δ → Prop} {f : α → List γ} {g : β → List δ} (h : Shuffled R as bs)
    (related : ∀ a b, R a b → Shuffled S (f a) (g b)) :
    Shuffled S (as.flatMap f) (bs.flatMap g) := by
  obtain ⟨mid, each, order⟩ := h
  refine trans_perm ?_ (order.flatMap_right g)
  clear order
  induction each with
  | nil => exact ⟨[], .nil, .refl []⟩
  | cons first _ ih =>
    rw [List.flatMap_cons, List.flatMap_cons]
    exact (related _ _ first).append ih

end Shuffled

/-! ### Members -/

/-- Two members have the same name and related values. -/
inductive SameName (R : α → β → Prop) : String × α → String × β → Prop
  | intro (name : String) {v : α} {w : β} (h : R v w) : SameName R (name, v) (name, w)

section

variable {α β : Type} {R : α → β → Prop} {ms : List (String × α)} {ms' : List (String × β)}

theorem Shuffled.perm_names (h : Shuffled (SameName R) ms ms') :
    (ms.map Prod.fst).Perm (ms'.map Prod.fst) :=
  h.perm_map fun _ _ same => by cases same; rfl

/-- Where no name is repeated, the order of members does not matter to a lookup. -/
theorem lookup_perm {ms ms' : List (String × α)} (order : ms.Perm ms')
    (distinct : (ms.map Prod.fst).Nodup) (name : String) : ms.lookup name = ms'.lookup name := by
  have distinct' := (order.map Prod.fst).nodup_iff.1 distinct
  ext v
  constructor
  · intro h
    exact lookup_of_mem distinct' (order.mem_iff.1 (mem_of_lookup h))
  · intro h
    exact lookup_of_mem distinct (order.mem_iff.2 (mem_of_lookup h))

/-- A name is in both lists, with related values, or in none. -/
theorem Shuffled.lookup (h : Shuffled (SameName R) ms ms') (distinct : (ms.map Prod.fst).Nodup)
    (name : String) : (ms.lookup name = none ∧ ms'.lookup name = none) ∨
      ∃ v w, ms.lookup name = some v ∧ ms'.lookup name = some w ∧ R v w := by
  obtain ⟨mid, each, order⟩ := h
  have names := (Shuffled.of_forall₂ each).perm_names
  rw [← lookup_perm order (names.nodup_iff.1 distinct)]
  clear order names distinct
  induction each with
  | nil => exact .inl ⟨rfl, rfl⟩
  | cons same _ ih =>
    cases same with
    | @intro k v w related =>
      rw [lookup_cons_ite, lookup_cons_ite]
      split
      · exact .inr ⟨v, w, rfl, rfl, related⟩
      · exact ih

end

/-! ### Values -/

/-- The second value is the first with the members of objects in another order, at any depth. -/
inductive Json.Reordered : Json → Json → Prop
  | null : Reordered .null .null
  | bool (b : Bool) : Reordered (.bool b) (.bool b)
  | number (n : Number) : Reordered (.number n) (.number n)
  | string (s : String) : Reordered (.string s) (.string s)
  | array {items items' : List Json} (each : List.Forall₂ Reordered items items') :
      Reordered (.array items) (.array items')
  | object {ms mid ms' : List (String × Json)} (each : List.Forall₂ (SameName Reordered) ms mid)
      (order : mid.Perm ms') : Reordered (.object ms) (.object ms')

/-- The members of an object, of which other values have none. -/
def Json.members (v : Json) : List (String × Json) := v.members?.getD []

theorem Json.exists_object_of_lookup {v w : Json} {name : String}
    (h : v.members.lookup name = some w) : ∃ ms, v = .object ms ∧ ms.lookup name = some w := by
  cases v with
  | object ms => exact ⟨ms, rfl, h⟩
  | _ => cases h

theorem Json.NoRepeats.members {v : Json} (h : v.NoRepeats) : (v.members.map Prod.fst).Nodup := by
  cases h with
  | object names _ => exact names
  | _ => exact List.nodup_nil

namespace Json.Reordered

variable {v w : Json}

theorem members (h : v.Reordered w) : Shuffled (SameName Reordered) v.members w.members := by
  cases h with
  | object each order => exact ⟨_, each, order⟩
  | _ => exact .of_forall₂ .nil

/-- What an object has under a name stays under it. -/
theorem get? (h : v.Reordered w) (distinct : v.NoRepeats) (name : String) :
    (v.get? name = none ∧ w.get? name = none) ∨
      ∃ x y, v.get? name = some x ∧ w.get? name = some y ∧ x.Reordered y := by
  have get (u : Json) : u.get? name = u.members.lookup name := by cases u <;> rfl
  rw [get, get]
  exact h.members.lookup distinct.members name

end Json.Reordered

end FlowLint
