import FlowLint.Proofs.Json.Lookup

/-!
How deep values are. Each part of a value is less deep than the value, so what goes down from a
value to its parts comes to an end, whatever else it takes along.
-/

namespace FlowLint.Json

mutual

/-- The steps of the longest way down through members and items. Scalars and empty containers have
    none. -/
def depth : Json → Nat
  | .array items    => itemsDepth items
  | .object members => membersDepth members
  | _               => 0

def itemsDepth : List Json → Nat
  | []      => 0
  | v :: vs => max (depth v + 1) (itemsDepth vs)

def membersDepth : List (String × Json) → Nat
  | []           => 0
  | (_, v) :: ms => max (depth v + 1) (membersDepth ms)

end

theorem depth_lt_itemsDepth {v : Json} {vs : List Json} (h : v ∈ vs) :
    v.depth < itemsDepth vs := by
  induction vs with
  | nil => cases h
  | cons w vs ih =>
    rw [itemsDepth]
    rcases List.mem_cons.1 h with rfl | h
    · exact Nat.le_max_left ..
    · exact Nat.lt_of_lt_of_le (ih h) (Nat.le_max_right ..)

theorem depth_lt_membersDepth {m : String × Json} {ms : List (String × Json)} (h : m ∈ ms) :
    m.2.depth < membersDepth ms := by
  induction ms with
  | nil => cases h
  | cons m' ms ih =>
    rw [membersDepth]
    rcases List.mem_cons.1 h with rfl | h
    · exact Nat.le_max_left ..
    · exact Nat.lt_of_lt_of_le (ih h) (Nat.le_max_right ..)

/-- What holds of a value if it holds of all values less deep holds of every value. -/
theorem depth_induction {P : Json → Prop} (h : ∀ v, (∀ w, w.depth < v.depth → P w) → P v)
    (v : Json) : P v := (measure depth).wf.induction v h

end FlowLint.Json
