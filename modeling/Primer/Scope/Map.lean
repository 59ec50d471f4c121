import Primer.Fault

/-!
# Scope maps

A scope map remembers which scope was in force at which node. It has one entry for each node number
up to some bound and grows when a larger number is recorded, so the numbers may have gaps. The last
record for a node counts.
-/

namespace Primer

/-- The scopes recorded for nodes, each at the number of its node. -/
structure ScopeMap where
  entries : Array (Option ScopeId)
deriving DecidableEq, Repr

namespace ScopeMap

/-- The map without records. -/
def empty : ScopeMap := ⟨#[]⟩

/-- The map with entries for the numbers up to `node` at least. -/
def growTo (m : ScopeMap) (node : NodeId) : ScopeMap :=
  ⟨m.entries ++ Array.replicate (node.index + 1 - m.entries.size) none⟩

/-- Records the scope of a node, in place of an earlier one. -/
def record (m : ScopeMap) (node : NodeId) (scope : ScopeId) : ScopeMap :=
  ⟨(m.growTo node).entries.setIfInBounds node.index (some scope)⟩

/-- The scope recorded for a node. A number outside the map has none. -/
def get? (m : ScopeMap) (node : NodeId) : Option ScopeId :=
  (m.entries[node.index]?).join

@[simp]
theorem get?_empty (node : NodeId) : empty.get? node = none := rfl

/-- The entries that a map gains when it grows are empty. -/
@[simp]
theorem get?_growTo (m : ScopeMap) (node other : NodeId) :
    (m.growTo node).get? other = m.get? other := by
  simp only [growTo, get?, Array.getElem?_append, Array.getElem?_replicate]
  split
  · rfl
  · rename_i h
    have hnone : m.entries[other.index]? = none := Array.getElem?_eq_none (Nat.not_lt.mp h)
    rw [hnone]
    split <;> rfl

theorem get?_record (m : ScopeMap) (node other : NodeId) (scope : ScopeId) :
    (m.record node scope).get? other = if other = node then some scope else m.get? other := by
  have hlt : node.index < (m.growTo node).entries.size := by
    simp only [growTo, Array.size_append, Array.size_replicate]
    omega
  rw [← get?_growTo m node other]
  by_cases h : other = node
  · subst h
    simp [record, get?, hlt]
  · have hne : node.index ≠ other.index := fun he => h (by cases node; cases other; simp_all)
    simp [record, get?, h, hne]

/-- The scope of a node that must have one. -/
def scopeOf (m : ScopeMap) (node : NodeId) : Except Fault ScopeId :=
  match m.get? node with
  | some scope => .ok scope
  | none => .error (.unscoped node)

end ScopeMap

end Primer
