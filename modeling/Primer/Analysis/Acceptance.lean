import Primer.Scope.Map
import Primer.Tree.Program

/-!
# Accepted items

The passes after the first one look only at items whose declaration was accepted. Such an item has a
body, and a scope is recorded for it.
-/

namespace Primer

variable {L : Type}

namespace Item

/-- The body of an item whose declaration was accepted. -/
def acceptedBody? (m : ScopeMap) : Item L NodeId → Option (Block L NodeId)
  | .function f => if (m.get? f.mark).isSome then f.body else none
  | .main e => if (m.get? e.mark).isSome then some e.body else none

end Item

namespace Program

/-- The bodies of the accepted items, in order. -/
def acceptedBodies (m : ScopeMap) (p : Program L) : List (Block L NodeId) :=
  p.items.filterMap (·.acceptedBody? m)

end Program

end Primer
