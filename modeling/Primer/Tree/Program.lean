import Primer.Identity
import Primer.Tree

/-!
# Programs

A finished program: its items, the number of its root, and how many numbers were handed out. The
marks of a finished tree are node numbers.
-/

namespace Primer

/-- A finished program. -/
structure Program (L : Type) where
  root : NodeId
  items : List (Item L NodeId)
  /-- How many node numbers were handed out, the root's included. -/
  nodeCount : Nat

end Primer
