/-!
# Identities

Nodes of a tree, scopes and symbols are told apart by numbers. Each family of numbers has a type of
its own, so that the number of a scope is never taken for that of a symbol.
-/

namespace Primer

/-- The number of a tree node that opens a scope or asks for one. -/
@[ext]
structure NodeId where
  index : Nat
deriving DecidableEq, Repr, Inhabited

/-- The number of a scope, its place in the order of opening. -/
@[ext]
structure ScopeId where
  index : Nat
deriving DecidableEq, Repr, Inhabited

/-- The number of a symbol, its place in the order of definition. -/
@[ext]
structure SymbolId where
  index : Nat
deriving DecidableEq, Repr, Inhabited

end Primer
