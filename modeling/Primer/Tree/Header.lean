import Primer.Tree

/-!
# Function headers

A header interleaves type names and names. Whoever reads one collects the types in one list and the
names in another, and the two lists have to be brought together again.
-/

namespace Primer.Parameter

variable {L : Type}

/-- Pairs the types of a header with its names.

The list of types starts with the return type unless that is `void`, so in all other cases the first
type is passed over. What is left over in the longer list is dropped. -/
def pair (returns : String) (types names : List (Name L)) : List (Parameter L) :=
  let types := if returns = "void" then types else types.drop 1
  List.zipWith Parameter.mk types names

end Primer.Parameter
