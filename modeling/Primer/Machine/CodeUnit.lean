import Primer.Machine.Instruction

/-!
# Units of machine code

A unit is a named list of functions, each with its access flags, its signature, the number of its
slots and its instructions.
-/

namespace Primer.Machine

/-- Who may call a function, and whether it needs an instance. -/
structure Access where
  isPublic : Bool
  isPrivate : Bool
  isStatic : Bool
deriving DecidableEq, Repr

namespace Access

/-- The number of each flag, with its name. -/
def flags (a : Access) : List (Bool × Nat × String) :=
  [(a.isPublic, 1, "PUBLIC"), (a.isPrivate, 2, "PRIVATE"), (a.isStatic, 8, "STATIC")]

/-- The flags as one number. -/
def bits (a : Access) : Nat :=
  a.flags.foldr (fun (isSet, weight, _) total => (if isSet then weight else 0) + total) 0

/-- The flags that a number holds; other bits are dropped. -/
def keep (n : Nat) : Access :=
  ⟨n.testBit 0, n.testBit 1, n.testBit 3⟩

/-- The flags of a number that holds nothing else. -/
def ofBits? (n : Nat) : Option Access :=
  if (keep n).bits = n then some (keep n) else none

/-- The names of the flags that are set. -/
def text (a : Access) : String :=
  let names := a.flags.filterMap fun (isSet, _, name) => if isSet then some name else none
  if names.isEmpty then "(empty)" else String.intercalate " | " names

/-- The access of a function of the program. -/
def ofFunction : Access := ⟨false, true, true⟩

/-- The access of the entry point. -/
def ofMain : Access := ⟨true, false, true⟩

end Access

/-- A function of a unit. -/
structure Routine where
  name : String
  access : Access
  signature : Signature
  /-- How many slots the function uses, those of its arguments included. -/
  slots : Nat
  body : Code
deriving DecidableEq, Repr

/-- The machine code of a program. -/
structure CodeUnit where
  name : String
  functions : List Routine
deriving DecidableEq, Repr

namespace CodeUnit

/-- The position of the first function of a given name. -/
def find? (u : CodeUnit) (name : String) : Option Nat :=
  u.functions.findIdx? (·.name = name)

/-- The first function of a given name. -/
def function? (u : CodeUnit) (name : String) : Option Routine :=
  u.functions.find? (·.name = name)

end CodeUnit

end Primer.Machine
