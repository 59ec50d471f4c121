import Primer.Text.Decimal
import Primer.Ty

/-!
# The stack machine

Programs are emitted for a machine with an operand stack, numbered local slots and symbolic labels.
-/

namespace Primer.Machine

/-! ## Values -/

/-- How the machine stores a value. -/
inductive Kind where
  /-- Integers, truth values and characters. -/
  | int
  | float
  /-- Strings and arrays. -/
  | ref
deriving DecidableEq, Repr, Inhabited

namespace Kind

/-- How values of a type are stored. -/
def ofTy : Ty → Kind
  | .float => .float
  | .int | .bool | .char => .int
  | _ => .ref

/-- How many slots a value takes. -/
def width : Kind → Nat
  | .float => 2
  | .int | .ref => 1

end Kind

/-- What the elements of an array can be. -/
inductive Element where
  | int
  | float
  | char
deriving DecidableEq, Repr, Inhabited

/-- The elements of a type, if arrays can have such. -/
def Element.ofTy? : Ty → Option Element
  | .int => some .int
  | .float => some .float
  | .char => some .char
  | _ => none

/-- Constants. A float is kept as the 64 bits of its binary representation. -/
inductive Constant where
  | int (value : Int)
  | float (bits : UInt64)
  | char (value : Char)
  | str (value : String)
deriving DecidableEq, Repr

/-! ## Instructions -/

/-- Operations on two numbers. -/
inductive Arithmetic where
  | add
  | sub
  | mul
  | div
deriving DecidableEq, Repr

/-- Comparisons of two values; those of kind `ref` are compared by value. -/
inductive Condition where
  | less
  | greater
  | equal
  | notEqual
deriving DecidableEq, Repr

/-- A mark that a function can jump to. -/
structure Label where
  index : Nat
deriving DecidableEq, Repr

/-- The types that a function takes and the one it returns. -/
structure Signature where
  parameters : List Ty
  returns : Ty
deriving DecidableEq, Repr

/-- A signature is written `(a, b) -> r`. -/
def Signature.text (s : Signature) : String :=
  "(" ++ Text.commaSeparated (s.parameters.map Ty.text) ++ ") -> " ++ s.returns.text

/-- Instructions. -/
inductive Instruction where
  | label (l : Label)
  | jump (target : Label)
  /-- Takes an integer and jumps if it is zero. -/
  | jumpIfFalse (target : Label)
  /-- Takes two operands and jumps if they compare so. -/
  | ifCompare (kind : Kind) (condition : Condition) (target : Label)
  | push (value : Constant)
  | pop (kind : Kind)
  | dup
  | load (kind : Kind) (slot : Nat)
  | store (kind : Kind) (slot : Nat)
  /-- Loads a parameter, by its position in the signature. -/
  | loadArgument (kind : Kind) (position : Nat)
  /-- Stores a parameter, by its position in the signature. -/
  | storeArgument (kind : Kind) (position : Nat)
  | newArray (element : Element)
  | arrayLoad (element : Element)
  | arrayStore (element : Element)
  | arrayLength
  | stringLength
  | charAt
  | arithmetic (kind : Kind) (operation : Arithmetic)
  | negate (kind : Kind)
  | call (target : String) (signature : Signature)
  /-- Prints a value, if a type is given, and then a line end, if one is asked for. -/
  | print (value : Option Ty) (newline : Bool)
  | ret (kind : Option Kind)
deriving DecidableEq, Repr

/-- Instructions in sequence. -/
abbrev Code : Type := List Instruction

end Primer.Machine
