import Primer.Diagnostics
import Primer.Tree
import Primer.Ty

/-!
# Mistaken types

What can be wrong with the types of a program, and how it is worded.
-/

namespace Primer

/-- The mistakes in types. -/
inductive TypeError where
  | expectedType (expected found : Ty)
  | voidArgument (function : String)
  | argumentMismatch (function : String) (position : Nat) (expected found : Ty)
  | voidReturnValue (function : String)
  | missingReturnValue (function : String)
  | returnMismatch (function : String) (expected found : Ty)
  | voidAssignment (name : String)
  | immutableString (name : String)
  | notIndexable (type : Ty)
  | noLength (type : Ty)
  | notNumeric (type : Ty)
  | voidOperand (op : BinOp)
  | operandMismatch (op : BinOp) (lhs rhs : Ty)
  | invalidOperands (op : BinOp) (type : Ty)
  | mixedArray
  | emptyArray
  | invalidElement (type : Ty)
  | unknownType (name : String)
  | condition (statement : String) (type : Ty)
  | notPrintable (type : Ty)
deriving DecidableEq, Repr

/-- The wording of a mistake in types. -/
def TypeError.message : TypeError → String
  | .expectedType expected found =>
    "Type mismatch: expected `" ++ expected.text ++ "`, found `" ++ found.text ++ "`"
  | .voidArgument function => "Cannot pass a void value as an argument to `" ++ function ++ "`"
  | .argumentMismatch function position expected found =>
    "Argument " ++ Text.ofNat position ++ " of `" ++ function ++ "` expects `" ++ expected.text ++
      "`, found `" ++ found.text ++ "`"
  | .voidReturnValue function => "Cannot return a value from void function `" ++ function ++ "`"
  | .missingReturnValue function => "Function `" ++ function ++ "` requires a return value"
  | .returnMismatch function expected found =>
    "Return type mismatch in `" ++ function ++ "`: expected `" ++ expected.text ++ "`, found `" ++
      found.text ++ "`"
  | .voidAssignment name => "Cannot assign a void value to `" ++ name ++ "`"
  | .immutableString name => "Elements of string `" ++ name ++ "` cannot be assigned"
  | .notIndexable type => "Type `" ++ type.text ++ "` cannot be indexed"
  | .noLength type => "`length` applies to strings and arrays, found `" ++ type.text ++ "`"
  | .notNumeric type => "Unary minus applies to `int` or `float`, found `" ++ type.text ++ "`"
  | .voidOperand op => "Cannot use a void value as an operand of `" ++ op.text ++ "`"
  | .operandMismatch op lhs rhs =>
    "Operands of `" ++ op.text ++ "` must share a type, found `" ++ lhs.text ++ "` and `" ++
      rhs.text ++ "`"
  | .invalidOperands op type =>
    "Operator `" ++ op.text ++ "` is not defined for `" ++ type.text ++ "`"
  | .mixedArray => "Array elements must share a type"
  | .emptyArray => "Array literals must have at least one element"
  | .invalidElement type => "Arrays of `" ++ type.text ++ "` are not supported"
  | .unknownType name => "Unknown type `" ++ name ++ "`"
  | .condition statement type =>
    "Condition of `" ++ statement ++ "` must be `bool`, found `" ++ type.text ++ "`"
  | .notPrintable type => "Values of type `" ++ type.text ++ "` cannot be printed"

instance : Explained TypeError := ⟨TypeError.message⟩

/-- The label of mistaken types. -/
def TypeError.label : String := "Type error"

end Primer
