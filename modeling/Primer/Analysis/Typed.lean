import Primer.Analysis.TypeError
import Primer.Scope.Table

/-!
# Typing rules

The rules that give a construct its type from the types of its parts. Whatever is ill typed is
reported once and has type `error`, which passes silently through the expressions around it.

`new T[n]` has type `T`. It can be stored only where an array of `T` is expected and only when it is
written there directly.
-/

namespace Primer

/-! ## Typed pieces -/

/-- The type of an expression with what was found wrong on the way to it. -/
structure Typed (L : Type) where
  type : Ty
  findings : List (Located L TypeError)

variable {L : Type}

namespace Typed

/-- A type with nothing wrong. -/
def pure (type : Ty) : Typed L := ⟨type, []⟩

/-- A mistake, which is reported here. -/
def fail (place : L) (error : TypeError) : Typed L := ⟨.error, [⟨place, error⟩]⟩

/-- The same type, with earlier findings in front. -/
def after (earlier : List (Located L TypeError)) (x : Typed L) : Typed L :=
  ⟨x.type, earlier ++ x.findings⟩

/-- Demands a type. What is ill typed already passes silently. -/
def expect (expected found : Ty) (place : L) : Typed L :=
  if found = .error ∨ found = expected then pure found
  else fail place (.expectedType expected found)

/-- A type that is granted only if a position or size is an `int`. -/
def providedInt (type found : Ty) (place : L) : Typed L :=
  let checked := expect .int found place
  ⟨if checked.type = .int then type else .error, checked.findings⟩

end Typed

/-! ## Rules for one construct

Each rule takes the types of the parts. The findings in the parts come in front of its own. -/

namespace Typed

/-- Whether values of a type can be compared by an operator. -/
def comparable (op : BinOp) (type : Ty) : Bool :=
  type.isScalar || (type = .string && !op.isRelational)

/-- Operators. Operands of a comparison need not share a type directly under `length`. -/
def binary (place : L) (op : BinOp) (lhs rhs : Ty) (underLength : Bool) : Typed L :=
  -- A mistake inside an operand is reported there and only there.
  if lhs = .error ∨ rhs = .error then pure .error
  else if lhs = .void ∨ rhs = .void then fail place (.voidOperand op)
  else if op.isArithmetic then
    if lhs ≠ rhs then fail place (.operandMismatch op lhs rhs)
    else if !lhs.isNumeric then fail place (.invalidOperands op lhs)
    else pure lhs
  -- Directly under `length` the operands may differ, and then each is judged by itself.
  else if lhs ≠ rhs ∧ !underLength then fail place (.operandMismatch op lhs rhs)
  else if !comparable op lhs then fail place (.invalidOperands op lhs)
  else if !comparable op rhs then fail place (.invalidOperands op rhs)
  else pure .bool

/-- An element of an array or a character of a string. -/
def index (base : Name L) (type : Ty) (position : L) (found : Ty) : Typed L :=
  if type = .error then pure .error
  else match type.element? with
    | none => fail base.place (.notIndexable type)
    | some element => providedInt element found position

/-- The length of an array or a string. -/
def length (operand : L) (found : Ty) : Typed L :=
  if found = .error then pure .error
  else if found = .string ∨ found.isArray then pure .int
  else fail operand (.noLength found)

/-- A number with its sign changed. -/
def negate (operand : L) (found : Ty) : Typed L :=
  if found = .error then pure .error
  else if found.isNumeric then pure found
  else fail operand (.notNumeric found)

/-- An array given by its elements, which must share a type. -/
def array (place : L) : List Ty → Typed L
  | [] => fail place .emptyArray
  | first :: rest =>
    -- An element that is wrong by itself says nothing about the others.
    if .error ∈ first :: rest then pure .error
    else if ∃ type ∈ rest, type ≠ first then fail place .mixedArray
    else match first.arrayOf? with
      | some type => pure type
      | none => fail place (.invalidElement first)

/-- A fresh array; its type is that of its elements. -/
def newArray (element : Name L) (size : L) (found : Ty) : Typed L :=
  match Ty.named? element.text with
  | none => fail element.place (.unknownType element.text)
  | some type =>
    if type.isScalar then providedInt type found size
    else fail element.place (.invalidElement type)

/-- One argument of a call: it keeps its type if that is the expected one. -/
def argument (function : String) (position : Nat) (expected : Ty) (place : L) (found : Ty) :
    Typed L :=
  if found = .error then pure .error
  else if found = .void then fail place (.voidArgument function)
  else if found ≠ expected then
    fail place (.argumentMismatch function position expected found)
  else pure found

/-- The arguments of a call, numbered from `position`, against the types of the parameters. -/
def arguments (function : String) : Nat → List Ty → List (L × Typed L) → List (Typed L)
  | position, expected :: types, (place, found) :: rest =>
    (argument function position expected place found.type).after found.findings ::
      arguments function (position + 1) types rest
  | _, _, _ => []

/-- A call. If the name or the number of arguments is wrong, which was reported as a mistaken
reference, only the arguments themselves are checked. -/
def call (t : Table) (s : ScopeId) (callee : Name L) (given : List (L × Typed L)) : Typed L :=
  -- Without a callee that fits, only the mistakes inside the arguments are left.
  let unchecked : Typed L := ⟨.error, given.flatMap (·.2.findings)⟩
  match t.callee? s callee.text with
  | none => unchecked
  | some f =>
    if f.parameters.length ≠ given.length then unchecked
    else
      let checked := arguments callee.text 1 (f.parameters.map t.typeOf) given
      ⟨if .error ∈ checked.map Typed.type then .error else f.returns,
        checked.flatMap Typed.findings⟩

end Typed

/-! ## Rules for statements

What is wrong with the use that a statement makes of a value, given the type of the value. -/

namespace Typed

/-- A condition must be true or false. -/
def conditionMistakes (statement : String) (place : L) (found : Ty) : List (Located L TypeError) :=
  if found = .bool ∨ found = .error then [] else [⟨place, .condition statement found⟩]

/-- Arrays cannot be printed, nor what is no value at all. -/
def printMistakes (place : L) (found : Ty) : List (Located L TypeError) :=
  if found = .void ∨ found = .args ∨ found.isArray then [⟨place, .notPrintable found⟩] else []

/-- Only elements of arrays can be assigned. A target that is no variable was reported as a mistaken
reference. -/
def elementMistakes (target : Name L) (declared : Option Ty) (position : L) (index : Ty) (value : L)
    (found : Ty) : List (Located L TypeError) :=
  match declared with
  | none => []
  | some declared =>
    -- The index is judged before the target.
    (expect .int index position).findings ++
      if declared = .string then [⟨target.place, .immutableString target.text⟩]
      else if declared.isArray then
        match declared.element? with
        | some element => (expect element found value).findings
        | none => []
      else [⟨target.place, .notIndexable declared⟩]

end Typed

end Primer
