import Primer.Analysis.Typing
import Primer.Script.Identifier
import Primer.Script.Number
import Primer.Script.Quoted

/-!
# Expressions of scripts

The expressions that scripts are made of, how expressions of a program become such, and their text.
The text puts the parts of an expression side by side and adds no parentheses: those that the
program writes are kept, and nothing else groups.
-/

namespace Primer.Script

/-- Expressions of scripts. Names are those of the script. -/
inductive Expr where
  | none
  | int (value : Int)
  | float (bits : UInt64)
  | bool (value : Bool)
  | str (value : List Char)
  | name (text : String)
  | call (callee : String) (arguments : List Expr)
  | subscript (base : String) (position : Expr)
  | paren (operand : Expr)
  | negate (operand : Expr)
  | binary (op : BinOp) (lhs rhs : Expr)
  | list (elements : List Expr)

namespace Expr

mutual

/-- The text of an expression. -/
def text : Expr → String
  | .none => "None"
  | .int value => Text.ofInt value
  | .float bits => floatText bits
  | .bool true => "True"
  | .bool false => "False"
  | .str value => String.ofList (Quoted.quote value)
  | .name n => n
  | .call callee arguments => callee ++ "(" ++ Text.commaSeparated (texts arguments) ++ ")"
  | .subscript base position => base ++ "[" ++ position.text ++ "]"
  | .paren operand => "(" ++ operand.text ++ ")"
  | .negate operand => "-" ++ operand.text
  | .binary op lhs rhs => lhs.text ++ " " ++ op.text ++ " " ++ rhs.text
  | .list elements => "[" ++ Text.commaSeparated (texts elements) ++ "]"

/-- The texts of several expressions. -/
def texts : List Expr → List String
  | [] => []
  | e :: es => e.text :: texts es

end

theorem texts_eq_map (es : List Expr) : texts es = es.map text := by
  induction es with
  | nil => rfl
  | cons e es ih => simp [texts, ih]

/-- The quotient of integers: the exact quotient, cut to an integer. -/
def wholeQuotient (lhs rhs : Expr) : Expr :=
  .call "int" [.binary .div lhs rhs]

/-- The zero that fills a fresh array. -/
def zeroOf (element : String) : Expr :=
  if Ty.named? element = some .float then .float 0 else .int 0

/-- A list of zeros, as one zero repeated. -/
def zeros (element : String) (size : Expr) : Expr :=
  .binary .mul (.list [zeroOf element]) size

end Expr

end Primer.Script

namespace Primer.Expr

variable {L : Type}

mutual

/-- An expression of the program as one of the script. Division depends on the type of its left
operand. -/
def toScript (t : Table) (s : ScopeId) : Expr L → Script.Expr
  | .int _ value => .int value
  | .float _ bits => .float bits
  | .bool _ value => .bool value
  | .char _ value => .str [value]
  | .str _ value => .str value.toList
  | .read _ name => .name (Script.safeName name.text)
  | .call _ callee arguments =>
    .call (Script.safeName callee.text) (toScriptAll t s arguments)
  | .index _ base position =>
    .subscript (Script.safeName base.text) (position.toScript t s)
  | .length _ operand => .call "len" [operand.toScript t s]
  | .paren _ operand => .paren (operand.toScript t s)
  | .negate _ operand => .negate (operand.toScript t s)
  | .binary _ op lhs rhs =>
    -- The quotient of integers is cut off towards zero, which the plain operator is not.
    if op = .div ∧ lhs.typeIn t s = .int then
      .wholeQuotient (lhs.toScript t s) (rhs.toScript t s)
    else .binary op (lhs.toScript t s) (rhs.toScript t s)
  | .array _ elements => .list (toScriptAll t s elements)
  | .newArray _ element size => .zeros element.text (size.toScript t s)

/-- Several expressions of the program as such of the script. -/
def toScriptAll (t : Table) (s : ScopeId) : List (Expr L) → List Script.Expr
  | [] => []
  | e :: es => e.toScript t s :: toScriptAll t s es

end

theorem toScriptAll_eq_map (t : Table) (s : ScopeId) (es : List (Expr L)) :
    toScriptAll t s es = es.map (toScript t s) := by
  induction es with
  | nil => rfl
  | cons e es ih => simp [toScriptAll, ih]

end Primer.Expr
