import Primer.Script.Statement

/-!
# Layout of scripts

A script is laid out by indentation: a block stands one step further right than its header.

* A block without statements is written `pass`.
* An `else` whose block is a single conditional is written `elif`, and the block is not indented
  further.
* A blank line follows every function.

A line has no text if it would be indented further than a field is wide.
-/

namespace Primer.Script

/-! ## Lines -/

/-- A line of text and how many steps it is indented. -/
structure Line where
  depth : Nat
  text : String
deriving DecidableEq, Repr

/-- How many blanks one step of indentation has. -/
def indentStep : Nat := 4

/-- A line, if it is not indented too far. -/
def line (depth : Nat) (text : String) : Except Fault (List Line) := do
  Fault.checkWidth (depth * indentStep)
  return [⟨depth, text⟩]

/-- The characters of a line, its end included. -/
def Line.render (l : Line) : String :=
  Text.blanks (l.depth * indentStep) ++ l.text ++ "\n"

/-! ## Layout -/

/-- The call that prints a value. -/
def printText (newline : Bool) (value : Option Expr) : String :=
  match value, newline with
  | some value, true => "print(" ++ value.text ++ ")"
  | some value, false => "print(" ++ value.text ++ ", end='')"
  | none, true => "print()"
  | none, false => "print(end='')"

mutual

/-- The lines of a statement. -/
def Stmt.layout (depth : Nat) : Stmt → Except Fault (List Line)
  | .assign target value => line depth (target ++ " = " ++ value.text)
  | .assignAt target position value =>
    line depth (target ++ "[" ++ position.text ++ "] = " ++ value.text)
  | .ret none => line depth "return"
  | .ret (some value) => line depth ("return " ++ value.text)
  | .print newline value => line depth (printText newline value)
  | .eval value => line depth value.text
  | .ifThen condition yes => do
    let header ← line depth ("if " ++ condition.text ++ ":")
    let yes ← Stmt.layoutBlock (depth + 1) yes
    return header ++ yes
  | .ifElse condition yes no => do
    let header ← line depth ("if " ++ condition.text ++ ":")
    let yes ← Stmt.layoutBlock (depth + 1) yes
    let no ← Stmt.layoutElse depth no
    return header ++ yes ++ no
  | .loop condition body => do
    let header ← line depth ("while " ++ condition.text ++ ":")
    let body ← Stmt.layoutBlock (depth + 1) body
    return header ++ body
  | .unscoped node => .error (.unscoped node)

/-- The lines of a block. -/
def Stmt.layoutBlock (depth : Nat) : List Stmt → Except Fault (List Line)
  | [] => line depth "pass"
  | s :: ss => do
    let first ← s.layout depth
    let rest ← Stmt.layoutAll depth ss
    return first ++ rest

/-- The lines of statements, one after the other. -/
def Stmt.layoutAll (depth : Nat) : List Stmt → Except Fault (List Line)
  | [] => .ok []
  | s :: ss => do
    let first ← s.layout depth
    let rest ← Stmt.layoutAll depth ss
    return first ++ rest

/-- The lines of the part after `else`. A single conditional goes on with `elif`. -/
def Stmt.layoutElse (depth : Nat) : List Stmt → Except Fault (List Line)
  | [.ifThen condition yes] => do
    let header ← line depth ("elif " ++ condition.text ++ ":")
    let yes ← Stmt.layoutBlock (depth + 1) yes
    return header ++ yes
  | [.ifElse condition yes no] => do
    let header ← line depth ("elif " ++ condition.text ++ ":")
    let yes ← Stmt.layoutBlock (depth + 1) yes
    let no ← Stmt.layoutElse depth no
    return header ++ yes ++ no
  | [] => do
    let header ← line depth "else:"
    let body ← line (depth + 1) "pass"
    return header ++ body
  | s :: ss => do
    let header ← line depth "else:"
    let first ← s.layout (depth + 1)
    let rest ← Stmt.layoutAll (depth + 1) ss
    return header ++ first ++ rest

end

/-- The lines of a function, a blank one last. -/
def Function.layout (f : Function) : Except Fault (List Line) := do
  let header ← line 0 ("def " ++ f.name ++ "(" ++ Text.commaSeparated f.parameters ++ "):")
  let body ← Stmt.layoutBlock 1 f.body
  return header ++ body ++ [⟨0, ""⟩]

end Primer.Script
