import Primer.Script.Expression

/-!
# Statements of scripts

The statements that scripts are made of, and how statements of a program become such. A script has
the nesting of its program: every block becomes a list of statements.
-/

namespace Primer.Script

/-- Statements of scripts. -/
inductive Stmt where
  | assign (target : String) (value : Expr)
  | assignAt (target : String) (position value : Expr)
  | ret (value : Option Expr)
  | print (newline : Bool) (value : Option Expr)
  | eval (value : Expr)
  | ifThen (condition : Expr) (yes : List Stmt)
  | ifElse (condition : Expr) (yes no : List Stmt)
  | loop (condition : Expr) (body : List Stmt)
  /-- Stands for the statements of a block without a recorded scope, which have no script. -/
  | unscoped (node : NodeId)

/-- A function of a script. -/
structure Function where
  name : String
  parameters : List String
  body : List Stmt

end Primer.Script

namespace Primer

variable {L : Type}

mutual

/-- A statement of the program as one of the script. -/
def Stmt.toScript (t : Table) (m : ScopeMap) (s : ScopeId) : Stmt L NodeId → Script.Stmt
  -- A variable without value is still introduced, so that the name exists.
  | .declare _ _ name value =>
    .assign (Script.safeName name.text) ((value.map (·.toScript t s)).getD .none)
  | .assign _ target value => .assign (Script.safeName target.text) (value.toScript t s)
  | .assignAt _ target position value =>
    .assignAt (Script.safeName target.text) (position.toScript t s) (value.toScript t s)
  | .ifThen _ condition yes => .ifThen (condition.toScript t s) (yes.toScript t m)
  | .ifElse _ condition yes no =>
    .ifElse (condition.toScript t s) (yes.toScript t m) (no.toScript t m)
  | .loop _ condition body => .loop (condition.toScript t s) (body.toScript t m)
  | .ret _ _ value => .ret (value.map (·.toScript t s))
  | .print _ newline value => .print newline (value.map (·.toScript t s))
  | .call _ callee arguments =>
    .eval (.call (Script.safeName callee.text) (Expr.toScriptAll t s arguments))

/-- The statements of a block. The scope of a block without statements is not asked for. -/
def Block.toScript (t : Table) (m : ScopeMap) : Block L NodeId → List Script.Stmt
  | .mk _ [] => []
  | .mk node (st :: sts) =>
    match m.get? node with
    | some s => st.toScript t m s :: Block.toScriptAll t m s sts
    | none => [.unscoped node]

/-- Statements of the program as such of the script. -/
def Block.toScriptAll (t : Table) (m : ScopeMap) (s : ScopeId) :
    List (Stmt L NodeId) → List Script.Stmt
  | [] => []
  | st :: sts => st.toScript t m s :: Block.toScriptAll t m s sts

end

end Primer
