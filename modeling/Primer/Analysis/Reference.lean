import Primer.Analysis.Acceptance
import Primer.Analysis.Report
import Primer.Scope.Table

/-!
# References

The second pass checks that every name which a program reads, assigns or calls stands for a symbol
of the right sort, that calls have the right number of arguments, and that returns stand in
functions.
-/

namespace Primer

/-- The mistakes in references. -/
inductive ReferenceError where
  | undefinedFunction (name : String)
  | arity (function : String) (expected found : Nat)
  | undefinedVariable (name : String)
  | expectedVariable (name : String)
  | globalAssignment (name : String)
  | returnOutsideFunction
deriving DecidableEq, Repr

/-- The wording of a mistake in a reference. -/
def ReferenceError.message : ReferenceError → String
  | .undefinedFunction name => "Function `" ++ name ++ "` is not declared"
  | .arity function expected found =>
    "Function `" ++ function ++ "` expects " ++ Text.ofNat expected ++ " arguments, but " ++
      Text.ofNat found ++ " were provided"
  | .undefinedVariable name => "Variable `" ++ name ++ "` is not declared in this scope"
  | .expectedVariable name => "Expected variable, found function `" ++ name ++ "`"
  | .globalAssignment name => "Assignment to `" ++ name ++ "` is not allowed in the global scope"
  | .returnOutsideFunction => "`return` used outside of a function"

instance : Explained ReferenceError := ⟨ReferenceError.message⟩

/-- The label of mistaken references. -/
def ReferenceError.label : String := "Reference error"

variable {L : Type}

/-! ## Names -/

namespace Name

/-- Checks a name that must stand for a variable. -/
def variableReference (t : Table) (s : ScopeId) (n : Name L) : List (Located L ReferenceError) :=
  match t.resolve s n.text with
  | none => [⟨n.place, .undefinedVariable n.text⟩]
  | some x => if (t.function? x).isSome then [⟨n.place, .expectedVariable n.text⟩] else []

/-- Checks a name that must stand for a function with a given number of parameters. -/
def calleeReference (t : Table) (s : ScopeId) (n : Name L) (arguments : Nat) :
    List (Located L ReferenceError) :=
  match t.callee? s n.text with
  | none => [⟨n.place, .undefinedFunction n.text⟩]
  | some f =>
    if f.parameters.length = arguments then []
    else [⟨n.place, .arity n.text f.parameters.length arguments⟩]

end Name

/-! ## Expressions -/

mutual

/-- The mistaken references of an expression, in reading order. -/
def Expr.references (t : Table) (s : ScopeId) : Expr L → List (Located L ReferenceError)
  | .int .. | .float .. | .bool .. | .char .. | .str .. => []
  | .read _ name => name.variableReference t s
  | .call _ callee arguments =>
    callee.calleeReference t s arguments.length ++ Expr.referencesAll t s arguments
  | .index _ base position => base.variableReference t s ++ position.references t s
  | .length _ operand | .paren _ operand | .negate _ operand => operand.references t s
  | .binary _ _ lhs rhs => lhs.references t s ++ rhs.references t s
  | .array _ elements => Expr.referencesAll t s elements
  | .newArray _ _ size => size.references t s

/-- The mistaken references of several expressions. -/
def Expr.referencesAll (t : Table) (s : ScopeId) : List (Expr L) → List (Located L ReferenceError)
  | [] => []
  | e :: es => e.references t s ++ Expr.referencesAll t s es

end

theorem Expr.referencesAll_eq_flatMap (t : Table) (s : ScopeId) (es : List (Expr L)) :
    Expr.referencesAll t s es = es.flatMap (Expr.references t s) := by
  induction es with
  | nil => rfl
  | cons e es ih => simp [Expr.referencesAll, ih]

/-- The mistaken references of an expression that may be absent. -/
def Expr.referencesOption (t : Table) (s : ScopeId) :
    Option (Expr L) → List (Located L ReferenceError)
  | none => []
  | some e => e.references t s

/-! ## Statements -/

/-- Checks the target of an assignment, which may not stand in the global scope. -/
def Name.targetReference (t : Table) (s : ScopeId) (n : Name L) : List (Located L ReferenceError) :=
  n.variableReference t s ++
    if s = Table.global then [⟨n.place, .globalAssignment n.text⟩] else []

mutual

/-- Checks a statement, in the scope of its block. A return is checked in the scope recorded for it.
-/
def Stmt.references (t : Table) (m : ScopeMap) (s : ScopeId) :
    Stmt L NodeId → Report L ReferenceError
  | .declare _ _ _ value => .ofFindings (Expr.referencesOption t s value)
  | .assign _ target value => .ofFindings (target.targetReference t s ++ value.references t s)
  | .assignAt _ target position value =>
    .ofFindings (target.targetReference t s ++ position.references t s ++ value.references t s)
  | .ifThen _ condition yes =>
    .ofFindings (condition.references t s) ++ yes.references t m
  | .ifElse _ condition yes no =>
    .ofFindings (condition.references t s) ++ (yes.references t m ++ no.references t m)
  | .loop _ condition body =>
    .ofFindings (condition.references t s) ++ body.references t m
  | .ret place node value =>
    -- The scope is the one that was recorded for the node, not the one of the traversal.
    .inScopeOf m node fun s =>
      .ofFindings ((if (t.owner? s).isNone then [⟨place, .returnOutsideFunction⟩] else []) ++
        Expr.referencesOption t s value)
  | .print _ _ value => .ofFindings (Expr.referencesOption t s value)
  | .call _ callee arguments =>
    .ofFindings (callee.calleeReference t s arguments.length ++ Expr.referencesAll t s arguments)

/-- Checks a block in the scope recorded for it. -/
def Block.references (t : Table) (m : ScopeMap) : Block L NodeId → Report L ReferenceError
  | .mk node statements => .inScopeOf m node fun s => Block.referencesAll t m s statements

/-- Checks the statements of a block in order. -/
def Block.referencesAll (t : Table) (m : ScopeMap) (s : ScopeId) :
    List (Stmt L NodeId) → Report L ReferenceError
  | [] => .empty
  | st :: sts => st.references t m s ++ Block.referencesAll t m s sts

end

/-! ## Programs -/

/-- Checks the references of a program. Rejected items are passed over. -/
def Program.references (t : Table) (m : ScopeMap) (p : Program L) : Report L ReferenceError :=
  .concat ((p.acceptedBodies m).map (·.references t m))

end Primer
