import Primer.Analysis
import Primer.Log.Entry

/-!
# Analysis with a log

The three passes once more, now as computations that report each error when it is found. What is
wrong with one construct is said by the same rules as before; here they are applied on the way
through the tree, and what they find goes to a sink.

The type checker can be run with any sink. With the silent one it only infers types.
-/

namespace Primer

/-! ## Declarations -/

/-- Computations that declare, report mistakes and write to the log. -/
abbrev Declaring : Type → Type :=
  StateT (Declarations Location) Logged

namespace Declarations

/-- The mistakes reported so far. -/
def diagnostics (d : Declarations Location) : Diagnostics DeclarationError :=
  ⟨DeclarationError.label, d.findings⟩

/-- Reports a mistake. -/
def reportM (place : Location) (error : DeclarationError) : Declaring Unit := do
  let d ← get
  let errors ← d.diagnostics.record ⟨place, error⟩
  set { d with findings := errors.entries }

/-- The type of a given name; an unknown one is reported. -/
def resolveTypeM (name : Name Location) : Declaring (Option Ty) :=
  match Ty.named? name.text with
  | some type => return some type
  | none => do
    reportM name.place (.unknownType name.text)
    return none

/-- The types of given names. The first unknown one is reported and ends the search. -/
def resolveTypesM : List (Name Location) → Declaring (Option (List Ty))
  | [] => return some []
  | name :: names => do
    match ← resolveTypeM name with
    | none => return none
    | some type =>
      let types ← resolveTypesM names
      return types.map (type :: ·)

/-- Declares a variable. -/
def declareVariableM (scope : ScopeId) (type name : Name Location) : Declaring Unit := do
  match ← resolveTypeM type with
  | none => return
  | some type =>
    let d ← get
    if d.hasVariable scope name.text then
      reportM name.place (.duplicateVariable name.text)
    else set (d.define scope (.var name.text type)).2

/-- Declares the parameters of a function in its scope. -/
def parametersM (function : SymbolId) (scope : ScopeId) : List (Name Location × Ty) → Declaring Unit
  | [] => return
  | (name, type) :: rest => do
    match ← modifyGet (·.define scope (.var name.text type)) with
    | some x => modify (·.addParameter function x)
    | none => reportM name.place (.duplicateParameter name.text)
    parametersM function scope rest

end Declarations

mutual

/-- Declares what a statement declares, in the scope of its block. -/
def Stmt.declarationsM (scope : ScopeId) : Stmt Location NodeId → Declaring Unit
  | .declare _ type name _ => Declarations.declareVariableM scope type name
  | .ifThen _ _ yes => yes.declarationsM scope
  | .ifElse _ _ yes no => do
    yes.declarationsM scope
    no.declarationsM scope
  | .loop _ _ body => body.declarationsM scope
  | .ret _ node _ => modify (·.record node scope)
  | .assign .. | .assignAt .. | .print .. | .call .. => return

/-- Opens the scope of a block and declares what its statements declare. -/
def Block.declarationsM (parent : ScopeId) : Block Location NodeId → Declaring Unit
  | .mk node statements => do
    let scope ← modifyGet (·.openBlock node parent)
    Block.declarationsAllM scope statements

/-- Declares what the statements of a block declare, in order. -/
def Block.declarationsAllM (scope : ScopeId) : List (Stmt Location NodeId) → Declaring Unit
  | [] => return
  | s :: ss => do
    s.declarationsM scope
    Block.declarationsAllM scope ss

end

namespace Declarations

/-- Declares the entry point. -/
def entryPointM (m : EntryPoint Location NodeId) : Declaring Unit := do
  let d ← get
  if d.hasFunction "main" then reportM m.place .duplicateMain
  else
    set (d.define Table.global (.fn ⟨"main", .void, []⟩)).2
    let scope ← modifyGet (·.openFor m.mark Table.global none)
    m.body.declarationsM scope

/-- Declares a function whose types are known. -/
def acceptM (f : Function Location NodeId) (body : Block Location NodeId) (returns : Ty)
    (types : List Ty) : Declaring Unit := do
  match ← modifyGet (·.define Table.global (.fn ⟨f.name.text, returns, []⟩)) with
  | none => return
  | some x =>
    let scope ← modifyGet (·.openFor f.mark Table.global (some x))
    parametersM x scope ((f.parameters.map (·.name)).zip types)
    body.declarationsM scope

/-- Declares a function, unless something is wrong with its header. -/
def functionM (f : Function Location NodeId) : Declaring Unit :=
  match f.body with
  | none => reportM f.name.place (.missingBody f.name.text)
  | some body => do
    let d ← get
    if d.hasFunction f.name.text then
      reportM f.name.place (.duplicateFunction f.name.text)
    else
      let returns ← resolveTypeM f.returns
      let types ← resolveTypesM (f.parameters.map (·.type))
      match returns, types with
      | some returns, some types => acceptM f body returns types
      | _, _ => return

/-- Declares an item. -/
def itemM : Item Location NodeId → Declaring Unit
  | .function f => functionM f
  | .main m => entryPointM m

/-- Declares a whole program, in a span of its own. -/
def ofProgramM (p : Program Location) : Logged (Declarations Location) :=
  Log.inSpan "declarations" [] do
    let (_, d) ← (p.items.forM itemM).run (empty.record p.root Table.global)
    Log.writeTotal d.diagnostics "symbol table built"
    return d

end Declarations

/-! ## References -/

variable {L σ : Type}

mutual

/-- Checks the references of an expression, in reading order. -/
def Expr.referencesM (sink : Sink L ReferenceError σ) (t : Table) (s : ScopeId) :
    Expr L → StateT σ Logged Unit
  | .int .. | .float .. | .bool .. | .char .. | .str .. => return
  | .read _ name => sink.reportAll (name.variableReference t s)
  | .call _ callee arguments => do
    sink.reportAll (callee.calleeReference t s arguments.length)
    Expr.referencesAllM sink t s arguments
  | .index _ base position => do
    sink.reportAll (base.variableReference t s)
    position.referencesM sink t s
  | .length _ operand | .paren _ operand | .negate _ operand => operand.referencesM sink t s
  | .binary _ _ lhs rhs => do
    lhs.referencesM sink t s
    rhs.referencesM sink t s
  | .array _ elements => Expr.referencesAllM sink t s elements
  | .newArray _ _ size => size.referencesM sink t s

/-- Checks the references of several expressions. -/
def Expr.referencesAllM (sink : Sink L ReferenceError σ) (t : Table) (s : ScopeId) :
    List (Expr L) → StateT σ Logged Unit
  | [] => return
  | e :: es => do
    e.referencesM sink t s
    Expr.referencesAllM sink t s es

end

/-- Checks the references of an expression that may be absent. -/
def Expr.referencesOptionM (sink : Sink L ReferenceError σ) (t : Table) (s : ScopeId) :
    Option (Expr L) → StateT σ Logged Unit
  | none => return
  | some e => e.referencesM sink t s

mutual

/-- Checks a statement, in the scope of its block. -/
def Stmt.referencesM (sink : Sink L ReferenceError σ) (t : Table) (m : ScopeMap) (s : ScopeId) :
    Stmt L NodeId → StateT σ Logged Unit
  | .declare _ _ _ value => Expr.referencesOptionM sink t s value
  | .assign _ target value => do
    sink.reportAll (target.targetReference t s)
    value.referencesM sink t s
  | .assignAt _ target position value => do
    sink.reportAll (target.targetReference t s)
    position.referencesM sink t s
    value.referencesM sink t s
  | .ifThen _ condition yes => do
    condition.referencesM sink t s
    yes.referencesM sink t m
  | .ifElse _ condition yes no => do
    condition.referencesM sink t s
    yes.referencesM sink t m
    no.referencesM sink t m
  | .loop _ condition body => do
    condition.referencesM sink t s
    body.referencesM sink t m
  | .ret place node value => do
    -- The scope is the one recorded for the return, which need not be `s`.
    let s ← m.scopeOf node
    if (t.owner? s).isNone then sink.report ⟨place, .returnOutsideFunction⟩
    Expr.referencesOptionM sink t s value
  | .print _ _ value => Expr.referencesOptionM sink t s value
  | .call place callee arguments => (Expr.call place callee arguments).referencesM sink t s

/-- Checks a block in the scope recorded for it. -/
def Block.referencesM (sink : Sink L ReferenceError σ) (t : Table) (m : ScopeMap) :
    Block L NodeId → StateT σ Logged Unit
  | .mk node statements => do
    let s ← m.scopeOf node
    Block.referencesAllM sink t m s statements

/-- Checks the statements of a block in order. -/
def Block.referencesAllM (sink : Sink L ReferenceError σ) (t : Table) (m : ScopeMap) (s : ScopeId) :
    List (Stmt L NodeId) → StateT σ Logged Unit
  | [] => return
  | st :: sts => do
    st.referencesM sink t m s
    Block.referencesAllM sink t m s sts

end

/-- Checks the references of a program, in a span of its own. -/
def Program.referencesM (t : Table) (m : ScopeMap) (p : Program Location) :
    Logged (Diagnostics ReferenceError) :=
  Log.inSpan "references" [] do
    let (_, errors) ← ((p.acceptedBodies m).forM (·.referencesM .recorder t m)).run
      (Diagnostics.empty.relabel ReferenceError.label)
    Log.writeTotal errors "reference check finished"
    return errors

/-! ## Types -/

/-- Gives the type and sends what was found wrong. -/
def Typed.sendTo (sink : Sink L TypeError σ) (x : Typed L) : StateT σ Logged Ty := do
  sink.reportAll x.findings
  return x.type

mutual

/-- The type of an expression in a scope. What is wrong with a construct is sent after what is wrong
with its parts. -/
def Expr.checkM (sink : Sink L TypeError σ) (t : Table) (s : ScopeId) (underLength : Bool) :
    Expr L → StateT σ Logged Ty
  | .int .. => return .int
  | .float .. => return .float
  | .bool .. => return .bool
  | .char .. => return .char
  | .str .. => return .string
  | .read _ name => return (t.varType? s name.text).getD .error
  | .call _ callee arguments =>
    match t.callee? s callee.text with
    | none => do
      let _ ← Expr.checkAllM sink t s arguments
      return .error
    | some f => do
      if f.parameters.length ≠ arguments.length then
        let _ ← Expr.checkAllM sink t s arguments
        return .error
      else
        let expected := f.parameters.map t.typeOf
        let types ← Expr.checkArgumentsM sink t s callee.text 1 expected arguments
        return if .error ∈ types then .error else f.returns
  | .index _ base position => do
    let found ← position.checkM sink t s false
    (Typed.index base ((t.varType? s base.text).getD .error) position.place found).sendTo sink
  | .length _ operand => do
    let found ← operand.checkM sink t s true
    (Typed.length operand.place found).sendTo sink
  | .paren _ operand => operand.checkM sink t s false
  | .negate _ operand => do
    let found ← operand.checkM sink t s false
    (Typed.negate operand.place found).sendTo sink
  | .binary place op lhs rhs => do
    let lhs ← lhs.checkM sink t s false
    let rhs ← rhs.checkM sink t s false
    (Typed.binary place op lhs rhs underLength).sendTo sink
  | .array place elements => do
    let types ← Expr.checkAllM sink t s elements
    (Typed.array place types).sendTo sink
  | .newArray _ element size => do
    let found ← size.checkM sink t s false
    (Typed.newArray element size.place found).sendTo sink

/-- The types of several expressions. -/
def Expr.checkAllM (sink : Sink L TypeError σ) (t : Table) (s : ScopeId) :
    List (Expr L) → StateT σ Logged (List Ty)
  | [] => return []
  | e :: es => do
    let type ← e.checkM sink t s false
    let types ← Expr.checkAllM sink t s es
    return type :: types

/-- The types of the arguments of a call, numbered from `position`. Each is compared with the
expected one before the next is looked at. -/
def Expr.checkArgumentsM (sink : Sink L TypeError σ) (t : Table) (s : ScopeId) (function : String) :
    Nat → List Ty → List (Expr L) → StateT σ Logged (List Ty)
  | position, expected :: rest, e :: es => do
    let found ← e.checkM sink t s false
    let type ← (Typed.argument function position expected e.place found).sendTo sink
    let types ← Expr.checkArgumentsM sink t s function (position + 1) rest es
    return type :: types
  | _, _, _ => return []

end

/-- The type of an expression in a scope, without a word about what is wrong with it. -/
def Expr.typeInM (t : Table) (s : ScopeId) (e : Expr L) : Logged Ty := do
  let (type, _) ← (e.checkM .silent t s false).run ()
  return type

mutual

/-- Checks a statement, in the scope of its block. -/
def Stmt.typesM (sink : Sink L TypeError σ) (t : Table) (m : ScopeMap) (s : ScopeId) :
    Stmt L NodeId → StateT σ Logged Unit
  | .declare _ _ _ none => return
  | .declare _ type name (some value) => do
    let found ← value.checkM sink t s false
    match Ty.named? type.text with
    | some declared => sink.reportAll (value.checkStore name.text declared found)
    | none => return
  | .assign _ target value => do
    let found ← value.checkM sink t s false
    match t.varType? s target.text with
    | some declared => sink.reportAll (value.checkStore target.text declared found)
    | none => return
  | .assignAt _ target position value => do
    let index ← position.checkM sink t s false
    let found ← value.checkM sink t s false
    sink.reportAll (Typed.elementMistakes target (t.varType? s target.text) position.place index
      value.place found)
  | .ifThen _ condition yes => do
    let found ← condition.checkM sink t s false
    sink.reportAll (Typed.conditionMistakes "if" condition.place found)
    yes.typesM sink t m
  | .ifElse _ condition yes no => do
    let found ← condition.checkM sink t s false
    sink.reportAll (Typed.conditionMistakes "if" condition.place found)
    yes.typesM sink t m
    no.typesM sink t m
  | .loop _ condition body => do
    let found ← condition.checkM sink t s false
    sink.reportAll (Typed.conditionMistakes "while" condition.place found)
    body.typesM sink t m
  | .ret place node value => do
    let found ← value.mapM fun e => do
      let type ← e.checkM sink t s false
      return (e, type)
    let s ← m.scopeOf node
    match t.functionOf s with
    | none => return
    | some (_, f) => sink.reportAll (f.checkReturn place found)
  | .print _ _ none => return
  | .print _ _ (some value) => do
    let found ← value.checkM sink t s false
    sink.reportAll (Typed.printMistakes value.place found)
  | .call place callee arguments => do
    let _ ← (Expr.call place callee arguments).checkM sink t s false

/-- Checks a block in the scope recorded for it. -/
def Block.typesM (sink : Sink L TypeError σ) (t : Table) (m : ScopeMap) :
    Block L NodeId → StateT σ Logged Unit
  | .mk node statements => do
    let s ← m.scopeOf node
    Block.typesAllM sink t m s statements

/-- Checks the statements of a block in order. -/
def Block.typesAllM (sink : Sink L TypeError σ) (t : Table) (m : ScopeMap) (s : ScopeId) :
    List (Stmt L NodeId) → StateT σ Logged Unit
  | [] => return
  | st :: sts => do
    st.typesM sink t m s
    Block.typesAllM sink t m s sts

end

/-- Checks the types of a program, in a span of its own. -/
def Program.typesM (t : Table) (m : ScopeMap) (p : Program Location) :
    Logged (Diagnostics TypeError) :=
  Log.inSpan "types" [] do
    let (_, errors) ← ((p.acceptedBodies m).forM (·.typesM .recorder t m)).run
      (Diagnostics.empty.relabel TypeError.label)
    Log.writeTotal errors "type check finished"
    return errors

/-! ## The whole analysis -/

/-- Analyzes a program. -/
def Program.analyzeM (p : Program Location) : Logged Analysis := do
  let d ← Declarations.ofProgramM p
  let references ← p.referencesM d.table d.scopes
  let types ← p.typesM d.table d.scopes
  return {
    table := d.table
    scopes := d.scopes
    declarations := d.diagnostics
    references
    types }

end Primer
