import Primer.Analysis.Report
import Primer.Scope.Table
import Primer.Tree.Program

/-!
# Declarations

The first pass defines the functions, parameters and variables of a program in a table and records
the scope of every item, block and return. A declaration that is rejected is reported and leaves no
trace in the table; the statements of a rejected function are passed over.
-/

namespace Primer

/-- The mistakes in declarations. -/
inductive DeclarationError where
  | duplicateMain
  | duplicateFunction (name : String)
  | missingBody (name : String)
  | duplicateParameter (name : String)
  | duplicateVariable (name : String)
  | unknownType (name : String)
deriving DecidableEq, Repr

/-- The wording of a mistake in a declaration. -/
def DeclarationError.message : DeclarationError → String
  | .duplicateMain => "Function `main` is already defined"
  | .duplicateFunction name => "Function `" ++ name ++ "` is already defined"
  | .missingBody name => "Function `" ++ name ++ "` has no body"
  | .duplicateParameter name => "Parameter `" ++ name ++ "` is declared more than once"
  | .duplicateVariable name => "Variable `" ++ name ++ "` is already declared in this scope"
  | .unknownType name => "Unknown type `" ++ name ++ "`"

instance : Explained DeclarationError := ⟨DeclarationError.message⟩

/-- The label of mistaken declarations. -/
def DeclarationError.label : String := "Declaration error"

/-- What the declarations seen so far amount to. -/
structure Declarations (L : Type) where
  table : Table
  scopes : ScopeMap
  findings : List (Located L DeclarationError)

namespace Declarations

variable {L : Type}

/-- Nothing declared. -/
def empty : Declarations L := ⟨.empty, .empty, []⟩

/-- Reports a mistake. -/
def report (d : Declarations L) (place : L) (error : DeclarationError) : Declarations L :=
  { d with findings := d.findings ++ [⟨place, error⟩] }

/-- Records the scope of a node. -/
def record (d : Declarations L) (node : NodeId) (scope : ScopeId) : Declarations L :=
  { d with scopes := d.scopes.record node scope }

/-- Opens a scope and records it for a node. -/
def openFor (d : Declarations L) (node : NodeId) (parent : ScopeId) (function : Option SymbolId) :
    ScopeId × Declarations L :=
  let (scope, table) := d.table.openScope parent function
  (scope, { d with table, scopes := d.scopes.record node scope })

/-- Opens the scope of a block and records it. -/
def openBlock (d : Declarations L) (node : NodeId) (parent : ScopeId) :
    ScopeId × Declarations L :=
  let (scope, table) := d.table.openBlock parent
  (scope, { d with table, scopes := d.scopes.record node scope })

/-- Defines a symbol. -/
def define (d : Declarations L) (scope : ScopeId) (x : Symbol) :
    Option SymbolId × Declarations L :=
  let (id, table) := d.table.define scope x
  (id, { d with table })

/-- Whether the global scope has a function of this name. -/
def hasFunction (d : Declarations L) (name : String) : Bool :=
  ((d.table.localResolve Table.global name).bind d.table.function?).isSome

/-- Whether a variable of this name may not be declared in a scope: the scope, or the parameter list
of its function, has one. -/
def hasVariable (d : Declarations L) (scope : ScopeId) (name : String) : Bool :=
  (d.table.paramLocalResolve scope name).any fun x => (d.table.function? x).isNone

/-- The type of a given name; an unknown one is reported. -/
def resolveType (d : Declarations L) (name : Name L) : Option Ty × Declarations L :=
  match Ty.named? name.text with
  | some type => (some type, d)
  | none => (none, d.report name.place (.unknownType name.text))

/-- The types of given names. The first unknown one is reported and ends the search. -/
def resolveTypes (d : Declarations L) : List (Name L) → Option (List Ty) × Declarations L
  | [] => (some [], d)
  | name :: names =>
    match d.resolveType name with
    | (none, d) => (none, d)
    | (some type, d) =>
      let (types, d) := d.resolveTypes names
      (types.map (type :: ·), d)

/-- Adds a symbol to the parameters of a function. -/
def addParameter (d : Declarations L) (function parameter : SymbolId) : Declarations L :=
  { d with table := d.table.addParameter function parameter }

/-- Declares a variable. -/
def declareVariable (d : Declarations L) (scope : ScopeId) (type name : Name L) : Declarations L :=
  match d.resolveType type with
  | (none, d) => d
  | (some type, d) =>
    if d.hasVariable scope name.text then
      d.report name.place (.duplicateVariable name.text)
    else (d.define scope (.var name.text type)).2

/-- Declares the parameters of a function in its scope. -/
def parameters (d : Declarations L) (function : SymbolId) (scope : ScopeId) :
    List (Name L × Ty) → Declarations L
  | [] => d
  | (name, type) :: rest =>
    match d.define scope (.var name.text type) with
    | (some x, d) => (d.addParameter function x).parameters function scope rest
    -- The parameter is dropped, and the others keep their types.
    | (none, d) =>
      (d.report name.place (.duplicateParameter name.text)).parameters function scope rest

end Declarations

/-! ## The pass -/

mutual

/-- Declares what a statement declares, in the scope of its block. -/
def Stmt.declarations {L : Type} (scope : ScopeId) :
    Stmt L NodeId → Declarations L → Declarations L
  | .declare _ type name _, d => d.declareVariable scope type name
  | .ifThen _ _ yes, d => yes.declarations scope d
  | .ifElse _ _ yes no, d => no.declarations scope (yes.declarations scope d)
  | .loop _ _ body, d => body.declarations scope d
  -- A `return` is recorded too, since its check has to find the function.
  | .ret _ node _, d => d.record node scope
  | .assign .., d | .assignAt .., d | .print .., d | .call .., d => d

/-- Opens the scope of a block and declares what its statements declare. -/
def Block.declarations {L : Type} (parent : ScopeId) :
    Block L NodeId → Declarations L → Declarations L
  | .mk node statements, d =>
    let (scope, d) := d.openBlock node parent
    Block.declarationsAll scope statements d

/-- Declares what the statements of a block declare, in order. -/
def Block.declarationsAll {L : Type} (scope : ScopeId) :
    List (Stmt L NodeId) → Declarations L → Declarations L
  | [], d => d
  | s :: ss, d => Block.declarationsAll scope ss (s.declarations scope d)

end

namespace Declarations

variable {L : Type}

/-- Declares the entry point, which belongs to no function of the program. -/
def entryPoint (d : Declarations L) (m : EntryPoint L NodeId) : Declarations L :=
  if d.hasFunction "main" then d.report m.place .duplicateMain
  else
    let d := (d.define Table.global (.fn ⟨"main", .void, []⟩)).2
    let (scope, d) := d.openFor m.mark Table.global none
    m.body.declarations scope d

/-- Declares a function whose types are known: its symbol, its scope, its parameters, its body. -/
def accept (d : Declarations L) (f : Function L NodeId) (body : Block L NodeId) (returns : Ty)
    (types : List Ty) : Declarations L :=
  -- The symbol comes first, since the scope and the parameters refer to it.
  match d.define Table.global (.fn ⟨f.name.text, returns, []⟩) with
  | (none, d) => d
  | (some x, d) =>
    let (scope, d) := d.openFor f.mark Table.global (some x)
    let d := d.parameters x scope ((f.parameters.map (·.name)).zip types)
    body.declarations scope d

/-- Declares a function, unless its body is missing, its name is taken or one of its types is
unknown. -/
def function (d : Declarations L) (f : Function L NodeId) : Declarations L :=
  match f.body with
  | none => d.report f.name.place (.missingBody f.name.text)
  | some body =>
    if d.hasFunction f.name.text then
      d.report f.name.place (.duplicateFunction f.name.text)
    else
      -- Both are resolved before either is judged, so one header can give two findings.
      let (returns, d) := d.resolveType f.returns
      let (types, d) := d.resolveTypes (f.parameters.map (·.type))
      match returns, types with
      | some returns, some types => d.accept f body returns types
      | _, _ => d

/-- Declares an item. -/
def item (d : Declarations L) : Item L NodeId → Declarations L
  | .function f => d.function f
  | .main m => d.entryPoint m

/-- Declares a whole program. The root has the global scope. -/
def ofProgram (p : Program L) : Declarations L :=
  p.items.foldl item (empty.record p.root Table.global)

end Declarations

end Primer
