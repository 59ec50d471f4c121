import Primer.Identity
import Primer.Ty

/-!
# Scopes and symbols

All scopes and symbols of a program live in one `Table` and are addressed by their numbers. Scopes
form a tree with the global scope, number zero, at its root. A scope is opened after its parent, so
a parent's number is smaller than that of its children, and the chain of scopes from any scope
outwards is finite.
-/

namespace Primer

/-! ## Symbols -/

/-- What is known of a declared function. -/
structure FunctionSymbol where
  name : String
  returns : Ty
  /-- The symbols of its parameters, in the order of declaration. -/
  parameters : List SymbolId
deriving DecidableEq, Repr

/-- A declared name with its type. -/
inductive Symbol where
  | var (name : String) (type : Ty)
  | fn (f : FunctionSymbol)
deriving DecidableEq, Repr

namespace Symbol

/-- The declared name. -/
def name : Symbol → String
  | .var name _ => name
  | .fn f => f.name

/-- The type of a variable, the return type of a function. -/
def type : Symbol → Ty
  | .var _ type => type
  | .fn f => f.returns

/-- The function that a symbol stands for, if it stands for one. -/
def function? : Symbol → Option FunctionSymbol
  | .var .. => none
  | .fn f => some f

/-- Whether a symbol stands for a function. -/
def isFunction (x : Symbol) : Bool :=
  x.function?.isSome

/-- A function with one more parameter; a variable stays as it is. -/
def addParameter (parameter : SymbolId) : Symbol → Symbol
  | .var name type => .var name type
  | .fn f => .fn { f with parameters := f.parameters ++ [parameter] }

end Symbol

/-! ## Scopes -/

/-- A scope of the program. -/
structure Scope where
  /-- The enclosing scope. Only the global scope has none. -/
  parent : Option ScopeId := none
  /-- The function that the scope belongs to, if it belongs to one. -/
  function : Option SymbolId := none
  /-- The scopes opened directly inside, in the order of opening. -/
  children : List ScopeId := []
  /-- The symbols defined here, in the order of definition. -/
  symbols : List SymbolId := []
  /-- The symbols defined here by name, the newest first. -/
  names : List (String × SymbolId) := []
deriving DecidableEq, Repr

namespace Scope

/-- The symbol that a scope binds to a name. -/
def lookup (s : Scope) (name : String) : Option SymbolId :=
  s.names.lookup name

/-- The scope with one more symbol, under a name that was free. -/
def bind (s : Scope) (name : String) (x : SymbolId) : Scope :=
  { s with symbols := s.symbols ++ [x], names := (name, x) :: s.names }

theorem lookup_bind (s : Scope) (name other : String) (x : SymbolId) :
    (s.bind name x).lookup other = if other = name then some x else s.lookup other := by
  by_cases h : other = name
  · simp [bind, lookup, h]
  · have hne : (other == name) = false := beq_eq_false_iff_ne.mpr h
    simp [bind, lookup, List.lookup_cons, h, hne]

end Scope

/-- The scopes and the symbols of a program, each at its number. -/
structure Table where
  scopes : Array Scope
  symbols : Array Symbol
deriving DecidableEq, Repr

namespace Table

/-- The table with nothing but the global scope. -/
def empty : Table := ⟨#[{}], #[]⟩

/-- The global scope. -/
def global : ScopeId := ⟨0⟩

/-! ## Reading a table -/

/-- The scope with a given number. -/
def scope? (t : Table) (s : ScopeId) : Option Scope :=
  t.scopes[s.index]?

/-- The symbol with a given number. -/
def symbol? (t : Table) (x : SymbolId) : Option Symbol :=
  t.symbols[x.index]?

/-- The type of a symbol, `error` for a number that no symbol has. -/
def typeOf (t : Table) (x : SymbolId) : Ty :=
  ((t.symbol? x).map Symbol.type).getD .error

/-- The name of a symbol, empty for a number that no symbol has. -/
def nameOf (t : Table) (x : SymbolId) : String :=
  ((t.symbol? x).map Symbol.name).getD ""

/-- The function behind a number, if it is that of a function. -/
def function? (t : Table) (x : SymbolId) : Option FunctionSymbol :=
  (t.symbol? x).bind Symbol.function?

/-- The scope that encloses a scope. -/
def parent? (t : Table) (s : ScopeId) : Option ScopeId :=
  (t.scope? s).bind Scope.parent

/-- The symbol of the function that a scope says it belongs to. -/
def owner? (t : Table) (s : ScopeId) : Option SymbolId :=
  (t.scope? s).bind Scope.function

/-- The function that a scope belongs to, if its owner is a function indeed. -/
def functionOf (t : Table) (s : ScopeId) : Option (SymbolId × FunctionSymbol) :=
  (t.owner? s).bind fun x => (t.function? x).map (x, ·)

/-! ## Looking names up -/

/-- Looks a name up in one scope only. -/
def localResolve (t : Table) (s : ScopeId) (name : String) : Option SymbolId :=
  (t.scope? s).bind (·.lookup name)

/-- At most `steps` scopes from `s` outwards. -/
def chainWithin (t : Table) : Nat → ScopeId → List ScopeId
  | 0, _ => []
  | steps + 1, s => s :: ((t.parent? s).map (t.chainWithin steps)).getD []

/-- The scopes from `s` outwards. Numbers fall along the way, so there are at most `s.index + 1`. -/
def chain (t : Table) (s : ScopeId) : List ScopeId :=
  t.chainWithin (s.index + 1) s

/-- Looks a name up in a scope and then in each scope around it. -/
def resolve (t : Table) (s : ScopeId) (name : String) : Option SymbolId :=
  (t.chain s).findSome? fun s => t.localResolve s name

/-- Looks a name up in a scope and then among the parameters of its function. -/
def paramLocalResolve (t : Table) (s : ScopeId) (name : String) : Option SymbolId :=
  (t.localResolve s name).or <|
    (t.functionOf s).bind fun (_, f) => f.parameters.find? fun x => t.nameOf x = name

/-- Looks the name of a called function up, in the global scope first and then from `s` outwards. -/
def resolveCallee (t : Table) (s : ScopeId) (name : String) : Option SymbolId :=
  (t.localResolve global name).or (t.resolve s name)

/-- The function that a call by this name reaches. -/
def callee? (t : Table) (s : ScopeId) (name : String) : Option FunctionSymbol :=
  (t.resolveCallee s name).bind t.function?

/-- The type of the variable of this name, if the name stands for one. -/
def varType? (t : Table) (s : ScopeId) (name : String) : Option Ty :=
  (t.resolve s name).bind t.symbol? |>.bind fun
    | .var _ type => some type
    | .fn _ => none

/-! ## Extending a table -/

/-- Opens a scope inside `parent` for a given function. -/
def openScope (t : Table) (parent : ScopeId) (function : Option SymbolId) : ScopeId × Table :=
  let s : ScopeId := ⟨t.scopes.size⟩
  let scopes := t.scopes.modify parent.index fun p => { p with children := p.children ++ [s] }
  (s, { t with scopes := scopes.push { parent := some parent, function } })

/-- Opens the scope of a block, which belongs to the function of its parent. -/
def openBlock (t : Table) (parent : ScopeId) : ScopeId × Table :=
  t.openScope parent (t.owner? parent)

/-- Defines a symbol unless the scope binds its name already. Then the table stays as it is. -/
def define (t : Table) (s : ScopeId) (x : Symbol) : Option SymbolId × Table :=
  match t.scope? s with
  | none => (none, t)
  | some scope =>
    if (scope.lookup x.name).isSome then (none, t)
    else
      -- Symbols are never removed, so the next number is fresh.
      let id : SymbolId := ⟨t.symbols.size⟩
      (some id, ⟨t.scopes.setIfInBounds s.index (scope.bind x.name id), t.symbols.push x⟩)

/-- Adds a symbol to the parameters of a function. -/
def addParameter (t : Table) (function parameter : SymbolId) : Table :=
  { t with symbols := t.symbols.modify function.index (Symbol.addParameter parameter) }

end Table

end Primer
