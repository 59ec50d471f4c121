import Primer.Analysis.Acceptance
import Primer.Analysis.Report
import Primer.Analysis.Typed

/-!
# Types

The third pass gives every expression a type and checks that statements use values of the right
ones. Names that do not resolve were reported by the pass before and only have type `error` here.
-/

namespace Primer

variable {L : Type}

/-! ## Expressions -/

mutual

/-- The type of an expression in a scope. The flag says whether it stands directly under `length`.
-/
def Expr.check (t : Table) (s : ScopeId) (underLength : Bool) : Expr L → Typed L
  | .int .. => .pure .int
  | .float .. => .pure .float
  | .bool .. => .pure .bool
  | .char .. => .pure .char
  | .str .. => .pure .string
  | .read _ name => .pure ((t.varType? s name.text).getD .error)
  | .call _ callee arguments =>
    .call t s callee (Expr.checkAll t s arguments)
  | .index _ base position =>
    let found := position.check t s false
    (Typed.index base ((t.varType? s base.text).getD .error) position.place found.type).after
      found.findings
  | .length _ operand =>
    -- Only the outermost operator of the operand is under `length`.
    let found := operand.check t s true
    (Typed.length operand.place found.type).after found.findings
  | .paren _ operand => operand.check t s false
  | .negate _ operand =>
    let found := operand.check t s false
    (Typed.negate operand.place found.type).after found.findings
  | .binary place op lhs rhs =>
    let lhs := lhs.check t s false
    let rhs := rhs.check t s false
    (Typed.binary place op lhs.type rhs.type underLength).after (lhs.findings ++ rhs.findings)
  | .array place elements =>
    let elements := Expr.checkAll t s elements
    (Typed.array place (elements.map (·.2.type))).after (elements.flatMap (·.2.findings))
  | .newArray _ element size =>
    let found := size.check t s false
    (Typed.newArray element size.place found.type).after found.findings

/-- The types of several expressions, each with the place of the expression. -/
def Expr.checkAll (t : Table) (s : ScopeId) : List (Expr L) → List (L × Typed L)
  | [] => []
  | e :: es => (e.place, e.check t s false) :: Expr.checkAll t s es

end

theorem Expr.checkAll_eq_map (t : Table) (s : ScopeId) (es : List (Expr L)) :
    Expr.checkAll t s es = es.map fun e => (e.place, e.check t s false) := by
  induction es with
  | nil => rfl
  | cons e es ih => simp [Expr.checkAll, ih]

/-- The type of an expression in a scope. -/
def Expr.typeIn (t : Table) (s : ScopeId) (e : Expr L) : Ty :=
  (e.check t s false).type

/-! ## Storing values -/

namespace Expr

/-- Whether an expression of type `found` can be stored where `declared` is expected. A fresh array
is stored as an array of its elements. -/
def storableAs (e : Expr L) (declared found : Ty) : Bool :=
  if e.isNewArray then declared.isArray && declared.element? = some found
  else declared = found

/-- The type of a stored expression as a message shows it. -/
def shownType (e : Expr L) (found : Ty) : Ty :=
  if e.isNewArray then found.arrayOf?.getD found else found

/-- Checks that an expression can be stored in a variable. -/
def checkStore (e : Expr L) (name : String) (declared found : Ty) : List (Located L TypeError) :=
  if found = .error then []
  else if found = .void then [⟨e.place, .voidAssignment name⟩]
  else if e.storableAs declared found then []
  else [⟨e.place, .expectedType declared (e.shownType found)⟩]

/-- Checks the condition of a statement. -/
def checkCondition (t : Table) (s : ScopeId) (statement : String) (e : Expr L) :
    List (Located L TypeError) :=
  let found := e.check t s false
  found.findings ++ Typed.conditionMistakes statement e.place found.type

/-- Checks an expression that is printed. -/
def checkPrint (t : Table) (s : ScopeId) (e : Expr L) : List (Located L TypeError) :=
  let found := e.check t s false
  found.findings ++ Typed.printMistakes e.place found.type

/-- Checks an expression that is assigned to one element of `target`. -/
def checkElement (t : Table) (s : ScopeId) (target : Name L) (position value : Expr L) :
    List (Located L TypeError) :=
  let index := position.check t s false
  let found := value.check t s false
  index.findings ++ found.findings ++
    Typed.elementMistakes target (t.varType? s target.text) position.place index.type value.place
      found.type

end Expr

/-- Checks what a function returns. -/
def FunctionSymbol.checkReturn (f : FunctionSymbol) (place : L) :
    Option (Expr L × Ty) → List (Located L TypeError)
  | none => if f.returns = .void then [] else [⟨place, .missingReturnValue f.name⟩]
  | some (e, found) =>
    if f.returns = .void then [⟨e.place, .voidReturnValue f.name⟩]
    else if found = .error ∨ e.storableAs f.returns found then []
    else [⟨e.place, .returnMismatch f.name f.returns (e.shownType found)⟩]

/-! ## Statements -/

mutual

/-- Checks a statement, in the scope of its block. The function that a return belongs to is that of
the scope recorded for it. -/
def Stmt.types (t : Table) (m : ScopeMap) (s : ScopeId) : Stmt L NodeId → Report L TypeError
  | .declare _ _ _ none => .empty
  | .declare _ type name (some value) =>
    let found := value.check t s false
    .ofFindings (found.findings ++
      match Ty.named? type.text with
      | some declared => value.checkStore name.text declared found.type
      | none => [])
  | .assign _ target value =>
    let found := value.check t s false
    .ofFindings (found.findings ++
      match t.varType? s target.text with
      | some declared => value.checkStore target.text declared found.type
      | none => [])
  | .assignAt _ target position value => .ofFindings (Expr.checkElement t s target position value)
  | .ifThen _ condition yes =>
    .ofFindings (condition.checkCondition t s "if") ++ yes.types t m
  | .ifElse _ condition yes no =>
    .ofFindings (condition.checkCondition t s "if") ++ (yes.types t m ++ no.types t m)
  | .loop _ condition body =>
    .ofFindings (condition.checkCondition t s "while") ++ body.types t m
  -- The value is checked where the statement stands, the type where the node was recorded.
  | .ret place node value =>
    let found := value.map fun e => (e, e.check t s false)
    .ofFindings ((found.map (·.2.findings)).getD []) ++
      .inScopeOf m node fun s =>
        match t.functionOf s with
        | none => .empty
        | some (_, f) => .ofFindings (f.checkReturn place (found.map fun (e, x) => (e, x.type)))
  | .print _ _ none => .empty
  | .print _ _ (some value) => .ofFindings (value.checkPrint t s)
  | .call _ callee arguments =>
    .ofFindings (Typed.call t s callee (Expr.checkAll t s arguments)).findings

/-- Checks a block in the scope recorded for it. -/
def Block.types (t : Table) (m : ScopeMap) : Block L NodeId → Report L TypeError
  | .mk node statements => .inScopeOf m node fun s => Block.typesAll t m s statements

/-- Checks the statements of a block in order. -/
def Block.typesAll (t : Table) (m : ScopeMap) (s : ScopeId) :
    List (Stmt L NodeId) → Report L TypeError
  | [] => .empty
  | st :: sts => st.types t m s ++ Block.typesAll t m s sts

end

/-- Checks the types of a program. Rejected items are passed over. -/
def Program.types (t : Table) (m : ScopeMap) (p : Program L) : Report L TypeError :=
  .concat ((p.acceptedBodies m).map (·.types t m))

end Primer
