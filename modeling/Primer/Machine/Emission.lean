import Primer.Analysis.Typing
import Primer.Machine.Frame

/-!
# Emission

Every construct of a program becomes a list of instructions. An expression leaves its value on the
stack, and emission gives the type of that value, by which the instructions that take it are chosen.

A name that does not resolve, or an operand that no instruction can take, leaves out the
instruction. So emission is defined for every tree, also for one that was not analyzed itself.
-/

namespace Primer.Machine

/-! ## Emitted pieces -/

/-- The code of an expression, the type of the value it leaves and the frame afterwards. -/
structure Emitted where
  type : Ty
  code : Code
  frame : Frame

namespace Context

/-- Loads the variable behind a name. -/
def load (c : Context) (s : ScopeId) (name : String) (f : Frame) : Emitted :=
  match c.storage? s name f with
  | (some (storage, type), f) => ⟨type, [storage.load (Kind.ofTy type)], f⟩
  | (none, f) => ⟨.error, [], f⟩

/-- Stores into the variable behind a name. -/
def store (c : Context) (s : ScopeId) (name : String) (f : Frame) : Code × Frame :=
  match c.storage? s name f with
  | (some (storage, type), f) => ([storage.store (Kind.ofTy type)], f)
  | (none, f) => ([], f)

end Context

/-- The operation of an arithmetic operator, the condition of any other. -/
def operation : BinOp → Arithmetic ⊕ Condition
  | .add => .inl .add
  | .sub => .inl .sub
  | .mul => .inl .mul
  | .div => .inl .div
  | .less => .inr .less
  | .greater => .inr .greater
  | .equal => .inr .equal
  | .notEqual => .inr .notEqual

/-- Takes two operands and leaves one if they compare so, else zero. -/
def compare (kind : Kind) (condition : Condition) (yes done : Label) : Code :=
  [.ifCompare kind condition yes, .push (.int 0), .jump done, .label yes, .push (.int 1),
    .label done]

/-- The operator on two operands of the same kind, of which the left one has type `type`. -/
def operator (op : BinOp) (type : Ty) (f : Frame) : Emitted :=
  match operation op with
  | .inl arithmetic => ⟨type, [.arithmetic (Kind.ofTy type) arithmetic], f⟩
  | .inr condition =>
    ⟨.bool, compare (Kind.ofTy type) condition f.label (f.skipLabels 1).label, f.skipLabels 2⟩

/-- The element of an array, or the character of a string. -/
def elementOf (base : Ty) : Ty × Code :=
  if base = .string then (.char, [.charAt])
  else
    let type := base.element?.getD .error
    (type, (Element.ofTy? type).toList.map .arrayLoad)

/-- The types of a function of the table. -/
def signatureOf (t : Table) (f : FunctionSymbol) : Signature :=
  ⟨f.parameters.map t.typeOf, f.returns⟩

/-- The call itself, after its arguments. -/
def callOf (t : Table) (s : ScopeId) (callee : String) (arguments : Nat) : Ty × Code :=
  match t.callee? s callee with
  | none => (.error, [])
  | some f =>
    if f.parameters.length = arguments then (f.returns, [.call callee (signatureOf t f)])
    else (.error, [])

end Primer.Machine

/-! ## Expressions -/

namespace Primer.Expr

open Machine

variable {L : Type}

mutual

/-- Emits an expression. -/
def emit (c : Context) (s : ScopeId) : Expr L → Frame → Emitted
  | .int _ value, f => ⟨.int, [.push (.int value)], f⟩
  | .float _ bits, f => ⟨.float, [.push (.float bits)], f⟩
  | .bool _ value, f => ⟨.bool, [.push (.int (if value then 1 else 0))], f⟩
  | .char _ value, f => ⟨.char, [.push (.char value)], f⟩
  | .str _ value, f => ⟨.string, [.push (.str value)], f⟩
  | .read _ name, f => c.load s name.text f
  | .call _ callee arguments, f =>
    let (code, f) := emitAll c s arguments f
    let (type, transfer) := callOf c.table s callee.text arguments.length
    ⟨type, code ++ transfer, f⟩
  | .index _ base position, f =>
    let base := c.load s base.text f
    let position := position.emit c s base.frame
    let (type, element) := elementOf base.type
    ⟨type, base.code ++ position.code ++ element, position.frame⟩
  | .length _ operand, f =>
    let operand := operand.emit c s f
    let length := if operand.type = .string then .stringLength else .arrayLength
    ⟨.int, operand.code ++ [length], operand.frame⟩
  | .paren _ operand, f => operand.emit c s f
  | .negate _ operand, f =>
    let operand := operand.emit c s f
    ⟨operand.type, operand.code ++ [.negate (Kind.ofTy operand.type)], operand.frame⟩
  | .binary _ op lhs rhs, f =>
    let lhs := lhs.emit c s f
    let rhs := rhs.emit c s lhs.frame
    let operator := operator op lhs.type rhs.frame
    ⟨operator.type, lhs.code ++ rhs.code ++ operator.code, operator.frame⟩
  | .array _ elements, f =>
    -- The type of the first element is inferred before anything is emitted.
    let type := (elements.head?.map (·.typeIn c.table s)).getD .error
    match Element.ofTy? type with
    | none => ⟨.error, [], f⟩
    | some element =>
      let (code, f) := emitElements c s element 0 elements f
      ⟨type.arrayOf?.getD .error,
        [.push (.int elements.length), .newArray element] ++ code, f⟩
  | .newArray _ element size, f =>
    let size := size.emit c s f
    let type := (Ty.named? element.text).getD .error
    ⟨type.arrayOf?.getD .error,
      size.code ++ (Element.ofTy? type).toList.map .newArray, size.frame⟩

/-- Emits expressions from left to right. -/
def emitAll (c : Context) (s : ScopeId) : List (Expr L) → Frame → Code × Frame
  | [], f => ([], f)
  | e :: es, f =>
    let first := e.emit c s f
    let (rest, f) := emitAll c s es first.frame
    (first.code ++ rest, f)

/-- Stores expressions into the array on top of the stack, from a given position on. -/
def emitElements (c : Context) (s : ScopeId) (element : Element) :
    Nat → List (Expr L) → Frame → Code × Frame
  | _, [], f => ([], f)
  | position, e :: es, f =>
    let first := e.emit c s f
    let (rest, f) := emitElements c s element (position + 1) es first.frame
    ([.dup, .push (.int position)] ++ first.code ++ [.arrayStore element] ++ rest, f)

end

end Primer.Expr

/-! ## Statements -/

namespace Primer

open Machine

variable {L : Type}

mutual

/-- Emits a statement, in the scope of its block. -/
def Stmt.emit (c : Context) (m : ScopeMap) (s : ScopeId) :
    Stmt L NodeId → Frame → Except Fault (Code × Frame)
  | .declare _ _ name value, f =>
    match c.table.localResolve s name.text with
    | none => .ok ([], f)
    | some x =>
      -- The slot is given before the value is emitted.
      let type := c.table.typeOf x
      let (slot, f) := f.slot x type
      match value with
      | none => .ok ([], f)
      | some value =>
        let value := value.emit c s f
        .ok (value.code ++ [.store (Kind.ofTy type) slot], value.frame)
  | .assign _ target value, f =>
    let value := value.emit c s f
    let (store, f) := c.store s target.text value.frame
    .ok (value.code ++ store, f)
  | .assignAt _ target position value, f =>
    let array := c.load s target.text f
    let position := position.emit c s array.frame
    let value := value.emit c s position.frame
    let store := (array.type.element?.bind Element.ofTy?).toList.map .arrayStore
    .ok (array.code ++ position.code ++ value.code ++ store, value.frame)
  | .ifThen _ condition yes, f => do
    let skip := f.label
    let condition := condition.emit c s (f.skipLabels 1)
    let (yes, f) ← yes.emit c m condition.frame
    return (condition.code ++ [.jumpIfFalse skip] ++ yes ++ [.label skip], f)
  | .ifElse _ condition yes no, f => do
    let skip := f.label
    let condition := condition.emit c s (f.skipLabels 1)
    let (yes, f) ← yes.emit c m condition.frame
    let done := f.label
    let (no, f) ← no.emit c m (f.skipLabels 1)
    return (condition.code ++ [.jumpIfFalse skip] ++ yes ++ [.jump done, .label skip] ++ no ++
      [.label done], f)
  | .loop _ condition body, f => do
    let top := f.label
    let done := (f.skipLabels 1).label
    let condition := condition.emit c s (f.skipLabels 2)
    let (body, f) ← body.emit c m condition.frame
    return ([.label top] ++ condition.code ++ [.jumpIfFalse done] ++ body ++
      [.jump top, .label done], f)
  | .ret _ _ none, f => .ok ([.ret none], f)
  | .ret _ _ (some value), f =>
    let value := value.emit c s f
    .ok (value.code ++ [.ret (some (Kind.ofTy value.type))], value.frame)
  | .print _ newline none, f => .ok ([.print none newline], f)
  | .print _ newline (some value), f =>
    let value := value.emit c s f
    .ok (value.code ++ [.print (some value.type) newline], value.frame)
  | .call _ callee arguments, f =>
    let (code, f) := Expr.emitAll c s arguments f
    let (type, transfer) := callOf c.table s callee.text arguments.length
    -- Nobody takes the value of a call that is a statement.
    let drop := if type = .void then [] else [.pop (Kind.ofTy type)]
    .ok (code ++ transfer ++ drop, f)

/-- Emits a block in the scope recorded for it. -/
def Block.emit (c : Context) (m : ScopeMap) :
    Block L NodeId → Frame → Except Fault (Code × Frame)
  | .mk node statements, f => do
    let s ← (m.scopeOf node).mapError f.firstFault
    Block.emitAll c m s statements f

/-- Emits the statements of a block in order. -/
def Block.emitAll (c : Context) (m : ScopeMap) (s : ScopeId) :
    List (Stmt L NodeId) → Frame → Except Fault (Code × Frame)
  | [], f => .ok ([], f)
  | st :: sts, f => do
    let (first, f) ← st.emit c m s f
    let (rest, f) ← Block.emitAll c m s sts f
    return (first ++ rest, f)

end

end Primer
