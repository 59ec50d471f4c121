import Primer.Generation
import Primer.Log.Analysis

/-!
# Generation with a log

Both generators once more, now as computations that infer types on the way and write to the log. The
script needs the type of the left operand of a division, and machine code the type of the first
element of an array. Nobody wants to hear what the type checker finds then, so it is run with the
silent sink.

Here the counts of a frame are looked at whenever they go up, and not only at the end.
-/

namespace Primer

variable {L : Type}

/-! ## Scripts -/

mutual

/-- An expression of the program as one of the script. -/
def Expr.toScriptM (t : Table) (s : ScopeId) : Expr L → Logged Script.Expr
  | .int _ value => return .int value
  | .float _ bits => return .float bits
  | .bool _ value => return .bool value
  | .char _ value => return .str [value]
  | .str _ value => return .str value.toList
  | .read _ name => return .name (Script.safeName name.text)
  | .call _ callee arguments => do
    let arguments ← Expr.toScriptAllM t s arguments
    return .call (Script.safeName callee.text) arguments
  | .index _ base position => do
    let position ← position.toScriptM t s
    return .subscript (Script.safeName base.text) position
  | .length _ operand => do
    let operand ← operand.toScriptM t s
    return .call "len" [operand]
  | .paren _ operand => do
    let operand ← operand.toScriptM t s
    return .paren operand
  | .negate _ operand => do
    let operand ← operand.toScriptM t s
    return .negate operand
  | .binary _ op lhs rhs => do
    let left ← lhs.toScriptM t s
    let right ← rhs.toScriptM t s
    if op = .div then
      let type ← lhs.typeInM t s
      return if type = .int then .wholeQuotient left right else .binary op left right
    else return .binary op left right
  | .array _ elements => do
    let elements ← Expr.toScriptAllM t s elements
    return .list elements
  | .newArray _ element size => do
    let size ← size.toScriptM t s
    return .zeros element.text size

/-- Several expressions of the program as such of the script. -/
def Expr.toScriptAllM (t : Table) (s : ScopeId) : List (Expr L) → Logged (List Script.Expr)
  | [] => return []
  | e :: es => do
    let first ← e.toScriptM t s
    let rest ← Expr.toScriptAllM t s es
    return first :: rest

end

mutual

/-- A statement of the program as one of the script. -/
def Stmt.toScriptM (t : Table) (m : ScopeMap) (s : ScopeId) : Stmt L NodeId → Logged Script.Stmt
  | .declare _ _ name value => do
    let value ← value.mapM (·.toScriptM t s)
    return .assign (Script.safeName name.text) (value.getD .none)
  | .assign _ target value => do
    let value ← value.toScriptM t s
    return .assign (Script.safeName target.text) value
  | .assignAt _ target position value => do
    -- The value comes first here, though it stands behind the position in the text.
    let value ← value.toScriptM t s
    let position ← position.toScriptM t s
    return .assignAt (Script.safeName target.text) position value
  | .ifThen _ condition yes => do
    let condition ← condition.toScriptM t s
    let yes ← yes.toScriptM t m
    return .ifThen condition yes
  | .ifElse _ condition yes no => do
    let condition ← condition.toScriptM t s
    let yes ← yes.toScriptM t m
    let no ← no.toScriptM t m
    return .ifElse condition yes no
  | .loop _ condition body => do
    let condition ← condition.toScriptM t s
    let body ← body.toScriptM t m
    return .loop condition body
  | .ret _ _ value => do
    let value ← value.mapM (·.toScriptM t s)
    return .ret value
  | .print _ newline value => do
    let value ← value.mapM (·.toScriptM t s)
    return .print newline value
  | .call place callee arguments => do
    let call ← (Expr.call place callee arguments).toScriptM t s
    return .eval call

/-- The statements of a block. -/
def Block.toScriptM (t : Table) (m : ScopeMap) : Block L NodeId → Logged (List Script.Stmt)
  | .mk _ [] => return []
  | .mk node (st :: sts) =>
    match m.get? node with
    | some s => do
      let first ← st.toScriptM t m s
      let rest ← Block.toScriptAllM t m s sts
      return first :: rest
    | none => return [.unscoped node]

/-- Statements of the program as such of the script. -/
def Block.toScriptAllM (t : Table) (m : ScopeMap) (s : ScopeId) :
    List (Stmt L NodeId) → Logged (List Script.Stmt)
  | [] => return []
  | st :: sts => do
    let first ← st.toScriptM t m s
    let rest ← Block.toScriptAllM t m s sts
    return first :: rest

end

/-- A function of the program as one of the script. -/
def Function.toScriptM? (t : Table) (m : ScopeMap) (f : Function L NodeId) :
    Logged (Option Script.Function) :=
  match f.body, (m.get? f.mark).bind t.functionOf with
  | some body, some (_, symbol) => do
    let body ← body.toScriptM t m
    return some {
      name := Script.safeName symbol.name
      parameters := symbol.parameters.map fun x => Script.safeName (t.nameOf x)
      body }
  | _, _ => return none

/-- The statements of an entry point. -/
def EntryPoint.toScriptM? (t : Table) (m : ScopeMap) (e : EntryPoint L NodeId) :
    Logged (Option (List Script.Stmt)) :=
  match m.get? e.mark with
  | some _ => do
    let body ← e.body.toScriptM t m
    return some body
  | none => return none

/-- The script of a program. -/
def Program.toScriptM (t : Table) (m : ScopeMap) (p : Program L) : Logged Script := do
  let functions ← (p.items.filterMap Item.function?).mapM (·.toScriptM? t m)
  let mains ← (p.items.filterMap Item.main?).mapM (·.toScriptM? t m)
  return ⟨functions.filterMap id, mains.filterMap id⟩

/-- The text of the script of a program, in a span of its own. -/
def Program.scriptTextM (t : Table) (m : ScopeMap) (p : Program L) : Logged String :=
  Log.inSpan "python" [] do
    let script ← p.toScriptM t m
    let text ← script.text
    Log.write (.event .info [("message", .text "python emitted")])
    return text

/-! ## Machine code -/

namespace Machine

/-- The slot of a variable, if there is one left. -/
def Frame.slotM (f : Frame) (x : SymbolId) (type : Ty) : Logged (Nat × Frame) :=
  let given := f.slot x type
  given.2.finish given

/-- The frame after `n` labels were handed out, if there are as many left. -/
def Frame.skipLabelsM (f : Frame) (n : Nat) : Logged Frame :=
  (f.skipLabels n).finish (f.skipLabels n)

/-- The emitted piece, if there were enough slots and labels for it. -/
def Emitted.finish (e : Emitted) : Logged Emitted :=
  e.frame.finish e

end Machine

open Machine

mutual

/-- Emits an expression. -/
def Expr.emitM (c : Context) (s : ScopeId) : Expr L → Frame → Logged Emitted
  | .int _ value, f => return ⟨.int, [.push (.int value)], f⟩
  | .float _ bits, f => return ⟨.float, [.push (.float bits)], f⟩
  | .bool _ value, f => return ⟨.bool, [.push (.int (if value then 1 else 0))], f⟩
  | .char _ value, f => return ⟨.char, [.push (.char value)], f⟩
  | .str _ value, f => return ⟨.string, [.push (.str value)], f⟩
  | .read _ name, f => (c.load s name.text f).finish
  | .call _ callee arguments, f => do
    let (code, f) ← Expr.emitAllM c s arguments f
    let (type, transfer) := callOf c.table s callee.text arguments.length
    return ⟨type, code ++ transfer, f⟩
  | .index _ base position, f => do
    let base ← (c.load s base.text f).finish
    let position ← position.emitM c s base.frame
    let (type, element) := elementOf base.type
    return ⟨type, base.code ++ position.code ++ element, position.frame⟩
  | .length _ operand, f => do
    let operand ← operand.emitM c s f
    let length := if operand.type = .string then .stringLength else .arrayLength
    return ⟨.int, operand.code ++ [length], operand.frame⟩
  | .paren _ operand, f => operand.emitM c s f
  | .negate _ operand, f => do
    let operand ← operand.emitM c s f
    return ⟨operand.type, operand.code ++ [.negate (Kind.ofTy operand.type)], operand.frame⟩
  | .binary _ op lhs rhs, f => do
    let lhs ← lhs.emitM c s f
    let rhs ← rhs.emitM c s lhs.frame
    let operator ← (operator op lhs.type rhs.frame).finish
    return ⟨operator.type, lhs.code ++ rhs.code ++ operator.code, operator.frame⟩
  | .array _ elements, f => do
    let type ← elements.head?.mapM (·.typeInM c.table s)
    let type := type.getD .error
    match Element.ofTy? type with
    | none => return ⟨.error, [], f⟩
    | some element =>
      let (code, f) ← Expr.emitElementsM c s element 0 elements f
      return ⟨type.arrayOf?.getD .error,
        [.push (.int elements.length), .newArray element] ++ code, f⟩
  | .newArray _ element size, f => do
    let size ← size.emitM c s f
    let type := (Ty.named? element.text).getD .error
    return ⟨type.arrayOf?.getD .error,
      size.code ++ (Element.ofTy? type).toList.map .newArray, size.frame⟩

/-- Emits expressions from left to right. -/
def Expr.emitAllM (c : Context) (s : ScopeId) : List (Expr L) → Frame → Logged (Code × Frame)
  | [], f => return ([], f)
  | e :: es, f => do
    let first ← e.emitM c s f
    let (rest, f) ← Expr.emitAllM c s es first.frame
    return (first.code ++ rest, f)

/-- Stores expressions into the array on top of the stack, from a given position on. -/
def Expr.emitElementsM (c : Context) (s : ScopeId) (element : Element) :
    Nat → List (Expr L) → Frame → Logged (Code × Frame)
  | _, [], f => return ([], f)
  | position, e :: es, f => do
    let first ← e.emitM c s f
    let (rest, f) ← Expr.emitElementsM c s element (position + 1) es first.frame
    return ([.dup, .push (.int position)] ++ first.code ++ [.arrayStore element] ++ rest, f)

end

mutual

/-- Emits a statement, in the scope of its block. -/
def Stmt.emitM (c : Context) (m : ScopeMap) (s : ScopeId) :
    Stmt L NodeId → Frame → Logged (Code × Frame)
  | .declare _ _ name value, f =>
    match c.table.localResolve s name.text with
    | none => return ([], f)
    | some x => do
      let type := c.table.typeOf x
      let (slot, f) ← f.slotM x type
      match value with
      | none => return ([], f)
      | some value =>
        let value ← value.emitM c s f
        return (value.code ++ [.store (Kind.ofTy type) slot], value.frame)
  | .assign _ target value, f => do
    let value ← value.emitM c s f
    let stored := c.store s target.text value.frame
    let (store, f) ← stored.2.finish stored
    return (value.code ++ store, f)
  | .assignAt _ target position value, f => do
    let array ← (c.load s target.text f).finish
    let position ← position.emitM c s array.frame
    let value ← value.emitM c s position.frame
    let store := (array.type.element?.bind Element.ofTy?).toList.map .arrayStore
    return (array.code ++ position.code ++ value.code ++ store, value.frame)
  | .ifThen _ condition yes, f => do
    let skip := f.label
    let f ← f.skipLabelsM 1
    let condition ← condition.emitM c s f
    let (yes, f) ← yes.emitM c m condition.frame
    return (condition.code ++ [.jumpIfFalse skip] ++ yes ++ [.label skip], f)
  | .ifElse _ condition yes no, f => do
    let skip := f.label
    let f ← f.skipLabelsM 1
    let condition ← condition.emitM c s f
    let (yes, f) ← yes.emitM c m condition.frame
    let done := f.label
    let f ← f.skipLabelsM 1
    let (no, f) ← no.emitM c m f
    return (condition.code ++ [.jumpIfFalse skip] ++ yes ++ [.jump done, .label skip] ++ no ++
      [.label done], f)
  | .loop _ condition body, f => do
    let top := f.label
    let done := (f.skipLabels 1).label
    let f ← f.skipLabelsM 2
    let condition ← condition.emitM c s f
    let (body, f) ← body.emitM c m condition.frame
    return ([.label top] ++ condition.code ++ [.jumpIfFalse done] ++ body ++
      [.jump top, .label done], f)
  | .ret _ _ none, f => return ([.ret none], f)
  | .ret _ _ (some value), f => do
    let value ← value.emitM c s f
    return (value.code ++ [.ret (some (Kind.ofTy value.type))], value.frame)
  | .print _ newline none, f => return ([.print none newline], f)
  | .print _ newline (some value), f => do
    let value ← value.emitM c s f
    return (value.code ++ [.print (some value.type) newline], value.frame)
  | .call place callee arguments, f => do
    let call ← (Expr.call place callee arguments).emitM c s f
    let drop := if call.type = .void then [] else [.pop (Kind.ofTy call.type)]
    return (call.code ++ drop, call.frame)

/-- Emits a block in the scope recorded for it. -/
def Block.emitM (c : Context) (m : ScopeMap) : Block L NodeId → Frame → Logged (Code × Frame)
  | .mk node statements, f => do
    let s ← m.scopeOf node
    Block.emitAllM c m s statements f

/-- Emits the statements of a block in order. -/
def Block.emitAllM (c : Context) (m : ScopeMap) (s : ScopeId) :
    List (Stmt L NodeId) → Frame → Logged (Code × Frame)
  | [], f => return ([], f)
  | st :: sts, f => do
    let (first, f) ← st.emitM c m s f
    let (rest, f) ← Block.emitAllM c m s sts f
    return (first ++ rest, f)

end

/-- The frame of a function with a given signature, if there are slots for its arguments. -/
def Machine.Frame.startM (signature : Signature) : Logged Frame :=
  let f := Frame.start signature.argumentSlots
  f.finish f

/-- Tells the log of a function that was emitted. -/
def Machine.Routine.tell (r : Routine) : Logged Unit :=
  Log.write (.event .debug
    [("function", .text r.name), ("signature", .text r.signature.text),
      ("message", .text "function emitted")])

/-- Emits a function and tells the log of it. -/
def Function.emitM? (t : Table) (m : ScopeMap) (f : Function L NodeId) : Logged (Option Routine) :=
  match f.body, (m.get? f.mark).bind t.functionOf with
  | some body, some (_, symbol) => do
    let signature := signatureOf t symbol
    let frame ← Frame.startM signature
    let (code, frame) ← body.emitM ⟨t, symbol.parameters⟩ m frame
    let routine : Routine := {
      name := symbol.name
      access := .ofFunction
      signature
      slots := frame.nextSlot
      body := code ++ if symbol.returns = .void then [.ret none] else [] }
    routine.tell
    return some routine
  | _, _ => return none

/-- Emits an entry point. The log is not told of it. -/
def EntryPoint.emitM? (t : Table) (m : ScopeMap) (e : EntryPoint L NodeId) :
    Logged (Option Routine) :=
  match m.get? e.mark with
  | none => return none
  | some _ => do
    let frame ← Frame.startM .ofMain
    let (code, frame) ← e.body.emitM ⟨t, []⟩ m frame
    return some {
      name := "main"
      access := .ofMain
      signature := .ofMain
      slots := frame.nextSlot
      body := code ++ [.ret none] }

/-- Emits an item. -/
def Item.emitM? (t : Table) (m : ScopeMap) : Item L NodeId → Logged (Option Routine)
  | .function f => f.emitM? t m
  | .main e => e.emitM? t m

/-- Emits the functions of a program, in a span of its own. -/
def Program.emitM (t : Table) (m : ScopeMap) (name : String) (p : Program L) : Logged CodeUnit :=
  Log.inSpan "bytecode" [("unit", .text name)] do
    let emitted ← p.items.mapM (·.emitM? t m)
    let functions := emitted.filterMap id
    Log.write (.event .info
      [("functions", .count functions.length), ("message", .text "unit assembled")])
    return ⟨name, functions⟩

end Primer
