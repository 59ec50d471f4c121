import Primer.Proofs.Machine.Routine

/-!
# Evaluation of trees

The meaning of a program is given over any interpretation of the primitives: arithmetic,
comparisons, arrays, strings, printing and calls act on values and on a state of the world, and each
of them may be undefined. On top of these, trees are evaluated as they are written: operands and
arguments from left to right, an indexed assignment in the order array, position, value, and an
array literal by making the array first and filling it in order. Variables are keyed by the symbols
that their names resolve to. A loop runs at most as often as the fuel says; evaluation that runs out
of it is undefined.
-/

namespace Primer

open Machine

variable {L V W : Type}

/-- A partial computation on the state of the world. -/
abbrev Effect (W α : Type) : Type := StateT W Option α

namespace Effect

variable {α β : Type}

/-- A computation that leaves the world alone. -/
def ofOption (x : Option α) : Effect W α := fun w => x.map (·, w)

/-- What two computations in sequence do. -/
theorem bind_eq_some {x : Effect W α} {f : α → Effect W β} {w : W} {r : β × W}
    (h : (x >>= f) w = some r) : ∃ a w', x w = some (a, w') ∧ f a w' = some r := by
  obtain ⟨⟨a, w'⟩, hx, hf⟩ := Option.bind_eq_some_iff.mp h
  exact ⟨a, w', hx, hf⟩

theorem pure_eq_some {a a' : α} {w w' : W} (h : (pure a : Effect W α) w = some (a', w')) :
    a = a' ∧ w = w' :=
  Prod.mk.inj (Option.some.inj h)

theorem pure_pair_eq_some {a a' : α} {b b' : β} {w w' : W}
    (h : (pure (a, b) : Effect W (α × β)) w = some ((a', b'), w')) : a = a' ∧ b = b' ∧ w = w' := by
  obtain ⟨hpair, hw⟩ := pure_eq_some h
  obtain ⟨ha, hb⟩ := Prod.mk.inj hpair
  exact ⟨ha, hb, hw⟩

theorem map_eq_some {f : α → β} {x : Effect W α} {w : W} {b : β} {w' : W}
    (h : (f <$> x) w = some (b, w')) : ∃ a, x w = some (a, w') ∧ f a = b := by
  obtain ⟨⟨a, w₁⟩, hx, hf⟩ := Option.bind_eq_some_iff.mp h
  obtain ⟨rfl, rfl⟩ := Prod.mk.inj (Option.some.inj hf)
  exact ⟨a, hx, rfl⟩

theorem ofOption_eq_some {x : Option α} {w : W} {a : α} {w' : W}
    (h : (ofOption x) w = some (a, w')) : x = some a ∧ w = w' := by
  obtain ⟨b, rfl, hb⟩ := Option.map_eq_some_iff.mp h
  obtain ⟨rfl, rfl⟩ := Prod.mk.inj hb
  exact ⟨rfl, rfl⟩

theorem ofOption_bind_eq_some {x : Option α} {f : α → Effect W β} {w : W} {r : β × W}
    (h : (ofOption x >>= f) w = some r) : ∃ a, x = some a ∧ f a w = some r := by
  obtain ⟨a, w', hfound, hf⟩ := bind_eq_some h
  obtain ⟨hx, rfl⟩ := ofOption_eq_some hfound
  exact ⟨a, hx, hf⟩

end Effect

/-- An interpretation of the primitives over values `V` and worlds `W`. -/
structure Primitives (V W : Type) where
  constant : Constant → V
  /-- The integer that a value is. -/
  int? : V → Option Int
  arithmetic : Kind → Arithmetic → V → V → Effect W V
  negate : Kind → V → Effect W V
  compare : Kind → Condition → V → V → Effect W Bool
  newArray : Element → V → Effect W V
  arrayLoad : Element → V → V → Effect W V
  arrayStore : Element → V → V → V → Effect W Unit
  arrayLength : V → Effect W V
  stringLength : V → Effect W V
  charAt : V → V → Effect W V
  print : Option (Ty × V) → Bool → Effect W Unit
  /-- Calls a function that returns a value. -/
  call : String → List V → Effect W V
  /-- Calls a function that returns nothing. -/
  perform : String → List V → Effect W Unit

namespace Primitives

/-- Truth values are the integers one and zero. -/
def truth (p : Primitives V W) (b : Bool) : V := p.constant (.int (if b then 1 else 0))

/-- A value counts as true if it is an integer other than zero. -/
def test (p : Primitives V W) (v : V) : Effect W Bool :=
  Effect.ofOption ((p.int? v).map (· ≠ 0))

/-- An operator on operands of a kind. -/
def operate (p : Primitives V W) (kind : Kind) (op : BinOp) (l r : V) : Effect W V :=
  match op with
  | .add => p.arithmetic kind .add l r
  | .sub => p.arithmetic kind .sub l r
  | .mul => p.arithmetic kind .mul l r
  | .div => p.arithmetic kind .div l r
  | .less => p.truth <$> p.compare kind .less l r
  | .greater => p.truth <$> p.compare kind .greater l r
  | .equal => p.truth <$> p.compare kind .equal l r
  | .notEqual => p.truth <$> p.compare kind .notEqual l r

theorem operate_of_arithmetic {op : BinOp} {operation : Arithmetic}
    (h : Machine.operation op = .inl operation) (p : Primitives V W) (kind : Kind) (l r : V) :
    p.operate kind op l r = p.arithmetic kind operation l r := by
  cases op <;> cases h <;> rfl

theorem operate_of_condition {op : BinOp} {condition : Condition}
    (h : Machine.operation op = .inr condition) (p : Primitives V W) (kind : Kind) (l r : V) :
    p.operate kind op l r = p.truth <$> p.compare kind condition l r := by
  cases op <;> cases h <;> rfl

theorem test_eq_some {p : Primitives V W} {v : V} {w w' : W} {holds : Bool}
    (h : p.test v w = some (holds, w')) :
    w = w' ∧ ∃ value, p.int? v = some value ∧ holds = decide (value ≠ 0) := by
  obtain ⟨hmap, rfl⟩ := Effect.ofOption_eq_some h
  obtain ⟨value, hvalue, rfl⟩ := Option.map_eq_some_iff.mp hmap
  exact ⟨rfl, value, hvalue, rfl⟩

/-- The character of a string or the element of an array. -/
def elementAt (p : Primitives V W) (type : Ty) (base position : V) : Effect W V :=
  if type = .string then p.charAt base position
  else do
    let element ← Effect.ofOption (type.element?.bind Element.ofTy?)
    p.arrayLoad element base position

/-- Calls a function of which nobody takes the result. -/
def invoke (p : Primitives V W) (returns : Ty) (callee : String) (values : List V) :
    Effect W Unit :=
  if returns = .void then p.perform callee values
  else (fun _ => ()) <$> p.call callee values

end Primitives

/-- The values of variables. -/
abbrev Env (V : Type) : Type := SymbolId → Option V

namespace Env

/-- The values of parameters. -/
def ofArguments (arguments : List SymbolId) (values : List V) : Env V :=
  fun x => (arguments.zip values).lookup x

/-- Gives a variable a value. -/
def set (env : Env V) (x : SymbolId) (v : V) : Env V :=
  fun y => if y = x then some v else env y

/-- The value of the variable behind a name. -/
def read (env : Env V) (t : Table) (s : ScopeId) (name : String) : Effect W V :=
  Effect.ofOption ((t.resolve s name).bind env)

end Env

/-! ## Expressions -/

namespace Expr

mutual

/-- The value of an expression. -/
def eval (p : Primitives V W) (t : Table) (s : ScopeId) (env : Env V) : Expr L → Effect W V
  | .int _ value => pure (p.constant (.int value))
  | .float _ bits => pure (p.constant (.float bits))
  | .bool _ value => pure (p.truth value)
  | .char _ value => pure (p.constant (.char value))
  | .str _ value => pure (p.constant (.str value))
  | .read _ name => env.read t s name.text
  | .call _ callee arguments => do
    let values ← evalAll p t s env arguments
    p.call callee.text values
  | .index _ base position => do
    let array ← env.read t s base.text
    let position ← position.eval p t s env
    let type ← Effect.ofOption (t.varType? s base.text)
    p.elementAt type array position
  | .length _ operand => do
    let value ← operand.eval p t s env
    if operand.typeIn t s = .string then p.stringLength value else p.arrayLength value
  | .paren _ operand => operand.eval p t s env
  | .negate _ operand => do
    let value ← operand.eval p t s env
    p.negate (Kind.ofTy (operand.typeIn t s)) value
  | .binary _ op lhs rhs => do
    let l ← lhs.eval p t s env
    let r ← rhs.eval p t s env
    p.operate (Kind.ofTy (lhs.typeIn t s)) op l r
  -- The array is made before its elements are evaluated, and the element type is that of the
  -- first one, since all of them have the same.
  | .array _ elements => do
    let element ← Effect.ofOption (elements.head?.bind fun e => Element.ofTy? (e.typeIn t s))
    let array ← p.newArray element (p.constant (.int elements.length))
    fill p t s env element array 0 elements
    return array
  | .newArray _ element size => do
    let element ← Effect.ofOption ((Ty.named? element.text).bind Element.ofTy?)
    let size ← size.eval p t s env
    p.newArray element size

/-- The values of expressions, from left to right. -/
def evalAll (p : Primitives V W) (t : Table) (s : ScopeId) (env : Env V) :
    List (Expr L) → Effect W (List V)
  | [] => pure []
  | e :: es => do
    let value ← e.eval p t s env
    let values ← evalAll p t s env es
    return value :: values

/-- Evaluates expressions from left to right and stores each of them into an array, from a given
position on. -/
def fill (p : Primitives V W) (t : Table) (s : ScopeId) (env : Env V) (element : Element)
    (array : V) : Nat → List (Expr L) → Effect W Unit
  | _, [] => pure ()
  | n, e :: es => do
    let value ← e.eval p t s env
    p.arrayStore element array (p.constant (.int n)) value
    fill p t s env element array (n + 1) es

end

/-- Whether a condition holds. -/
def holds (p : Primitives V W) (t : Table) (s : ScopeId) (env : Env V) (condition : Expr L) :
    Effect W Bool :=
  condition.eval p t s env >>= p.test

end Expr

/-! ## Statements -/

/-- How statements end. -/
inductive Completion (V : Type) where
  | normal
  | returned (value : Option V)
deriving DecidableEq

/-- Repeats a body as long as a test holds, at most as often as the fuel says. -/
def runLoop (test : Env V → Effect W Bool) (body : Env V → Effect W (Completion V × Env V)) :
    Nat → Env V → Effect W (Completion V × Env V)
  -- Out of fuel, nothing is known about the loop.
  | 0, _ => fun _ => none
  | fuel + 1, env => do
    if ← test env then
      let (completion, env) ← body env
      match completion with
      | .normal => runLoop test body fuel env
      | .returned value => return (.returned value, env)
    else return (.normal, env)

mutual

/-- Runs a statement in the scope of its block. -/
def Stmt.exec (p : Primitives V W) (t : Table) (m : ScopeMap) (fuel : Nat) (s : ScopeId) :
    Stmt L NodeId → Env V → Effect W (Completion V × Env V)
  -- The variable keeps what it has: a second round of a loop sees the value of the first.
  | .declare _ _ _ none, env => return (.normal, env)
  | .declare _ _ name (some value), env => do
    -- The variable that this statement declares, and not one that the initializer may see.
    let x ← Effect.ofOption (t.localResolve s name.text)
    let value ← value.eval p t s env
    return (.normal, env.set x value)
  | .assign _ target value, env => do
    let value ← value.eval p t s env
    let x ← Effect.ofOption (t.resolve s target.text)
    return (.normal, env.set x value)
  -- The array is read before the position and the value are evaluated.
  | .assignAt _ target position value, env => do
    let array ← env.read t s target.text
    let position ← position.eval p t s env
    let value ← value.eval p t s env
    let element ← Effect.ofOption
      ((t.varType? s target.text).bind fun type => type.element?.bind Element.ofTy?)
    p.arrayStore element array position value
    return (.normal, env)
  | .ifThen _ condition yes, env => do
    if ← condition.holds p t s env then yes.exec p t m fuel env else return (.normal, env)
  | .ifElse _ condition yes no, env => do
    if ← condition.holds p t s env then yes.exec p t m fuel env else no.exec p t m fuel env
  | .loop _ condition body, env =>
    -- A loop inside the body has the whole fuel in each round.
    runLoop (fun env => condition.holds p t s env) (fun env => body.exec p t m fuel env) fuel env
  | .ret _ _ none, env => return (.returned none, env)
  | .ret _ _ (some value), env => do
    let value ← value.eval p t s env
    return (.returned (some value), env)
  | .print _ newline none, env => do
    p.print none newline
    return (.normal, env)
  | .print _ newline (some value), env => do
    let type := value.typeIn t s
    let value ← value.eval p t s env
    p.print (some (type, value)) newline
    return (.normal, env)
  | .call _ callee arguments, env => do
    let values ← Expr.evalAll p t s env arguments
    let f ← Effect.ofOption (t.callee? s callee.text)
    p.invoke f.returns callee.text values
    return (.normal, env)

/-- Runs a block in the scope recorded for it. -/
def Block.exec (p : Primitives V W) (t : Table) (m : ScopeMap) (fuel : Nat) :
    Block L NodeId → Env V → Effect W (Completion V × Env V)
  | .mk node statements, env => do
    let s ← Effect.ofOption (m.get? node)
    Block.execAll p t m fuel s statements env

/-- Runs statements in order, until one of them returns. -/
def Block.execAll (p : Primitives V W) (t : Table) (m : ScopeMap) (fuel : Nat) (s : ScopeId) :
    List (Stmt L NodeId) → Env V → Effect W (Completion V × Env V)
  | [], env => return (.normal, env)
  | st :: sts, env => do
    let (completion, env) ← st.exec p t m fuel s env
    match completion with
    | .normal => Block.execAll p t m fuel s sts env
    | .returned value => return (.returned value, env)

end

/-- Runs the block of an outline with the values of its parameters. -/
def Outline.run (p : Primitives V W) (t : Table) (m : ScopeMap) (fuel : Nat) (o : Outline L)
    (values : List V) : Effect W (Completion V) := do
  let (completion, _) ← o.body.exec p t m fuel (Env.ofArguments o.arguments values)
  return completion

end Primer
