import Primer.Proofs.Machine.Shape
import Primer.Proofs.Semantics.Evaluation
import Mathlib.Logic.Relation

/-!
# Execution of machine code

A routine runs on an operand stack and on numbered slots, of which the first hold its arguments. A
float fills two slots, and storing into either of them destroys it. Instructions act on the values
and the world by the same primitives as trees do.

`Code.Performs` says what a piece of code does wherever it stands in the body of a routine: it goes
through to its end, or it returns. What a construct does follows from what its parts do.
-/

namespace Primer.Machine

variable {V W : Type}

/-! ## Slots -/

/-- What a slot holds. -/
inductive Cell (V : Type) where
  | value (kind : Kind) (v : V)
  /-- The second half of the value in the slot before. -/
  | upper

/-- The slots of a routine; unused ones hold nothing. -/
abbrev Cells (V : Type) : Type := Nat → Option (Cell V)

namespace Cells

/-- Whether a slot holds the second half of a value. -/
def isUpper (cells : Cells V) (n : Nat) : Bool :=
  match cells n with
  | some .upper => true
  | _ => false

/-- The value of a kind that starts at a slot, if all of it is there. -/
def read (cells : Cells V) (kind : Kind) (n : Nat) : Option V :=
  match cells n with
  | some (.value found v) =>
    if found = kind ∧ (kind.width = 2 → cells.isUpper (n + 1)) then some v else none
  | _ => none

/-- Stores a value of a kind from a slot on. -/
def write (cells : Cells V) (kind : Kind) (n : Nat) (v : V) : Cells V :=
  fun i =>
    if i = n then some (.value kind v)
    else if i = n + 1 ∧ kind.width = 2 then some .upper
    else cells i

/-- Stores values of given types one behind the other, from a slot on. -/
def enter (cells : Cells V) : Nat → List Ty → List V → Cells V
  | n, type :: types, v :: values =>
    (cells.write (Kind.ofTy type) n v).enter (n + (Kind.ofTy type).width) types values
  | _, _, _ => cells

theorem read_write_self (cells : Cells V) (kind : Kind) (n : Nat) (v : V) :
    (cells.write kind n v).read kind n = some v := by
  cases kind <;> simp [read, write, isUpper, Kind.width]

/-- Storing elsewhere keeps a value. -/
theorem read_write_of_apart (cells : Cells V) {kind kind' : Kind} {n n' : Nat} (v : V)
    (h : n + kind.width ≤ n' ∨ n' + kind'.width ≤ n) :
    (cells.write kind n v).read kind' n' = cells.read kind' n' := by
  -- The slots that are read are none of those that are written.
  have hsame : ∀ i, n' ≤ i → i < n' + kind'.width → cells.write kind n v i = cells i := by
    intro i hlow hhigh
    have hwidth : 1 ≤ kind.width := by cases kind <;> decide
    unfold write
    rw [if_neg (by omega), if_neg (by omega)]
  have hwidth : 1 ≤ kind'.width := by cases kind' <;> decide
  have hupper : kind'.width = 2 →
      (cells.write kind n v).isUpper (n' + 1) = cells.isUpper (n' + 1) := by
    intro htwo
    unfold isUpper
    rw [hsame (n' + 1) (by omega) (by omega)]
  unfold read
  rw [hsame n' (Nat.le_refl _) (by omega)]
  cases cells n' with
  | none => rfl
  | some cell =>
    cases cell with
    | upper => rfl
    | value found u =>
      by_cases htwo : kind'.width = 2
      · simp [htwo, hupper htwo]
      · simp [htwo]

/-- Values that are stored one behind the other do not touch what lies before them. -/
theorem read_enter_of_le (cells : Cells V) {kind : Kind} {k n : Nat} (h : k + kind.width ≤ n)
    (types : List Ty) (values : List V) :
    (cells.enter n types values).read kind k = cells.read kind k := by
  induction types generalizing cells n values with
  | nil => rfl
  | cons type types ih =>
    cases values with
    | nil => rfl
    | cons v values =>
      unfold enter
      -- The values behind the first one lie even further back.
      rw [ih _ (Nat.le_trans h (Nat.le_add_right _ _))]
      exact read_write_of_apart cells v (.inr h)

/-- Each of the values that are stored one behind the other is found behind those before it. -/
theorem read_enter (cells : Cells V) {types : List Ty} {values : List V} {i : Nat} {type : Ty}
    {v : V} (n : Nat) (htype : types[i]? = some type) (hv : values[i]? = some v) :
    (cells.enter n types values).read (Kind.ofTy type) (n + slotsOf (types.take i)) = some v := by
  induction types generalizing cells n values i with
  | nil => simp at htype
  | cons first types ih =>
    cases values with
    | nil => simp at hv
    | cons u values =>
      unfold enter
      cases i with
      | zero =>
        obtain rfl := Option.some.inj htype
        obtain rfl := Option.some.inj hv
        -- The first value is written before the others, which do not touch it.
        rw [List.take_zero]
        change (Cells.enter _ (n + (Kind.ofTy first).width) types values).read _ n = _
        rw [read_enter_of_le _ (Nat.le_refl _)]
        exact read_write_self cells _ n u
      | succ i =>
        -- Any other value is found among those behind the first.
        have hrest := ih (cells.write (Kind.ofTy first) n u) (n + (Kind.ofTy first).width) htype hv
        have hslots : slotsOf ((first :: types).take (i + 1)) =
            (Kind.ofTy first).width + slotsOf (types.take i) := rfl
        rw [hslots, ← Nat.add_assoc]
        exact hrest

end Cells

/-! ## Instructions -/

/-- The slot at which an argument starts. -/
def Signature.offset (s : Signature) (position : Nat) : Nat :=
  slotsOf (s.parameters.take position)

/-- The position at which a label is set. -/
def Code.position? (code : Code) (l : Label) : Option Nat :=
  code.idxOf? (.label l)

/-- What a routine works on. -/
structure Data (V W : Type) where
  /-- The operand stack, the top first. -/
  stack : List V
  cells : Cells V
  world : W

/-- A routine at one of its instructions, or after its return. -/
inductive State (V W : Type) where
  | running (position : Nat) (data : Data V W)
  | halted (result : Option V) (world : W)

/-- The data with one more value on the stack. -/
def Data.push (d : Data V W) (v : V) : Data V W := { d with stack := v :: d.stack }

/-- The data after a primitive that leaves a value. -/
def Data.yield (stack : List V) (cells : Cells V) (x : Option (V × W)) : Option (Data V W) :=
  x.map fun (v, w) => ⟨v :: stack, cells, w⟩

/-- The data after a primitive that leaves nothing. -/
def Data.settle (stack : List V) (cells : Cells V) (x : Option (Unit × W)) : Option (Data V W) :=
  x.map fun (_, w) => ⟨stack, cells, w⟩

/-- What an instruction does that neither jumps nor returns. -/
def Instruction.act (p : Primitives V W) (signature : Signature) :
    Instruction → Data V W → Option (Data V W)
  | .label _, d => some d
  | .push value, ⟨stack, cells, w⟩ => some ⟨p.constant value :: stack, cells, w⟩
  | .pop _, ⟨_ :: stack, cells, w⟩ => some ⟨stack, cells, w⟩
  | .dup, ⟨v :: stack, cells, w⟩ => some ⟨v :: v :: stack, cells, w⟩
  | .load kind n, ⟨stack, cells, w⟩ => Data.yield stack cells ((cells.read kind n).map (·, w))
  | .store kind n, ⟨v :: stack, cells, w⟩ => some ⟨stack, cells.write kind n v, w⟩
  | .loadArgument kind n, ⟨stack, cells, w⟩ =>
    Data.yield stack cells ((cells.read kind (signature.offset n)).map (·, w))
  | .storeArgument kind n, ⟨v :: stack, cells, w⟩ =>
    some ⟨stack, cells.write kind (signature.offset n) v, w⟩
  | .newArray element, ⟨size :: stack, cells, w⟩ =>
    Data.yield stack cells (p.newArray element size w)
  | .arrayLoad element, ⟨n :: array :: stack, cells, w⟩ =>
    Data.yield stack cells (p.arrayLoad element array n w)
  -- Operands are pushed from left to right, so the last one is on top.
  | .arrayStore element, ⟨v :: n :: array :: stack, cells, w⟩ =>
    Data.settle stack cells (p.arrayStore element array n v w)
  | .arrayLength, ⟨array :: stack, cells, w⟩ => Data.yield stack cells (p.arrayLength array w)
  | .stringLength, ⟨text :: stack, cells, w⟩ => Data.yield stack cells (p.stringLength text w)
  | .charAt, ⟨n :: text :: stack, cells, w⟩ => Data.yield stack cells (p.charAt text n w)
  | .arithmetic kind operation, ⟨r :: l :: stack, cells, w⟩ =>
    Data.yield stack cells (p.arithmetic kind operation l r w)
  | .negate kind, ⟨v :: stack, cells, w⟩ => Data.yield stack cells (p.negate kind v w)
  | .call callee signature, ⟨stack, cells, w⟩ =>
    -- The last argument is on top.
    let count := signature.parameters.length
    let arguments := (stack.take count).reverse
    if stack.length < count then none
    else if signature.returns = .void then
      Data.settle (stack.drop count) cells (p.perform callee arguments w)
    else Data.yield (stack.drop count) cells (p.call callee arguments w)
  | .print none newline, ⟨stack, cells, w⟩ => Data.settle stack cells (p.print none newline w)
  | .print (some type) newline, ⟨v :: stack, cells, w⟩ =>
    Data.settle stack cells (p.print (some (type, v)) newline w)
  -- Jumps and returns are no actions on the data, and nothing acts on too short a stack.
  | _, _ => none

section Steps

variable (p : Primitives V W) (r : Routine)

/-- Goes on at a label. -/
def Routine.goto (l : Label) (d : Data V W) : Option (State V W) :=
  (Code.position? r.body l).map (.running · d)

/-- Does one instruction, the one at position `n`. A return finds exactly what it returns. -/
def Routine.run (n : Nat) (d : Data V W) : Instruction → Option (State V W)
  | .jump l => r.goto l d
  | .jumpIfFalse l =>
    match d with
    | ⟨v :: stack, cells, w⟩ => (p.int? v).bind fun value =>
      if value = 0 then r.goto l ⟨stack, cells, w⟩ else some (.running (n + 1) ⟨stack, cells, w⟩)
    | _ => none
  | .ifCompare kind condition l =>
    match d with
    | ⟨rhs :: lhs :: stack, cells, w⟩ => (p.compare kind condition lhs rhs w).bind fun (holds, w) =>
      if holds then r.goto l ⟨stack, cells, w⟩ else some (.running (n + 1) ⟨stack, cells, w⟩)
    | _ => none
  | .ret none =>
    -- A return needs the stack to hold its value and nothing else.
    match d with
    | ⟨[], _, w⟩ => some (.halted none w)
    | _ => none
  | .ret (some _) =>
    match d with
    | ⟨[v], _, w⟩ => some (.halted (some v) w)
    | _ => none
  | i => (i.act p r.signature d).map (.running (n + 1))

/-- One step of a routine. -/
def Routine.step : State V W → Option (State V W)
  | .running n d => r.body[n]?.bind (r.run p n d)
  | .halted _ _ => none

/-- Any number of steps. -/
def Routine.Steps : State V W → State V W → Prop :=
  Relation.ReflTransGen fun a b => r.step p a = some b

/-- A routine that is entered: its arguments are in the first slots, and nothing is known of the
other slots. -/
def Routine.start (values : List V) (cells : Cells V) (w : W) : State V W :=
  .running 0 ⟨[], cells.enter 0 r.signature.parameters values, w⟩

end Steps

/-! ## Pieces of code -/

namespace Code

/-- The code stands in the body from position `i` on. -/
def At (body : Code) (i : Nat) (code : Code) : Prop :=
  ∀ (n : Nat) x, code[n]? = some x → body[i + n]? = some x

theorem At.left {body : Code} {i : Nat} {a b : Code} (h : At body i (a ++ b)) : At body i a := by
  intro n x hx
  have hn : n < a.length := (List.getElem?_eq_some_iff.mp hx).1
  exact h n x (by rw [List.getElem?_append_left hn, hx])

theorem At.right {body : Code} {i : Nat} {a b : Code} (h : At body i (a ++ b)) :
    At body (i + a.length) b := by
  intro n x hx
  have hright : (a ++ b)[a.length + n]? = some x := by
    rw [List.getElem?_append_right (Nat.le_add_right _ _), Nat.add_sub_cancel_left, hx]
  rw [Nat.add_assoc]
  exact h _ x hright

/-- A label that is set only once is found where it stands. -/
theorem position?_eq {code : Code} (h : (labels code).Nodup) {l : Label} {k : Nat}
    (hk : code[k]? = some (.label l)) : position? code l = some k := by
  unfold position?
  induction code generalizing k with
  | nil => simp at hk
  | cons i code ih =>
    rw [List.idxOf?_cons]
    cases k with
    | zero =>
      obtain rfl := Option.some.inj hk
      simp
    | succ k =>
      -- The first instruction sets another label, or this one would be set twice.
      have hmem : l ∈ labels code := mem_labels.mpr (List.mem_of_getElem? hk)
      have hne : i ≠ .label l := by
        rintro rfl
        exact (List.nodup_cons.mp h).1 hmem
      have hrest : (labels code).Nodup := h.sublist ((List.sublist_cons_self i code).filterMap _)
      simp [hne, ih hrest hk]

end Code

/-- How a piece of code ends: it goes through, or it returns. -/
inductive Exit (V W : Type) where
  | through (data : Data V W)
  | halted (result : Option V) (world : W)

/-- The state after a piece of code that ends at position `n`. -/
def Exit.state (n : Nat) : Exit V W → State V W
  | .through d => .running n d
  | .halted result w => .halted result w

section Performs

variable {p : Primitives V W} {r : Routine}

/-- What a piece of code does, wherever it stands in the body of the routine. -/
def Code.Performs (p : Primitives V W) (r : Routine) (code : Code) (d : Data V W)
    (e : Exit V W) : Prop :=
  ∀ i, Code.At r.body i code → r.Steps p (.running i d) (e.state (i + code.length))

/-- One step at a position whose instruction is known. -/
theorem Routine.Steps.one {n : Nat} {d : Data V W} {i : Instruction} {b : State V W}
    (hi : r.body[n]? = some i) (h : r.run p n d i = some b) : r.Steps p (.running n d) b :=
  .single (by simp [Routine.step, hi, h])

theorem Routine.run_of_act {i : Instruction} {n : Nat} {d d' : Data V W}
    (h : i.act p r.signature d = some d') : r.run p n d i = some (.running (n + 1) d') := by
  cases i with
  -- What acts on the data neither jumps nor returns, so it goes on at the next position.
  | jump | jumpIfFalse | ifCompare => simp [Instruction.act] at h
  | ret kind => simp [Instruction.act] at h
  | _ => exact congrArg (Option.map (State.running (n + 1))) h

namespace Code.Performs

variable {d d' : Data V W} {e : Exit V W} {a b : Code}

theorem nil : Performs p r [] d (.through d) :=
  fun _ _ => .refl

theorem append (ha : Performs p r a d (.through d')) (hb : Performs p r b d' e) :
    Performs p r (a ++ b) d e := by
  intro i hat
  have hsteps := hb _ hat.right
  rw [List.length_append, ← Nat.add_assoc]
  exact Relation.ReflTransGen.trans (ha i hat.left) hsteps

/-- Code that has returned does not come to what follows. -/
theorem append_halted {result : Option V} {w : W} (ha : Performs p r a d (.halted result w))
    (b : Code) : Performs p r (a ++ b) d (.halted result w) :=
  fun i hat => ha i hat.left

/-- An instruction that neither jumps nor returns. -/
theorem one {i : Instruction} (h : i.act p r.signature d = some d') :
    Performs p r [i] d (.through d') :=
  fun _ hat => .one (hat 0 i rfl) (Routine.run_of_act h)

theorem append_label (ha : Performs p r a d e) (l : Label) :
    Performs p r (a ++ [.label l]) d e := by
  cases e with
  | through d' => exact ha.append (one rfl)
  | halted result w => exact ha.append_halted _

/-- A conditional jump that is not taken. -/
theorem fall {v : V} {value : Int} (hv : p.int? v = some value) (hne : value ≠ 0) (l : Label) :
    Performs p r [.jumpIfFalse l] (d.push v) (.through d) := by
  intro n hat
  refine .one (hat 0 _ rfl) ?_
  simp [Routine.run, Data.push, hv, hne, Exit.state]

theorem ret_none (cells : Cells V) (w : W) :
    Performs p r [.ret none] ⟨[], cells, w⟩ (.halted none w) :=
  fun _ hat => .one (hat 0 _ rfl) rfl

theorem ret_some (kind : Kind) (v : V) (cells : Cells V) (w : W) :
    Performs p r [.ret (some kind)] ⟨[v], cells, w⟩ (.halted (some v) w) :=
  fun _ hat => .one (hat 0 _ rfl) rfl

end Code.Performs

/-! ## Control flow -/

section Labels

variable (hlabels : (Code.labels r.body).Nodup) {n k : Nat} {l : Label} {d d' : Data V W}
include hlabels

theorem Routine.goto_eq (hk : r.body[k]? = some (.label l)) (d : Data V W) :
    r.goto l d = some (.running k d) := by
  unfold Routine.goto
  rw [Code.position?_eq hlabels hk]
  rfl

theorem Routine.Steps.jump (hn : r.body[n]? = some (.jump l)) (hk : r.body[k]? = some (.label l)) :
    r.Steps p (.running n d) (.running k d) :=
  .one hn (Routine.goto_eq hlabels hk d)

/-- A conditional jump that is taken. -/
theorem Routine.Steps.leap {v : V} (hv : p.int? v = some 0)
    (hn : r.body[n]? = some (.jumpIfFalse l)) (hk : r.body[k]? = some (.label l)) :
    r.Steps p (.running n (d.push v)) (.running k d) := by
  refine .one hn ?_
  simp [Routine.run, Data.push, hv, Routine.goto_eq hlabels hk]

namespace Code.Performs

variable {condition yes no : Code} {e : Exit V W} {v : V} {value : Int}

/-- A comparison leaves one or zero. -/
theorem compare {kind : Kind} {test : Condition} {lhs rhs : V} {holds : Bool} {w w' : W}
    (h : p.compare kind test lhs rhs w = some (holds, w')) (yes done : Label) (stack : List V)
    (cells : Cells V) :
    Performs p r (Machine.compare kind test yes done) ⟨rhs :: lhs :: stack, cells, w⟩
      (.through ⟨p.truth holds :: stack, cells, w'⟩) := by
  intro i hat
  -- Both ways end at the last of the six instructions, with the truth value on the stack.
  have hdone : r.Steps p (.running (i + 5) ⟨p.truth holds :: stack, cells, w'⟩)
      (.running (i + 6) ⟨p.truth holds :: stack, cells, w'⟩) :=
    .one (hat 5 _ rfl) (Routine.run_of_act rfl)
  cases holds with
  | false =>
    have hfall : r.Steps p (.running i ⟨rhs :: lhs :: stack, cells, w⟩)
        (.running (i + 1) ⟨stack, cells, w'⟩) := .one (hat 0 _ rfl) (by simp [Routine.run, h])
    have hpush : r.Steps p (.running (i + 1) ⟨stack, cells, w'⟩)
        (.running (i + 2) ⟨p.truth false :: stack, cells, w'⟩) :=
      .one (hat 1 _ rfl) (Routine.run_of_act rfl)
    have hjump := Routine.Steps.jump (p := p) (d := ⟨p.truth false :: stack, cells, w'⟩) hlabels
      (hat 2 _ rfl) (hat 5 _ rfl)
    exact ((hfall.trans hpush).trans hjump).trans hdone
  | true =>
    have hleap : r.Steps p (.running i ⟨rhs :: lhs :: stack, cells, w⟩)
        (.running (i + 3) ⟨stack, cells, w'⟩) :=
      .one (hat 0 _ rfl) (by simp [Routine.run, h, Routine.goto_eq hlabels (hat 3 _ rfl)])
    have hlabel : r.Steps p (.running (i + 3) ⟨stack, cells, w'⟩)
        (.running (i + 4) ⟨stack, cells, w'⟩) := .one (hat 3 _ rfl) (Routine.run_of_act rfl)
    have hpush : r.Steps p (.running (i + 4) ⟨stack, cells, w'⟩)
        (.running (i + 5) ⟨p.truth true :: stack, cells, w'⟩) :=
      .one (hat 4 _ rfl) (Routine.run_of_act rfl)
    exact ((hleap.trans hlabel).trans hpush).trans hdone

/-- Code under a condition that fails is skipped. -/
theorem skip_no (hcondition : Performs p r condition d (.through (d'.push v)))
    (hv : p.int? v = some 0) (yes : Code) (l : Label) :
    Performs p r (condition ++ [.jumpIfFalse l] ++ yes ++ [.label l]) d (.through d') := by
  intro i hat
  have hleap := Routine.Steps.leap (d := d') hlabels hv (hat.left.left.right 0 _ rfl)
    (hat.right 0 _ rfl)
  have hlabel := one (p := p) (d := d') rfl _ hat.right
  rw [List.length_append, ← Nat.add_assoc]
  exact ((hcondition i hat.left.left.left).trans hleap).trans hlabel

/-- The first of two pieces of code, if the condition holds. -/
theorem choice_yes (hcondition : Performs p r condition d (.through (d'.push v)))
    (hv : p.int? v = some value) (hne : value ≠ 0) (hyes : Performs p r yes d' e) (no : Code)
    (skip done : Label) :
    Performs p r (condition ++ [.jumpIfFalse skip] ++ yes ++ [.jump done, .label skip] ++ no ++
      [.label done]) d e := by
  -- If the first piece goes through, it jumps over the second one to the label at the end.
  have hfirst := (hcondition.append (fall hv hne skip)).append hyes
  cases e with
  | halted result w => exact ((hfirst.append_halted _).append_halted _).append_halted _
  | through d'' =>
    intro i hat
    have hjump := Routine.Steps.jump (p := p) (d := d'') hlabels (hat.left.left.right 0 _ rfl)
      (hat.right 0 _ rfl)
    have hlabel := one (p := p) (d := d'') rfl _ hat.right
    rw [List.length_append, ← Nat.add_assoc]
    exact ((hfirst i hat.left.left.left).trans hjump).trans hlabel

/-- The second of two pieces of code, if the condition fails. -/
theorem choice_no (hcondition : Performs p r condition d (.through (d'.push v)))
    (hv : p.int? v = some 0) (yes : Code) (hno : Performs p r no d' e) (skip done : Label) :
    Performs p r (condition ++ [.jumpIfFalse skip] ++ yes ++ [.jump done, .label skip] ++ no ++
      [.label done]) d e := by
  -- The label stands behind the jump that ends the first piece.
  have hskipped : Performs p r
      (condition ++ [.jumpIfFalse skip] ++ yes ++ [.jump done, .label skip]) d (.through d') := by
    intro i hat
    have hleap := Routine.Steps.leap (d := d') hlabels hv (hat.left.left.right 0 _ rfl)
      (hat.right 1 _ rfl)
    have hlabel : r.Steps p (.running _ d') _ := .one (hat.right 1 _ rfl) (Routine.run_of_act rfl)
    rw [List.length_append, ← Nat.add_assoc]
    exact ((hcondition i hat.left.left.left).trans hleap).trans hlabel
  exact (hskipped.append hno).append_label done

/-- A loop is left when its condition fails. -/
theorem loop_exit (top done : Label)
    (hcondition : Performs p r condition d (.through (d'.push v))) (hv : p.int? v = some 0)
    (body : Code) :
    Performs p r ([.label top] ++ condition ++ [.jumpIfFalse done] ++ body ++
      [.jump top, .label done]) d (.through d') := by
  intro i hat
  have hfirst := ((one rfl).append hcondition) i hat.left.left.left
  have hleap := Routine.Steps.leap (d := d') hlabels hv (hat.left.left.right 0 _ rfl)
    (hat.right 1 _ rfl)
  have hlabel : r.Steps p (.running _ d') _ := .one (hat.right 1 _ rfl) (Routine.run_of_act rfl)
  rw [List.length_append, ← Nat.add_assoc]
  exact (hfirst.trans hleap).trans hlabel

/-- A loop whose body went through starts again. -/
theorem loop_again (top done : Label)
    (hcondition : Performs p r condition d (.through (d'.push v)))
    (hv : p.int? v = some value) (hne : value ≠ 0) {body : Code} {d'' : Data V W}
    (hbody : Performs p r body d' (.through d''))
    (hagain : Performs p r ([.label top] ++ condition ++ [.jumpIfFalse done] ++ body ++
      [.jump top, .label done]) d'' e) :
    Performs p r ([.label top] ++ condition ++ [.jumpIfFalse done] ++ body ++
      [.jump top, .label done]) d e := by
  intro i hat
  -- One round leads to the jump back, and from there the same code runs again.
  have hround := ((((one rfl).append hcondition).append (fall hv hne done)).append hbody) i hat.left
  have hjump := Routine.Steps.jump (p := p) (d := d'') hlabels (hat.right 0 _ rfl)
    (hat.left.left.left.left 0 _ rfl)
  exact (hround.trans hjump).trans (hagain i hat)

end Code.Performs

end Labels

namespace Code.Performs

variable {d d' : Data V W} {condition yes : Code} {e : Exit V W} {v : V} {value : Int}

/-- Code under a condition that holds. -/
theorem skip_yes (hcondition : Performs p r condition d (.through (d'.push v)))
    (hv : p.int? v = some value) (hne : value ≠ 0) (hyes : Performs p r yes d' e) (l : Label) :
    Performs p r (condition ++ [.jumpIfFalse l] ++ yes ++ [.label l]) d e :=
  ((hcondition.append (fall hv hne l)).append hyes).append_label l

/-- A loop whose body returns. -/
theorem loop_halted (top done : Label)
    (hcondition : Performs p r condition d (.through (d'.push v)))
    (hv : p.int? v = some value) (hne : value ≠ 0) {body : Code} {result : Option V} {w : W}
    (hbody : Performs p r body d' (.halted result w)) :
    Performs p r ([.label top] ++ condition ++ [.jumpIfFalse done] ++ body ++
      [.jump top, .label done]) d (.halted result w) :=
  ((((one rfl).append hcondition).append (fall hv hne done)).append hbody).append_halted _

end Code.Performs

end Performs

end Primer.Machine
