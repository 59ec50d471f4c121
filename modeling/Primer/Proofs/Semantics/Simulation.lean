import Primer.Proofs.Machine.Capacity
import Primer.Proofs.Semantics.Storage

/-!
# Emission preserves meaning

The code of an expression leaves the value of the expression, with the same effect on the world,
and the code of a statement does what the statement does (`Stmt.Emits.simulates`). For the routines
of an accepted program this gives `Program.simulated_of_isAccepted`: whenever the evaluation of an
item ends, its routine ends in the same way.
-/

namespace Primer

open Machine Machine.Frame Machine.Code

variable {L V W : Type}

/-- What a body needs for its jumps and variables to be found: no label is set twice, and no two
variables overlap in the frame in which all of them have their slots. -/
structure Machine.Routine.Linked (r : Routine) (c : Context) (g : Frame) : Prop where
  labels : (labels r.body).Nodup
  apart : c.Apart r.signature g

section Expressions

variable {p : Primitives V W} {r : Routine} {c : Context} {g : Frame} {s : ScopeId} {env : Env V}
  {cells : Cells V}

/-! ## Variables -/

namespace Machine

/-- Loading a variable from its place. -/
theorem Context.performs_place_load (h : env.Agrees c r.signature g cells) {x : SymbolId} {v : V}
    (hx : env x = some v) {f : Frame} (hg : Grows c.table (c.place x f).2 g) (stack : List V)
    (w : W) :
    Performs p r [(c.place x f).1.load (Kind.ofTy (c.table.typeOf x))] ⟨stack, cells, w⟩
      (.through ⟨v :: stack, cells, w⟩) := by
  obtain ⟨storage, hhome, hread⟩ := h x v hx
  rw [home?_eq_place hg] at hhome
  obtain rfl := Option.some.inj hhome
  refine .one ?_
  -- The two instructions differ, and both read at the address of the place.
  cases hplace : (c.place x f).1 with
  | argument n =>
    rw [hplace] at hread
    simp only [Storage.address] at hread
    simp [Storage.load, Instruction.act, hread, Data.yield]
  | slot n =>
    rw [hplace] at hread
    simp only [Storage.address] at hread
    simp [Storage.load, Instruction.act, hread, Data.yield]

/-- Storing a variable at its place. -/
theorem Context.performs_place_store (x : SymbolId) (f : Frame) (v : V) (stack : List V)
    (cells : Cells V) (w : W) :
    Performs p r [(c.place x f).1.store (Kind.ofTy (c.table.typeOf x))] ⟨v :: stack, cells, w⟩
      (.through ⟨stack, cells.write (Kind.ofTy (c.table.typeOf x))
        ((c.place x f).1.address r.signature) v, w⟩) := by
  refine .one ?_
  cases (c.place x f).1 <;> rfl

/-- Loading the variable behind a name. -/
theorem Context.performs_load (h : env.Agrees c r.signature g cells) {name : String} {w w' : W}
    {v : V} (hread : env.read c.table s name w = some (v, w')) {f : Frame}
    (hg : Grows c.table (c.load s name f).frame g) (stack : List V) :
    Performs p r (c.load s name f).code ⟨stack, cells, w⟩ (.through ⟨v :: stack, cells, w'⟩) := by
  obtain ⟨hbind, rfl⟩ := Effect.ofOption_eq_some hread
  obtain ⟨x, hx, hv⟩ := Option.bind_eq_some_iff.mp hbind
  rw [load_eq hx] at hg ⊢
  exact performs_place_load h hv hg stack w

/-- Taking an element from an array, or a character from a string. -/
theorem performs_elementOf {base element : Ty} (hbase : base ∈ Ty.nameable)
    (helement : base.element? = some element) {array n v : V} {w w' : W}
    (h : p.elementAt base array n w = some (v, w')) (stack : List V) :
    Performs p r (elementOf base).2 ⟨n :: array :: stack, cells, w⟩
      (.through ⟨v :: stack, cells, w'⟩) := by
  unfold Primitives.elementAt at h
  rcases elementOf_cases hbase helement with ⟨hstring, -, hcode⟩ | ⟨hne, e, he, hcode⟩
  · rw [if_pos hstring] at h
    rw [hcode]
    exact .one (by simp [Instruction.act, h, Data.yield])
  · rw [if_neg hne] at h
    obtain ⟨e', hbind, h⟩ := Effect.ofOption_bind_eq_some h
    rw [helement, Option.bind_some, he] at hbind
    obtain rfl := Option.some.inj hbind
    rw [hcode]
    exact .one (by simp [Instruction.act, h, Data.yield])

end Machine

/-! ## Expressions -/

namespace Expr

/-- The code of an expression leaves its value, in every frame and on top of every stack. -/
def Pushes (p : Primitives V W) (r : Routine) (c : Context) (g : Frame) (s : ScopeId) (env : Env V)
    (cells : Cells V) (e : Expr L) : Prop :=
  ∀ f w w' v stack, Grows c.table (e.emit c s f).frame g →
    e.eval p c.table s env w = some (v, w') →
    Performs p r (e.emit c s f).code ⟨stack, cells, w⟩ (.through ⟨v :: stack, cells, w'⟩)

private theorem performs_emitAll_of {es : List (Expr L)} {types : List Ty}
    (h : List.Forall₂ (fun e _ => e.Pushes p r c g s env cells) es types) {f : Frame} {w w' : W}
    {values : List V} (stack : List V) (hg : Grows c.table (emitAll c s es f).2 g)
    (heval : evalAll p c.table s env es w = some (values, w')) :
    values.length = es.length ∧
      Performs p r (emitAll c s es f).1 ⟨stack, cells, w⟩
        (.through ⟨values.reverse ++ stack, cells, w'⟩) := by
  induction h generalizing f w values stack with
  | nil =>
    obtain ⟨rfl, rfl⟩ := Effect.pure_eq_some heval
    exact ⟨rfl, .nil⟩
  | @cons e _ es _ he _ ih =>
    obtain ⟨value, w₁, hvalue, heval⟩ := Effect.bind_eq_some heval
    obtain ⟨rest, w₂, hrest, heval⟩ := Effect.bind_eq_some heval
    obtain ⟨rfl, rfl⟩ := Effect.pure_eq_some heval
    -- The other arguments are pushed on top of the first, so its value joins their stack.
    have hfirst := he f w w₁ value stack ((grows_emitAll es (e.emit c s f).frame).trans hg) hvalue
    obtain ⟨hlength, hperform⟩ := ih (value :: stack) hg hrest
    refine ⟨congrArg (· + 1) hlength, ?_⟩
    rw [List.reverse_cons, List.append_assoc]
    exact hfirst.append hperform

/-- Each element is stored into a copy of the array. -/
private theorem performs_emitElements_of {es : List (Expr L)}
    (h : ∀ e ∈ es, e.Pushes p r c g s env cells) {element : Element} {array : V} {n : Nat}
    {f : Frame} {w w' : W} (stack : List V)
    (hg : Grows c.table (emitElements c s element n es f).2 g)
    (heval : fill p c.table s env element array n es w = some ((), w')) :
    Performs p r (emitElements c s element n es f).1 ⟨array :: stack, cells, w⟩
      (.through ⟨array :: stack, cells, w'⟩) := by
  induction es generalizing n f w with
  | nil =>
    obtain ⟨-, rfl⟩ := Effect.pure_eq_some heval
    exact .nil
  | cons e es ih =>
    obtain ⟨value, w₁, hvalue, heval⟩ := Effect.bind_eq_some heval
    obtain ⟨⟨⟩, w₂, hstore, heval⟩ := Effect.bind_eq_some heval
    -- The copy is used up by the store, and the array itself stays below for the next element.
    have hcopy : Performs p r [.dup, .push (.int n)] ⟨array :: stack, cells, w⟩
        (.through ⟨p.constant (.int n) :: array :: array :: stack, cells, w⟩) :=
      (Performs.one rfl).append (.one rfl)
    have hfirst := h e List.mem_cons_self f w w₁ value
      (p.constant (.int n) :: array :: array :: stack)
      ((grows_emitElements element (n + 1) es (e.emit c s f).frame).trans hg) hvalue
    have hwrite : Performs p r [.arrayStore element]
        ⟨value :: p.constant (.int n) :: array :: array :: stack, cells, w₁⟩
        (.through ⟨array :: stack, cells, w₂⟩) :=
      .one (by simp [Instruction.act, hstore, Data.settle])
    exact ((hcopy.append hfirst).append hwrite).append
      (ih (fun e he => h e (List.mem_cons_of_mem _ he)) hg heval)

/-- A call finds its arguments in order. -/
theorem act_call (callee : String) {signature : Signature} {values : List V}
    (hlength : values.length = signature.parameters.length) (stack : List V) (cells : Cells V)
    (w : W) :
    (Instruction.call callee signature).act p r.signature ⟨values.reverse ++ stack, cells, w⟩ =
      if signature.returns = .void then Data.settle stack cells (p.perform callee values w)
      else Data.yield stack cells (p.call callee values w) := by
  have hreverse : values.reverse.length = signature.parameters.length := by simpa using hlength
  -- The stack holds exactly the arguments above what was there before, the last one on top.
  have henough : ¬(values.reverse ++ stack).length < signature.parameters.length := by
    simp [← hreverse]
  simp only [Instruction.act, if_neg henough]
  rw [← hreverse, List.take_left, List.drop_left, List.reverse_reverse]

/-- The code of a well-typed expression leaves its value. -/
theorem pushes_of_hasType (ht : c.table.Nameable) (hl : r.Linked c g)
    (henv : env.Agrees c r.signature g cells) {e : Expr L} {τ : Ty} (h : e.HasType c.table s τ)
    (hvoid : τ ≠ .void) (hnew : e.isNewFree = true) : e.Pushes p r c g s env cells := by
  intro f w w' v stack hg heval
  -- By induction on the expression. The frame `g` in which emission ends is fixed: each part is
  -- emitted in a frame that grows into `g`, so a variable has the same place in all parts.
  induction e using Expr.inductionOn generalizing τ f w w' v stack with
  | int | float | bool | char | str =>
    obtain ⟨rfl, rfl⟩ := Effect.pure_eq_some heval
    exact .one rfl
  | read p name => exact Context.performs_load henv heval hg stack
  | call place callee arguments ih =>
    cases h with
    | @call _ _ _ callee' hcallee harguments hvoids _ =>
      have hlength : callee'.parameters.length = arguments.length := by
        simpa using harguments.length_eq.symm
      obtain ⟨values, w₁, hvalues, heval⟩ := Effect.bind_eq_some heval
      rw [emit_call hcallee hlength] at hg ⊢
      obtain ⟨hcount, hperform⟩ := performs_emitAll_of
        (forall₂_of_hasType harguments hvoids fun e he τ hτ hne =>
          ih e he hτ hne (isNewFree_of_mem hnew e he)) stack hg hvalues
      refine hperform.append (.one ?_)
      rw [act_call callee.text (by simp [signatureOf, hcount, hlength]) stack cells w₁]
      simp [signatureOf, hvoid, heval, Data.yield]
  | index place base position ih =>
    cases h with
    | @index _ _ _ type element hvar helement hposition =>
      obtain ⟨array, w₁, harray, heval⟩ := Effect.bind_eq_some heval
      obtain ⟨n, w₂, hn, heval⟩ := Effect.bind_eq_some heval
      obtain ⟨type', htype, heval⟩ := Effect.ofOption_bind_eq_some heval
      obtain rfl := Option.some.inj (hvar.symm.trans htype)
      have hbase := Context.performs_load (p := p) henv harray
        ((grows_emit position (c.load s base.text f).frame).trans hg) stack
      have hindex := ih hposition (by decide) hnew (c.load s base.text f).frame w₁ w₂ n
        (array :: stack) hg hn
      simp only [emit, Context.load_type hvar]
      refine (hbase.append hindex).append ?_
      exact performs_elementOf (ht.varType hvar) helement heval stack
  | length place operand ih =>
    cases h with
    | @length _ _ τ hoperand hτ =>
      obtain ⟨value, w₁, hvalue, heval⟩ := Effect.bind_eq_some heval
      refine (ih hoperand (Ty.ofTy_of_hasLength hτ).2 hnew f w w₁ value stack hg hvalue).append ?_
      rw [(hasType_iff.mp hoperand).1] at heval
      rw [emit_type_of_isNewFree hoperand hnew]
      split_ifs at heval ⊢ with hstring
      · exact .one (by simp [Instruction.act, heval, Data.yield])
      · exact .one (by simp [Instruction.act, heval, Data.yield])
  | paren place operand ih =>
    cases h with
    | paren hoperand => exact ih hoperand hvoid hnew f w w' v stack hg heval
  | negate place operand ih =>
    cases h with
    | negate hoperand hτ =>
      obtain ⟨value, w₁, hvalue, heval⟩ := Effect.bind_eq_some heval
      refine (ih hoperand hvoid hnew f w w₁ value stack hg hvalue).append ?_
      rw [(hasType_iff.mp hoperand).1] at heval
      rw [emit_type_of_isNewFree hoperand hnew]
      exact .one (by simp [Instruction.act, heval, Data.yield])
  | binary place op lhs rhs ihl ihr =>
    obtain ⟨hnewl, hnewr⟩ := Bool.and_eq_true_iff.mp hnew
    obtain ⟨l, w₁, hleft, heval⟩ := Effect.bind_eq_some heval
    obtain ⟨r', w₂, hright, heval⟩ := Effect.bind_eq_some heval
    have hgr := (grows_operator c.table op (lhs.emit c s f).type
      (rhs.emit c s (lhs.emit c s f).frame).frame).trans hg
    have hgl := (grows_emit rhs (lhs.emit c s f).frame).trans hgr
    cases h with
    | arithmetic hop hlhs hrhs hτ =>
      obtain ⟨operation, hoperation⟩ := operation_of_arithmetic hop
      have hoperands := (ihl hlhs hvoid hnewl f w w₁ l stack hgl hleft).append
        (ihr hrhs hvoid hnewr _ w₁ w₂ r' (l :: stack) hgr hright)
      rw [(hasType_iff.mp hlhs).1, Primitives.operate_of_arithmetic hoperation] at heval
      simp only [emit, operator, hoperation, emit_type_of_isNewFree hlhs hnewl f]
      exact hoperands.append (.one (by simp [Instruction.act, heval, Data.yield]))
    | @comparison _ _ _ _ τ hop hlhs hrhs hτ =>
      obtain ⟨condition, hcondition⟩ := operation_of_comparison hop
      have hne := Ty.ne_void_of_comparable hτ
      have hoperands := (ihl hlhs hne hnewl f w w₁ l stack hgl hleft).append
        (ihr hrhs hne hnewr _ w₁ w₂ r' (l :: stack) hgr hright)
      rw [(hasType_iff.mp hlhs).1, Primitives.operate_of_condition hcondition] at heval
      obtain ⟨holds, hholds, rfl⟩ := Effect.map_eq_some heval
      simp only [emit, operator, hcondition, emit_type_of_isNewFree hlhs hnewl f]
      exact hoperands.append (.compare hl.labels hholds _ _ stack cells)
  | array place elements ih =>
    cases h with
    | @array _ _ τ σ hne helements hτ =>
      obtain ⟨element, helement⟩ := Ty.exists_element_of_arrayOf? hτ
      obtain ⟨element', helement', heval⟩ := Effect.ofOption_bind_eq_some heval
      obtain ⟨array, w₂, harray, heval⟩ := Effect.bind_eq_some heval
      obtain ⟨⟨⟩, w₃, hfill, heval⟩ := Effect.bind_eq_some heval
      obtain ⟨rfl, rfl⟩ := Effect.pure_eq_some heval
      -- Evaluator and emitter both look at the first element.
      obtain rfl : element = element' := by
        obtain ⟨first, rest, rfl⟩ := List.exists_cons_of_ne_nil hne
        have hfirst := (hasType_iff.mp (helements first List.mem_cons_self)).1
        simpa [hfirst, helement] using helement'
      rw [emit_array hne helements helement hτ] at hg ⊢
      have hfresh : Performs p r [.push (.int elements.length), .newArray element]
          ⟨stack, cells, w⟩ (.through ⟨array :: stack, cells, w₂⟩) :=
        (Performs.one rfl).append (.one (by simp [Instruction.act, harray, Data.yield]))
      refine hfresh.append (performs_emitElements_of ?_ stack hg hfill)
      intro e he f w w' v stack hg heval
      exact ih e he (helements e he) (Ty.ofTy_of_arrayOf? hτ).2 (isNewFree_of_mem hnew e he)
        f w w' v stack hg heval
  | newArray => cases hnew

/-- The code of a stored value leaves it. -/
theorem StoredAs.pushes (ht : c.table.Nameable) (hl : r.Linked c g)
    (henv : env.Agrees c r.signature g cells) {e : Expr L} {declared : Ty}
    (h : e.StoredAs c.table s declared) (hnew : e.isNewOnlyWhole = true) :
    e.Pushes p r c g s env cells := by
  rcases h.cases hnew with
    ⟨hfree, htyped, hvoid⟩ | ⟨place, n, size, τ, rfl, hfree, hsize, hnamed, hτ⟩
  -- Anything but a fresh array has the declared type itself.
  · exact pushes_of_hasType ht hl henv htyped hvoid hfree
  -- A fresh array is typed by its element; the declared type tells the generator the rest.
  · obtain ⟨element, helement⟩ := Ty.exists_element_of_arrayOf? hτ
    intro f w w' v stack hg heval
    obtain ⟨element', hbind, heval⟩ := Effect.ofOption_bind_eq_some heval
    rw [hnamed, Option.bind_some, helement] at hbind
    obtain rfl := Option.some.inj hbind
    obtain ⟨length, w₁, hlength, heval⟩ := Effect.bind_eq_some heval
    rw [emit_newArray hnamed helement hτ] at hg ⊢
    refine (pushes_of_hasType ht hl henv hsize (by decide) hfree f w w₁ length stack hg
      hlength).append (.one ?_)
    simp [Instruction.act, heval, Data.yield]

/-- The code of well-typed arguments leaves their values, the last one on top. -/
theorem performs_emitAll (ht : c.table.Nameable) (hl : r.Linked c g)
    (henv : env.Agrees c r.signature g cells) {es : List (Expr L)} {types : List Ty}
    (h : List.Forall₂ (HasType c.table s) es types) (hvoid : .void ∉ types)
    (hnew : ∀ e ∈ es, e.isNewFree = true) {f : Frame} {w w' : W} {values : List V}
    (hg : Grows c.table (emitAll c s es f).2 g)
    (heval : evalAll p c.table s env es w = some (values, w')) (stack : List V) :
    values.length = es.length ∧
      Performs p r (emitAll c s es f).1 ⟨stack, cells, w⟩
        (.through ⟨values.reverse ++ stack, cells, w'⟩) :=
  performs_emitAll_of (forall₂_of_hasType h hvoid fun e he _ hτ hne =>
    pushes_of_hasType ht hl henv hτ hne (hnew e he)) stack hg heval

/-- The code of a condition leaves zero exactly if the condition fails. -/
theorem Pushes.holds {condition : Expr L} (h : condition.Pushes p r c g s env cells) {f : Frame}
    (hg : Grows c.table (condition.emit c s f).frame g) {w w' : W} {b : Bool}
    (heval : condition.holds p c.table s env w = some (b, w')) :
    ∃ v value, Performs p r (condition.emit c s f).code ⟨[], cells, w⟩
        (.through (Data.push ⟨[], cells, w'⟩ v)) ∧
      p.int? v = some value ∧ b = decide (value ≠ 0) := by
  obtain ⟨v, w₁, hv, htest⟩ := Effect.bind_eq_some heval
  obtain ⟨rfl, value, hvalue, hb⟩ := Primitives.test_eq_some htest
  exact ⟨v, value, h f w w₁ v [] hg hv, hvalue, hb⟩

end Expr

end Expressions

/-! ## Statements -/

/-- How code ends that does what statements do: it goes through with an empty stack and the new
values of the variables, or it returns what they return. -/
inductive Completion.Ends (c : Context) (signature : Signature) (g : Frame) :
    Completion V → Env V → W → Exit V W → Prop where
  | normal {env cells w} (h : env.Agrees c signature g cells) :
      Ends c signature g .normal env w (.through ⟨[], cells, w⟩)
  | returned {value env w} : Ends c signature g (.returned value) env w (.halted value w)

/-- Code does what statements do, whenever these end. -/
def Simulates (p : Primitives V W) (r : Routine) (c : Context) (g : Frame) (code : Code)
    (run : Env V → Effect W (Completion V × Env V)) : Prop :=
  ∀ env cells w completion env' w', env.Agrees c r.signature g cells →
    run env w = some ((completion, env'), w') →
    ∃ e, Performs p r code ⟨[], cells, w⟩ e ∧ completion.Ends c r.signature g env' w' e

namespace Simulates

variable {p : Primitives V W} {r : Routine} {c : Context} {g : Frame} {s : ScopeId} {fuel : Nat}
  {condition : Expr L} {f : Frame} {yes no : Code}
  {run run' : Env V → Effect W (Completion V × Env V)}

/-- Statements that do nothing. -/
theorem nil : Simulates p r c g [] fun env => pure (.normal, env) := by
  intro env cells w completion env' w' henv hrun
  obtain ⟨rfl, rfl, rfl⟩ := Effect.pure_pair_eq_some hrun
  exact ⟨_, .nil, .normal henv⟩

/-- Statements in order, until one of them returns. -/
theorem seq (hfirst : Simulates p r c g yes run) (hrest : Simulates p r c g no run') :
    Simulates p r c g (yes ++ no) (fun env => do
      let (completion, env) ← run env
      match completion with
      | .normal => run' env
      | .returned value => return (.returned value, env)) := by
  intro env cells w completion env' w' henv hrun
  obtain ⟨⟨completion₁, env₁⟩, w₁, hrun₁, hrun⟩ := Effect.bind_eq_some hrun
  obtain ⟨e, hperform, hends⟩ := hfirst env cells w completion₁ env₁ w₁ henv hrun₁
  cases hends with
  | normal henv₁ =>
    obtain ⟨e, hperform', hends⟩ := hrest env₁ _ w₁ completion env' w' henv₁ hrun
    exact ⟨e, hperform.append hperform', hends⟩
  | returned =>
    obtain ⟨rfl, rfl, rfl⟩ := Effect.pure_pair_eq_some hrun
    exact ⟨_, hperform.append_halted _, .returned⟩

section Conditions

variable (hl : r.Linked c g)
  (hcondition : ∀ env cells, env.Agrees c r.signature g cells →
    condition.Pushes p r c g s env cells)
  (hg : Grows c.table (condition.emit c s f).frame g)
include hl hcondition hg

/-- A choice between two blocks. -/
theorem choice (hyes : Simulates p r c g yes run) (hno : Simulates p r c g no run')
    (skip done : Label) :
    Simulates p r c g ((condition.emit c s f).code ++ [.jumpIfFalse skip] ++ yes ++
        [.jump done, .label skip] ++ no ++ [.label done])
      (fun env => do if ← condition.holds p c.table s env then run env else run' env) := by
  intro env cells w completion env' w' henv hrun
  obtain ⟨b, w₁, hb, hrun⟩ := Effect.bind_eq_some hrun
  obtain ⟨v, value, hcode, hvalue, rfl⟩ := (hcondition env cells henv).holds hg hb
  by_cases hzero : value = 0
  · subst hzero
    obtain ⟨e, hperform, hends⟩ := hno env cells w₁ completion env' w' henv hrun
    exact ⟨e, .choice_no hl.labels hcode hvalue yes hperform skip done, hends⟩
  · rw [if_pos (decide_eq_true hzero)] at hrun
    obtain ⟨e, hperform, hends⟩ := hyes env cells w₁ completion env' w' henv hrun
    exact ⟨e, .choice_yes hl.labels hcode hvalue hzero hperform no skip done, hends⟩

/-- A block that runs only if a condition holds. -/
theorem skip (hyes : Simulates p r c g yes run) (l : Label) :
    Simulates p r c g ((condition.emit c s f).code ++ [.jumpIfFalse l] ++ yes ++ [.label l])
      (fun env => do
        if ← condition.holds p c.table s env then run env else return (.normal, env)) := by
  intro env cells w completion env' w' henv hrun
  obtain ⟨b, w₁, hb, hrun⟩ := Effect.bind_eq_some hrun
  obtain ⟨v, value, hcode, hvalue, rfl⟩ := (hcondition env cells henv).holds hg hb
  by_cases hzero : value = 0
  · subst hzero
    obtain ⟨rfl, rfl, rfl⟩ := Effect.pure_pair_eq_some hrun
    exact ⟨_, .skip_no hl.labels hcode hvalue yes l, .normal henv⟩
  · rw [if_pos (decide_eq_true hzero)] at hrun
    obtain ⟨e, hperform, hends⟩ := hyes env cells w₁ completion env' w' henv hrun
    exact ⟨e, .skip_yes hcode hvalue hzero hperform l, hends⟩

/-- A loop, by induction on how often it may run. -/
theorem loop (hbody : Simulates p r c g yes run) (top done : Label) :
    Simulates p r c g ([.label top] ++ (condition.emit c s f).code ++ [.jumpIfFalse done] ++ yes ++
        [.jump top, .label done])
      (runLoop (fun env => condition.holds p c.table s env) run fuel) := by
  induction fuel with
  -- Without fuel the loop does not end, so nothing is claimed.
  | zero => exact fun _ _ _ _ _ _ _ h => by cases h
  | succ fuel ih =>
    intro env cells w completion env' w' henv hrun
    obtain ⟨b, w₁, hb, hrun⟩ := Effect.bind_eq_some hrun
    obtain ⟨v, value, hcode, hvalue, rfl⟩ := (hcondition env cells henv).holds hg hb
    by_cases hzero : value = 0
    · subst hzero
      obtain ⟨rfl, rfl, rfl⟩ := Effect.pure_pair_eq_some hrun
      exact ⟨_, .loop_exit hl.labels top done hcode hvalue yes, .normal henv⟩
    · rw [if_pos (decide_eq_true hzero)] at hrun
      obtain ⟨⟨completion₁, env₁⟩, w₂, hround, hrun⟩ := Effect.bind_eq_some hrun
      obtain ⟨e, hperform, hends⟩ := hbody env cells w₁ completion₁ env₁ w₂ henv hround
      cases hends with
      | normal henv₁ =>
        -- One round has run and the stack is empty again: the rest is the loop with less fuel.
        obtain ⟨e, hagain, hends⟩ := ih env₁ _ w₂ completion env' w' henv₁ hrun
        exact ⟨e, .loop_again hl.labels top done hcode hvalue hzero hperform hagain, hends⟩
      | returned =>
        obtain ⟨rfl, rfl, rfl⟩ := Effect.pure_pair_eq_some hrun
        exact ⟨_, .loop_halted top done hcode hvalue hzero hperform, .returned⟩

end Conditions

end Simulates

section Statements

variable {p : Primitives V W} {r : Routine} {c : Context} {g : Frame} {m : ScopeMap} {fuel : Nat}
  {s : ScopeId} {f : Frame} {place : L} {returns : Option Ty}

namespace Stmt

variable (ht : c.table.Nameable) (hl : r.Linked c g)
include ht hl

/-- A variable with an initializer. -/
theorem simulates_declare {type name : Name L} {value : Expr L} {x : SymbolId}
    (hlocal : c.table.localResolve s name.text = some x) (hargument : x ∉ c.arguments)
    (hvalue : value.StoredAs c.table s (c.table.typeOf x)) (hnew : value.isNewOnlyWhole = true)
    (hg : Grows c.table (value.emit c s (f.slot x (c.table.typeOf x)).2).frame g) :
    Simulates p r c g
      ((value.emit c s (f.slot x (c.table.typeOf x)).2).code ++
        [.store (Kind.ofTy (c.table.typeOf x)) (f.slot x (c.table.typeOf x)).1])
      ((Stmt.declare place type name (some value)).exec p c.table m fuel s) := by
  intro env cells w completion env' w' henv hrun
  obtain ⟨y, hy, hrun⟩ := Effect.ofOption_bind_eq_some hrun
  obtain rfl : x = y := Option.some.inj (hlocal.symm.trans hy)
  obtain ⟨v, w₁, hv, hrun⟩ := Effect.bind_eq_some hrun
  obtain ⟨rfl, rfl, rfl⟩ := Effect.pure_pair_eq_some hrun
  -- A declared variable is not a parameter, so its place is the slot that it got first.
  have hplace := Context.place_of_notMem (f := f) hargument
  have hcode := hvalue.pushes ht hl henv hnew _ w w₁ v [] hg hv
  have hstore := Context.performs_place_store (p := p) (r := r) (c := c) x f v [] cells w₁
  have hhome : c.home? g x = some (c.place x f).1 :=
    Context.home?_eq_place (hplace ▸ (Expr.grows_emit value _).trans hg)
  rw [hplace] at hstore hhome
  exact ⟨_, hcode.append hstore, .normal (henv.set hl.apart hhome v)⟩

/-- An assignment. -/
theorem simulates_assign {target : Name L} {value : Expr L} {τ : Ty}
    (hvalue : value.StoredAs c.table s τ) (hnew : value.isNewOnlyWhole = true)
    (hg : Grows c.table (c.store s target.text (value.emit c s f).frame).2 g) :
    Simulates p r c g
      ((value.emit c s f).code ++ (c.store s target.text (value.emit c s f).frame).1)
      ((Stmt.assign place target value).exec p c.table m fuel s) := by
  intro env cells w completion env' w' henv hrun
  obtain ⟨v, w₁, hv, hrun⟩ := Effect.bind_eq_some hrun
  obtain ⟨x, hx, hrun⟩ := Effect.ofOption_bind_eq_some hrun
  obtain ⟨rfl, rfl, rfl⟩ := Effect.pure_pair_eq_some hrun
  have hcode := hvalue.pushes ht hl henv hnew f w w₁ v [] ((Context.grows_store _ _).trans hg) hv
  rw [Context.store_eq hx] at hg ⊢
  exact ⟨_, hcode.append (Context.performs_place_store x _ v [] cells w₁),
    .normal (henv.set hl.apart (Context.home?_eq_place hg) v)⟩

/-- An assignment to an element of an array. -/
theorem simulates_assignAt {target : Name L} {position value : Expr L} {f₁ f₂ : Frame}
    {τ element : Ty} (htarget : c.table.varType? s target.text = some τ) (harray : τ.isArray = true)
    (helement : τ.element? = some element) (hposition : position.HasType c.table s .int)
    (hvalue : value.HasType c.table s element) (hnewp : position.isNewFree = true)
    (hnewv : value.isNewFree = true) (h₁ : f₁ = (c.load s target.text f).frame)
    (h₂ : f₂ = (position.emit c s f₁).frame) (hg : Grows c.table (value.emit c s f₂).frame g) :
    Simulates p r c g
      ((c.load s target.text f).code ++ (position.emit c s f₁).code ++ (value.emit c s f₂).code ++
        ((c.load s target.text f).type.element?.bind Element.ofTy?).toList.map .arrayStore)
      ((Stmt.assignAt place target position value).exec p c.table m fuel s) := by
  subst h₁ h₂
  obtain ⟨e, he⟩ := Ty.exists_element_of_isArray harray helement
  intro env cells w completion env' w' henv hrun
  obtain ⟨array, w₁, hbase, hrun⟩ := Effect.bind_eq_some hrun
  obtain ⟨n, w₂, hn, hrun⟩ := Effect.bind_eq_some hrun
  obtain ⟨v, w₃, hv, hrun⟩ := Effect.bind_eq_some hrun
  obtain ⟨e', hbind, hrun⟩ := Effect.ofOption_bind_eq_some hrun
  rw [htarget, Option.bind_some, helement, Option.bind_some, he] at hbind
  obtain rfl := Option.some.inj hbind
  obtain ⟨⟨⟩, w₄, hstore, hrun⟩ := Effect.bind_eq_some hrun
  obtain ⟨rfl, rfl, rfl⟩ := Effect.pure_pair_eq_some hrun
  -- Array, position and value are pushed in the order in which they are evaluated.
  have hgn := (Expr.grows_emit value _).trans hg
  have hload := Context.performs_load (p := p) henv hbase
    ((Expr.grows_emit position _).trans hgn) []
  have hindex := Expr.pushes_of_hasType ht hl henv hposition (by decide) hnewp _ w₁ w₂ n [array]
    hgn hn
  have hstored := Expr.pushes_of_hasType ht hl henv hvalue (Ty.ofTy_of_element? helement).2 hnewv _
    w₂ w₃ v [n, array] hg hv
  simp only [Context.load_type htarget f, helement, he, Option.bind_some, Option.toList_some,
    List.map_cons, List.map_nil]
  refine ⟨_, ((hload.append hindex).append hstored).append (.one ?_), .normal henv⟩
  simp [Instruction.act, hstore, Data.settle]

/-- A value that is printed. -/
theorem simulates_print {newline : Bool} {value : Expr L} {τ : Ty}
    (hvalue : value.HasType c.table s τ) (hvoid : τ ≠ .void) (hnew : value.isNewFree = true)
    (hg : Grows c.table (value.emit c s f).frame g) :
    Simulates p r c g
      ((value.emit c s f).code ++ [.print (some (value.emit c s f).type) newline])
      ((Stmt.print place newline (some value)).exec p c.table m fuel s) := by
  intro env cells w completion env' w' henv hrun
  obtain ⟨v, w₁, hv, hrun⟩ := Effect.bind_eq_some hrun
  obtain ⟨⟨⟩, w₂, hprint, hrun⟩ := Effect.bind_eq_some hrun
  obtain ⟨rfl, rfl, rfl⟩ := Effect.pure_pair_eq_some hrun
  have hcode := Expr.pushes_of_hasType ht hl henv hvalue hvoid hnew f w w₁ v [] hg hv
  rw [(Expr.hasType_iff.mp hvalue).1] at hprint
  rw [Expr.emit_type_of_isNewFree hvalue hnew]
  refine ⟨_, hcode.append (.one ?_), .normal henv⟩
  simp [Instruction.act, hprint, Data.settle]

/-- A value that is returned. -/
theorem simulates_ret {node : NodeId} {value : Expr L} {τ : Ty}
    (hvalue : value.StoredAs c.table s τ) (hnew : value.isNewOnlyWhole = true)
    (hg : Grows c.table (value.emit c s f).frame g) :
    Simulates p r c g
      ((value.emit c s f).code ++ [.ret (some (Kind.ofTy (value.emit c s f).type))])
      ((Stmt.ret place node (some value)).exec p c.table m fuel s) := by
  intro env cells w completion env' w' henv hrun
  obtain ⟨v, w₁, hv, hrun⟩ := Effect.bind_eq_some hrun
  obtain ⟨rfl, rfl, rfl⟩ := Effect.pure_pair_eq_some hrun
  have hcode := hvalue.pushes ht hl henv hnew f w w₁ v [] hg hv
  exact ⟨_, hcode.append (.ret_some _ v cells w₁), .returned⟩

/-- A call whose value nobody takes. -/
theorem simulates_call {callee : Name L} {values : List (Expr L)} {h : FunctionSymbol} {type : Ty}
    {transfer : Code} (hcall : callOf c.table s callee.text values.length = (type, transfer))
    (hcallee : c.table.callee? s callee.text = some h)
    (hvalues : List.Forall₂ (Expr.HasType c.table s) values (h.parameters.map c.table.typeOf))
    (hvoids : .void ∉ h.parameters.map c.table.typeOf) (hnew : Expr.areNewFree values = true)
    (hg : Grows c.table (Expr.emitAll c s values f).2 g) :
    Simulates p r c g
      ((Expr.emitAll c s values f).1 ++ transfer ++
        if type = .void then [] else [.pop (Kind.ofTy type)])
      ((Stmt.call place callee values).exec p c.table m fuel s) := by
  have hlength := hvalues.length_eq
  rw [List.length_map] at hlength
  simp only [callOf, hcallee, hlength, if_true, Prod.mk.injEq] at hcall
  obtain ⟨rfl, rfl⟩ := hcall
  intro env cells w completion env' w' henv hrun
  obtain ⟨arguments, w₁, hevals, hrun⟩ := Effect.bind_eq_some hrun
  obtain ⟨h', hfound, hrun⟩ := Effect.ofOption_bind_eq_some hrun
  obtain rfl := Option.some.inj (hcallee.symm.trans hfound)
  obtain ⟨⟨⟩, w₂, hinvoke, hrun⟩ := Effect.bind_eq_some hrun
  obtain ⟨rfl, rfl, rfl⟩ := Effect.pure_pair_eq_some hrun
  obtain ⟨hcount, hcode⟩ := Expr.performs_emitAll ht hl henv hvalues hvoids
    (Expr.isNewFree_of_mem hnew) hg hevals []
  have hparameters : arguments.length = (signatureOf c.table h).parameters.length := by
    simp [signatureOf, hcount, hlength]
  -- A result is popped again; a call without result leaves nothing to pop.
  have hact := Expr.act_call (p := p) (r := r) callee.text hparameters [] cells w₁
  unfold Primitives.invoke at hinvoke
  by_cases hvoid : h.returns = .void
  · rw [if_pos hvoid] at hinvoke
    rw [if_pos (show (signatureOf c.table h).returns = .void from hvoid), hinvoke] at hact
    rw [if_pos hvoid]
    exact ⟨_, (hcode.append (.one hact)).append .nil, .normal henv⟩
  · rw [if_neg hvoid] at hinvoke
    obtain ⟨v, hv, -⟩ := Effect.map_eq_some hinvoke
    rw [if_neg (show (signatureOf c.table h).returns ≠ .void from hvoid), hv] at hact
    rw [if_neg hvoid]
    exact ⟨_, (hcode.append (.one hact)).append (.one rfl), .normal henv⟩

end Stmt

mutual

/-- The code of a well-typed statement does what the statement does. -/
theorem Stmt.Emits.simulates (ht : c.table.Nameable) (hl : r.Linked c g) {s : ScopeId}
    {f f' : Frame} {code : Code} : {st : Stmt L NodeId} → st.Emits c m s f code f' →
      st.WellTyped c.table m c.arguments returns s → st.newsStored = true → Grows c.table f' g →
      Simulates p r c g code (st.exec p c.table m fuel s)
  -- A well-typed declaration is bound, so it is never passed over.
  | _, .undeclared hlocal, .declare hlocal' _ _, _, _ => by
    rw [hlocal] at hlocal'
    cases hlocal'
  | _, .declare _, _, _, _ => .nil
  | _, .declareWith hlocal, .declare hlocal' hargument hvalue, hnew, hg => by
    obtain rfl := Option.some.inj (hlocal.symm.trans hlocal')
    exact Stmt.simulates_declare ht hl hlocal hargument (hvalue _ rfl) hnew hg
  | _, .assign, .assign _ hvalue, hnew, hg => Stmt.simulates_assign ht hl hvalue hnew hg
  | _, .assignAt h₁ h₂, .assignAt htarget harray helement hposition hvalue, hnew, hg =>
    have ⟨hnewp, hnewv⟩ := Bool.and_eq_true_iff.mp hnew
    Stmt.simulates_assignAt ht hl htarget harray helement hposition hvalue hnewp hnewv h₁ h₂ hg
  | _, .ifThen h₁ hyes, .ifThen hcondition hyes', hnew, hg => by
    subst h₁
    obtain ⟨hnewc, hnewy⟩ := Bool.and_eq_true_iff.mp hnew
    exact .skip hl (fun env cells henv => Expr.pushes_of_hasType ht hl henv hcondition (by decide)
      hnewc) (hyes.grows.trans hg) (hyes.simulates ht hl hyes' hnewy hg) _
  | _, .ifElse h₁ hyes hno, .ifElse hcondition hyes' hno', hnew, hg => by
    subst h₁
    obtain ⟨hnewc, hnewb⟩ := Bool.and_eq_true_iff.mp hnew
    obtain ⟨hnewy, hnewn⟩ := Bool.and_eq_true_iff.mp hnewb
    -- The code of the first block runs in the frame that the second one has extended.
    have hgno := ((Grows.labels _ 1).trans hno.grows).trans hg
    exact .choice hl (fun env cells henv => Expr.pushes_of_hasType ht hl henv hcondition (by decide)
      hnewc) (hyes.grows.trans hgno) (hyes.simulates ht hl hyes' hnewy hgno)
      (hno.simulates ht hl hno' hnewn hg) _ _
  | _, .loop h₁ hbody, .loop hcondition hbody', hnew, hg => by
    subst h₁
    obtain ⟨hnewc, hnewb⟩ := Bool.and_eq_true_iff.mp hnew
    exact .loop hl (fun env cells henv => Expr.pushes_of_hasType ht hl henv hcondition (by decide)
      hnewc) (hbody.grows.trans hg) (hbody.simulates ht hl hbody' hnewb hg) _ _
  | _, .ret, _, _, _ => by
    intro env cells w completion env' w' henv hrun
    obtain ⟨rfl, rfl, rfl⟩ := Effect.pure_pair_eq_some hrun
    exact ⟨_, .ret_none cells w, .returned⟩
  | _, .retValue, .retValue _ _ hvalue, hnew, hg => Stmt.simulates_ret ht hl hvalue hnew hg
  | _, .newline, _, _, _ => by
    intro env cells w completion env' w' henv hrun
    obtain ⟨⟨⟩, w₁, hprint, hrun⟩ := Effect.bind_eq_some hrun
    obtain ⟨rfl, rfl, rfl⟩ := Effect.pure_pair_eq_some hrun
    exact ⟨_, .one (by simp [Instruction.act, hprint, Data.settle]), .normal henv⟩
  | _, .print, .print hvalue hvoid _, hnew, hg => Stmt.simulates_print ht hl hvalue hvoid hnew hg
  | _, .call hcall, .call hcallee hvalues hvoids _, hnew, hg =>
    Stmt.simulates_call ht hl hcall hcallee hvalues hvoids hnew hg

theorem Block.Emits.simulates (ht : c.table.Nameable) (hl : r.Linked c g) {f f' : Frame}
    {code : Code} : {b : Block L NodeId} → b.Emits c m f code f' →
      b.WellTyped c.table m c.arguments returns → b.newsStored = true → Grows c.table f' g →
      Simulates p r c g code (b.exec p c.table m fuel)
  | _, .mk hnode hsts, .mk hnode' hsts', hnew, hg => by
    obtain rfl := Option.some.inj (hnode.symm.trans hnode')
    intro env cells w completion env' w' henv hrun
    obtain ⟨s, hs, hrun⟩ := Effect.ofOption_bind_eq_some hrun
    obtain rfl := Option.some.inj (hnode.symm.trans hs)
    exact hsts.simulates ht hl hsts' hnew hg env cells w completion env' w' henv hrun

theorem Block.EmitsAll.simulates (ht : c.table.Nameable) (hl : r.Linked c g) {s : ScopeId}
    {f f' : Frame} {code : Code} : {sts : List (Stmt L NodeId)} →
      Block.EmitsAll c m s sts f code f' →
      (∀ st ∈ sts, st.WellTyped c.table m c.arguments returns s) →
      Block.newsStoredAll sts = true → Grows c.table f' g →
      Simulates p r c g code (Block.execAll p c.table m fuel s sts)
  | _, .nil, _, _, _ => .nil
  | _, .cons hst hsts, hwell, hnew, hg =>
    have ⟨hnewFirst, hnewRest⟩ := Bool.and_eq_true_iff.mp hnew
    .seq (hst.simulates ht hl (hwell _ List.mem_cons_self) hnewFirst (hsts.grows.trans hg))
      (hsts.simulates ht hl (fun st hm => hwell st (List.mem_cons_of_mem _ hm)) hnewRest hg)

end

end Statements

/-! ## Routines -/

/-- How a routine ends if its block ends in a given way. One without result returns nothing at its
end; any other runs to the end of its body, where nothing follows. -/
def Machine.Routine.Finishes (p : Primitives V W) (r : Routine) (start : State V W) (w' : W) :
    Completion V → Prop
  | .returned value => r.Steps p start (.halted value w')
  | .normal =>
    if r.signature.returns = .void then r.Steps p start (.halted none w')
    else ∃ cells, r.Steps p start (.running r.body.length ⟨[], cells, w'⟩)

/-- The routine of an outline does what its block does. -/
theorem Outline.Assembled.finishes {t : Table} {m : ScopeMap} {o : Outline L} {r : Routine}
    (h : o.Assembled t m r) (ht : t.Nameable) (hnew : o.body.newsStored = true)
    {p : Primitives V W} {fuel : Nat} {values : List V} {w w' : W} {completion : Completion V}
    (hrun : o.run p t m fuel values w = some (completion, w')) (cells : Cells V) :
    r.Finishes p (r.start values cells w) w' completion := by
  obtain ⟨code, g, hcode, hbody⟩ := h.emits
  obtain ⟨returns, -, hwell⟩ := h.wellTyped
  have hparameters := h.parameters
  rw [← h.signature] at hparameters
  -- The frame at the end of the body has all slots, and they lie above the arguments.
  have hlaid : Laid t r.signature.argumentSlots g :=
    hcode.grows.laid (h.signature ▸ laid_start t _)
  have hl : r.Linked (o.context t) g := ⟨h.nodup_labels, Context.apart_of_laid hparameters hlaid⟩
  have hsimulates : Simulates p r (o.context t) g code (o.body.exec p t m fuel) :=
    hcode.simulates ht hl hwell hnew (.refl g)
  obtain ⟨⟨completion₁, env₁⟩, w₁, hexec, hrun⟩ := Effect.bind_eq_some hrun
  obtain ⟨rfl, rfl⟩ := Effect.pure_eq_some hrun
  obtain ⟨e, hperform, hends⟩ := hsimulates _ _ w _ env₁ w₁
    (Env.Agrees.enter (c := o.context t) hparameters values cells) hexec
  -- The body is the code of the block and the ending, from position zero.
  have hwhole : Code.At r.body 0 (code ++ o.ending) := by
    rw [hbody]
    exact fun n x hx => by rwa [Nat.zero_add]
  cases hends with
  | returned => exact hperform 0 hwhole.left
  -- Only a routine without result has a return as its ending.
  | @normal _ cells' _ _ =>
    unfold Outline.ending at hbody hwhole
    rw [← h.signature] at hbody hwhole
    unfold Routine.Finishes
    split_ifs at hbody hwhole ⊢ with hvoid
    · exact hperform.append (.ret_none _ _) 0 hwhole
    · refine ⟨cells', ?_⟩
      have hsteps := hperform.append .nil 0 hwhole
      rw [← hbody, Nat.zero_add] at hsteps
      exact hsteps

/-- The routine of an item does what the item does: for every interpretation of the primitives, all
argument values and every initial state, whenever the evaluation of the block ends, the routine ends
in the same way and in the same world. -/
def Item.Simulated (t : Table) (m : ScopeMap) (i : Item L NodeId) (r : Routine) : Prop :=
  ∃ o, i.outline? t m = some o ∧ r.signature = o.signature ∧
    ∀ (V W : Type) (p : Primitives V W) (fuel : Nat) (values : List V) (cells : Cells V) (w w' : W)
      (completion : Completion V), o.run p t m fuel values w = some (completion, w') →
      r.Finishes p (r.start values cells w) w' completion

/-- Emission preserves meaning: every routine of an accepted program does what its item does. The
program has routines unless a frame overflows. -/
theorem Program.simulated_of_isAccepted {p : Program Location} {a : Analysis} (hp : p.Distinct)
    (ha : p.analyze = .ok a) (haccepted : a.isAccepted = true) (hnew : p.newsStored = true)
    (name : String) :
    a.Assembles p name fun u =>
      List.Forall₂ (Item.Simulated a.table a.scopes) p.items u.functions := by
  refine Program.assembles hp ha haccepted name fun u hu => ?_
  refine Program.forall₂_routine_of_codeUnit hp ha hnew hu ?_
  intro i o r ht ho _ hr hstored
  refine ⟨o, ho, hr.signature, ?_⟩
  intro V W q fuel values cells w w' completion hrun
  exact hr.finishes ht hstored hrun cells

/-- Integers as values and the printed ones as the world. Other primitives are undefined. -/
def Primitives.integers : Primitives Int (List Int) where
  constant
    | .int n => n
    | .char c => c.toNat
    | .float _ | .str _ => 0
  int? := some
  arithmetic _ operation l r := pure <|
    match operation with
    | .add => l + r
    | .sub => l - r
    | .mul => l * r
    | .div => l / r
  negate _ v := pure (-v)
  compare _ condition l r := pure <|
    match condition with
    | .less => l < r
    | .greater => l > r
    | .equal => l == r
    | .notEqual => l != r
  -- Arrays, strings and calls do not occur in the program that is run here.
  newArray _ _ := failure
  arrayLoad _ _ _ := failure
  arrayStore _ _ _ _ := failure
  arrayLength _ := failure
  stringLength _ := failure
  charAt _ _ := failure
  print value _ := modify (value.toList.map Prod.snd ++ ·)
  call _ _ := failure
  perform _ _ := failure

/-- A function that counts its parameter down, and an empty entry point:
`int sum(int n) { int t = 0; while (n > 0) { t = t + n; n = n - 1; } print(t); return t; }` -/
def Program.sum : Program Location :=
  let written (text : String) : Name (Option Location) := ⟨text, none⟩
  let read (text : String) : Expr (Option Location) := .read none (written text)
  let int (value : Int) : Expr (Option Location) := .int none value
  let body : Draft Block := .mk none
    [.assign none (written "t") (.binary none .add (read "t") (read "n")),
      .assign none (written "n") (.binary none .sub (read "n") (int 1))]
  Program.ofDraft
    [.function ⟨none, none, written "int", written "sum", [⟨written "int", written "n"⟩],
      some (.mk none
        [.declare none (written "int") (written "t") (some (int 0)),
          .loop none (.binary none .greater (read "n") (int 0)) body,
          .print none true (some (read "t")),
          .ret none none (some (read "t"))])⟩,
      .main ⟨none, none, .mk none []⟩]

/-- The routine of `sum` prints and returns `6` for `3`, because the evaluation does. -/
theorem Program.simulated_of_isAccepted_sum :
    Program.sum.Distinct ∧ Program.sum.newsStored = true ∧
      ∃ a u r, Program.sum.analyze = .ok a ∧ a.isAccepted = true ∧
        a.codeUnit Program.sum "Unit" = .ok u ∧ u.functions.head? = some r ∧
        ∀ cells, r.Steps .integers (r.start [3] cells []) (.halted (some 6) [6]) := by
  have hdistinct : Program.sum.Distinct := Program.distinct_ofDraft _ (by decide)
  obtain ⟨a, ha, haccepted, hcheck⟩ := Program.exists_accepted (p := Program.sum)
    (fun a => ((Program.sum.items.head?.bind (·.outline? a.table a.scopes)).bind fun o =>
      o.run .integers a.table a.scopes 4 [3] []) = some (.returned (some 6), [6]))
    (by decide +kernel)
  obtain ⟨u, hu, hall⟩ :=
    (Program.simulated_of_isAccepted hdistinct ha haccepted rfl "Unit").fits (by decide)
  obtain ⟨r, rs, ⟨o, ho, -, hfinishes⟩, -, hfunctions⟩ := List.forall₂_cons_left_iff.mp hall
  -- The source run is evaluated on the outline, and the routine follows it.
  have hrun : o.run .integers a.table a.scopes 4 [3] [] = some (.returned (some 6), [6]) := by
    obtain ⟨o', ho', hrun⟩ := Option.bind_eq_some_iff.mp (of_decide_eq_true hcheck)
    obtain rfl := Option.some.inj (ho.symm.trans ho')
    exact hrun
  exact ⟨hdistinct, rfl, a, u, r, ha, haccepted, hu, by rw [hfunctions]; rfl,
    fun cells => hfinishes Int (List Int) .integers 4 [3] cells [] [6] _ hrun⟩

end Primer
