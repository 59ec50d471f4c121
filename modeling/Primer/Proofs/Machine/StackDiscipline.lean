import Primer.Proofs.Machine.Capacity
import Primer.Proofs.Machine.Shape
import Primer.Proofs.Machine.Typed

/-!
# Stack discipline

The code of a well-typed expression leaves one value, of the kind of its type, on whatever stack it
finds; the code of a well-typed statement starts and ends with an empty stack. So the code of every
function of an accepted program is shaped (`Program.exists_shape_of_isAccepted`).
-/

namespace Primer

open Machine Code

variable {L : Type}

/-! ## Control flow -/

namespace Machine.Code.Flows

variable {result : Option Kind} {condition yes no : Code} {stops stops' : Set Nat}

/-- The stack is empty where code starts on an empty stack. -/
theorem restart {σ : List Kind} {code : Code} {exits entries : Ports}
    (h : Flows result [] code σ exits entries stops) :
    Flows result [] code σ exits entries (insert 0 stops) := by
  obtain ⟨ann, hcode, hflow, hjumps, hentries, hstops⟩ := h
  refine ⟨ann, hcode, hflow, hjumps, hentries, ?_⟩
  rintro n (rfl | hn)
  · exact hflow.shape?_zero
  · exact hstops n hn

/-- The two jumps of a comparison keep whatever lies below its operands. -/
theorem compare (kind : Kind) (test : Condition) (holds done : Label) (rest : List Kind) :
    Flows result (kind :: kind :: rest) (Machine.compare kind test holds done) (.int :: rest)
      [] [] ∅ := by
  -- Behind the jump the stack is what it is at the label, and not what the jump leaves behind.
  have hfails : Flows result _ [.push (.int 0), .jump done] rest _ _ _ :=
    (plain result (.push (.int 0)) rfl rfl rest).append (jump result done)
  have hholds : Flows result rest [.label holds, .push (.int 1), .label done] _ _ _ _ :=
    (label result holds).append
      ((plain result (.push (.int 1)) rfl rfl rest).append (label result done))
  have hbranch := branch result (.ifCompare kind test holds) rfl rfl rest
  refine ((hbranch.append hfails).append hholds).close ?_ (Set.empty_subset _)
  simp [Instruction.results, Constant.kind]

/-- Code that is skipped if a condition fails. -/
theorem skip (l : Label) (hcondition : Flows result [] condition [.int] [] [] ∅)
    (hyes : Flows result [] yes [] [] [] stops) :
    Flows result [] (condition ++ [.jumpIfFalse l] ++ yes ++ [.label l]) [] [] []
      ((List.length (condition ++ [.jumpIfFalse l]) + ·) '' stops) := by
  have hbranch := hcondition.append (branch result (.jumpIfFalse l) rfl rfl [])
  refine ((hbranch.append hyes).append (label result l)).close ?_ ?_
  · simp [Instruction.results]
  · simp

/-- Two pieces of code of which a condition selects one. -/
theorem choice (skip done : Label) (hcondition : Flows result [] condition [.int] [] [] ∅)
    (hyes : Flows result [] yes [] [] [] stops) (hno : Flows result [] no [] [] [] stops') :
    Flows result [] (condition ++ [.jumpIfFalse skip] ++ yes ++ [.jump done, .label skip] ++ no ++
      [.label done]) [] [] []
      ((List.length (condition ++ [.jumpIfFalse skip]) + ·) '' stops ∪
        (List.length (condition ++ [.jumpIfFalse skip] ++ yes ++ [.jump done, .label skip]) + ·) ''
          stops') := by
  have hbranch := hcondition.append (branch result (.jumpIfFalse skip) rfl rfl [])
  -- Both labels are reached with an empty stack, by the jump and by falling through.
  have hdone : Flows result [] [.jump done, .label skip] [] _ _ _ :=
    (jump result done).append (label result skip)
  have harms := ((hbranch.append hyes).append hdone).append hno
  refine (harms.append (label result done)).close ?_ ?_
  · simp [Instruction.results]
  · simp

/-- Code that is repeated as long as a condition holds. -/
theorem loop (top done : Label) (hcondition : Flows result [] condition [.int] [] [] ∅)
    (hbody : Flows result [] yes [] [] [] stops) :
    Flows result [] ([.label top] ++ condition ++ [.jumpIfFalse done] ++ yes ++
      [.jump top, .label done]) [] [] []
      ((List.length ([.label top] ++ condition ++ [.jumpIfFalse done]) + ·) '' stops) := by
  have hbranch := ((label result top).append hcondition).append
    (branch result (.jumpIfFalse done) rfl rfl [])
  -- The jump back finds its label in front of the condition, in the first piece.
  have hback : Flows result [] [.jump top, .label done] [] _ _ _ :=
    (jump result top).append (label result done)
  refine ((hbranch.append hbody).append hback).close ?_ ?_
  · simp [Instruction.results]
  · simp

end Machine.Code.Flows

/-! ## Expressions -/

namespace Machine

variable {result : Option Kind} {c : Context} {s : ScopeId} {name : String} {τ : Ty}

theorem Context.flows_load (result : Option Kind) (h : c.table.varType? s name = some τ) (f : Frame)
    (rest : List Kind) :
    Flows result rest (c.load s name f).code (Kind.ofTy τ :: rest) [] [] ∅ := by
  obtain ⟨x, n, hx, hsymbol⟩ := Table.varType?_eq_some_iff.mp h
  rw [load_eq hx, Table.typeOf_var hsymbol]
  cases (c.place x f).1 with
  | argument n => exact Flows.plain result (.loadArgument (Kind.ofTy τ) n) rfl rfl rest
  | slot n => exact Flows.plain result (.load (Kind.ofTy τ) n) rfl rfl rest

theorem Context.flows_store (h : c.table.varType? s name = some τ) (f : Frame) (rest : List Kind) :
    Flows result (Kind.ofTy τ :: rest) (c.store s name f).1 rest [] [] ∅ := by
  obtain ⟨x, n, hx, hsymbol⟩ := Table.varType?_eq_some_iff.mp h
  rw [store_eq hx, Table.typeOf_var hsymbol]
  cases (c.place x f).1 with
  | argument n => exact Flows.plain result (.storeArgument (Kind.ofTy τ) n) rfl rfl rest
  | slot n => exact Flows.plain result (.store (Kind.ofTy τ) n) rfl rfl rest

theorem Element.kind_of_ofTy? {e : Element} (h : Element.ofTy? τ = some e) :
    e.kind = Kind.ofTy τ := by
  cases τ <;> simp_all [Element.ofTy?] <;> subst h <;> rfl

theorem flows_elementOf {base element : Ty} (hbase : base ∈ Ty.nameable)
    (h : base.element? = some element) (rest : List Kind) :
    Flows result (.int :: .ref :: rest) (elementOf base).2 (Kind.ofTy element :: rest) [] [] ∅ := by
  rcases elementOf_cases hbase h with ⟨-, rfl, hcode⟩ | ⟨-, e, he, hcode⟩
  · rw [hcode]
    exact Flows.plain result .charAt rfl rfl rest
  · rw [hcode, ← Element.kind_of_ofTy? he]
    exact Flows.plain result (.arrayLoad e) rfl rfl rest

theorem result_signatureOf (t : Table) (g : FunctionSymbol) :
    (signatureOf t g).result = if g.returns = .void then none else some (Kind.ofTy g.returns) :=
  rfl

end Machine

namespace Expr

variable {c : Context} {s : ScopeId}

/-- An expression leaves a value of its type, in every frame and on top of every stack. -/
def Leaves (c : Context) (s : ScopeId) (e : Expr L) (τ : Ty) : Prop :=
  ∀ result f rest, Flows result rest (e.emit c s f).code (Kind.ofTy τ :: rest) [] [] ∅

private theorem flows_emitAll_of {es : List (Expr L)} {types : List Ty}
    (h : List.Forall₂ (Leaves c s) es types) (result : Option Kind) (f : Frame) (rest : List Kind) :
    Flows result rest (emitAll c s es f).1 ((types.map Kind.ofTy).reverse ++ rest) [] [] ∅ := by
  induction h generalizing f rest with
  | nil => exact .nil
  | @cons e τ es types he _ ih =>
    -- The other arguments find the first one on the stack and leave it there.
    have hrest := ih (e.emit c s f).frame (Kind.ofTy τ :: rest)
    rw [List.map_cons, List.reverse_cons, List.append_assoc]
    exact (he result f rest).seq hrest

/-- A call takes its arguments and leaves its result. -/
private theorem flows_call_of {es : List (Expr L)} (callee : String) {g : FunctionSymbol}
    (h : List.Forall₂ (Leaves c s) es (g.parameters.map c.table.typeOf)) (result : Option Kind)
    (f : Frame) (rest : List Kind) :
    Flows result rest ((emitAll c s es f).1 ++ [.call callee (signatureOf c.table g)])
      ((signatureOf c.table g).result.toList ++ rest) [] [] ∅ :=
  (flows_emitAll_of h result f rest).seq
    (Flows.plain result (.call callee (signatureOf c.table g)) rfl rfl rest)

/-- Each element is stored into a copy of the array. -/
private theorem flows_emitElements_of {es : List (Expr L)} {τ : Ty} {element : Element}
    (helement : Element.ofTy? τ = some element) (h : ∀ e ∈ es, e.Leaves c s τ)
    (result : Option Kind) (n : Nat) (f : Frame) (rest : List Kind) :
    Flows result (.ref :: rest) (emitElements c s element n es f).1 (.ref :: rest) [] [] ∅ := by
  induction es generalizing n f with
  | nil => exact .nil
  | cons e es ih =>
    -- The store takes the copy, so the array itself is still there for the next element.
    have hcopy := (Flows.plain result .dup rfl rfl rest).seq
      (Flows.plain result (.push (.int n)) rfl rfl (.ref :: .ref :: rest))
    have hvalue := hcopy.seq (h e List.mem_cons_self result f (.int :: .ref :: .ref :: rest))
    rw [← Element.kind_of_ofTy? helement] at hvalue
    have hstore := hvalue.seq (Flows.plain result (.arrayStore element) rfl rfl (.ref :: rest))
    exact hstore.seq (ih (fun e he => h e (List.mem_cons_of_mem _ he)) (n + 1) _)

/-- A well-typed expression leaves a value of its type. -/
theorem leaves_of_hasType (ht : c.table.Nameable) {e : Expr L} {τ : Ty}
    (h : e.HasType c.table s τ) (hvoid : τ ≠ .void) (hnew : e.isNewFree = true) :
    e.Leaves c s τ := by
  intro result f rest
  -- By induction on the expression. The stack below is arbitrary, because an operand is computed
  -- while those before it are waiting.
  induction e using Expr.inductionOn generalizing τ result f rest with
  | int p value => cases h; exact Flows.plain result (.push (.int value)) rfl rfl rest
  | float p bits => cases h; exact Flows.plain result (.push (.float bits)) rfl rfl rest
  | bool p value =>
    cases h
    exact Flows.plain result (.push (.int (if value then 1 else 0))) rfl rfl rest
  | char p value => cases h; exact Flows.plain result (.push (.char value)) rfl rfl rest
  | str p value => cases h; exact Flows.plain result (.push (.str value)) rfl rfl rest
  | read p name => cases h with | read hvar _ => exact Context.flows_load result hvar f rest
  | call p callee arguments ih =>
    cases h with
    | @call _ _ _ g hcallee harguments hvoids _ =>
      have hlength : g.parameters.length = arguments.length := by
        simpa using harguments.length_eq.symm
      have hall : List.Forall₂ (Leaves c s) arguments (g.parameters.map c.table.typeOf) :=
        forall₂_of_hasType harguments hvoids fun e he τ hτ hne =>
          ih e he hτ hne (isNewFree_of_mem hnew e he)
      have hcall := flows_call_of callee.text hall result f rest
      rw [result_signatureOf, if_neg hvoid] at hcall
      rw [emit_call hcallee hlength]
      exact hcall
  | index p base position ih =>
    cases h with
    | @index _ _ _ type element hvar helement hposition =>
      have hbase := Context.flows_load result hvar f rest
      -- What has elements is an array or a string, both of which are references.
      rw [(Ty.ofTy_of_element? helement).1] at hbase
      have hoperands := hbase.seq
        (ih hposition (by decide) hnew result (c.load s base.text f).frame _)
      simp only [emit, Context.load_type hvar f]
      exact hoperands.seq (flows_elementOf (ht.varType hvar) helement rest)
  | length p operand ih =>
    cases h with
    | @length _ _ τ hoperand hτ =>
      obtain ⟨hkind, hne⟩ := Ty.ofTy_of_hasLength hτ
      have hcode := ih hoperand hne hnew result f rest
      rw [hkind] at hcode
      simp only [emit]
      split_ifs with hstring
      · exact hcode.seq (Flows.plain result .stringLength rfl rfl rest)
      · exact hcode.seq (Flows.plain result .arrayLength rfl rfl rest)
  | paren p operand ih =>
    cases h with
    | paren hoperand => exact ih hoperand hvoid hnew result f rest
  | negate p operand ih =>
    cases h with
    | negate hoperand hτ =>
      have htype := emit_type_of_isNewFree hoperand hnew f
      simp only [emit, htype]
      exact (ih hoperand hvoid hnew result f rest).seq
        (Flows.plain result (.negate (Kind.ofTy τ)) rfl rfl rest)
  | binary p op lhs rhs ihl ihr =>
    obtain ⟨hnewl, hnewr⟩ := Bool.and_eq_true_iff.mp hnew
    cases h with
    | arithmetic hop hlhs hrhs hτ =>
      obtain ⟨operation, hoperation⟩ := operation_of_arithmetic hop
      -- The type of the left operand decides about the kind, and the right one has the same type.
      have hoperands := (ihl hlhs hvoid hnewl result f rest).seq
        (ihr hrhs hvoid hnewr result (lhs.emit c s f).frame _)
      simp only [emit, operator, hoperation, emit_type_of_isNewFree hlhs hnewl f]
      exact hoperands.seq (Flows.plain result (.arithmetic (Kind.ofTy τ) operation) rfl rfl rest)
    | @comparison _ _ _ _ τ hop hlhs hrhs hτ =>
      obtain ⟨condition, hcondition⟩ := operation_of_comparison hop
      have hne := Ty.ne_void_of_comparable hτ
      have hoperands := (ihl hlhs hne hnewl result f rest).seq
        (ihr hrhs hne hnewr result (lhs.emit c s f).frame _)
      simp only [emit, operator, hcondition, emit_type_of_isNewFree hlhs hnewl f]
      exact hoperands.seq (Flows.compare (Kind.ofTy τ) condition _ _ rest)
  | array p elements ih =>
    cases h with
    | @array _ _ τ σ hne helements hτ =>
      obtain ⟨element, helement⟩ := Ty.exists_element_of_arrayOf? hτ
      obtain ⟨hkind, hne'⟩ := Ty.ofTy_of_arrayOf? hτ
      rw [emit_array hne helements helement hτ, hkind]
      have hfresh := (Flows.plain result (.push (.int elements.length)) rfl rfl rest).seq
        (Flows.plain result (.newArray element) rfl rfl rest)
      refine hfresh.seq (flows_emitElements_of helement ?_ result 0 f rest)
      intro e he result f rest
      exact ih e he (helements e he) hne' (isNewFree_of_mem hnew e he) result f rest
  | newArray => cases hnew

/-- A stored value has the declared type, also for the emitter. -/
theorem StoredAs.leaves (ht : c.table.Nameable) {e : Expr L} {declared : Ty}
    (h : e.StoredAs c.table s declared) (hnew : e.isNewOnlyWhole = true) :
    e.Leaves c s declared ∧ ∀ f, (e.emit c s f).type = declared := by
  rcases h.cases hnew with ⟨hfree, htyped, hvoid⟩ | ⟨p, n, size, τ, rfl, hfree, hsize, hnamed, hτ⟩
  · exact ⟨leaves_of_hasType ht htyped hvoid hfree, emit_type_of_isNewFree htyped hfree⟩
  -- A fresh array that is stored has the declared type for the emitter, not for the checker.
  · obtain ⟨element, helement⟩ := Ty.exists_element_of_arrayOf? hτ
    refine ⟨fun result f rest => ?_, fun f => by rw [emit_newArray hnamed helement hτ]⟩
    rw [emit_newArray hnamed helement hτ, (Ty.ofTy_of_arrayOf? hτ).1]
    exact (leaves_of_hasType ht hsize (by decide) hfree result f rest).seq
      (Flows.plain result (.newArray element) rfl rfl rest)

/-- The code of a call whose arguments are well typed. -/
theorem flows_call (ht : c.table.Nameable) (callee : String) {arguments : List (Expr L)}
    {g : FunctionSymbol}
    (harguments : List.Forall₂ (HasType c.table s) arguments (g.parameters.map c.table.typeOf))
    (hvoids : .void ∉ g.parameters.map c.table.typeOf)
    (hnew : ∀ e ∈ arguments, e.isNewFree = true)
    (result : Option Kind) (f : Frame) (rest : List Kind) :
    Flows result rest ((emitAll c s arguments f).1 ++ [.call callee (signatureOf c.table g)])
      ((signatureOf c.table g).result.toList ++ rest) [] [] ∅ :=
  flows_call_of callee (forall₂_of_hasType harguments hvoids fun e he _ hτ hne =>
    leaves_of_hasType ht hτ hne (hnew e he)) result f rest

end Expr

/-! ## Statements -/

mutual

/-- The positions in the code of a statement where a statement inside it starts or ends. -/
inductive Stmt.Boundary (c : Context) (m : ScopeMap) :
    ScopeId → Stmt L NodeId → Frame → Nat → Prop where
  | ifThen {s p condition yes f n e} (he : e = condition.emit c s (f.skipLabels 1))
      (h : Block.Boundary c m yes e.frame n) :
      Stmt.Boundary c m s (.ifThen p condition yes) f
        (List.length (e.code ++ [.jumpIfFalse f.label]) + n)
  | ifElseYes {s p condition yes no f n e} (he : e = condition.emit c s (f.skipLabels 1))
      (h : Block.Boundary c m yes e.frame n) :
      Stmt.Boundary c m s (.ifElse p condition yes no) f
        (List.length (e.code ++ [.jumpIfFalse f.label]) + n)
  | ifElseNo {s p condition yes no f n e code f'} (he : e = condition.emit c s (f.skipLabels 1))
      (hyes : yes.emit c m e.frame = .ok (code, f'))
      (h : Block.Boundary c m no (f'.skipLabels 1) n) :
      Stmt.Boundary c m s (.ifElse p condition yes no) f
        (List.length (e.code ++ [.jumpIfFalse f.label] ++ code ++
          [.jump f'.label, .label f.label]) + n)
  | loop {s p condition body f n e} (he : e = condition.emit c s (f.skipLabels 2))
      (h : Block.Boundary c m body e.frame n) :
      Stmt.Boundary c m s (.loop p condition body) f
        (List.length ([.label f.label] ++ e.code ++ [.jumpIfFalse (f.skipLabels 1).label]) + n)

/-- The positions in the code of a block where a statement starts or ends. -/
inductive Block.Boundary (c : Context) (m : ScopeMap) :
    Block L NodeId → Frame → Nat → Prop where
  | mk {node s sts f n} (hnode : m.get? node = some s) (h : Block.BoundaryAll c m s sts f n) :
      Block.Boundary c m (.mk node sts) f n

/-- The positions in the code of statements where a statement starts or ends. -/
inductive Block.BoundaryAll (c : Context) (m : ScopeMap) :
    ScopeId → List (Stmt L NodeId) → Frame → Nat → Prop where
  | start {s sts f} : Block.BoundaryAll c m s sts f 0
  | inside {s st sts f n} (h : Stmt.Boundary c m s st f n) :
      Block.BoundaryAll c m s (st :: sts) f n
  | behind {s st sts f n code f'} (hst : st.emit c m s f = .ok (code, f'))
      (h : Block.BoundaryAll c m s sts f' n) :
      Block.BoundaryAll c m s (st :: sts) f (code.length + n)

end

section Statements

variable {c : Context} {m : ScopeMap} {arguments : List SymbolId} {returns : Option Ty}
  {result : Option Kind}

/-- A function that may return a value of a type has a result of that kind. -/
def Machine.ResultOf (returns : Option Ty) (result : Option Kind) : Prop :=
  ∀ τ, returns = some τ → result = if τ = .void then none else some (Kind.ofTy τ)

mutual

/-- The code of a well-typed statement starts and ends with an empty stack, and so does every
statement inside it. -/
theorem Stmt.Emits.flows (ht : c.table.Nameable) (hresult : ResultOf returns result) {s : ScopeId}
    {f f' : Frame} {code : Code} : {st : Stmt L NodeId} → st.Emits c m s f code f' →
      st.WellTyped c.table m arguments returns s → st.newsStored = true →
      Flows result [] code [] [] [] {n | st.Boundary c m s f n}
  -- A well-typed declaration is bound, so it is never passed over.
  | _, .undeclared hlocal, .declare hlocal' _ _, _ => by
    rw [hlocal] at hlocal'
    cases hlocal'
  | _, .declare _, _, _ => Flows.nil.close (List.nil_subset _) nofun
  | _, .declareWith hlocal, .declare hlocal' _ hvalue, hnew => by
    obtain rfl := Option.some.inj (hlocal.symm.trans hlocal')
    have hcode := ((hvalue _ rfl).leaves ht hnew).1
    exact ((hcode result _ []).seq (Flows.plain result (.store _ _) rfl rfl [])).close
      (List.nil_subset _) nofun
  | _, .assign, .assign htarget hvalue, hnew => by
    have hcode := (hvalue.leaves ht hnew).1
    exact ((hcode result f []).seq (Context.flows_store htarget _ [])).close
      (List.nil_subset _) nofun
  | _, .assignAt h₁ h₂, .assignAt htarget harray helement hposition hvalue, hnew => by
    obtain ⟨hnewp, hnewv⟩ := Bool.and_eq_true_iff.mp hnew
    obtain ⟨e, he⟩ := Ty.exists_element_of_isArray harray helement
    -- Below the value lie the position and the array, in the order in which they were pushed.
    obtain ⟨hkind, hvoid⟩ := Ty.ofTy_of_element? helement
    have hbase := Context.flows_load result htarget f []
    have hindex := Expr.leaves_of_hasType ht hposition (by decide) hnewp
    have hstored := Expr.leaves_of_hasType ht hvalue hvoid hnewv
    unfold Expr.Leaves at hstored
    rw [hkind] at hbase
    rw [← Element.kind_of_ofTy? he] at hstored
    simp only [Context.load_type htarget f, helement, he, Option.bind_some, Option.toList_some,
      List.map_cons, List.map_nil]
    exact (((hbase.seq (hindex result _ [.ref])).seq (hstored result _ [.int, .ref])).seq
      (Flows.plain result (.arrayStore e) rfl rfl [])).close (List.nil_subset _) nofun
  | _, .ifThen h₁ hyes, .ifThen hcondition hyes', hnew => by
    obtain ⟨hnewc, hnewy⟩ := Bool.and_eq_true_iff.mp hnew
    have hcode := Expr.leaves_of_hasType ht hcondition (by decide) hnewc result (f.skipLabels 1) []
    refine (Flows.skip f.label hcode (hyes.flows ht hresult hyes' hnewy)).close
      (List.nil_subset _) ?_
    subst h₁
    intro n hn
    cases hn with
    | ifThen he h =>
      subst he
      exact ⟨_, h, rfl⟩
  | _, .ifElse h₁ hyes hno, .ifElse hcondition hyes' hno', hnew => by
    obtain ⟨hnewc, hnewb⟩ := Bool.and_eq_true_iff.mp hnew
    obtain ⟨hnewy, hnewn⟩ := Bool.and_eq_true_iff.mp hnewb
    have hcode := Expr.leaves_of_hasType ht hcondition (by decide) hnewc result (f.skipLabels 1) []
    refine (Flows.choice f.label _ hcode (hyes.flows ht hresult hyes' hnewy)
      (hno.flows ht hresult hno' hnewn)).close (List.nil_subset _) ?_
    subst h₁
    intro n hn
    cases hn with
    | ifElseYes he h =>
      subst he
      exact .inl ⟨_, h, rfl⟩
    -- Where the second block starts depends on the code of the first, which is the emitted one.
    | ifElseNo he hcode' h =>
      subst he
      obtain ⟨rfl, rfl⟩ := Prod.mk.inj (Except.ok.inj (hyes.emit_eq.symm.trans hcode'))
      exact .inr ⟨_, h, rfl⟩
  | _, .loop h₁ hbody, .loop hcondition hbody', hnew => by
    obtain ⟨hnewc, hnewb⟩ := Bool.and_eq_true_iff.mp hnew
    have hcode := Expr.leaves_of_hasType ht hcondition (by decide) hnewc result (f.skipLabels 2) []
    refine (Flows.loop f.label _ hcode (hbody.flows ht hresult hbody' hnewb)).close
      (List.nil_subset _) ?_
    subst h₁
    intro n hn
    cases hn with
    | loop he h =>
      subst he
      exact ⟨_, h, rfl⟩
  | _, .ret, .ret hreturns, _ => by
    -- Only a function without result may return nothing.
    obtain rfl : result = none := hresult .void hreturns
    exact (Flows.ret none).close (List.nil_subset _) nofun
  | _, .retValue, .retValue hreturns hvoid hvalue, hnew => by
    obtain ⟨hcode, htype⟩ := hvalue.leaves ht hnew
    obtain rfl := (hresult _ hreturns).trans (if_neg hvoid)
    rw [htype]
    exact ((hcode _ f []).seq (Flows.ret _)).close (List.nil_subset _) nofun
  | _, .newline, _, _ =>
    (Flows.plain result (.print none _) rfl rfl []).close (List.nil_subset _) nofun
  | _, .print, .print hvalue hvoid _, hnew => by
    have hcode := Expr.leaves_of_hasType ht hvalue hvoid hnew
    rw [Expr.emit_type_of_isNewFree hvalue hnew]
    exact ((hcode result f []).seq (Flows.plain result (.print (some _) _) rfl rfl [])).close
      (List.nil_subset _) nofun
  | .call _ callee values, .call hcall, .call hcallee hvalues hvoids _, hnew => by
    have hcode := Expr.flows_call ht callee.text hvalues hvoids
      (Expr.isNewFree_of_mem hnew) result f []
    have hlength := hvalues.length_eq
    rw [List.length_map] at hlength
    simp only [callOf, hcallee, hlength, if_true, Prod.mk.injEq] at hcall
    obtain ⟨rfl, rfl⟩ := hcall
    -- A result that nobody takes is popped.
    split_ifs with hvoid
    · rw [result_signatureOf, if_pos hvoid] at hcode
      exact (hcode.seq .nil).close (List.nil_subset _) nofun
    · rw [result_signatureOf, if_neg hvoid] at hcode
      exact (hcode.seq (Flows.plain result (.pop _) rfl rfl [])).close (List.nil_subset _) nofun

theorem Block.Emits.flows (ht : c.table.Nameable) (hresult : ResultOf returns result)
    {f f' : Frame} {code : Code} : {b : Block L NodeId} → b.Emits c m f code f' →
      b.WellTyped c.table m arguments returns → b.newsStored = true →
      Flows result [] code [] [] [] {n | b.Boundary c m f n}
  | _, .mk hnode hsts, .mk hnode' hsts', hnew => by
    obtain rfl := Option.some.inj (hnode.symm.trans hnode')
    refine (hsts.flows ht hresult hsts' hnew).close (List.nil_subset _) ?_
    intro n hn
    cases hn with
    | mk hnode'' h =>
      obtain rfl := Option.some.inj (hnode.symm.trans hnode'')
      exact h

theorem Block.EmitsAll.flows (ht : c.table.Nameable) (hresult : ResultOf returns result)
    {s : ScopeId} {f f' : Frame} {code : Code} : {sts : List (Stmt L NodeId)} →
      Block.EmitsAll c m s sts f code f' →
      (∀ st ∈ sts, st.WellTyped c.table m arguments returns s) →
      Block.newsStoredAll sts = true →
      Flows result [] code [] [] [] {n | Block.BoundaryAll c m s sts f n}
  | _, .nil, _, _ => by
    -- The only boundary is the end of the statements before.
    refine Flows.nil.restart.close (List.nil_subset _) ?_
    intro n hn
    cases hn with | start => exact .inl rfl
  | _, .cons hst hsts, hwell, hnew => by
    obtain ⟨hnewFirst, hnewRest⟩ := Bool.and_eq_true_iff.mp hnew
    have hfirst := hst.flows ht hresult (hwell _ List.mem_cons_self) hnewFirst
    have hrest := hsts.flows ht hresult (fun st hm => hwell st (List.mem_cons_of_mem _ hm)) hnewRest
    -- The boundaries are the start, those inside the first statement and those of the rest.
    refine (hfirst.append hrest).restart.close (List.nil_subset _) ?_
    intro n hn
    cases hn with
    | start => exact .inl rfl
    | inside h => exact .inr (.inl h)
    | behind hcode h =>
      obtain ⟨rfl, rfl⟩ := Prod.mk.inj (Except.ok.inj (hst.emit_eq.symm.trans hcode))
      exact .inr (.inr ⟨_, h, rfl⟩)

end

end Statements

/-! ## Routines -/

/-- The positions in the routine of an item where a statement starts or ends. -/
def Item.Boundary (t : Table) (m : ScopeMap) (i : Item L NodeId) (n : Nat) : Prop :=
  ∃ o, i.outline? t m = some o ∧ o.body.Boundary (o.context t) m o.frame n

/-- The routine of an outline is shaped. -/
theorem Outline.Assembled.exists_shape {t : Table} {m : ScopeMap} {o : Outline L} {r : Routine}
    (h : o.Assembled t m r) (ht : t.Nameable) (hnew : o.body.newsStored = true) :
    ∃ shape, Shaped r.signature.result r.body shape ∧ shape 0 = [] ∧ shape r.body.length = [] ∧
      ∀ n, o.body.Boundary (o.context t) m o.frame n → shape n = [] := by
  obtain ⟨code, f, hcode, hbody⟩ := h.emits
  obtain ⟨returns, hreturns, hwell⟩ := h.wellTyped
  have hresult : ResultOf returns o.signature.result := by
    intro τ hτ
    rw [hreturns τ hτ]
    rfl
  have hblock := Block.Emits.flows (c := o.context t) ht hresult hcode hwell hnew
  -- Behind the block the stack is empty, which is what the return at the end has to find.
  have hending : Flows o.signature.result [] o.ending [] [] [] ∅ := by
    unfold Outline.ending Signature.result
    split_ifs with hvoid
    · exact Flows.ret none
    · exact Flows.nil
  obtain ⟨shape, hshaped, hstart, hend, hstops⟩ :=
    (hblock.append hending).shaped (hbody ▸ h.nodup_labels)
  rw [h.signature, hbody]
  exact ⟨shape, hshaped, hstart, hend, fun n hn => hstops n (.inl hn)⟩

/-- The routine of an item keeps stack discipline. Every position has a shape that fits its
instruction and leads to the shapes of its successors, jumps included. The stack is empty at the
start, at the end and at every statement boundary, and a return sees exactly the result that the
item declares. -/
structure Item.Disciplined (t : Table) (m : ScopeMap) (i : Item L NodeId) (r : Routine)
    (shape : Nat → List Kind) : Prop where
  declared : i.declaredReturn? = some r.signature.returns
  shaped : Shaped r.signature.result r.body shape
  start : shape 0 = []
  finish : shape r.body.length = []
  boundary : ∀ n, i.Boundary t m n → shape n = []
  returns : ∀ (n : Nat) kind, r.body[n]? = some (.ret kind) →
    kind = r.signature.result ∧ shape n = kind.toList

/-- Every routine of an accepted program keeps stack discipline. There are such routines unless a
frame overflows. -/
theorem Program.exists_shape_of_isAccepted {p : Program Location} {a : Analysis} (hp : p.Distinct)
    (ha : p.analyze = .ok a) (haccepted : a.isAccepted = true) (hnew : p.newsStored = true)
    (name : String) :
    a.Assembles p name fun u =>
      List.Forall₂ (fun i r => ∃ shape, i.Disciplined a.table a.scopes r shape)
        p.items u.functions := by
  refine Program.assembles hp ha haccepted name fun u hu => ?_
  refine Program.forall₂_routine_of_codeUnit hp ha hnew hu ?_
  intro i o r ht ho hreturn hr hstored
  -- The shape is built for the code of the outline and carries over to the routine.
  obtain ⟨shape, hshaped, hstart, hend, hstops⟩ := hr.exists_shape ht hstored
  refine ⟨shape, hr.signature ▸ hreturn, hshaped, hstart, hend, ?_, ?_⟩
  · rintro n ⟨o', ho', hn⟩
    obtain rfl := Option.some.inj (ho.symm.trans ho')
    exact hstops n hn
  -- A return takes the whole stack: what it needs, and nothing below it.
  · intro n kind hn
    obtain ⟨after, htakes, -⟩ := hshaped.step n _ hn
    obtain ⟨rfl, hshape⟩ := htakes.eq_of_ret
    exact ⟨rfl, hshape⟩

/-- A function and an entry point that calls it:
`int[] evens(int n) { int[] a = new int[n]; int i = 0; while (i < n) { a[i] = i * 2; i = i + 1; }
return a; }`,
`main { int[] b = evens(3); if (b[0] == 0) { print(b[1]); } else { evens(1); } }` -/
def Program.evens : Program Location :=
  let written (text : String) : Name (Option Location) := ⟨text, none⟩
  let read (text : String) : Expr (Option Location) := .read none (written text)
  let int (value : Int) : Expr (Option Location) := .int none value
  let entry (n : Int) : Expr (Option Location) := .index none (written "b") (int n)
  let body : Draft Block := .mk none
    [.assignAt none (written "a") (read "i") (.binary none .mul (read "i") (int 2)),
      .assign none (written "i") (.binary none .add (read "i") (int 1))]
  Program.ofDraft
    [.function ⟨none, none, written "int[]", written "evens", [⟨written "int", written "n"⟩],
      some (.mk none
        [.declare none (written "int[]") (written "a")
            (some (.newArray none (written "int") (read "n"))),
          .declare none (written "int") (written "i") (some (int 0)),
          .loop none (.binary none .less (read "i") (read "n")) body,
          .ret none none (some (read "a"))])⟩,
      .main ⟨none, none, .mk none
        [.declare none (written "int[]") (written "b")
            (some (.call none (written "evens") [int 3])),
          .ifElse none (.binary none .equal (entry 0) (int 0))
            (.mk none [.print none false (some (entry 1))])
            (.mk none [.call none (written "evens") [int 1]])]⟩]

theorem Program.exists_shape_of_isAccepted_evens :
    Program.evens.Distinct ∧ Program.evens.newsStored = true ∧
      ∃ a u, Program.evens.analyze = .ok a ∧ a.isAccepted = true ∧
        a.codeUnit Program.evens "Unit" = .ok u ∧ u.functions.length = 2 ∧
        List.Forall₂ (fun i r => ∃ shape, i.Disciplined a.table a.scopes r shape)
          Program.evens.items u.functions := by
  have hdistinct : Program.evens.Distinct := Program.distinct_ofDraft _ (by decide)
  obtain ⟨a, ha, haccepted, -⟩ := Program.exists_accepted (p := Program.evens)
    (fun _ => true) (by decide +kernel)
  obtain ⟨u, hu, hall⟩ :=
    (Program.exists_shape_of_isAccepted hdistinct ha haccepted rfl "Unit").fits (by decide)
  exact ⟨hdistinct, rfl, a, u, ha, haccepted, hu, hall.length_eq.symm, hall⟩

end Primer
