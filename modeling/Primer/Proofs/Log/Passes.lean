import Primer.Log.Analysis
import Primer.Proofs.Tree.Induction
import Mathlib.Tactic.SplitIfs

/-!
# Passes with a log report what they find

A pass with a log goes through the tree and sends each error to its sink as it is found. What is
sent is what the pass without a log lists, in the same order: `Expr.checkM_eq` says so for the type
of an expression, `Stmt.typesM_eq` and `Stmt.referencesM_eq` for statements. They hold for every
sink, so with the silent one nothing is left but the type (`Expr.typeInM_eq`).

Declarations are reported in between changes to the table. There the state changes as it does
without a log, and the log is told of the mistakes that were added (`Declarations.tells_item`).
-/

namespace Primer

variable {L ε σ : Type}

/-! ## Sending errors -/

theorem throw_bind {α β : Type} (fault : Fault) (next : α → StateT σ Logged β) :
    (throw fault >>= next : StateT σ Logged β) = throw fault :=
  rfl

namespace Sink

variable (sink : Sink L ε σ)

@[simp] theorem reportAll_nil : sink.reportAll [] = pure () := rfl

@[simp] theorem reportAll_singleton (entry : Located L ε) :
    sink.reportAll [entry] = sink.report entry := by
  simp [reportAll]

theorem reportAll_append (as bs : List (Located L ε)) :
    sink.reportAll (as ++ bs) = (do
      sink.reportAll as
      sink.reportAll bs) := by
  simp [reportAll]

end Sink

/-- Sends the findings of a report, up to the fault that stops it. -/
def Report.sendTo (sink : Sink L ε σ) (r : Report L ε) : StateT σ Logged Unit := do
  sink.reportAll r.findings
  match r.fault with
  | none => pure ()
  | some fault => throw fault

namespace Report

variable (sink : Sink L ε σ)

@[simp] theorem sendTo_empty : (Report.empty : Report L ε).sendTo sink = pure () := by
  simp [sendTo, empty]

@[simp] theorem sendTo_ofFindings (findings : List (Located L ε)) :
    (Report.ofFindings findings).sendTo sink = sink.reportAll findings := by
  simp [sendTo, ofFindings]

theorem sendTo_append (a b : Report L ε) :
    (a ++ b).sendTo sink = (do
      a.sendTo sink
      b.sendTo sink) := by
  cases ha : a.fault with
  | none => simp [sendTo, append_of_no_fault ha, ha, sink.reportAll_append]
  | some fault =>
    rw [append_of_fault ha]
    simp [sendTo, ha, throw_bind]

/-- Without a scope nothing is sent. -/
theorem sendTo_inScopeOf (m : ScopeMap) (node : NodeId) (go : ScopeId → Report L ε) :
    (Report.inScopeOf m node go).sendTo sink = (do
      let s ← m.scopeOf node
      (go s).sendTo sink) := by
  rw [Report.inScopeOf]
  cases m.scopeOf node with
  | ok s => rfl
  | error fault => simp [sendTo, stop]; rfl

theorem sendTo_concat {α : Type} (xs : List α) (r : α → Report L ε) :
    (Report.concat (xs.map r)).sendTo sink = xs.forM fun x => (r x).sendTo sink := by
  induction xs with
  | nil => simp [concat]
  | cons x xs ih =>
    rw [List.map_cons, concat, sendTo_append, ih]
    simp

end Report

/-! ## References -/

section References

variable (sink : Sink L ReferenceError σ) (t : Table)

private theorem Expr.referencesAllM_of (s : ScopeId) {es : List (Expr L)}
    (ih : ∀ e ∈ es, e.referencesM sink t s = sink.reportAll (e.references t s)) :
    Expr.referencesAllM sink t s es = sink.reportAll (Expr.referencesAll t s es) := by
  induction es with
  | nil => rfl
  | cons e es ihs =>
    obtain ⟨he, hes⟩ := List.forall_mem_cons.mp ih
    rw [Expr.referencesAllM, Expr.referencesAll, sink.reportAll_append, he, ihs hes]

/-- Checking the references of an expression sends what is wrong with them. -/
theorem Expr.referencesM_eq (s : ScopeId) (e : Expr L) :
    e.referencesM sink t s = sink.reportAll (e.references t s) := by
  induction e using Expr.inductionOn with
  | int _ _ | float _ _ | bool _ _ | char _ _ | str _ _ => rfl
  | read _ name => rfl
  | call _ callee arguments ih =>
    rw [Expr.referencesM, Expr.references, sink.reportAll_append,
      Expr.referencesAllM_of sink t s ih]
  | index _ base position ih =>
    rw [Expr.referencesM, Expr.references, sink.reportAll_append, ih]
  | length _ operand ih | paren _ operand ih | negate _ operand ih =>
    rw [Expr.referencesM, Expr.references, ih]
  | binary _ op lhs rhs ihl ihr =>
    rw [Expr.referencesM, Expr.references, sink.reportAll_append, ihl, ihr]
  | array _ elements ih => exact Expr.referencesAllM_of sink t s ih
  | newArray _ element size ih => rw [Expr.referencesM, Expr.references, ih]

theorem Expr.referencesOptionM_eq (s : ScopeId) (value : Option (Expr L)) :
    Expr.referencesOptionM sink t s value = sink.reportAll (Expr.referencesOption t s value) := by
  cases value with
  | none => rfl
  | some e => exact e.referencesM_eq sink t s

private theorem Block.referencesM_of {b : Block L NodeId} (m : ScopeMap)
    (ih : ∀ st ∈ b.statements, ∀ s,
      st.referencesM sink t m s = (st.references t m s).sendTo sink) :
    b.referencesM sink t m = (b.references t m).sendTo sink := by
  obtain ⟨node, sts⟩ := b
  rw [Block.referencesM, Block.references, Report.sendTo_inScopeOf]
  refine congrArg _ (funext fun s => ?_)
  induction sts with
  | nil => simp [Block.referencesAllM, Block.referencesAll]
  | cons st sts ihs =>
    obtain ⟨hst, hsts⟩ := List.forall_mem_cons.mp ih
    rw [Block.referencesAllM, Block.referencesAll, Report.sendTo_append, hst s, ihs hsts]

/-- Checking the references of a statement sends its report. -/
theorem Stmt.referencesM_eq (m : ScopeMap) (s : ScopeId) (st : Stmt L NodeId) :
    st.referencesM sink t m s = (st.references t m s).sendTo sink := by
  induction st using Stmt.inductionOn generalizing s with
  | declare _ type name value | print _ newline value =>
    simp [Stmt.referencesM, Stmt.references, Expr.referencesOptionM_eq]
  | assign _ target value =>
    simp [Stmt.referencesM, Stmt.references, Expr.referencesM_eq, sink.reportAll_append]
  | assignAt _ target position value =>
    simp [Stmt.referencesM, Stmt.references, Expr.referencesM_eq, sink.reportAll_append]
  | call p callee arguments =>
    rw [Stmt.referencesM, (Expr.call p callee arguments).referencesM_eq]
    simp [Stmt.references, Expr.references]
  | ret place node value =>
    -- Without a scope for the return both stop here.
    rw [Stmt.referencesM, Stmt.references, Report.sendTo_inScopeOf]
    refine congrArg _ (funext fun r => ?_)
    rw [Report.sendTo_ofFindings, sink.reportAll_append, Expr.referencesOptionM_eq]
    split_ifs <;> simp
  | ifThen _ condition yes ih | loop _ condition yes ih =>
    simp [Stmt.referencesM, Stmt.references, Expr.referencesM_eq, Report.sendTo_append,
      Block.referencesM_of sink t m ih]
  | ifElse _ condition yes no ihy ihn =>
    simp [Stmt.referencesM, Stmt.references, Expr.referencesM_eq, Report.sendTo_append,
      Block.referencesM_of sink t m ihy, Block.referencesM_of sink t m ihn]

theorem Block.referencesM_eq (m : ScopeMap) (b : Block L NodeId) :
    b.referencesM sink t m = (b.references t m).sendTo sink :=
  Block.referencesM_of sink t m fun st _ s => st.referencesM_eq sink t m s

end References

/-! ## Types -/

section Types

variable (sink : Sink L TypeError σ) (t : Table)

namespace Typed

theorem sendTo_pure (type : Ty) : (Typed.pure type : Typed L).sendTo sink = Pure.pure type := by
  simp [sendTo, Typed.pure]

theorem sendTo_after (earlier : List (Located L TypeError)) (x : Typed L) :
    (x.after earlier).sendTo sink = (do
      sink.reportAll earlier
      x.sendTo sink) := by
  simp [sendTo, after, sink.reportAll_append]

end Typed

/-- The findings in several expressions are sent one expression after the other. -/
private theorem Expr.checkAllM_of (s : ScopeId) {es : List (Expr L)}
    (ih : ∀ e ∈ es, ∀ u, e.checkM sink t s u = (e.check t s u).sendTo sink) :
    Expr.checkAllM sink t s es = (do
      sink.reportAll ((Expr.checkAll t s es).flatMap (·.2.findings))
      return (Expr.checkAll t s es).map (·.2.type)) := by
  induction es with
  | nil => simp [Expr.checkAllM, Expr.checkAll]
  | cons e es ihs =>
    obtain ⟨he, hes⟩ := List.forall_mem_cons.mp ih
    rw [Expr.checkAllM, he, ihs hes]
    simp [Expr.checkAll, Typed.sendTo, sink.reportAll_append]

/-- What is wrong with an argument as such is sent right after what is wrong inside it. -/
private theorem Expr.checkArgumentsM_of (s : ScopeId) (function : String) {es : List (Expr L)}
    (ih : ∀ e ∈ es, ∀ u, e.checkM sink t s u = (e.check t s u).sendTo sink) (position : Nat)
    (types : List Ty) :
    Expr.checkArgumentsM sink t s function position types es = (do
      let checked := Typed.arguments function position types (Expr.checkAll t s es)
      sink.reportAll (checked.flatMap Typed.findings)
      return checked.map Typed.type) := by
  induction es generalizing position types with
  | nil => cases types <;> simp [Expr.checkArgumentsM, Expr.checkAll, Typed.arguments]
  | cons e es ihs =>
    cases types with
    | nil => simp [Expr.checkArgumentsM, Typed.arguments]
    | cons expected types =>
      obtain ⟨he, hes⟩ := List.forall_mem_cons.mp ih
      rw [Expr.checkArgumentsM, he, ihs hes]
      simp [Expr.checkAll, Typed.arguments, Typed.sendTo, Typed.after, sink.reportAll_append]

/-- Inferring the type of an expression sends what is wrong with the expression. -/
theorem Expr.checkM_eq (s : ScopeId) (underLength : Bool) (e : Expr L) :
    e.checkM sink t s underLength = (e.check t s underLength).sendTo sink := by
  induction e using Expr.inductionOn generalizing underLength with
  | int _ _ | float _ _ | bool _ _ | char _ _ | str _ _ | read _ _ =>
    exact (Typed.sendTo_pure sink _).symm
  | call _ callee arguments ih =>
    rw [Expr.checkM, Expr.check, Typed.call]
    have hlength : (Expr.checkAll t s arguments).length = arguments.length := by
      rw [Expr.checkAll_eq_map, List.length_map]
    cases t.callee? s callee.text with
    | none => simp [Expr.checkAllM_of sink t s ih, Typed.sendTo]
    | some f =>
      -- With a wrong number of arguments these are still checked, but each by itself.
      by_cases hcount : f.parameters.length = arguments.length
      · simp only [hlength, hcount, ne_eq, not_true_eq_false, if_false, Typed.sendTo, bind_assoc,
          pure_bind, Expr.checkArgumentsM_of sink t s callee.text ih]
      · simp [hlength, hcount, Expr.checkAllM_of sink t s ih, Typed.sendTo]
  -- One operand: what is wrong with it is sent first, and then what is wrong with the whole.
  | index _ base position ih | length _ operand ih | negate _ operand ih
  | newArray _ element size ih =>
    rw [Expr.checkM, Expr.check, ih, Typed.sendTo_after]
    simp [Typed.sendTo]
  | paren _ operand ih => rw [Expr.checkM, Expr.check, ih]
  | binary _ op lhs rhs ihl ihr =>
    rw [Expr.checkM, Expr.check, ihl, ihr, Typed.sendTo_after]
    simp [Typed.sendTo, sink.reportAll_append]
  | array _ elements ih =>
    rw [Expr.checkM, Expr.check, Expr.checkAllM_of sink t s ih, Typed.sendTo_after]
    simp

/-- With the silent sink the type is all there is. -/
theorem Expr.typeInM_eq (s : ScopeId) (e : Expr L) : e.typeInM t s = pure (e.typeIn t s) := by
  have hsilent : ∀ entries : List (Located L TypeError),
      Sink.silent.reportAll entries = pure () := by
    intro entries
    induction entries with
    | nil => rfl
    | cons entry entries ih => exact ih
  rw [Expr.typeInM, Expr.checkM_eq, Typed.sendTo, hsilent]
  simp [Expr.typeIn]

private theorem Block.typesM_of {b : Block L NodeId} (m : ScopeMap)
    (ih : ∀ st ∈ b.statements, ∀ s, st.typesM sink t m s = (st.types t m s).sendTo sink) :
    b.typesM sink t m = (b.types t m).sendTo sink := by
  obtain ⟨node, sts⟩ := b
  rw [Block.typesM, Block.types, Report.sendTo_inScopeOf]
  refine congrArg _ (funext fun s => ?_)
  induction sts with
  | nil => simp [Block.typesAllM, Block.typesAll]
  | cons st sts ihs =>
    obtain ⟨hst, hsts⟩ := List.forall_mem_cons.mp ih
    rw [Block.typesAllM, Block.typesAll, Report.sendTo_append, hst s, ihs hsts]

/-- Checking the types of a statement sends its report. -/
theorem Stmt.typesM_eq (m : ScopeMap) (s : ScopeId) (st : Stmt L NodeId) :
    st.typesM sink t m s = (st.types t m s).sendTo sink := by
  induction st using Stmt.inductionOn generalizing s with
  | declare _ type name value =>
    cases value with
    | none => simp [Stmt.typesM, Stmt.types]
    | some value =>
      rw [Stmt.typesM, Stmt.types, Expr.checkM_eq]
      cases Ty.named? type.text <;> simp [Typed.sendTo, sink.reportAll_append]
  | assign _ target value =>
    rw [Stmt.typesM, Stmt.types, Expr.checkM_eq]
    cases t.varType? s target.text <;> simp [Typed.sendTo, sink.reportAll_append]
  | assignAt _ target position value =>
    rw [Stmt.typesM, Stmt.types, Expr.checkElement, Expr.checkM_eq, Expr.checkM_eq]
    simp [Typed.sendTo, sink.reportAll_append]
  | print _ newline value =>
    cases value with
    | none => simp [Stmt.typesM, Stmt.types]
    | some value =>
      rw [Stmt.typesM, Stmt.types, Expr.checkPrint, Expr.checkM_eq]
      simp [Typed.sendTo, sink.reportAll_append]
  | call p callee arguments =>
    rw [Stmt.typesM, Stmt.types, Expr.checkM_eq]
    simp [Typed.sendTo, Expr.check]
  | ret place node value =>
    rw [Stmt.typesM, Stmt.types, Report.sendTo_append, Report.sendTo_inScopeOf]
    -- The value is checked first, and a return outside of functions is not looked at any further.
    cases value with
    | none =>
      simp only [Option.mapM_none, Option.map_none, Option.getD_none, pure_bind,
        Report.sendTo_ofFindings, sink.reportAll_nil]
      refine bind_congr fun r => ?_
      cases t.functionOf r <;> simp
    | some value =>
      simp only [Option.mapM_some, Option.map_some, Option.getD_some, Expr.checkM_eq, Typed.sendTo,
        map_eq_pure_bind, bind_assoc, pure_bind, Report.sendTo_ofFindings]
      refine bind_congr fun _ => ?_
      refine bind_congr fun r => ?_
      cases t.functionOf r <;> simp
  | ifThen _ condition yes ih | loop _ condition yes ih =>
    simp [Stmt.typesM, Stmt.types, Expr.checkM_eq, Typed.sendTo, Expr.checkCondition,
      Report.sendTo_append, sink.reportAll_append, Block.typesM_of sink t m ih]
  | ifElse _ condition yes no ihy ihn =>
    simp [Stmt.typesM, Stmt.types, Expr.checkM_eq, Typed.sendTo, Expr.checkCondition,
      Report.sendTo_append, sink.reportAll_append, Block.typesM_of sink t m ihy,
      Block.typesM_of sink t m ihn]

theorem Block.typesM_eq (m : ScopeMap) (b : Block L NodeId) :
    b.typesM sink t m = (b.types t m).sendTo sink :=
  Block.typesM_of sink t m fun st _ s => st.typesM_eq sink t m s

end Types

/-! ## Declarations -/

/-- The computation declares what leads from `d` to `d'`, and it tells the log of the mistakes that
were reported on the way. -/
def Declaring.Tells {α : Type} (x : Declaring α) (d : Declarations Location) (a : α)
    (d' : Declarations Location) : Prop :=
  ∃ reported, d'.findings = d.findings ++ reported ∧ x.run d = (do
    reported.forM (Diagnostics.tell DeclarationError.label)
    return (a, d'))

namespace Declaring.Tells

variable {α β : Type} {x : Declaring α} {d d' d'' : Declarations Location} {a : α} {b : β}

/-- A computation that reports nothing. -/
theorem of_run (hx : x.run d = pure (a, d')) (hfindings : d'.findings = d.findings) :
    x.Tells d a d' :=
  ⟨[], by simp [hfindings], by simpa using hx⟩

protected theorem pure (a : α) (d : Declarations Location) :
    (pure a : Declaring α).Tells d a d :=
  of_run rfl rfl

/-- A change to the table that reports nothing. -/
protected theorem modifyGet {f : Declarations Location → α × Declarations Location}
    (hfindings : (f d).2.findings = d.findings) :
    (modifyGet f : Declaring α).Tells d (f d).1 (f d).2 :=
  of_run rfl hfindings

protected theorem bind {next : α → Declaring β} (hx : x.Tells d a d')
    (hnext : (next a).Tells d' b d'') : (x >>= next).Tells d b d'' := by
  obtain ⟨first, hfirst, hrun⟩ := hx
  obtain ⟨second, hsecond, hrun'⟩ := hnext
  refine ⟨first ++ second, by rw [hsecond, hfirst, List.append_assoc], ?_⟩
  rw [StateT.run_bind, hrun]
  simp [hrun']

/-- What comes after the state was looked at may depend on it. -/
theorem get_bind {next : Declarations Location → Declaring β} (hnext : (next d).Tells d b d') :
    (get >>= next).Tells d b d' :=
  Tells.bind (of_run (a := d) rfl rfl) hnext

end Declaring.Tells

namespace Declarations

open Declaring

theorem tells_report (d : Declarations Location) (place : Location) (error : DeclarationError) :
    (reportM place error).Tells d () (d.report place error) := by
  refine ⟨[⟨place, error⟩], rfl, ?_⟩
  simp [reportM, Diagnostics.record, diagnostics, report, Diagnostics.push]

theorem tells_resolveType (d : Declarations Location) (name : Name Location) :
    (resolveTypeM name).Tells d (d.resolveType name).1 (d.resolveType name).2 := by
  unfold resolveTypeM resolveType
  cases Ty.named? name.text with
  | some type => exact .pure _ _
  | none => exact .bind (tells_report d _ _) (.pure _ _)

theorem tells_resolveTypes (d : Declarations Location) (names : List (Name Location)) :
    (resolveTypesM names).Tells d (d.resolveTypes names).1 (d.resolveTypes names).2 := by
  induction names generalizing d with
  | nil => exact .pure _ _
  | cons name names ih =>
    have hname := tells_resolveType d name
    rw [resolveTypesM, resolveTypes]
    generalize d.resolveType name = resolved at hname ⊢
    obtain ⟨_ | type, d'⟩ := resolved
    · exact .bind hname (.pure _ _)
    · exact .bind hname (.bind (ih d') (.pure _ _))

theorem tells_declareVariable (d : Declarations Location) (scope : ScopeId)
    (type name : Name Location) :
    (declareVariableM scope type name).Tells d () (d.declareVariable scope type name) := by
  have htype := tells_resolveType d type
  rw [declareVariableM, declareVariable]
  generalize d.resolveType type = resolved at htype ⊢
  obtain ⟨_ | type, d'⟩ := resolved
  · exact .bind htype (.pure _ _)
  · refine .bind htype (.get_bind ?_)
    dsimp only
    split_ifs
    · exact tells_report d' _ _
    · exact .of_run rfl rfl

theorem tells_parameters (d : Declarations Location) (function : SymbolId) (scope : ScopeId)
    (parameters : List (Name Location × Ty)) :
    (parametersM function scope parameters).Tells d ()
      (d.parameters function scope parameters) := by
  induction parameters generalizing d with
  | nil => exact .pure _ _
  | cons parameter rest ih =>
    obtain ⟨name, type⟩ := parameter
    have hdefine := Tells.modifyGet (d := d) (f := (·.define scope (.var name.text type))) rfl
    rw [parametersM, Declarations.parameters]
    generalize d.define scope (.var name.text type) = defined at hdefine ⊢
    obtain ⟨_ | x, d'⟩ := defined
    · exact .bind hdefine (.bind (tells_report d' _ _) (ih _))
    · exact .bind hdefine (.bind (.of_run rfl rfl) (ih _))

private theorem tells_block {b : Block Location NodeId}
    (ih : ∀ st ∈ b.statements, ∀ scope d,
      (st.declarationsM scope).Tells d () (st.declarations scope d))
    (parent : ScopeId) (d : Declarations Location) :
    (b.declarationsM parent).Tells d () (b.declarations parent d) := by
  obtain ⟨node, sts⟩ := b
  rw [Block.declarationsM, Block.declarations]
  refine .bind (.modifyGet rfl) ?_
  -- From here on it does not matter how the scope was opened.
  generalize d.openBlock node parent = opened
  obtain ⟨scope, d⟩ := opened
  induction sts generalizing d with
  | nil => exact .pure _ _
  | cons st sts ihs =>
    obtain ⟨hst, hsts⟩ := List.forall_mem_cons.mp ih
    exact .bind (hst scope d) (ihs hsts _)

theorem tells_statement (st : Stmt Location NodeId) (scope : ScopeId) (d : Declarations Location) :
    (st.declarationsM scope).Tells d () (st.declarations scope d) := by
  induction st using Stmt.inductionOn generalizing scope d with
  | declare _ type name value => exact tells_declareVariable d scope type name
  | ifThen _ condition yes ih | loop _ condition yes ih => exact tells_block ih scope d
  | ifElse _ condition yes no ihy ihn =>
    exact .bind (tells_block ihy scope d) (tells_block ihn scope _)
  | ret _ node value => exact .of_run rfl rfl
  | assign _ target value | print _ newline value => exact .pure _ _
  | assignAt _ target position value => exact .pure _ _
  | call _ callee arguments => exact .pure _ _

theorem tells_body (b : Block Location NodeId) (parent : ScopeId) (d : Declarations Location) :
    (b.declarationsM parent).Tells d () (b.declarations parent d) :=
  tells_block (fun st _ => tells_statement st) parent d

theorem tells_entryPoint (d : Declarations Location) (m : EntryPoint Location NodeId) :
    (entryPointM m).Tells d () (d.entryPoint m) := by
  unfold entryPointM entryPoint
  refine .get_bind ?_
  split_ifs
  · exact tells_report d _ _
  · exact .bind (.of_run rfl rfl) (.bind (.of_run rfl rfl) (tells_body _ _ _))

theorem tells_accept (d : Declarations Location) (f : Function Location NodeId)
    (body : Block Location NodeId) (returns : Ty) (types : List Ty) :
    (acceptM f body returns types).Tells d () (d.accept f body returns types) := by
  have hdefine := Tells.modifyGet (d := d)
    (f := (·.define Table.global (.fn ⟨f.name.text, returns, []⟩))) rfl
  unfold acceptM accept
  generalize d.define Table.global (.fn ⟨f.name.text, returns, []⟩) = defined at hdefine ⊢
  obtain ⟨_ | x, d'⟩ := defined
  · exact .bind hdefine (.pure _ _)
  · exact .bind hdefine (.bind (.of_run rfl rfl) (.bind (tells_parameters _ _ _ _)
      (tells_body _ _ _)))

theorem tells_function (d : Declarations Location) (f : Function Location NodeId) :
    (functionM f).Tells d () (d.function f) := by
  unfold functionM function
  cases f.body with
  | none => exact tells_report d _ _
  | some body =>
    refine .get_bind ?_
    dsimp only
    split_ifs
    · exact tells_report d _ _
    -- Both headings are resolved before one of them decides, so both may report.
    · refine .bind (tells_resolveType d _) (.bind (tells_resolveTypes _ _) ?_)
      generalize (d.resolveType f.returns).2.resolveTypes _ = resolved
      generalize (d.resolveType f.returns).1 = returns
      obtain ⟨types, d'⟩ := resolved
      cases returns with
      | none => exact .pure _ _
      | some returns =>
        cases types with
        | none => exact .pure _ _
        | some types => exact tells_accept d' f body returns types

/-- Declaring an item changes the declarations as it does without a log. -/
theorem tells_item (d : Declarations Location) (i : Item Location NodeId) :
    (itemM i).Tells d () (d.item i) := by
  cases i with
  | function f => exact tells_function d f
  | main m => exact tells_entryPoint d m

theorem tells_items (d : Declarations Location) (items : List (Item Location NodeId)) :
    (items.forM itemM).Tells d () (items.foldl item d) := by
  induction items generalizing d with
  | nil => exact .pure _ _
  | cons i items ih => exact .bind (tells_item d i) (ih _)

end Declarations

end Primer
