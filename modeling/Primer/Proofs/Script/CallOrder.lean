import Primer.Proofs.Script.Identifier
import Primer.Proofs.Script.Passage
import Primer.Proofs.Tree.Calls
import Primer.Proofs.Typing.Agreement

/-!
# The order of calls in scripts

Python evaluates operands, arguments and elements from left to right. There are two things that a
reader of a program may not expect.

* In an assignment to an element the assigned value is evaluated before the position.
* Comparisons side by side form a chain: as soon as one of them fails, the operands to its right
  are not evaluated any more.

The second one does not happen in the script of an accepted program, because truth values are not
compared there. The first one does. A statement is orderly if it makes no difference to its calls
(`Stmt.isOrderly`). The script of such a statement calls the functions of the program in the order
of the program (`Stmt.WellTyped.runs_toScript_iff`).

A function is known by its name here, and what a name is bound to when it is called is left open.
-/

namespace Primer

namespace Script

/-! ## Evaluation of expressions -/

/-- The operands of a chain of comparisons. Any other expression is its only operand. -/
def Expr.operands : Expr → List Expr
  | .binary op lhs rhs =>
    if op.isArithmetic then [.binary op lhs rhs] else lhs.operands ++ rhs.operands
  | e => [e]

mutual

/-- An evaluation of the expression calls the functions of the program that are listed, in order.
Predefined functions are not among them. -/
inductive Expr.Evaluates : Expr → List String → Prop where
  | none : Expr.Evaluates .none []
  | int {value} : Expr.Evaluates (.int value) []
  | float {bits} : Expr.Evaluates (.float bits) []
  | bool {value} : Expr.Evaluates (.bool value) []
  | str {value} : Expr.Evaluates (.str value) []
  | name {text} : Expr.Evaluates (.name text) []
  | call {callee arguments cs} (hcallee : callee ∉ reserved)
      (harguments : Expr.EvaluatesAll arguments cs) :
      Expr.Evaluates (.call callee arguments) (cs ++ [callee])
  | predefined {callee arguments cs} (hcallee : callee ∈ reserved)
      (harguments : Expr.EvaluatesAll arguments cs) : Expr.Evaluates (.call callee arguments) cs
  | subscript {base position cs} (hposition : Expr.Evaluates position cs) :
      Expr.Evaluates (.subscript base position) cs
  | paren {operand cs} (hoperand : Expr.Evaluates operand cs) : Expr.Evaluates (.paren operand) cs
  | negate {operand cs} (hoperand : Expr.Evaluates operand cs) :
      Expr.Evaluates (.negate operand) cs
  | arithmetic {op lhs rhs cs cs'} (hop : op.isArithmetic = true) (hlhs : Expr.Evaluates lhs cs)
      (hrhs : Expr.Evaluates rhs cs') : Expr.Evaluates (.binary op lhs rhs) (cs ++ cs')
  /-- The first comparison of a chain is always made, the further ones may be. -/
  | comparison {op lhs rhs first second more cs cs' cs''} (hop : op.isArithmetic = false)
      (hoperands : lhs.operands ++ rhs.operands = first :: second :: more)
      (hfirst : Expr.Evaluates first cs) (hsecond : Expr.Evaluates second cs')
      (hmore : Expr.EvaluatesSome more cs'') :
      Expr.Evaluates (.binary op lhs rhs) (cs ++ cs' ++ cs'')
  | list {elements cs} (helements : Expr.EvaluatesAll elements cs) :
      Expr.Evaluates (.list elements) cs

/-- All expressions are evaluated, from left to right. -/
inductive Expr.EvaluatesAll : List Expr → List String → Prop where
  | nil : Expr.EvaluatesAll [] []
  | cons {e es cs cs'} (he : Expr.Evaluates e cs) (hes : Expr.EvaluatesAll es cs') :
      Expr.EvaluatesAll (e :: es) (cs ++ cs')

/-- Expressions are evaluated from left to right, as many as there are or fewer. -/
inductive Expr.EvaluatesSome : List Expr → List String → Prop where
  | stop {es} : Expr.EvaluatesSome es []
  | cons {e es cs cs'} (he : Expr.Evaluates e cs) (hes : Expr.EvaluatesSome es cs') :
      Expr.EvaluatesSome (e :: es) (cs ++ cs')

end

/-! ## Runs of statements -/

mutual

/-- A run of the statement with given decisions. -/
inductive Stmt.Runs : Stmt → List Bool → Course → Prop where
  | assign {target value ds cs} (hvalue : value.Evaluates cs) :
      Stmt.Runs (.assign target value) ds (.calling cs ds)
  /-- The value comes first, and then the position. -/
  | assignAt {target position value ds cs cs'} (hvalue : value.Evaluates cs)
      (hposition : position.Evaluates cs') :
      Stmt.Runs (.assignAt target position value) ds (.calling (cs ++ cs') ds)
  | ret {ds} : Stmt.Runs (.ret none) ds ⟨[], .returned⟩
  | retValue {value ds cs} (hvalue : value.Evaluates cs) :
      Stmt.Runs (.ret (some value)) ds ⟨cs, .returned⟩
  | newline {newline ds} : Stmt.Runs (.print newline none) ds (.calling [] ds)
  | print {newline value ds cs} (hvalue : value.Evaluates cs) :
      Stmt.Runs (.print newline (some value)) ds (.calling cs ds)
  | eval {value ds cs} (hvalue : value.Evaluates cs) :
      Stmt.Runs (.eval value) ds (.calling cs ds)
  | ifOpen {condition yes cs} (hcondition : condition.Evaluates cs) :
      Stmt.Runs (.ifThen condition yes) [] ⟨cs, .undecided⟩
  | ifTrue {condition yes ds cs x} (hcondition : condition.Evaluates cs)
      (hyes : Stmt.RunsAll yes ds x) : Stmt.Runs (.ifThen condition yes) (true :: ds) (x.after cs)
  | ifFalse {condition yes ds cs} (hcondition : condition.Evaluates cs) :
      Stmt.Runs (.ifThen condition yes) (false :: ds) (.calling cs ds)
  | elseOpen {condition yes no cs} (hcondition : condition.Evaluates cs) :
      Stmt.Runs (.ifElse condition yes no) [] ⟨cs, .undecided⟩
  | elseTrue {condition yes no ds cs x} (hcondition : condition.Evaluates cs)
      (hyes : Stmt.RunsAll yes ds x) :
      Stmt.Runs (.ifElse condition yes no) (true :: ds) (x.after cs)
  | elseFalse {condition yes no ds cs x} (hcondition : condition.Evaluates cs)
      (hno : Stmt.RunsAll no ds x) :
      Stmt.Runs (.ifElse condition yes no) (false :: ds) (x.after cs)
  | loopOpen {condition body cs} (hcondition : condition.Evaluates cs) :
      Stmt.Runs (.loop condition body) [] ⟨cs, .undecided⟩
  /-- A loop whose condition holds does its body, and is then there again. -/
  | loopTrue {condition body ds cs x} (hcondition : condition.Evaluates cs)
      (hbody : Stmt.RunsAll (body ++ [.loop condition body]) ds x) :
      Stmt.Runs (.loop condition body) (true :: ds) (x.after cs)
  | loopFalse {condition body ds cs} (hcondition : condition.Evaluates cs) :
      Stmt.Runs (.loop condition body) (false :: ds) (.calling cs ds)

/-- A run of statements in order, up to the first one that does not come to its end. -/
inductive Stmt.RunsAll : List Stmt → List Bool → Course → Prop where
  | nil {ds} : Stmt.RunsAll [] ds (.calling [] ds)
  | cons {st sts ds cs ds' x} (hst : Stmt.Runs st ds ⟨cs, .next ds'⟩)
      (hsts : Stmt.RunsAll sts ds' x) : Stmt.RunsAll (st :: sts) ds (x.after cs)
  | stop {st sts ds x} (hst : Stmt.Runs st ds x) (hend : ∀ ds', x.ending ≠ .next ds') :
      Stmt.RunsAll (st :: sts) ds x

end

end Script

/-! ## Orderly statements -/

variable {L I : Type}

mutual

/-- Whether it makes no difference to the calls of the statement that an assignment to an element
evaluates the value first. -/
def Stmt.isOrderly : Stmt L I → Bool
  | .declare .. | .assign .. | .ret .. | .print .. | .call .. => true
  | .assignAt _ _ position value =>
    position.calls ++ value.calls = value.calls ++ position.calls
  | .ifThen _ _ yes => yes.isOrderly
  | .ifElse _ _ yes no => yes.isOrderly && no.isOrderly
  | .loop _ _ body => body.isOrderly

/-- Whether the statements of a block are orderly. -/
def Block.isOrderly : Block L I → Bool
  | .mk _ statements => Block.areOrderly statements

/-- Whether statements are orderly. -/
def Block.areOrderly : List (Stmt L I) → Bool
  | [] => true
  | st :: sts => st.isOrderly && Block.areOrderly sts

end

theorem Block.areOrderly_eq_all (sts : List (Stmt L I)) :
    Block.areOrderly sts = sts.all Stmt.isOrderly := by
  induction sts with
  | nil => rfl
  | cons st sts ih => simp [Block.areOrderly, ih]

/-! ## Scripts of expressions -/

namespace Script.Expr

theorem evaluates_call_iff {callee : String} (hcallee : callee ∉ reserved) {arguments : List Expr}
    {cs : List String} :
    (Expr.call callee arguments).Evaluates cs ↔
      ∃ cs', EvaluatesAll arguments cs' ∧ cs = cs' ++ [callee] := by
  constructor
  · intro h
    cases h with
    | call _ harguments => exact ⟨_, harguments, rfl⟩
    | predefined hmem _ => exact absurd hmem hcallee
  · rintro ⟨cs', harguments, rfl⟩
    exact .call hcallee harguments

theorem evaluates_predefined_iff {callee : String} (hcallee : callee ∈ reserved) {e : Expr}
    {cs : List String} : (Expr.call callee [e]).Evaluates cs ↔ e.Evaluates cs := by
  constructor
  · intro h
    cases h with
    | call hmem _ => exact absurd hcallee hmem
    | predefined _ harguments =>
      cases harguments with
      | cons he hnil =>
        cases hnil
        rwa [List.append_nil]
  · intro h
    have hone : EvaluatesAll [e] (cs ++ []) := .cons h .nil
    rw [List.append_nil] at hone
    exact .predefined hcallee hone

/-- An operator has both operands evaluated, unless it is part of a longer chain. -/
theorem evaluates_binary_iff {op : BinOp} {lhs rhs : Expr}
    (h : op.isArithmetic = true ∨ lhs.operands = [lhs] ∧ rhs.operands = [rhs])
    {cs : List String} :
    (Expr.binary op lhs rhs).Evaluates cs ↔
      ∃ cs₁ cs₂, lhs.Evaluates cs₁ ∧ rhs.Evaluates cs₂ ∧ cs = cs₁ ++ cs₂ := by
  constructor
  · intro hevaluates
    cases hevaluates with
    | arithmetic _ hlhs hrhs => exact ⟨_, _, hlhs, hrhs, rfl⟩
    | comparison hop hoperands hfirst hsecond hmore =>
      obtain ⟨hlhs, hrhs⟩ := h.resolve_left (by simp [hop])
      rw [hlhs, hrhs] at hoperands
      obtain ⟨rfl, rfl, rfl⟩ : lhs = _ ∧ rhs = _ ∧ [] = _ := by simpa using hoperands
      -- There is no third operand that could be left out.
      cases hmore
      exact ⟨_, _, hfirst, hsecond, List.append_nil _⟩
  · rintro ⟨cs₁, cs₂, hlhs, hrhs, rfl⟩
    cases hop : op.isArithmetic with
    | true => exact .arithmetic hop hlhs hrhs
    | false =>
      obtain ⟨hl, hr⟩ := h.resolve_left (by simp [hop])
      rw [← List.append_nil (cs₁ ++ cs₂)]
      exact .comparison hop (by rw [hl, hr]; rfl) hlhs hrhs .stop

theorem evaluates_none_iff {cs : List String} : Expr.none.Evaluates cs ↔ cs = [] := by
  constructor
  · intro h
    cases h
    rfl
  · rintro rfl
    exact .none

theorem evaluates_zeroOf_iff {element : String} {cs : List String} :
    (zeroOf element).Evaluates cs ↔ cs = [] := by
  unfold zeroOf
  constructor
  · intro h
    split_ifs at h
    · cases h
      rfl
    · cases h
      rfl
  · rintro rfl
    split_ifs
    · exact .float
    · exact .int

/-- The zero that is repeated calls nothing. -/
theorem evaluates_zeros_iff {element : String} {size : Expr} {cs : List String} :
    (zeros element size).Evaluates cs ↔ size.Evaluates cs := by
  have hzero : ∀ cs, (Expr.list [zeroOf element]).Evaluates cs ↔ cs = [] := by
    intro cs
    constructor
    · intro h
      cases h with
      | list helements =>
        cases helements with
        | cons he hnil =>
          cases hnil
          rw [evaluates_zeroOf_iff.mp he, List.append_nil]
    · rintro rfl
      have hone : EvaluatesAll [zeroOf element] ([] ++ []) :=
        .cons (evaluates_zeroOf_iff.mpr rfl) .nil
      exact .list hone
  -- The product is written with the list on the left, so its calls come first.
  rw [zeros, evaluates_binary_iff (.inl rfl)]
  simp [hzero]

end Script.Expr

/-- Truth values are not compared. -/
theorem Ty.ne_bool_of_comparable {op : BinOp} {τ : Ty} (h : Typed.comparable op τ = true) :
    τ ≠ .bool := by
  rintro rfl
  cases op <;> cases h

namespace Expr

variable {t : Table} {s : ScopeId}

/-- Only comparisons form chains. -/
theorem HasType.operands_toScript {e : Expr L} {τ : Ty} (h : e.HasType t s τ) (hτ : τ ≠ .bool) :
    (e.toScript t s).operands = [e.toScript t s] := by
  cases h with
  | arithmetic hop =>
    rw [toScript]
    split_ifs
    · rfl
    · simp [Script.Expr.operands, hop]
  | comparison => exact absurd rfl hτ
  | _ => rfl

private theorem evaluatesAll_toScript_iff {es : List (Expr L)}
    (ih : ∀ e ∈ es, ∀ cs, (e.toScript t s).Evaluates cs ↔ cs = e.calls.map Script.safeName)
    (cs : List String) :
    Script.Expr.EvaluatesAll (toScriptAll t s es) cs ↔ cs = (callsAll es).map Script.safeName := by
  induction es generalizing cs with
  | nil =>
    constructor
    · intro h
      cases h
      rfl
    · rintro rfl
      exact .nil
  | cons e es ihs =>
    have hfirst := ih e List.mem_cons_self
    have hrest := ihs fun e he => ih e (List.mem_cons_of_mem _ he)
    rw [callsAll, List.map_append]
    constructor
    · intro h
      cases h with
      | cons he hes => rw [(hfirst _).mp he, (hrest _).mp hes]
    · rintro rfl
      exact .cons ((hfirst _).mpr rfl) ((hrest _).mpr rfl)

/-- The script of an expression calls the functions that the expression calls. -/
theorem HasType.evaluates_toScript_iff {e : Expr L} {τ : Ty} (h : e.HasType t s τ)
    (cs : List String) :
    (e.toScript t s).Evaluates cs ↔ cs = e.calls.map Script.safeName := by
  induction e using Expr.inductionOn generalizing τ cs with
  | int | float | bool | char | str | read =>
    constructor
    · intro h
      cases h
      rfl
    · rintro rfl
      constructor
  | call p callee arguments ih =>
    cases h with
    | call _ hvalues _ _ =>
      have harguments := evaluatesAll_toScript_iff (t := t) (s := s) fun e he cs =>
        have ⟨_, htype⟩ := exists_hasType_of_mem hvalues he
        ih e he htype cs
      -- No function of the program is written like a predefined one.
      rw [toScript, Script.Expr.evaluates_call_iff (Script.safeName_not_mem_reserved _)]
      simp [harguments, calls]
  | index p base position ih =>
    cases h with
    | index _ _ hposition =>
      constructor
      · intro hscript
        cases hscript with
        | subscript hcalls => exact (ih hposition cs).mp hcalls
      · intro hcs
        exact .subscript ((ih hposition cs).mpr hcs)
  | length p operand ih =>
    cases h with
    | length hoperand _ =>
      rw [toScript, Script.Expr.evaluates_predefined_iff (by decide +kernel), ih hoperand, calls]
  | paren p operand ih =>
    cases h with
    | paren hoperand =>
      constructor
      · intro hscript
        cases hscript with
        | paren hcalls => exact (ih hoperand cs).mp hcalls
      · intro hcs
        exact .paren ((ih hoperand cs).mpr hcs)
  | negate p operand ih =>
    cases h with
    | negate hoperand _ =>
      constructor
      · intro hscript
        cases hscript with
        | negate hcalls => exact (ih hoperand cs).mp hcalls
      · intro hcs
        exact .negate ((ih hoperand cs).mpr hcs)
  | binary p op lhs rhs ihl ihr =>
    -- A chain of comparisons would evaluate its operands one by one; typed operands are no chain.
    obtain ⟨σ, hlhs, hrhs, hoperands⟩ : ∃ σ, lhs.HasType t s σ ∧ rhs.HasType t s σ ∧
        (op.isArithmetic = true ∨ (lhs.toScript t s).operands = [lhs.toScript t s] ∧
          (rhs.toScript t s).operands = [rhs.toScript t s]) := by
      cases h with
      | arithmetic hop hlhs hrhs _ => exact ⟨_, hlhs, hrhs, .inl hop⟩
      | comparison _ hlhs hrhs hτ =>
        have hne := Ty.ne_bool_of_comparable hτ
        exact ⟨_, hlhs, hrhs, .inr ⟨hlhs.operands_toScript hne, hrhs.operands_toScript hne⟩⟩
    have hboth : (Script.Expr.binary op (lhs.toScript t s) (rhs.toScript t s)).Evaluates cs ↔
        cs = (calls (.binary p op lhs rhs)).map Script.safeName := by
      simp [Script.Expr.evaluates_binary_iff hoperands, ihl hlhs, ihr hrhs, calls]
    -- The quotient of integers is written as a call of `int`, which is predefined.
    rw [toScript]
    split_ifs with hquotient
    · rw [Script.Expr.wholeQuotient, Script.Expr.evaluates_predefined_iff (by decide +kernel),
        ← hquotient.1, hboth]
    · exact hboth
  | array p elements ih =>
    cases h with
    | array _ htypes _ =>
      have helements := evaluatesAll_toScript_iff (t := t) (s := s)
        (fun e he => ih e he (htypes e he)) cs
      constructor
      · intro hscript
        cases hscript with
        | list hcalls => exact helements.mp hcalls
      · intro hcs
        exact .list (helements.mpr hcs)
  | newArray p element size ih =>
    cases h with
    | newArray _ _ hsize => rw [toScript, Script.Expr.evaluates_zeros_iff, ih hsize, calls]

end Expr

/-! ## Scripts of statements -/

namespace Course

/-- A course with the names that a script has. -/
def written (x : Course) : Course :=
  ⟨x.calls.map Script.safeName, x.ending⟩

@[simp]
theorem written_mk (calls : List String) (ending : Ending) :
    (mk calls ending).written = ⟨calls.map Script.safeName, ending⟩ := rfl

theorem written_after (names : List String) (x : Course) :
    (x.after names).written = x.written.after (names.map Script.safeName) := by
  simp [written, after]

end Course

namespace Script.Stmt

/-- The first statement and the further ones, if each of them has only one course. -/
theorem runsAll_cons_iff {st : Stmt} {sts : List Stmt} {ds : List Bool} {x : Course}
    {rest : List Bool → Course} (hst : ∀ y, st.Runs ds y ↔ y = x.written)
    (hsts : ∀ ds', x.ending = .next ds' → ∀ y, RunsAll sts ds' y ↔ y = (rest ds').written)
    (y : Course) : RunsAll (st :: sts) ds y ↔ y = (x.andThen rest).written := by
  obtain ⟨calls, ending⟩ := x
  constructor
  · intro h
    cases h with
    | cons hfirst hrest =>
      obtain ⟨rfl, rfl⟩ := Course.mk.inj ((hst _).mp hfirst)
      rw [(hsts _ rfl _).mp hrest]
      exact (Course.written_after _ _).symm
    | stop hfirst hend =>
      obtain rfl := (hst _).mp hfirst
      -- A first statement that comes to its end does not stop the others.
      cases ending with
      | next ds' => exact absurd rfl (hend ds')
      | returned | undecided => rfl
  · rintro rfl
    have hfirst := (hst _).mpr rfl
    cases ending with
    | next ds' =>
      have hrest := (hsts ds' rfl _).mpr rfl
      have hall := RunsAll.cons hfirst hrest
      rwa [← Course.written_after] at hall
    | returned | undecided => exact .stop hfirst fun ds' hds' => by cases hds'

theorem runsAll_nil_iff (ds : List Bool) (y : Course) :
    RunsAll [] ds y ↔ y = (Course.calling [] ds).written := by
  constructor
  · intro h
    cases h
    rfl
  · rintro rfl
    exact .nil

theorem runsAll_singleton_iff {st : Stmt} {ds : List Bool} {x : Course}
    (h : ∀ y, st.Runs ds y ↔ y = x.written) (y : Course) :
    RunsAll [st] ds y ↔ y = x.written := by
  have hone := runsAll_cons_iff h (fun ds' _ => runsAll_nil_iff ds') y
  rwa [Course.andThen_calling_nil] at hone

section Values

variable {value : Expr} {names : List String}
  (hvalue : ∀ cs, value.Evaluates cs ↔ cs = names.map safeName)
include hvalue

theorem runs_assign_iff (target : String) (ds : List Bool) (y : Course) :
    (Stmt.assign target value).Runs ds y ↔ y = (Course.calling names ds).written := by
  constructor
  · intro h
    cases h with
    | assign hrun => simp [(hvalue _).mp hrun]
  · rintro rfl
    exact .assign ((hvalue _).mpr rfl)

theorem runs_assignAt_iff {position : Expr} {others : List String}
    (hposition : ∀ cs, position.Evaluates cs ↔ cs = others.map safeName) (target : String)
    (ds : List Bool) (y : Course) :
    (Stmt.assignAt target position value).Runs ds y ↔
      y = (Course.calling (names ++ others) ds).written := by
  constructor
  · intro h
    cases h with
    | assignAt hfirst hsecond => simp [(hvalue _).mp hfirst, (hposition _).mp hsecond]
  · rintro rfl
    rw [Course.calling_eq, Course.written_mk, List.map_append]
    exact .assignAt ((hvalue _).mpr rfl) ((hposition _).mpr rfl)

theorem runs_ret_iff (ds : List Bool) (y : Course) :
    (Stmt.ret (some value)).Runs ds y ↔ y = (Course.mk names .returned).written := by
  constructor
  · intro h
    cases h with
    | retValue hrun => simp [(hvalue _).mp hrun]
  · rintro rfl
    exact .retValue ((hvalue _).mpr rfl)

theorem runs_print_iff (newline : Bool) (ds : List Bool) (y : Course) :
    (Stmt.print newline (some value)).Runs ds y ↔ y = (Course.calling names ds).written := by
  constructor
  · intro h
    cases h with
    | print hrun => simp [(hvalue _).mp hrun]
  · rintro rfl
    exact .print ((hvalue _).mpr rfl)

theorem runs_eval_iff (ds : List Bool) (y : Course) :
    (Stmt.eval value).Runs ds y ↔ y = (Course.calling names ds).written := by
  constructor
  · intro h
    cases h with
    | eval hrun => simp [(hvalue _).mp hrun]
  · rintro rfl
    exact .eval ((hvalue _).mpr rfl)

end Values

section Conditions

variable {condition : Expr} {names : List String}
  (hcondition : ∀ cs, condition.Evaluates cs ↔ cs = names.map safeName)
include hcondition

theorem runs_ifThen_iff {yes : List Stmt} {course : List Bool → Course}
    (hyes : ∀ ds y, RunsAll yes ds y ↔ y = (course ds).written) (ds : List Bool) (y : Course) :
    (Stmt.ifThen condition yes).Runs ds y ↔
      y = ((Course.calling names ds).andThen (.branch course (.calling []))).written := by
  have hnames := (hcondition _).mpr rfl
  -- What a branch adds stands behind the calls of the condition.
  rw [Course.andThen_calling, Course.written_after]
  constructor
  · intro h
    cases h with
    -- Out of decisions and decided against: in both cases only the condition has run.
    | ifOpen hc | ifFalse hc => simp [(hcondition _).mp hc]
    | ifTrue hc hrun => rw [(hcondition _).mp hc, (hyes _ _).mp hrun, Course.branch_true]
  · rintro rfl
    cases ds with
    | nil => simpa using Runs.ifOpen hnames
    | cons d ds =>
      cases d with
      | true => exact .ifTrue hnames ((hyes _ _).mpr rfl)
      | false => simpa using Runs.ifFalse hnames

theorem runs_ifElse_iff {yes no : List Stmt} {course other : List Bool → Course}
    (hyes : ∀ ds y, RunsAll yes ds y ↔ y = (course ds).written)
    (hno : ∀ ds y, RunsAll no ds y ↔ y = (other ds).written) (ds : List Bool) (y : Course) :
    (Stmt.ifElse condition yes no).Runs ds y ↔
      y = ((Course.calling names ds).andThen (.branch course other)).written := by
  have hnames := (hcondition _).mpr rfl
  -- What a branch adds stands behind the calls of the condition.
  rw [Course.andThen_calling, Course.written_after]
  constructor
  · intro h
    cases h with
    | elseOpen hc => simp [(hcondition _).mp hc]
    | elseTrue hc hrun => rw [(hcondition _).mp hc, (hyes _ _).mp hrun, Course.branch_true]
    | elseFalse hc hrun => rw [(hcondition _).mp hc, (hno _ _).mp hrun, Course.branch_false]
  · rintro rfl
    cases ds with
    | nil => simpa using Runs.elseOpen hnames
    | cons d ds =>
      cases d with
      | true => exact .elseTrue hnames ((hyes _ _).mpr rfl)
      | false => exact .elseFalse hnames ((hno _ _).mpr rfl)

/-- A loop does its rounds. There are enough of them if each one uses up a decision. -/
theorem runs_loop_iff {body : List Stmt} {course : List Bool → Course}
    (hbody : ∀ (tail : List Stmt) (rest : List Bool → Course) (ds : List Bool),
      (∀ ds', ds'.length ≤ ds.length → ∀ y, RunsAll tail ds' y ↔ y = (rest ds').written) →
        ∀ y, RunsAll (body ++ tail) ds y ↔ y = ((course ds).andThen rest).written)
    (n : Nat) (ds : List Bool) (hn : ds.length ≤ n) (y : Course) :
    (Stmt.loop condition body).Runs ds y ↔ y = (Course.rounds names course n ds).written := by
  have hnames := (hcondition _).mpr rfl
  induction n generalizing ds y with
  | zero =>
    -- Each round uses up a decision, so without any the loop stops at its condition.
    obtain rfl := List.length_eq_zero_iff.mp (Nat.le_zero.mp hn)
    rw [Course.rounds, Course.andThen_calling, Course.written_after]
    constructor
    · intro h
      cases h with
      | loopOpen hc => simp [(hcondition _).mp hc]
    · rintro rfl
      simpa using Runs.loopOpen hnames
  | succ n ih =>
    rw [Course.rounds, Course.andThen_calling, Course.written_after]
    -- Behind the body the loop stands alone, with fewer decisions.
    have hround : ∀ ds', ds'.length ≤ n → ∀ y,
        RunsAll (body ++ [.loop condition body]) ds' y ↔
          y = ((course ds').andThen (Course.rounds names course n)).written := by
      intro ds' hds'
      exact hbody _ _ ds' fun ds'' hds'' =>
        runsAll_singleton_iff (ih ds'' (Nat.le_trans hds'' hds'))
    constructor
    · intro h
      cases h with
      | loopOpen hc | loopFalse hc => simp [(hcondition _).mp hc]
      | loopTrue hc hrun =>
        rw [(hcondition _).mp hc, (hround _ (Nat.le_of_succ_le_succ hn) _).mp hrun,
          Course.branch_true]
    · rintro rfl
      cases ds with
      | nil => simpa using Runs.loopOpen hnames
      | cons d ds =>
        cases d with
        | true =>
          exact .loopTrue hnames ((hround ds (Nat.le_of_succ_le_succ hn) _).mpr rfl)
        | false => simpa using Runs.loopFalse hnames

end Conditions

end Script.Stmt

section Statements

open Script.Stmt

variable {t : Table} {m : ScopeMap} {s : ScopeId}

/-- The scripts of statements, with further statements of a script behind them. -/
theorem Block.runsAll_map_toScript_iff {sts : List (Stmt L NodeId)}
    (h : ∀ st ∈ sts, ∀ ds y, (st.toScript t m s).Runs ds y ↔ y = (st.course ds).written)
    (tail : List Script.Stmt) (rest : List Bool → Course) (ds : List Bool)
    (htail : ∀ ds', ds'.length ≤ ds.length → ∀ y, RunsAll tail ds' y ↔ y = (rest ds').written)
    (y : Course) :
    RunsAll (sts.map (·.toScript t m s) ++ tail) ds y ↔
      y = ((Block.courseAll sts ds).andThen rest).written := by
  induction sts generalizing ds y with
  | nil => exact htail ds (Nat.le_refl _) y
  | cons st sts ih =>
    rw [Block.courseAll, Course.andThen_assoc]
    refine runsAll_cons_iff (h st List.mem_cons_self ds) (fun ds' hds' => ?_) y
    have hle := st.shortens_course ds ds' hds'
    exact ih (fun st hst => h st (List.mem_cons_of_mem _ hst)) ds' fun ds'' hds'' =>
      htail ds'' (Nat.le_trans hds'' hle)

section Blocks

variable {arguments : List SymbolId} {returns : Option Ty} {b : Block L NodeId}
  (hb : b.WellTyped t m arguments returns) (horderly : b.isOrderly = true)
  (ih : ∀ st ∈ b.statements, ∀ s, st.WellTyped t m arguments returns s → st.isOrderly = true →
    ∀ ds y, (st.toScript t m s).Runs ds y ↔ y = (st.course ds).written)
include hb horderly ih

private theorem Block.runsAll_append_iff (tail : List Script.Stmt) (rest : List Bool → Course)
    (ds : List Bool)
    (htail : ∀ ds', ds'.length ≤ ds.length → ∀ y, RunsAll tail ds' y ↔ y = (rest ds').written)
    (y : Course) :
    RunsAll (b.toScript t m ++ tail) ds y ↔ y = ((b.course ds).andThen rest).written := by
  cases hb with
  | @mk node s sts hnode hsts =>
    rw [Block.isOrderly, Block.areOrderly_eq_all] at horderly
    rw [Block.toScript_of_get? hnode]
    exact Block.runsAll_map_toScript_iff
      (fun st hst => ih st hst s (hsts st hst) (List.all_eq_true.mp horderly st hst))
      tail rest ds htail y

private theorem Block.runsAll_toScript_iff (ds : List Bool) (y : Course) :
    RunsAll (b.toScript t m) ds y ↔ y = (b.course ds).written := by
  have hall := Block.runsAll_append_iff hb horderly ih [] (.calling []) ds
    (fun ds' _ => runsAll_nil_iff ds') y
  rwa [List.append_nil, Course.andThen_calling_nil] at hall

end Blocks

/-- The script of a well-typed orderly statement has one course for all decisions, that of the
statement. -/
theorem Stmt.WellTyped.runs_toScript_iff {arguments : List SymbolId} {returns : Option Ty}
    {st : Stmt L NodeId} (hst : st.WellTyped t m arguments returns s) (h : st.isOrderly = true)
    (ds : List Bool) (y : Course) :
    (st.toScript t m s).Runs ds y ↔ y = (st.course ds).written := by
  induction st using Stmt.inductionOn generalizing s ds y with
  | declare p type name value =>
    cases hst with
    | declare _ _ hvalue =>
      refine runs_assign_iff (fun cs => ?_) _ ds y
      cases value with
      | none => exact Script.Expr.evaluates_none_iff
      | some value =>
        obtain ⟨τ, hτ⟩ := (hvalue value rfl).hasType
        exact hτ.evaluates_toScript_iff cs
  | assign p target value =>
    cases hst with
    | assign _ hvalue =>
      obtain ⟨τ, hτ⟩ := hvalue.hasType
      exact runs_assign_iff hτ.evaluates_toScript_iff _ ds y
  | assignAt p target position value =>
    cases hst with
    | assignAt _ _ _ hposition hvalue =>
      -- The course has the position first, the script has the value first.
      rw [course, of_decide_eq_true h]
      exact runs_assignAt_iff hvalue.evaluates_toScript_iff hposition.evaluates_toScript_iff _ ds y
  | ifThen p condition yes ih =>
    cases hst with
    | ifThen hcondition hyes =>
      exact runs_ifThen_iff hcondition.evaluates_toScript_iff
        (Block.runsAll_toScript_iff hyes h fun st hst s hwell horderly =>
          ih st hst hwell horderly) ds y
  | ifElse p condition yes no ihyes ihno =>
    obtain ⟨hyes, hno⟩ := Bool.and_eq_true_iff.mp h
    cases hst with
    | ifElse hcondition hyes' hno' =>
      exact runs_ifElse_iff hcondition.evaluates_toScript_iff
        (Block.runsAll_toScript_iff hyes' hyes fun st hst s hwell horderly =>
          ihyes st hst hwell horderly)
        (Block.runsAll_toScript_iff hno' hno fun st hst s hwell horderly =>
          ihno st hst hwell horderly) ds y
  | loop p condition body ih =>
    cases hst with
    | loop hcondition hbody =>
      exact runs_loop_iff hcondition.evaluates_toScript_iff
        (Block.runsAll_append_iff hbody h fun st hst s hwell horderly =>
          ih st hst hwell horderly) ds.length ds (Nat.le_refl _) y
  | ret p node value =>
    cases hst with
    | ret _ =>
      constructor
      · intro hrun
        cases hrun
        rfl
      · rintro rfl
        exact .ret
    | retValue _ _ hvalue =>
      obtain ⟨τ, hτ⟩ := hvalue.hasType
      exact runs_ret_iff hτ.evaluates_toScript_iff ds y
  | print p newline value =>
    cases hst with
    | newline =>
      constructor
      · intro hrun
        cases hrun
        rfl
      · rintro rfl
        exact .newline
    | print hvalue _ _ => exact runs_print_iff hvalue.evaluates_toScript_iff newline ds y
  | call p callee values =>
    cases hst with
    | call hcallee hvalues hvoid hreturns =>
      -- The statement is the call as an expression.
      have hcall := Expr.HasType.call (p := p) hcallee hvalues hvoid hreturns
      exact runs_eval_iff hcall.evaluates_toScript_iff ds y

end Statements

end Primer
