import Primer.Proofs.Machine.Routine
import Primer.Proofs.Machine.Typed
import Primer.Proofs.Script.CallOrder
import Primer.Proofs.Semantics.Execution

/-!
# Code and scripts call functions in the same order

`Code.Runs` follows machine code from a position on and notes the calls. It knows no values: where
the machine tests a condition of the program, the next decision tells the way, and where it compares
two operands, both ways are open. Still there is only one course for given decisions, because the
two ways of a comparison meet again without a call in between.

`Code.Follows` says which course a piece of code takes, wherever it stands in a body. The code of a
well-typed statement takes the course of the statement (`Stmt.Emits.follows`), and so does the
script of the statement if it is orderly. `Program.calls_in_order` puts both together.
-/

namespace Primer

open Machine

namespace Course

/-- The course goes on, if it comes to its end, and what follows satisfies `rest`. -/
def Continues (x : Course) (rest : List Bool → Course → Prop) (y : Course) : Prop :=
  match x.ending with
  | .next ds => ∃ z, rest ds z ∧ y = z.after x.calls
  | _ => y = x

variable {rest rest' : List Bool → Course → Prop}

theorem continues_calling_nil (ds : List Bool) (y : Course) :
    (calling [] ds).Continues rest y ↔ rest ds y := by
  constructor
  · rintro ⟨z, hz, rfl⟩
    exact hz
  · intro hy
    exact ⟨y, hy, rfl⟩

/-- Nothing follows. -/
theorem continues_calling_iff (x y : Course) :
    x.Continues (fun ds z => z = calling [] ds) y ↔ y = x := by
  obtain ⟨calls, ending⟩ := x
  cases ending <;> simp [Continues]

theorem continues_andThen (x : Course) (next : List Bool → Course) (y : Course) :
    (x.andThen next).Continues rest y ↔ x.Continues (fun ds => (next ds).Continues rest) y := by
  obtain ⟨calls, ending⟩ := x
  cases ending with
  -- A course that has ended is not continued on either side.
  | returned | undecided => exact Iff.rfl
  | next ds =>
    change ((next ds).after calls).Continues rest y ↔
      ∃ z, (next ds).Continues rest z ∧ y = z.after calls
    cases hnext : (next ds).ending with
    | returned | undecided => simp [Continues, after, hnext]
    | next ds' =>
      simp only [Continues, after, hnext]
      constructor
      -- Both sides put the calls of the two courses in front; only the grouping differs.
      · rintro ⟨z, hz, rfl⟩
        exact ⟨_, ⟨z, hz, rfl⟩, by simp⟩
      · rintro ⟨_, ⟨z, hz, rfl⟩, rfl⟩
        exact ⟨z, hz, by simp⟩

/-- Only what follows the decisions that are left over matters. -/
theorem continues_congr {x : Course}
    (h : ∀ ds, x.ending = .next ds → ∀ z, rest ds z ↔ rest' ds z) (y : Course) :
    x.Continues rest y ↔ x.Continues rest' y := by
  obtain ⟨calls, ending⟩ := x
  cases ending with
  | returned | undecided => exact Iff.rfl
  | next ds => exact exists_congr fun z => and_congr_left fun _ => h ds rfl z

end Course

namespace Machine

/-- Whether the machine just goes on behind the instruction, without a call. -/
def Instruction.passes : Instruction → Bool
  | .jump _ | .jumpIfFalse _ | .ifCompare .. | .call .. | .ret _ => false
  | _ => true

namespace Code

/-! ## Runs of code -/

/-- A run of code from a position on, with given decisions. It comes to its end where the code ends.
-/
inductive Runs (code : Code) : Nat → List Bool → Course → Prop where
  | through {i ds} (hi : code[i]? = none) : Runs code i ds (.calling [] ds)
  | pass {i ds x instruction} (hi : code[i]? = some instruction)
      (hpasses : instruction.passes = true) (h : Runs code (i + 1) ds x) : Runs code i ds x
  | call {i ds x callee signature} (hi : code[i]? = some (.call callee signature))
      (h : Runs code (i + 1) ds x) : Runs code i ds (x.after [callee])
  | jump {i k ds x l} (hi : code[i]? = some (.jump l)) (hl : position? code l = some k)
      (h : Runs code k ds x) : Runs code i ds x
  | undecided {i l} (hi : code[i]? = some (.jumpIfFalse l)) : Runs code i [] ⟨[], .undecided⟩
  | fall {i ds x l} (hi : code[i]? = some (.jumpIfFalse l)) (h : Runs code (i + 1) ds x) :
      Runs code i (true :: ds) x
  | leap {i k ds x l} (hi : code[i]? = some (.jumpIfFalse l)) (hl : position? code l = some k)
      (h : Runs code k ds x) : Runs code i (false :: ds) x
  /-- How the operands compare is left open. -/
  | compareFalse {i ds x kind condition l} (hi : code[i]? = some (.ifCompare kind condition l))
      (h : Runs code (i + 1) ds x) : Runs code i ds x
  | compareTrue {i k ds x kind condition l} (hi : code[i]? = some (.ifCompare kind condition l))
      (hl : position? code l = some k) (h : Runs code k ds x) : Runs code i ds x
  | ret {i ds kind} (hi : code[i]? = some (.ret kind)) : Runs code i ds ⟨[], .returned⟩

section Steps

variable {code : Code} {i k : Nat} {ds : List Bool} {y : Course} {l : Label}

theorem runs_through_iff (hi : code[i]? = none) : Runs code i ds y ↔ y = .calling [] ds := by
  constructor
  · intro h
    cases h with
    | through => rfl
    | _ => simp_all
  · rintro rfl
    exact .through hi

theorem runs_pass_iff {instruction : Instruction} (hi : code[i]? = some instruction)
    (hpasses : instruction.passes = true) : Runs code i ds y ↔ Runs code (i + 1) ds y := by
  constructor
  · intro h
    cases h with
    | pass _ _ h => exact h
    | through hi' =>
      rw [hi] at hi'
      cases hi'
    -- The other rules are for instructions that do not pass.
    | undecided hi' | ret hi' | call hi' _ | fall hi' _ | compareFalse hi' _ | jump hi' _ _
    | leap hi' _ _ | compareTrue hi' _ _ =>
      obtain rfl := Option.some.inj (hi.symm.trans hi')
      cases hpasses
  · exact .pass hi hpasses

theorem runs_call_iff {callee : String} {signature : Signature}
    (hi : code[i]? = some (.call callee signature)) :
    Runs code i ds y ↔ ∃ z, Runs code (i + 1) ds z ∧ y = z.after [callee] := by
  constructor
  · intro h
    cases h with
    | call hi' h =>
      obtain ⟨rfl, -⟩ := Instruction.call.inj (Option.some.inj (hi.symm.trans hi'))
      exact ⟨_, h, rfl⟩
    | _ => simp_all [Instruction.passes]
  · rintro ⟨z, hz, rfl⟩
    exact .call hi hz

theorem runs_jump_iff (hi : code[i]? = some (.jump l)) (hl : position? code l = some k) :
    Runs code i ds y ↔ Runs code k ds y := by
  constructor
  · intro h
    cases h with
    | jump hi' hl' h => simp_all
    | _ => simp_all [Instruction.passes]
  · exact .jump hi hl

theorem runs_undecided_iff (hi : code[i]? = some (.jumpIfFalse l)) :
    Runs code i [] y ↔ y = ⟨[], .undecided⟩ := by
  constructor
  · intro h
    cases h with
    | undecided => rfl
    | _ => simp_all [Instruction.passes]
  · rintro rfl
    exact .undecided hi

theorem runs_fall_iff (hi : code[i]? = some (.jumpIfFalse l)) :
    Runs code i (true :: ds) y ↔ Runs code (i + 1) ds y := by
  constructor
  · intro h
    cases h with
    | fall _ h => exact h
    | _ => simp_all [Instruction.passes]
  · exact .fall hi

theorem runs_leap_iff (hi : code[i]? = some (.jumpIfFalse l)) (hl : position? code l = some k) :
    Runs code i (false :: ds) y ↔ Runs code k ds y := by
  constructor
  · intro h
    cases h with
    | leap hi' hl' h => simp_all
    | _ => simp_all [Instruction.passes]
  · exact .leap hi hl

theorem runs_ifCompare_iff {kind : Kind} {condition : Condition}
    (hi : code[i]? = some (.ifCompare kind condition l)) (hl : position? code l = some k) :
    Runs code i ds y ↔ Runs code (i + 1) ds y ∨ Runs code k ds y := by
  constructor
  · intro h
    cases h with
    | compareFalse _ h => exact .inl h
    | compareTrue hi' hl' h => simp_all
    | _ => simp_all [Instruction.passes]
  · rintro (h | h)
    · exact .compareFalse hi h
    · exact .compareTrue hi hl h

theorem runs_ret_iff {kind : Option Kind} (hi : code[i]? = some (.ret kind)) :
    Runs code i ds y ↔ y = ⟨[], .returned⟩ := by
  constructor
  · intro h
    cases h with
    | ret => rfl
    | _ => simp_all [Instruction.passes]
  · rintro rfl
    exact .ret hi

end Steps

/-! ## Courses of pieces of code -/

/-- The code takes the course, wherever it stands in a body that sets no label twice. -/
def Follows (code : Code) (course : List Bool → Course) : Prop :=
  ∀ (body : Code) (i : Nat), (labels body).Nodup → At body i code → ∀ ds y,
    Runs body i ds y ↔ (course ds).Continues (Runs body (i + code.length)) y

namespace Follows

variable {a b condition yes no : Code} {course other : List Bool → Course} {names : List String}

theorem nil : Follows [] (.calling []) :=
  fun _ _ _ _ ds y => (Course.continues_calling_nil ds y).symm

theorem append (ha : Follows a course) (hb : Follows b other) :
    Follows (a ++ b) fun ds => (course ds).andThen other := by
  intro body i hlabels hat ds y
  rw [ha body i hlabels hat.left, Course.continues_andThen, List.length_append, ← Nat.add_assoc]
  exact Course.continues_congr (fun ds' _ => hb body _ hlabels hat.right ds') y

/-- An instruction behind which the machine goes on. -/
theorem pass (instruction : Instruction) (h : instruction.passes = true) :
    Follows [instruction] (.calling []) := by
  intro body i _ hat ds y
  have hi : body[i]? = some instruction := hat 0 _ rfl
  rw [runs_pass_iff hi h]
  exact (Course.continues_calling_nil ds y).symm

/-- Behind other code, code without calls makes no difference. -/
theorem append_quiet (ha : Follows a course) (hb : Follows b (.calling [])) :
    Follows (a ++ b) course := by
  simpa only [Course.andThen_calling_nil] using ha.append hb

theorem append_label (ha : Follows a course) (l : Label) : Follows (a ++ [.label l]) course :=
  ha.append_quiet (pass (.label l) rfl)

/-- An instruction that is left out if there is nothing to build it from. -/
theorem optional {α : Type} {build : α → Instruction} (h : ∀ x, (build x).passes = true)
    (x : Option α) : Follows (x.toList.map build) (.calling []) := by
  cases x with
  | none => exact nil
  | some x => exact pass _ (h x)

theorem call (callee : String) (signature : Signature) :
    Follows [.call callee signature] (.calling [callee]) :=
  fun _ _ _ hat _ _ => runs_call_iff (hat 0 _ rfl)

theorem ret (kind : Option Kind) : Follows [.ret kind] fun _ => ⟨[], .returned⟩ :=
  fun _ _ _ hat _ _ => runs_ret_iff (hat 0 _ rfl)

theorem append_ret (ha : Follows a (.calling names)) (kind : Option Kind) :
    Follows (a ++ [.ret kind]) fun _ => ⟨names, .returned⟩ := by
  simpa only [Course.andThen_calling, Course.after_mk, List.append_nil] using ha.append (ret kind)

/-- Both ways of a comparison end at the second label. -/
theorem compare (kind : Kind) (test : Condition) (yes done : Label) :
    Follows (Machine.compare kind test yes done) (.calling []) := by
  intro body i hlabels hat ds y
  have hfirst : body[i]? = some (.ifCompare kind test yes) := hat 0 _ rfl
  -- The last of the six instructions is reached in either way, and nothing is called before.
  have hdone : Runs body (i + 5) ds y ↔ Runs body (i + 6) ds y := runs_pass_iff (hat 5 _ rfl) rfl
  have hno : Runs body (i + 1) ds y ↔ Runs body (i + 6) ds y := by
    rw [runs_pass_iff (hat 1 _ rfl) rfl,
      runs_jump_iff (hat 2 _ rfl) (position?_eq hlabels (hat 5 _ rfl)), hdone]
  have hyes : Runs body (i + 3) ds y ↔ Runs body (i + 6) ds y := by
    rw [runs_pass_iff (hat 3 _ rfl) rfl, runs_pass_iff (hat 4 _ rfl) rfl, hdone]
  rw [Course.continues_calling_nil,
    runs_ifCompare_iff hfirst (position?_eq hlabels (hat 3 _ rfl)), hno, hyes, or_self]
  rfl

/-- Code that stands alone takes its course to the end. -/
theorem runs_iff (h : Follows a course) (hlabels : (labels a).Nodup) (ds : List Bool) (y : Course) :
    Runs a 0 ds y ↔ y = course ds := by
  -- The body is the code itself, and what follows it is its end.
  have hwhole : At a 0 a := fun n x hx => by rwa [Nat.zero_add]
  have hend : a[0 + a.length]? = none := by simp
  rw [h a 0 hlabels hwhole, Course.continues_congr fun ds _ z => runs_through_iff hend]
  exact Course.continues_calling_iff _ y

/-- Code that is skipped if the condition fails. -/
theorem skip (hcondition : Follows condition (.calling names)) (hyes : Follows yes course)
    (l : Label) :
    Follows (condition ++ [.jumpIfFalse l] ++ yes ++ [.label l]) fun ds =>
      (Course.calling names ds).andThen (.branch course (.calling [])) := by
  have htested : Follows ([.jumpIfFalse l] ++ (yes ++ [.label l]))
      (.branch course (.calling [])) := by
    intro body i hlabels hat ds y
    -- Where the jump stands and where it leads to.
    have hjump : body[i]? = some (.jumpIfFalse l) := hat.left 0 _ rfl
    have htarget : body[i + 1 + yes.length]? = some (.label l) := hat.right.right 0 _ rfl
    rw [List.length_append, ← Nat.add_assoc]
    cases ds with
    | nil => exact runs_undecided_iff hjump
    | cons d ds =>
      cases d with
      | true =>
        rw [runs_fall_iff hjump]
        exact hyes.append_label l body (i + 1) hlabels hat.right ds y
      | false =>
        rw [runs_leap_iff hjump (position?_eq hlabels htarget), runs_pass_iff htarget rfl,
          Course.branch_false, Course.continues_calling_nil, List.length_append, ← Nat.add_assoc]
        rfl
  simpa only [List.append_assoc] using hcondition.append htested

/-- Two pieces of code, of which the condition chooses one. -/
theorem choice (hcondition : Follows condition (.calling names)) (hyes : Follows yes course)
    (hno : Follows no other) (skip done : Label) :
    Follows (condition ++ [.jumpIfFalse skip] ++ yes ++ [.jump done, .label skip] ++ no ++
      [.label done]) fun ds => (Course.calling names ds).andThen (.branch course other) := by
  have htested : Follows ([.jumpIfFalse skip] ++ (yes ++ ([.jump done, .label skip] ++
      (no ++ [.label done])))) (.branch course other) := by
    intro body i hlabels hat ds y
    -- The first piece ends in a jump over the second one, to the label behind it.
    have hjump : body[i]? = some (.jumpIfFalse skip) := hat.left 0 _ rfl
    have hleave : body[i + 1 + yes.length]? = some (.jump done) := hat.right.right.left 0 _ rfl
    have hskip : body[i + 1 + yes.length + 1]? = some (.label skip) :=
      hat.right.right.left 1 _ rfl
    have hdone : body[i + 1 + yes.length + 2 + no.length]? = some (.label done) :=
      hat.right.right.right.right 0 _ rfl
    rw [List.length_append, List.length_append, List.length_append, ← Nat.add_assoc,
      ← Nat.add_assoc, ← Nat.add_assoc]
    cases ds with
    | nil => exact runs_undecided_iff hjump
    | cons d ds =>
      cases d with
      | true =>
        rw [runs_fall_iff hjump, hyes body (i + 1) hlabels hat.right.left]
        refine Course.continues_congr (fun ds' _ z => ?_) y
        rw [runs_jump_iff hleave (position?_eq hlabels hdone), runs_pass_iff hdone rfl,
          List.length_append, ← Nat.add_assoc]
        rfl
      | false =>
        rw [runs_leap_iff hjump (position?_eq hlabels hskip), runs_pass_iff hskip rfl]
        exact hno.append_label done body _ hlabels hat.right.right.right ds y
  simpa only [List.append_assoc] using hcondition.append htested

/-- Rounds from a position `i` on: at `j` the condition is known, and behind the body the run is at
`i` again. Every round uses up a decision, so there are enough of them. -/
theorem runs_rounds_iff {body : Code} {i j k : Nat} (hshortens : Course.Shortens course)
    (hstart : ∀ ds y, Runs body i ds y ↔ (Course.calling names ds).Continues (Runs body j) y)
    (hopen : ∀ y, Runs body j [] y ↔ y = ⟨[], .undecided⟩)
    (hround : ∀ ds y, Runs body j (true :: ds) y ↔ (course ds).Continues (Runs body i) y)
    (hleave : ∀ ds y, Runs body j (false :: ds) y ↔ Runs body k ds y) (n : Nat) (ds : List Bool)
    (hn : ds.length ≤ n) (y : Course) :
    Runs body i ds y ↔ (Course.rounds names course n ds).Continues (Runs body k) y := by
  induction n generalizing ds y with
  | zero =>
    -- Each round uses up a decision, so without any the first condition is also the last.
    obtain rfl := List.length_eq_zero_iff.mp (Nat.le_zero.mp hn)
    rw [hstart, Course.rounds, Course.continues_andThen]
    refine Course.continues_congr (fun ds' hds' z => ?_) y
    obtain rfl := Ending.next.inj hds'
    exact hopen z
  | succ n ih =>
    rw [hstart, Course.rounds, Course.continues_andThen]
    refine Course.continues_congr (fun ds' hds' z => ?_) y
    obtain rfl := Ending.next.inj hds'
    cases ds with
    | nil => exact hopen z
    | cons d ds =>
      cases d with
      | true =>
        rw [hround, Course.branch_true, Course.continues_andThen]
        refine Course.continues_congr (fun ds' hds' z => ?_) z
        -- The body uses decisions up and never adds any, so the bound still holds behind it.
        have hle := hshortens ds ds' hds'
        exact ih ds' (Nat.le_trans hle (Nat.le_of_succ_le_succ hn)) z
      | false => rw [hleave, Course.branch_false, Course.continues_calling_nil]

theorem loop (hcondition : Follows condition (.calling names)) (hyes : Follows yes course)
    (hshortens : Course.Shortens course) (top done : Label) :
    Follows ([.label top] ++ condition ++ [.jumpIfFalse done] ++ yes ++ [.jump top, .label done])
      fun ds => Course.rounds names course ds.length ds := by
  -- Associated to the right, so that each piece is found by going right once more.
  have hrounds : Follows ([.label top] ++ (condition ++ ([.jumpIfFalse done] ++ (yes ++
      [.jump top, .label done])))) fun ds => Course.rounds names course ds.length ds := by
    intro body i hlabels hat ds y
    rw [List.length_append, List.length_append, List.length_append, List.length_append,
      ← Nat.add_assoc, ← Nat.add_assoc, ← Nat.add_assoc, ← Nat.add_assoc]
    have htop : body[i]? = some (.label top) := hat.left 0 _ rfl
    have hjump : body[i + 1 + condition.length]? = some (.jumpIfFalse done) :=
      hat.right.right.left 0 _ rfl
    have hback : body[i + 1 + condition.length + 1 + yes.length]? = some (.jump top) :=
      hat.right.right.right.right 0 _ rfl
    have hdone : body[i + 1 + condition.length + 1 + yes.length + 1]? = some (.label done) :=
      hat.right.right.right.right 1 _ rfl
    -- One goal for each way through the loop: its start, a round and the exit.
    refine runs_rounds_iff hshortens (fun ds y => ?_) (fun y => runs_undecided_iff hjump)
      (fun ds y => ?_) (fun ds y => ?_) ds.length ds (Nat.le_refl _) y
    · rw [runs_pass_iff htop rfl]
      exact hcondition body (i + 1) hlabels hat.right.left ds y
    · rw [runs_fall_iff hjump]
      refine (hyes body _ hlabels hat.right.right.right.left ds y).trans ?_
      exact Course.continues_congr
        (fun ds' _ z => runs_jump_iff hback (position?_eq hlabels htop)) y
    · rw [runs_leap_iff hjump (position?_eq hlabels hdone), runs_pass_iff hdone rfl]
      rfl
  simpa only [List.append_assoc] using hrounds

end Follows

end Code

end Machine

/-! ## Emitted code -/

section Emission

open Machine Machine.Code

variable {L : Type} {c : Context} {m : ScopeMap} {s : ScopeId}

theorem Machine.Context.follows_load (name : String) (f : Frame) :
    Follows (c.load s name f).code (.calling []) := by
  unfold load
  split
  next storage type f' _ => exact .pass _ (by cases storage <;> rfl)
  · exact .nil

theorem Machine.Context.follows_store (name : String) (f : Frame) :
    Follows (c.store s name f).1 (.calling []) := by
  unfold store
  split
  next storage type f' _ => exact .pass _ (by cases storage <;> rfl)
  · exact .nil

theorem Machine.follows_elementOf (base : Ty) : Follows (elementOf base).2 (.calling []) := by
  unfold elementOf
  split_ifs
  · exact .pass _ rfl
  · exact .optional (fun _ => rfl) _

theorem Machine.follows_operator (op : BinOp) (type : Ty) (f : Frame) :
    Follows (operator op type f).code (.calling []) := by
  unfold operator
  cases operation op with
  | inl arithmetic => exact .pass _ rfl
  | inr condition => exact .compare _ condition _ _

namespace Expr

private theorem follows_emitAll_of {es : List (Expr L)}
    (ih : ∀ e ∈ es, ∀ f, Follows (e.emit c s f).code (.calling e.calls)) (f : Frame) :
    Follows (emitAll c s es f).1 (.calling (callsAll es)) := by
  induction es generalizing f with
  | nil => exact .nil
  | cons e es ihs =>
    exact (ih e List.mem_cons_self f).append
      (ihs (fun e he => ih e (List.mem_cons_of_mem _ he)) _)

private theorem follows_emitElements_of {es : List (Expr L)}
    (ih : ∀ e ∈ es, ∀ f, Follows (e.emit c s f).code (.calling e.calls)) (element : Element)
    (position : Nat) (f : Frame) :
    Follows (emitElements c s element position es f).1 (.calling (callsAll es)) := by
  induction es generalizing position f with
  | nil => exact .nil
  | cons e es ihs =>
    have hplace : Follows [.dup, .push (.int position)] (.calling []) :=
      Follows.append (.pass .dup rfl) (.pass (.push (.int position)) rfl)
    have hfirst := (hplace.append (ih e List.mem_cons_self f)).append_quiet
      (.pass (.arrayStore element) rfl)
    exact hfirst.append (ihs (fun e he => ih e (List.mem_cons_of_mem _ he)) _ _)

/-- The code of a well-typed expression calls the functions that the expression calls. -/
theorem HasType.follows_emit {e : Expr L} {τ : Ty} (h : e.HasType c.table s τ) (f : Frame) :
    Follows (e.emit c s f).code (.calling e.calls) := by
  induction e using Expr.inductionOn generalizing τ f with
  | int | float | bool | char | str => exact .pass _ rfl
  | read p name => exact Context.follows_load name.text f
  | call p callee arguments ih =>
    cases h with
    | @call _ _ _ g hcallee harguments _ _ =>
      have hlength : g.parameters.length = arguments.length := by
        simpa using harguments.length_eq.symm
      -- A callee that is found and takes that many arguments is not left out.
      rw [emit_call hcallee hlength]
      refine (follows_emitAll_of (fun e he f => ?_) f).append (.call callee.text _)
      obtain ⟨σ, hσ⟩ := exists_hasType_of_mem harguments he
      exact ih e he hσ f
  | index p base position ih =>
    cases h with
    | index _ _ hposition =>
      exact ((Context.follows_load base.text f).append (ih hposition _)).append_quiet
        (follows_elementOf _)
  | length p operand ih =>
    cases h with
    | length hoperand _ =>
      refine (ih hoperand f).append_quiet (.pass _ ?_)
      split_ifs <;> rfl
  | paren p operand ih =>
    cases h with
    | paren hoperand => exact ih hoperand f
  | negate p operand ih =>
    cases h with
    | negate hoperand _ => exact (ih hoperand f).append_quiet (.pass _ rfl)
  | binary p op lhs rhs ihl ihr =>
    cases h with
    | arithmetic _ hlhs hrhs _ | comparison _ hlhs hrhs _ =>
      exact ((ihl hlhs f).append (ihr hrhs _)).append_quiet (follows_operator op _ _)
  | array p elements ih =>
    cases h with
    | @array _ _ τ σ hne helements hτ =>
      -- There are arrays of these elements, so none of them is left out.
      obtain ⟨element, helement⟩ := Ty.exists_element_of_arrayOf? hτ
      rw [emit_array hne helements helement hτ]
      have hfresh : Follows [.push (.int elements.length), .newArray element] (.calling []) :=
        Follows.append (.pass (.push (.int elements.length)) rfl) (.pass (.newArray element) rfl)
      exact hfresh.append
        (follows_emitElements_of (fun e he f => ih e he (helements e he) f) element 0 f)
  | newArray p element size ih =>
    cases h with
    | newArray _ _ hsize => exact (ih hsize f).append_quiet (.optional (fun _ => rfl) _)

end Expr

mutual

/-- The code of a well-typed statement takes the course of the statement. -/
theorem Stmt.Emits.follows {arguments : List SymbolId} {returns : Option Ty} {s : ScopeId}
    {f f' : Frame} {code : Code} : {st : Stmt L NodeId} → st.Emits c m s f code f' →
      st.WellTyped c.table m arguments returns s → Follows code st.course
  | _, .undeclared hnone, .declare hlocal _ _ => by
    -- A well-typed declaration is bound in its scope.
    rw [hnone] at hlocal
    cases hlocal
  | _, .declare _, _ => .nil
  | _, .declareWith _, .declare _ _ hvalue => by
    obtain ⟨τ, hτ⟩ := (hvalue _ rfl).hasType
    exact (hτ.follows_emit _).append_quiet (.pass _ rfl)
  | _, .assign, .assign _ hvalue => by
    obtain ⟨τ, hτ⟩ := hvalue.hasType
    exact (hτ.follows_emit _).append_quiet (Context.follows_store _ _)
  | _, .assignAt _ _, .assignAt _ _ _ hposition hvalue =>
    (((Context.follows_load _ _).append (hposition.follows_emit _)).append
      (hvalue.follows_emit _)).append_quiet (.optional (fun _ => rfl) _)
  | _, .ifThen _ hyes, .ifThen hcondition hyes' =>
    .skip (hcondition.follows_emit _) (hyes.follows hyes') _
  | _, .ifElse _ hyes hno, .ifElse hcondition hyes' hno' =>
    .choice (hcondition.follows_emit _) (hyes.follows hyes') (hno.follows hno') _ _
  | _, .loop _ hbody, .loop hcondition hbody' =>
    .loop (hcondition.follows_emit _) (hbody.follows hbody') (Block.shortens_course _) _ _
  | _, .ret, _ => .ret none
  | _, .retValue, .retValue _ _ hvalue => by
    obtain ⟨τ, hτ⟩ := hvalue.hasType
    exact (hτ.follows_emit _).append_ret _
  | _, .newline, _ => .pass _ rfl
  | _, .print, .print hvalue _ _ => (hvalue.follows_emit _).append_quiet (.pass _ rfl)
  | .call p callee values, .call hcall, .call hcallee hvalues hvoid hreturns => by
    -- The statement is the call as an expression, whose value is dropped.
    have hcode := (Expr.HasType.call (p := p) hcallee hvalues hvoid hreturns).follows_emit f
    simp only [Expr.emit, hcall] at hcode
    refine hcode.append_quiet ?_
    split_ifs
    · exact .nil
    · exact .pass _ rfl

theorem Block.Emits.follows {arguments : List SymbolId} {returns : Option Ty} {f f' : Frame}
    {code : Code} : {b : Block L NodeId} → b.Emits c m f code f' →
      b.WellTyped c.table m arguments returns → Follows code b.course
  | _, .mk hnode hsts, .mk hnode' hsts' => by
    obtain rfl := Option.some.inj (hnode.symm.trans hnode')
    exact hsts.follows hsts'

theorem Block.EmitsAll.follows {arguments : List SymbolId} {returns : Option Ty} {s : ScopeId}
    {f f' : Frame} {code : Code} : {sts : List (Stmt L NodeId)} →
      Block.EmitsAll c m s sts f code f' →
      (∀ st ∈ sts, st.WellTyped c.table m arguments returns s) →
      Follows code (Block.courseAll sts)
  | _, .nil, _ => .nil
  | _, .cons hst hsts, hwell =>
    (hst.follows (hwell _ List.mem_cons_self)).append
      (hsts.follows fun st hmem => hwell st (List.mem_cons_of_mem _ hmem))

end

/-- A well-typed statement is emitted as code that takes the course of the statement. -/
theorem Stmt.WellTyped.exists_emit_runs {arguments : List SymbolId} {returns : Option Ty}
    {st : Stmt L NodeId} (h : st.WellTyped c.table m arguments returns s) (f : Frame) :
    ∃ code f', st.emit c m s f = .ok (code, f') ∧
      ∀ ds y, Runs code 0 ds y ↔ y = st.course ds := by
  obtain ⟨code, f', hcode⟩ := h.exists_emits f
  exact ⟨code, f', hcode.emit_eq, (hcode.follows h).runs_iff hcode.numbered.labels.nodup⟩

end Emission

/-! ## Accepted programs -/

/-- In an accepted program, the code and the script of every orderly statement call functions in the
same order: for all decisions both have one course, and it is that of the statement. -/
theorem Program.calls_in_order {p : Program Location} {a : Analysis} (hp : p.Distinct)
    (ha : p.analyze = .ok a) (haccepted : a.isAccepted = true) {layers : List Layer} {k : Nat}
    {b : Block Location NodeId} (hb : p.HasBlock layers k b) :
    ∃ s, a.scopes.get? b.mark = some s ∧ ∀ st ∈ b.statements, st.isOrderly = true →
      ∀ c : Context, c.table = a.table → ∀ f : Frame,
        ∃ code f', st.emit c a.scopes s f = .ok (code, f') ∧ ∀ ds y,
          (Code.Runs code 0 ds y ↔ y = st.course ds) ∧
            ((st.toScript a.table a.scopes s).Runs ds y ↔ y = (st.course ds).written) := by
  obtain ⟨arguments, returns, hwell⟩ := hb.wellTyped hp ha haccepted
  cases hwell with
  | @mk node s sts hnode hsts =>
    refine ⟨s, hnode, ?_⟩
    intro st hst horderly c hc f
    have hst := hsts st hst
    -- Code and script are compared with the course of the statement, not with each other.
    obtain ⟨code, f', hcode, hruns⟩ := Stmt.WellTyped.exists_emit_runs (c := c) (hc ▸ hst) f
    exact ⟨code, f', hcode, fun ds y => ⟨hruns ds y, hst.runs_toScript_iff horderly ds y⟩⟩

/-- A loop whose rounds differ, and a function with a reserved name:
`bool more() { return false; }`, `int first() { return 0; }`, `int second() { return 1; }`,
`int len(int n) { return n; }`,
`main { int[] a = [1, 2]; while (more()) { if (first() > len(second())) { a[first()] = 3; }`
`else { a[0] = first() + second(); } } }` -/
def Program.uneven : Program Location :=
  let written (text : String) : Name (Option Location) := ⟨text, none⟩
  let call (name : String) (arguments : List (Expr (Option Location))) :
      Expr (Option Location) := .call none (written name) arguments
  let function (type name : String) (parameters : List (Parameter (Option Location)))
      (value : Expr (Option Location)) : Draft Item :=
    .function ⟨none, none, written type, written name, parameters,
      some (.mk none [.ret none none (some value)])⟩
  Program.ofDraft
    [function "bool" "more" [] (.bool none false),
      function "int" "first" [] (.int none 0),
      function "int" "second" [] (.int none 1),
      function "int" "len" [⟨written "int", written "n"⟩] (.read none (written "n")),
      .main ⟨none, none, .mk none
        [.declare none (written "int[]") (written "a")
            (some (.array none [.int none 1, .int none 2])),
          .loop none (call "more" []) (.mk none
            [.ifElse none (.binary none .greater (call "first" [])
                (call "len" [call "second" []]))
              (.mk none [.assignAt none (written "a") (call "first" []) (.int none 3)])
              (.mk none [.assignAt none (written "a") (.int none 0)
                (.binary none .add (call "first" []) (call "second" []))])])]⟩]

/-- Two rounds of the loop, one by either way of the conditional. -/
theorem Program.calls_in_order_uneven :
    Program.uneven.Distinct ∧ ∃ a s e st code f', Program.uneven.analyze = .ok a ∧
      a.isAccepted = true ∧ .main e ∈ Program.uneven.items ∧ a.scopes.get? e.body.mark = some s ∧
      st ∈ e.body.statements ∧ st.isOrderly = true ∧
      st.emit ⟨a.table, []⟩ a.scopes s (.start 1) = .ok (code, f') ∧
      ∀ y, (Code.Runs code 0 [true, true, true, false, false] y ↔
          y = ⟨["more", "first", "second", "len", "first", "more", "first", "second", "len",
            "first", "second", "more"], .next []⟩) ∧
        ((st.toScript a.table a.scopes s).Runs [true, true, true, false, false] y ↔
          y = ⟨["more", "first", "second", "ofp_len", "first", "more", "first", "second", "ofp_len",
            "first", "second", "more"], .next []⟩) := by
  have hdistinct : Program.uneven.Distinct := Program.distinct_ofDraft _ (by decide)
  obtain ⟨a, ha, haccepted, -⟩ := Program.exists_accepted (p := Program.uneven) (fun _ => true)
    (by decide +kernel)
  -- The source course is evaluated; code and script are then given by the theorem.
  obtain ⟨k, e, st, hitem, hst, horderly, hcourse⟩ : ∃ k e st,
      (k, Item.main e) ∈ Program.uneven.numberedItems ∧ st ∈ e.body.statements ∧
      st.isOrderly = true ∧ st.course [true, true, true, false, false] =
        ⟨["more", "first", "second", "len", "first", "more", "first", "second", "len", "first",
          "second", "more"], .next []⟩ :=
    ⟨_, _, _, List.mem_cons_of_mem _ (List.mem_cons_of_mem _ (List.mem_cons_of_mem _
      (List.mem_cons_of_mem _ List.mem_cons_self))), List.mem_cons_of_mem _ List.mem_cons_self,
      rfl, rfl⟩
  obtain ⟨s, hs, hruns⟩ := Program.calls_in_order hdistinct ha haccepted (.main hitem)
  obtain ⟨code, f', hcode, hcourses⟩ := hruns st hst horderly ⟨a.table, []⟩ rfl (.start 1)
  have hwritten : (st.course [true, true, true, false, false]).written =
      ⟨["more", "first", "second", "ofp_len", "first", "more", "first", "second", "ofp_len",
        "first", "second", "more"], .next []⟩ := by
    rw [hcourse]
    decide +kernel
  refine ⟨hdistinct, a, s, e, st, code, f', ha, haccepted, Item.mem_of_mem_numbered hitem, hs, hst,
    horderly, hcode, fun y => ?_⟩
  rw [← hcourse, ← hwritten]
  exact hcourses _ y

/-- `int f() { print("f"); return 0; }`, `int g() { print("g"); return 1; }`,
`main { int[] a = new int[1]; a[f()] = g(); }` -/
def Program.disorderly : Program Location :=
  let written (text : String) : Name (Option Location) := ⟨text, none⟩
  let function (name : String) (value : Int) : Draft Item :=
    .function ⟨none, none, written "int", written name, [], some (.mk none
      [.print none false (some (.str none name)), .ret none none (some (.int none value))])⟩
  Program.ofDraft
    [function "f" 0, function "g" 1,
      .main ⟨none, none, .mk none
        [.declare none (written "int[]") (written "a")
            (some (.newArray none (written "int") (.int none 1))),
          .assignAt none (written "a") (.call none (written "f") [])
            (.call none (written "g") [])]⟩]

/-- The code of the assignment calls `f` and then `g`, its script calls `g` and then `f`. -/
theorem Program.calls_of_disorderly_differ :
    ∃ a s e st code f', Program.disorderly.analyze = .ok a ∧ a.isAccepted = true ∧
      .main e ∈ Program.disorderly.items ∧ a.scopes.get? e.body.mark = some s ∧
      st ∈ e.body.statements ∧ st.emit ⟨a.table, []⟩ a.scopes s (.start 1) = .ok (code, f') ∧
      (∀ y, Code.Runs code 0 [] y ↔ y = ⟨["f", "g"], .next []⟩) ∧
      ∀ y, (st.toScript a.table a.scopes s).Runs [] y ↔ y = ⟨["g", "f"], .next []⟩ := by
  have hdistinct : Program.disorderly.Distinct := Program.distinct_ofDraft _ (by decide)
  obtain ⟨a, ha, haccepted, -⟩ := Program.exists_accepted (p := Program.disorderly)
    (fun _ => true) (by decide +kernel)
  have hitem : (_, Item.main _) ∈ Program.disorderly.numberedItems :=
    List.mem_cons_of_mem _ (List.mem_cons_of_mem _ List.mem_cons_self)
  obtain ⟨arguments, returns, hwell⟩ :=
    (Program.HasBlock.main hitem).wellTyped hdistinct ha haccepted
  cases hwell with
  | @mk node s sts hnode hsts =>
    have hst := hsts _ (List.mem_cons_of_mem _ List.mem_cons_self)
    obtain ⟨code, f', hcode, hruns⟩ := hst.exists_emit_runs (c := ⟨a.table, []⟩) (.start 1)
    refine ⟨a, s, _, _, code, f', ha, haccepted, Item.mem_of_mem_numbered hitem, hnode,
      List.mem_cons_of_mem _ List.mem_cons_self, hcode, hruns [], ?_⟩
    cases hst with
    | assignAt _ _ _ hposition hvalue =>
      -- The script has the value first.
      exact Script.Stmt.runs_assignAt_iff hvalue.evaluates_toScript_iff
        hposition.evaluates_toScript_iff "a" []

end Primer
