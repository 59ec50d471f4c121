import Primer.Proofs.Tree.Induction

/-!
# The order of calls

A run of a statement calls functions one after the other. Which ones it calls depends on how the
conditions of its conditionals and loops turn out, and on nothing else: the operands of an
expression are all evaluated. So a run is given by the outcomes of the conditions in the order in
which they are tested, its *decisions*, and `Stmt.course` says which calls follow from them.

A loop may use up all decisions. Then the course ends in front of the next one, and the calls up to
there are known. So loops that do not end have courses too, one for each number of decisions.
-/

namespace Primer

variable {L I : Type}

/-! ## Courses -/

/-- How a run ends. -/
inductive Ending where
  /-- It comes to the end, with decisions left over. -/
  | next (decisions : List Bool)
  /-- It returns from the function. -/
  | returned
  /-- It has to decide, and no decision is left. -/
  | undecided
deriving DecidableEq, Repr

/-- The functions that a run calls, in order, and how it ends. -/
structure Course where
  calls : List String
  ending : Ending
deriving DecidableEq, Repr

namespace Course

/-- A course with calls in front. -/
def after (names : List String) (x : Course) : Course :=
  ⟨names ++ x.calls, x.ending⟩

/-- Calls that happen whatever the decisions are. -/
def calling (names : List String) (ds : List Bool) : Course :=
  ⟨names, .next ds⟩

/-- What follows, if the first course comes to its end. -/
def andThen (x : Course) (rest : List Bool → Course) : Course :=
  match x.ending with
  | .next ds => (rest ds).after x.calls
  | _ => x

/-- One of two ways, by the next decision. -/
def branch (yes no : List Bool → Course) : List Bool → Course
  | [] => ⟨[], .undecided⟩
  | true :: ds => yes ds
  | false :: ds => no ds

/-- Rounds of a loop, at most `n` of them: the calls of its condition, and then its body as long as
the condition holds. -/
def rounds (condition : List String) (body : List Bool → Course) : Nat → List Bool → Course
  | 0, ds => (calling condition ds).andThen (branch (fun _ => ⟨[], .undecided⟩) (calling []))
  | n + 1, ds => (calling condition ds).andThen
    (branch (fun ds => (body ds).andThen (rounds condition body n)) (calling []))

@[simp]
theorem calling_eq (names : List String) (ds : List Bool) :
    calling names ds = ⟨names, .next ds⟩ := rfl

@[simp]
theorem after_mk (names calls : List String) (ending : Ending) :
    (mk calls ending).after names = ⟨names ++ calls, ending⟩ := rfl

@[simp]
theorem branch_nil (yes no : List Bool → Course) : branch yes no [] = ⟨[], .undecided⟩ := rfl

@[simp]
theorem branch_true (yes no : List Bool → Course) (ds : List Bool) :
    branch yes no (true :: ds) = yes ds := rfl

@[simp]
theorem branch_false (yes no : List Bool → Course) (ds : List Bool) :
    branch yes no (false :: ds) = no ds := rfl

/-- Nothing follows. -/
theorem andThen_calling_nil (x : Course) : x.andThen (calling []) = x := by
  obtain ⟨calls, ending⟩ := x
  cases ending <;> simp [andThen, calling, after]

theorem andThen_calling (names : List String) (ds : List Bool) (rest : List Bool → Course) :
    (calling names ds).andThen rest = (rest ds).after names := rfl

theorem andThen_assoc (x : Course) (rest last : List Bool → Course) :
    (x.andThen rest).andThen last = x.andThen fun ds => (rest ds).andThen last := by
  obtain ⟨calls, ending⟩ := x
  cases ending with
  | next ds =>
    change ((rest ds).after calls).andThen last = ((rest ds).andThen last).after calls
    cases hrest : (rest ds).ending <;> simp [andThen, hrest, after]
  | returned | undecided => rfl

/-- No decisions come back: what is left over is not longer than what there was. -/
def Shortens (run : List Bool → Course) : Prop :=
  ∀ ds ds', (run ds).ending = .next ds' → ds'.length ≤ ds.length

namespace Shortens

variable {run rest yes no body : List Bool → Course}

theorem calling (names : List String) : Shortens (Course.calling names) := by
  intro ds ds' h
  obtain rfl := Ending.next.inj h
  exact Nat.le_refl _

theorem andThen (hrun : Shortens run) (hrest : Shortens rest) :
    Shortens fun ds => (run ds).andThen rest := by
  intro ds ds' h
  simp only [Course.andThen] at h
  split at h
  next ds₁ hds₁ => exact Nat.le_trans (hrest ds₁ ds' h) (hrun ds ds₁ hds₁)
  next hend => exact absurd h (hend ds')

theorem branch (hyes : Shortens yes) (hno : Shortens no) : Shortens (Course.branch yes no) := by
  intro ds ds' h
  cases ds with
  | nil => cases h
  | cons d ds =>
    cases d with
    | true => exact Nat.le_succ_of_le (hyes ds ds' h)
    | false => exact Nat.le_succ_of_le (hno ds ds' h)

theorem rounds (condition : List String) (hbody : Shortens body) (n : Nat) :
    Shortens (Course.rounds condition body n) := by
  induction n with
  | zero =>
    have hstop : Shortens fun _ => ⟨[], .undecided⟩ := fun _ _ h => by cases h
    exact (calling condition).andThen (hstop.branch (calling []))
  | succ n ih => exact (calling condition).andThen ((hbody.andThen ih).branch (calling []))

end Shortens

end Course

/-! ## Calls of expressions -/

mutual

/-- The functions that an expression calls, in order: the arguments of a call come before it. -/
def Expr.calls : Expr L → List String
  | .int .. | .float .. | .bool .. | .char .. | .str .. | .read .. => []
  | .call _ callee arguments => Expr.callsAll arguments ++ [callee.text]
  | .index _ _ position => position.calls
  | .length _ operand | .paren _ operand | .negate _ operand => operand.calls
  | .binary _ _ lhs rhs => lhs.calls ++ rhs.calls
  | .array _ elements => Expr.callsAll elements
  | .newArray _ _ size => size.calls

/-- The functions that several expressions call. -/
def Expr.callsAll : List (Expr L) → List String
  | [] => []
  | e :: es => e.calls ++ Expr.callsAll es

end

/-- The functions that an expression calls, if there is one. -/
def Expr.callsOption : Option (Expr L) → List String
  | none => []
  | some e => e.calls

/-! ## Courses of statements -/

mutual

/-- The course of a statement. -/
def Stmt.course : Stmt L I → List Bool → Course
  | .declare _ _ _ value, ds | .print _ _ value, ds => .calling (Expr.callsOption value) ds
  | .assign _ _ value, ds => .calling value.calls ds
  | .assignAt _ _ position value, ds => .calling (position.calls ++ value.calls) ds
  | .ifThen _ condition yes, ds =>
    (Course.calling condition.calls ds).andThen (.branch yes.course (.calling []))
  | .ifElse _ condition yes no, ds =>
    (Course.calling condition.calls ds).andThen (.branch yes.course no.course)
  | .loop _ condition body, ds => .rounds condition.calls body.course ds.length ds
  | .ret _ _ value, _ => ⟨Expr.callsOption value, .returned⟩
  | .call _ callee arguments, ds => .calling (Expr.callsAll arguments ++ [callee.text]) ds

/-- The course of a block. -/
def Block.course : Block L I → List Bool → Course
  | .mk _ statements, ds => Block.courseAll statements ds

/-- The course of statements in order. -/
def Block.courseAll : List (Stmt L I) → List Bool → Course
  | [], ds => .calling [] ds
  | st :: sts, ds => (st.course ds).andThen (Block.courseAll sts)

end

/-- Statements that have courses use up decisions one after the other. -/
theorem Block.shortens_courseAll {sts : List (Stmt L I)}
    (h : ∀ st ∈ sts, Course.Shortens st.course) : Course.Shortens (Block.courseAll sts) := by
  induction sts with
  | nil => exact .calling []
  | cons st sts ih =>
    exact (h st List.mem_cons_self).andThen (ih fun st hst => h st (List.mem_cons_of_mem _ hst))

theorem Stmt.shortens_course (st : Stmt L I) : Course.Shortens st.course := by
  induction st using Stmt.inductionOn with
  | declare | assign | assignAt | print | call => exact .calling _
  | ifThen p condition yes ih =>
    obtain ⟨mark, sts⟩ := yes
    exact .andThen (.calling _) (.branch (Block.shortens_courseAll ih) (.calling []))
  | ifElse p condition yes no ihyes ihno =>
    obtain ⟨mark, sts⟩ := yes
    obtain ⟨mark', sts'⟩ := no
    exact .andThen (.calling _)
      (.branch (Block.shortens_courseAll ihyes) (Block.shortens_courseAll ihno))
  | loop p condition body ih =>
    obtain ⟨mark, sts⟩ := body
    intro ds
    exact Course.Shortens.rounds _ (Block.shortens_courseAll ih) ds.length ds
  | ret p mark value => exact fun _ _ h => by cases h

theorem Block.shortens_course (b : Block L I) : Course.Shortens b.course := by
  obtain ⟨mark, sts⟩ := b
  exact Block.shortens_courseAll fun st _ => st.shortens_course

end Primer
