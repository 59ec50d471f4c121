import Primer.Machine.Emission
import Primer.Proofs.Tree.Induction

/-!
# What the code of expressions is put together from

The code of an expression consists of pieces of three kinds: single instructions that only work on
the operand stack, loads of variables, and comparisons with two labels of their own.
`Machine.Composed` says so, with the frame before and after, and facts about the code of expressions
are proved for these pieces alone.
-/

namespace Primer

variable {L : Type}

namespace Machine

/-- Whether an instruction only works on the operand stack: it touches neither the flow of control
nor a variable. -/
def Instruction.isPlain : Instruction → Bool
  | .label _ | .jump _ | .jumpIfFalse _ | .ifCompare .. | .ret _ => false
  | .load .. | .store .. | .loadArgument .. | .storeArgument .. => false
  | _ => true

/-- The code is put together from plain instructions, loads and comparisons, and the frame changes
with it. -/
inductive Composed (c : Context) (s : ScopeId) : Frame → Code → Frame → Prop where
  | nil (f : Frame) : Composed c s f [] f
  | plain (f : Frame) {i : Instruction} (h : i.isPlain = true) : Composed c s f [i] f
  | load (f : Frame) (name : String) :
      Composed c s f (c.load s name f).code (c.load s name f).frame
  | compare (f : Frame) (kind : Kind) (condition : Condition) :
      Composed c s f (compare kind condition f.label (f.skipLabels 1).label) (f.skipLabels 2)
  | append {f g h : Frame} {a b : Code} (ha : Composed c s f a g) (hb : Composed c s g b h) :
      Composed c s f (a ++ b) h

variable {c : Context} {s : ScopeId}

/-- An instruction that is left out if there is nothing to build it from. -/
theorem Composed.optional {α : Type} {build : α → Instruction} (h : ∀ x, (build x).isPlain = true)
    (x : Option α) (f : Frame) : Composed c s f (x.toList.map build) f := by
  cases x with
  | none => exact .nil f
  | some x => exact .plain f (h x)

theorem composed_operator (op : BinOp) (type : Ty) (f : Frame) :
    Composed c s f (operator op type f).code (operator op type f).frame := by
  unfold operator
  cases operation op with
  | inl arithmetic => exact .plain f rfl
  | inr condition => exact .compare f _ condition

theorem composed_elementOf (base : Ty) (f : Frame) : Composed c s f (elementOf base).2 f := by
  unfold elementOf
  split
  · exact .plain f rfl
  · exact .optional (fun _ => rfl) _ f

theorem composed_callOf (t : Table) (r : ScopeId) (callee : String) (arguments : Nat) (f : Frame) :
    Composed c s f (callOf t r callee arguments).2 f := by
  unfold callOf
  cases t.callee? r callee with
  | none => exact .nil f
  | some symbol =>
    simp only
    split
    · exact .plain f rfl
    · exact .nil f

end Machine

namespace Expr

open Machine

variable {c : Context} {s : ScopeId}

private theorem composed_emitAll_of {es : List (Expr L)}
    (ih : ∀ e ∈ es, ∀ f, Composed c s f (e.emit c s f).code (e.emit c s f).frame) (f : Frame) :
    Composed c s f (emitAll c s es f).1 (emitAll c s es f).2 := by
  induction es generalizing f with
  | nil => exact .nil f
  | cons e es ihs =>
    exact (ih e List.mem_cons_self f).append
      (ihs (fun e he => ih e (List.mem_cons_of_mem _ he)) _)

private theorem composed_emitElements_of {es : List (Expr L)}
    (ih : ∀ e ∈ es, ∀ f, Composed c s f (e.emit c s f).code (e.emit c s f).frame)
    (element : Element) (n : Nat) (f : Frame) :
    Composed c s f (emitElements c s element n es f).1 (emitElements c s element n es f).2 := by
  induction es generalizing f n with
  | nil => exact .nil f
  | cons e es ihs =>
    have hdup : Composed c s f [.dup, .push (.int n)] f := .append (.plain f rfl) (.plain f rfl)
    have hstore : Composed c s (e.emit c s f).frame [.arrayStore element] (e.emit c s f).frame :=
      .plain _ rfl
    exact ((hdup.append (ih e List.mem_cons_self f)).append hstore).append
      (ihs (fun e he => ih e (List.mem_cons_of_mem _ he)) _ _)

/-- The pieces of an expression. -/
theorem composed_emit (e : Expr L) (f : Frame) :
    Composed c s f (e.emit c s f).code (e.emit c s f).frame := by
  induction e using Expr.inductionOn generalizing f with
  | int | float | bool | char | str => exact .plain f rfl
  | read p name => exact .load f name.text
  | call p callee arguments ih =>
    exact (composed_emitAll_of ih f).append (composed_callOf c.table s callee.text _ _)
  | index p base position ih =>
    exact ((Composed.load f base.text).append (ih _)).append (composed_elementOf _ _)
  | length p operand ih =>
    refine (ih f).append (.plain _ ?_)
    split <;> rfl
  | paren p operand ih => exact ih f
  | negate p operand ih => exact (ih f).append (.plain _ rfl)
  | binary p op lhs rhs ihl ihr =>
    exact ((ihl f).append (ihr _)).append (composed_operator op _ _)
  | array p elements ih =>
    simp only [emit]
    split
    -- The elements are left out with the array if it cannot be built.
    · exact .nil f
    next element _ =>
      have hnew : Composed c s f [.push (.int elements.length), .newArray element] f :=
        .append (.plain f rfl) (.plain f rfl)
      exact hnew.append (composed_emitElements_of ih element 0 f)
  | newArray p element size ih => exact (ih f).append (.optional (fun _ => rfl) _ _)

theorem composed_emitAll (es : List (Expr L)) (f : Frame) :
    Composed c s f (emitAll c s es f).1 (emitAll c s es f).2 :=
  composed_emitAll_of (fun e _ => e.composed_emit) f

theorem composed_emitElements (element : Element) (n : Nat) (es : List (Expr L)) (f : Frame) :
    Composed c s f (emitElements c s element n es f).1 (emitElements c s element n es f).2 :=
  composed_emitElements_of (fun e _ => e.composed_emit) element n f

end Expr

end Primer
