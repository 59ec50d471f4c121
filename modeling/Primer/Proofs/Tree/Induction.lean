import Primer.Tree

/-!
# Induction on trees

Expressions contain lists of expressions, and statements contain blocks of statements. The induction
principles here hand out the hypothesis for every member of such a list, so that a proof has one
case for each form of the tree and none for lists.
-/

namespace Primer

variable {L I : Type}

/-- Induction on expressions. -/
theorem Expr.inductionOn {motive : Expr L → Prop} (e : Expr L)
    (int : ∀ p n, motive (.int p n))
    (float : ∀ p bits, motive (.float p bits))
    (bool : ∀ p b, motive (.bool p b))
    (char : ∀ p c, motive (.char p c))
    (str : ∀ p s, motive (.str p s))
    (read : ∀ p name, motive (.read p name))
    (call : ∀ p callee arguments, (∀ e ∈ arguments, motive e) → motive (.call p callee arguments))
    (index : ∀ p base position, motive position → motive (.index p base position))
    (length : ∀ p operand, motive operand → motive (.length p operand))
    (paren : ∀ p operand, motive operand → motive (.paren p operand))
    (negate : ∀ p operand, motive operand → motive (.negate p operand))
    (binary : ∀ p op lhs rhs, motive lhs → motive rhs → motive (.binary p op lhs rhs))
    (array : ∀ p elements, (∀ e ∈ elements, motive e) → motive (.array p elements))
    (newArray : ∀ p element size, motive size → motive (.newArray p element size)) :
    motive e := by
  -- The second motive speaks of every member of a list.
  refine @Expr.rec L motive (fun es => ∀ e ∈ es, motive e)
    int float bool char str read call index length paren negate binary array newArray ?_ ?_ e
  · intro e he
    exact absurd he List.not_mem_nil
  · intro e es he hes x hx
    rcases List.mem_cons.mp hx with rfl | hx
    · exact he
    · exact hes x hx

/-- Induction on statements. The statements of a nested block count as parts. -/
theorem Stmt.inductionOn {motive : Stmt L I → Prop} (st : Stmt L I)
    (declare : ∀ p type name value, motive (.declare p type name value))
    (assign : ∀ p target value, motive (.assign p target value))
    (assignAt : ∀ p target position value, motive (.assignAt p target position value))
    (ifThen : ∀ p condition yes, (∀ st ∈ yes.statements, motive st) →
      motive (.ifThen p condition yes))
    (ifElse : ∀ p condition yes no, (∀ st ∈ yes.statements, motive st) →
      (∀ st ∈ no.statements, motive st) → motive (.ifElse p condition yes no))
    (loop : ∀ p condition body, (∀ st ∈ body.statements, motive st) →
      motive (.loop p condition body))
    (ret : ∀ p mark value, motive (.ret p mark value))
    (print : ∀ p newline value, motive (.print p newline value))
    (call : ∀ p callee arguments, motive (.call p callee arguments)) :
    motive st := by
  -- The recursor has three motives; the ones for blocks and lists speak of the members.
  refine @Stmt.rec L I motive (fun b => ∀ st ∈ b.statements, motive st)
    (fun sts => ∀ st ∈ sts, motive st)
    declare assign assignAt ifThen ifElse loop ret print call ?_ ?_ ?_ st
  · intro mark sts hsts
    exact hsts
  · intro st hst
    exact absurd hst List.not_mem_nil
  · intro st sts hst hsts x hx
    rcases List.mem_cons.mp hx with rfl | hx
    · exact hst
    · exact hsts x hx

end Primer
