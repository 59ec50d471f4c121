import Primer.Proofs.Tree.Nodes

/-!
# Exchanging one part of a tree

Two trees that differ in one place. `Expr.Wraps` puts parentheses around one expression inside
another one, and `Stmt.Wraps` around an expression of a statement. `Program.Exchange` puts one
statement for another somewhere in a program, at any depth; the rest of the program stays as it is.
-/

namespace Primer

variable {L I : Type}

/-! ## Parentheses around one expression -/

/-- The second expression is the first one with parentheses around one occurrence of `e`. They stand
at the place of `e`. -/
inductive Expr.Wraps (e : Expr L) : Expr L → Expr L → Prop where
  | here : Wraps e e (.paren e.place e)
  | call {p callee front x x' rest} (h : Wraps e x x') :
      Wraps e (.call p callee (front ++ x :: rest)) (.call p callee (front ++ x' :: rest))
  | index {p base x x'} (h : Wraps e x x') : Wraps e (.index p base x) (.index p base x')
  | length {p x x'} (h : Wraps e x x') : Wraps e (.length p x) (.length p x')
  | paren {p x x'} (h : Wraps e x x') : Wraps e (.paren p x) (.paren p x')
  | negate {p x x'} (h : Wraps e x x') : Wraps e (.negate p x) (.negate p x')
  | lhs {p op x x' rhs} (h : Wraps e x x') : Wraps e (.binary p op x rhs) (.binary p op x' rhs)
  | rhs {p op lhs x x'} (h : Wraps e x x') : Wraps e (.binary p op lhs x) (.binary p op lhs x')
  | array {p front x x' rest} (h : Wraps e x x') :
      Wraps e (.array p (front ++ x :: rest)) (.array p (front ++ x' :: rest))
  | newArray {p element x x'} (h : Wraps e x x') :
      Wraps e (.newArray p element x) (.newArray p element x')

/-- The second statement is the first one with parentheses around one occurrence of `e` in its own
expressions, those of nested blocks left out. -/
inductive Stmt.Wraps (e : Expr L) : Stmt L I → Stmt L I → Prop where
  | declare {p type name x x'} (h : e.Wraps x x') :
      Wraps e (.declare p type name (some x)) (.declare p type name (some x'))
  | assign {p target x x'} (h : e.Wraps x x') : Wraps e (.assign p target x) (.assign p target x')
  | position {p target x x' value} (h : e.Wraps x x') :
      Wraps e (.assignAt p target x value) (.assignAt p target x' value)
  | value {p target position x x'} (h : e.Wraps x x') :
      Wraps e (.assignAt p target position x) (.assignAt p target position x')
  | ifThen {p x x' yes} (h : e.Wraps x x') : Wraps e (.ifThen p x yes) (.ifThen p x' yes)
  | ifElse {p x x' yes no} (h : e.Wraps x x') : Wraps e (.ifElse p x yes no) (.ifElse p x' yes no)
  | loop {p x x' body} (h : e.Wraps x x') : Wraps e (.loop p x body) (.loop p x' body)
  | ret {p mark x x'} (h : e.Wraps x x') : Wraps e (.ret p mark (some x)) (.ret p mark (some x'))
  | print {p newline x x'} (h : e.Wraps x x') :
      Wraps e (.print p newline (some x)) (.print p newline (some x'))
  | call {p callee front x x' rest} (h : e.Wraps x x') :
      Wraps e (.call p callee (front ++ x :: rest)) (.call p callee (front ++ x' :: rest))

namespace Expr.Wraps

variable {e x x' : Expr L}

theorem place_eq (h : e.Wraps x x') : x'.place = x.place := by
  cases h <;> rfl

/-- The parentheses are around the whole expression, or they are further inside. Then a fresh array
stays one. -/
theorem eq_or_sizeOf_lt (h : e.Wraps x x') :
    (x = e ∧ x' = .paren e.place e) ∨ (sizeOf e < sizeOf x ∧ x'.isNewArray = x.isNewArray) := by
  induction h with
  | here => exact .inl ⟨rfl, rfl⟩
  | @call p callee front x x' rest h ih | @array p front x x' rest h ih =>
    have hmem : sizeOf x < sizeOf (front ++ x :: rest) :=
      List.sizeOf_lt_of_mem (List.mem_append_right _ List.mem_cons_self)
    refine .inr ⟨?_, rfl⟩
    simp only [Expr.call.sizeOf_spec, Expr.array.sizeOf_spec]
    rcases ih with ⟨rfl, -⟩ | ⟨hlt, -⟩ <;> omega
  | index _ ih | length _ ih | paren _ ih | negate _ ih | lhs _ ih | rhs _ ih | newArray _ ih =>
    refine .inr ⟨?_, rfl⟩
    simp only [Expr.index.sizeOf_spec, Expr.length.sizeOf_spec, Expr.paren.sizeOf_spec,
      Expr.negate.sizeOf_spec, Expr.binary.sizeOf_spec, Expr.newArray.sizeOf_spec]
    rcases ih with ⟨rfl, -⟩ | ⟨hlt, -⟩ <;> omega

/-- Only parentheses around the whole of a fresh array make something else of it. -/
theorem isNewArray_eq_of_ne (h : e.Wraps x x') (hne : x ≠ e ∨ e.isNewArray = false) :
    x'.isNewArray = x.isNewArray := by
  rcases h.eq_or_sizeOf_lt with ⟨rfl, rfl⟩ | ⟨-, hsame⟩
  · rcases hne with hne | hfresh
    · exact absurd rfl hne
    · exact hfresh.symm
  · exact hsame

/-- Nothing has parentheses inside that are around all of it. -/
theorem eq_paren (h : e.Wraps e x') : x' = .paren e.place e := by
  rcases h.eq_or_sizeOf_lt with ⟨-, hparen⟩ | ⟨hlt, -⟩
  · exact hparen
  · exact absurd hlt (Nat.lt_irrefl _)

end Expr.Wraps

/-! ## One statement for another -/

/-- The second statement is the first one with the block `b'` for the block `b`. -/
inductive Stmt.Nests (b b' : Block L I) : Stmt L I → Stmt L I → Prop where
  | ifThen {p condition} : Nests b b' (.ifThen p condition b) (.ifThen p condition b')
  | yes {p condition no} : Nests b b' (.ifElse p condition b no) (.ifElse p condition b' no)
  | no {p condition yes} : Nests b b' (.ifElse p condition yes b) (.ifElse p condition yes b')
  | loop {p condition} : Nests b b' (.loop p condition b) (.loop p condition b')

/-- The second block is the first one with `x'` for one statement `x` of the block with a given
mark, which is the block itself or one further inside. -/
inductive Block.Exchange (mark : I) (x x' : Stmt L I) : Block L I → Block L I → Prop where
  | here {front rest} :
      Exchange mark x x' (.mk mark (front ++ x :: rest)) (.mk mark (front ++ x' :: rest))
  | inside {mark' front st st' rest b b'} (hst : Stmt.Nests b b' st st')
      (h : Exchange mark x x' b b') :
      Exchange mark x x' (.mk mark' (front ++ st :: rest)) (.mk mark' (front ++ st' :: rest))

/-- The same for the body of an item. -/
inductive Item.Exchange (mark : I) (x x' : Stmt L I) : Item L I → Item L I → Prop where
  | function {f body body'} (hbody : f.body = some body) (h : body.Exchange mark x x' body') :
      Exchange mark x x' (.function f) (.function { f with body := some body' })
  | main {e body'} (h : e.body.Exchange mark x x' body') :
      Exchange mark x x' (.main e) (.main { e with body := body' })

/-- The same for one item of a program. -/
inductive Program.Exchange (mark : NodeId) (x x' : Stmt L NodeId) :
    Program L → Program L → Prop where
  | mk {root front i i' rest nodeCount} (h : Item.Exchange mark x x' i i') :
      Exchange mark x x' ⟨root, front ++ i :: rest, nodeCount⟩
        ⟨root, front ++ i' :: rest, nodeCount⟩

/-- The second program is the first one with parentheses around one occurrence of `e`, which stands
in the statement `st` of the block with a given mark. -/
def Program.Wraps (e : Expr L) (mark : NodeId) (st : Stmt L NodeId) (p p' : Program L) : Prop :=
  ∃ st', Stmt.Wraps e st st' ∧ Exchange mark st st' p p'

end Primer
