import Primer.Tree.Program

/-!
# Names and nesting in a tree

The names that a program gives to functions, parameters and variables or reads them by, in reading
order, and how deep its blocks nest. Names of types are not among the names: a program cannot choose
them.
-/

namespace Primer

variable {L I : Type}

/-! ## Names -/

mutual

/-- The names in an expression. -/
def Expr.names : Expr L → List String
  | .int .. | .float .. | .bool .. | .char .. | .str .. => []
  | .read _ name => [name.text]
  | .call _ callee arguments => callee.text :: Expr.namesAll arguments
  | .index _ base position => base.text :: position.names
  | .length _ operand | .paren _ operand | .negate _ operand => operand.names
  | .binary _ _ lhs rhs => lhs.names ++ rhs.names
  | .array _ elements => Expr.namesAll elements
  | .newArray _ _ size => size.names

/-- The names in several expressions. -/
def Expr.namesAll : List (Expr L) → List String
  | [] => []
  | e :: es => e.names ++ Expr.namesAll es

end

theorem Expr.namesAll_eq_flatMap (es : List (Expr L)) :
    Expr.namesAll es = es.flatMap Expr.names := by
  induction es with
  | nil => rfl
  | cons e es ih => simp [Expr.namesAll, ih]

/-- The names in an expression that may be absent. -/
def Expr.namesOption : Option (Expr L) → List String
  | none => []
  | some e => e.names

mutual

/-- The names in a statement. -/
def Stmt.names : Stmt L I → List String
  | .declare _ _ name value => name.text :: Expr.namesOption value
  | .assign _ target value => target.text :: value.names
  | .assignAt _ target position value => target.text :: (position.names ++ value.names)
  | .ifThen _ condition yes => condition.names ++ yes.names
  | .ifElse _ condition yes no => condition.names ++ (yes.names ++ no.names)
  | .loop _ condition body => condition.names ++ body.names
  | .ret _ _ value => Expr.namesOption value
  | .print _ _ value => Expr.namesOption value
  | .call _ callee arguments => callee.text :: Expr.namesAll arguments

/-- The names in a block. -/
def Block.names : Block L I → List String
  | .mk _ statements => Block.namesAll statements

/-- The names in the statements of a block. -/
def Block.namesAll : List (Stmt L I) → List String
  | [] => []
  | st :: sts => st.names ++ Block.namesAll sts

end

theorem Block.namesAll_eq_flatMap (sts : List (Stmt L I)) :
    Block.namesAll sts = sts.flatMap Stmt.names := by
  induction sts with
  | nil => rfl
  | cons st sts ih => simp [Block.namesAll, ih]

/-- The names in an item. -/
def Item.names : Item L I → List String
  | .function f =>
    f.name.text :: (f.parameters.map (·.name.text) ++ (f.body.map Block.names).getD [])
  | .main e => e.body.names

/-- The names in a program. -/
def Program.names (p : Program L) : List String :=
  p.items.flatMap Item.names

/-! ## Nesting -/

/-- The blocks directly inside a statement. -/
def Stmt.blocks : Stmt L I → List (Block L I)
  | .declare .. | .assign .. | .assignAt .. | .ret .. | .print .. | .call .. => []
  | .ifThen _ _ yes => [yes]
  | .ifElse _ _ yes no => [yes, no]
  | .loop _ _ body => [body]

/-- The block is in the item, at any depth. -/
inductive Item.Contains : Item L I → Block L I → Prop where
  | function {f body} (hbody : f.body = some body) : Contains (.function f) body
  | main {e} : Contains (.main e) e.body
  | nested {i b st b'} (hb : Contains i b) (hst : st ∈ b.statements) (hb' : b' ∈ st.blocks) :
      Contains i b'

mutual

/-- How deep blocks nest in a statement. -/
def Stmt.nesting : Stmt L I → Nat
  | .declare .. | .assign .. | .assignAt .. | .ret .. | .print .. | .call .. => 0
  | .ifThen _ _ yes => yes.nesting
  | .ifElse _ _ yes no => max yes.nesting no.nesting
  | .loop _ _ body => body.nesting

/-- How deep blocks nest in a block, itself included. -/
def Block.nesting : Block L I → Nat
  | .mk _ statements => Block.nestingAll statements + 1

/-- How deep blocks nest in the statements of a block. -/
def Block.nestingAll : List (Stmt L I) → Nat
  | [] => 0
  | st :: sts => max st.nesting (Block.nestingAll sts)

end

/-- A bound on how deep a block nests leaves room for the block itself. -/
theorem Block.exists_eq_succ_of_nesting_le {b : Block L I} {n : Nat} (h : b.nesting ≤ n) :
    ∃ n', n = n' + 1 := by
  cases n with
  | zero =>
    obtain ⟨mark, sts⟩ := b
    cases h
  | succ n => exact ⟨n, rfl⟩

theorem Block.nesting_le_nestingAll {st : Stmt L I} {sts : List (Stmt L I)} (h : st ∈ sts) :
    st.nesting ≤ Block.nestingAll sts := by
  induction sts with
  | nil => cases h
  | cons first rest ih =>
    rw [Block.nestingAll]
    rcases List.mem_cons.mp h with rfl | h
    · exact Nat.le_max_left _ _
    · exact Nat.le_trans (ih h) (Nat.le_max_right _ _)

/-- How deep blocks nest in an item. -/
def Item.nesting : Item L I → Nat
  | .function f => (f.body.map Block.nesting).getD 0
  | .main e => e.body.nesting

end Primer
