import Primer.Identity
import Primer.Tree.Program

/-!
# Lexical scoping on the tree

Which declaration a name means, read off the tree alone. Declarations are numbered in the order in
which they are written: a function, then its parameters, then the variables of its body at any
depth, then the next item. The *layer* of a block lists what the block declares directly. A name
means the declaration in the innermost layer that has one: a block, the blocks around it, the
parameters of the function, the functions of the program.

Nothing here mentions scopes, tables or the pass that builds them.
-/

namespace Primer

variable {L I : Type}

/-! ## Numbering -/

mutual

/-- How many variables a statement declares, at any depth. -/
def Stmt.variableCount : Stmt L I → Nat
  | .declare .. => 1
  | .assign .. | .assignAt .. | .ret .. | .print .. | .call .. => 0
  | .ifThen _ _ yes => yes.variableCount
  | .ifElse _ _ yes no => yes.variableCount + no.variableCount
  | .loop _ _ body => body.variableCount

/-- How many variables a block declares, at any depth. -/
def Block.variableCount : Block L I → Nat
  | .mk _ statements => Block.variableCountAll statements

/-- How many variables the statements of a block declare, at any depth. -/
def Block.variableCountAll : List (Stmt L I) → Nat
  | [] => 0
  | st :: sts => st.variableCount + Block.variableCountAll sts

end

/-- The statements of a block, each with the number of the first variable that it can declare. -/
def Block.numbered (k : Nat) : List (Stmt L I) → List (Nat × Stmt L I)
  | [] => []
  | st :: sts => (k, st) :: Block.numbered (k + st.variableCount) sts

/-- The blocks directly inside a statement, each with the number of its first variable. -/
def Stmt.numberedBlocks (k : Nat) : Stmt L I → List (Nat × Block L I)
  | .declare .. | .assign .. | .assignAt .. | .ret .. | .print .. | .call .. => []
  | .ifThen _ _ yes => [(k, yes)]
  | .ifElse _ _ yes no => [(k, yes), (k + yes.variableCount, no)]
  | .loop _ _ body => [(k, body)]

/-- How many symbols an item declares: itself, its parameters and its variables. -/
def Item.symbolCount : Item L I → Nat
  | .function f => 1 + f.parameters.length + (f.body.map Block.variableCount).getD 0
  | .main e => 1 + e.body.variableCount

/-- Items with the number of the first symbol of each. -/
def Item.numbered (k : Nat) : List (Item L I) → List (Nat × Item L I)
  | [] => []
  | i :: is => (k, i) :: Item.numbered (k + i.symbolCount) is

/-! ## Layers -/

/-- A declaration: the symbol that stands for it, and the type that is written there, which for a
function is the one it returns. -/
structure Declared where
  symbol : SymbolId
  type : String
  isFunction : Bool
deriving DecidableEq, Repr

/-- Names that are declared side by side. -/
abbrev Layer : Type := List (String × Declared)

/-- What a statement declares in the block that contains it. -/
def Stmt.layer (k : Nat) : Stmt L I → Layer
  | .declare _ type name _ => [(name.text, ⟨⟨k⟩, type.text, false⟩)]
  | _ => []

/-- What the statements of a block declare directly. -/
def Block.layer (k : Nat) (sts : List (Stmt L I)) : Layer :=
  (Block.numbered k sts).flatMap fun (k, st) => st.layer k

/-- The parameters of a function, of which the first has the number `k`. -/
def Parameter.layer : Nat → List (Parameter L) → Layer
  | _, [] => []
  | k, p :: ps => (p.name.text, ⟨⟨k⟩, p.type.text, false⟩) :: Parameter.layer (k + 1) ps

/-- An item as a function of the program. The entry point is called `main`. -/
def Item.declared (k : Nat) : Item L I → String × Declared
  | .function f => (f.name.text, ⟨⟨k⟩, f.returns.text, true⟩)
  | .main _ => ("main", ⟨⟨k⟩, "void", true⟩)

/-- The functions among numbered items. -/
def Item.layer (items : List (Nat × Item L I)) : Layer :=
  items.map fun (k, i) => i.declared k

/-- The items of a program with their numbers. -/
def Program.numberedItems (p : Program L) : List (Nat × Item L NodeId) :=
  Item.numbered 0 p.items

/-- The declaration that a name means, given the layers around it from the innermost outwards. -/
def Layer.meaning (layers : List Layer) (name : String) : Option Declared :=
  layers.findSome? fun layer => layer.lookup name

/-- The blocks of a program: the number of the first variable of the block, and the layers that are
visible inside, its own first. -/
inductive Program.HasBlock (p : Program L) : List Layer → Nat → Block L NodeId → Prop where
  /-- The body of a function sees its own variables, the parameters and the functions. -/
  | function {k f body} (hitem : (k, Item.function f) ∈ p.numberedItems)
      (hbody : f.body = some body) :
      HasBlock p
        [Block.layer (k + 1 + f.parameters.length) body.statements,
          Parameter.layer (k + 1) f.parameters, Item.layer p.numberedItems]
        (k + 1 + f.parameters.length) body
  /-- The body of an entry point sees its own variables and the functions. -/
  | main {k e} (hitem : (k, Item.main e) ∈ p.numberedItems) :
      HasBlock p [Block.layer (k + 1) e.body.statements, Item.layer p.numberedItems] (k + 1) e.body
  /-- A block inside a statement sees what is visible around it. -/
  | nested {layers k b k₁ st k₂ b'} (hb : HasBlock p layers k b)
      (hst : (k₁, st) ∈ Block.numbered k b.statements) (hb' : (k₂, b') ∈ st.numberedBlocks k₁) :
      HasBlock p (Block.layer k₂ b'.statements :: layers) k₂ b'

theorem Block.layer_cons (k : Nat) (st : Stmt L I) (sts : List (Stmt L I)) :
    Block.layer k (st :: sts) = st.layer k ++ Block.layer (k + st.variableCount) sts := by
  simp [Block.layer, Block.numbered]

theorem Layer.meaning_cons (layer : Layer) (layers : List Layer) (name : String) :
    Layer.meaning (layer :: layers) name = (layer.lookup name).or (Layer.meaning layers name) := by
  unfold Layer.meaning
  rw [List.findSome?_cons]
  cases layer.lookup name <;> rfl

end Primer
