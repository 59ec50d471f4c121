import Primer.Source.Location
import Primer.Tree.Program

/-!
# Drafts

A *draft* is a tree in which a node may lack its place and its number. Finishing a draft goes
through it bottom-up with a *cursor*, which holds the current location and the next free number.

* Children are finished before their parent, in reading order.
* A node with a place of its own moves the cursor there, and the cursor stays for all later nodes. A
  node without one takes the current location, and so do its names.
* A binary expression spans its operands instead. Its own place still moves the cursor.
* A number is handed out to every item and then to its body, to the blocks of a conditional, to the
  body of a loop, to every return and, last of all, to the root. A number that the draft prescribes
  replaces the one handed out, which stays used up.
-/

namespace Primer

/-- A draft leaves places and numbers open. -/
abbrev Draft (T : Type → Type → Type) : Type :=
  T (Option Location) (Option NodeId)

/-- The state of finishing a draft. -/
structure Cursor where
  /-- The location of nodes that have none of their own. -/
  here : Location
  /-- The next free node number. -/
  next : Nat

namespace Cursor

/-- Finishing starts at the unknown location with number zero. -/
def start : Cursor := ⟨.unknown, 0⟩

/-- The number to hand out, unless another one is prescribed. -/
def number (c : Cursor) (prescribed : Option NodeId) : NodeId :=
  prescribed.getD ⟨c.next⟩

/-- The cursor after `n` numbers were handed out. -/
def skip (c : Cursor) (n : Nat) : Cursor :=
  { c with next := c.next + n }

/-- The cursor at another location. -/
def moveTo (c : Cursor) (here : Location) : Cursor :=
  { c with here := here }

/-- The cursor at the place of a node, if the node has one. -/
def visit (c : Cursor) (place : Option Location) : Cursor :=
  c.moveTo (place.getD c.here)

end Cursor

/-! ## Names and expressions -/

namespace Name

/-- A name without a place of its own stands at the current location. -/
def settle (here : Location) (n : Name (Option Location)) : Name Location :=
  ⟨n.text, n.place.getD here⟩

end Name

namespace Expr

mutual

/-- Finishes an expression, given the current location; the second result is the location after it.
-/
def settle (here : Location) : Expr (Option Location) → Expr Location × Location
  | .int p v => let here := p.getD here; (.int here v, here)
  | .float p v => let here := p.getD here; (.float here v, here)
  | .bool p v => let here := p.getD here; (.bool here v, here)
  | .char p v => let here := p.getD here; (.char here v, here)
  | .str p v => let here := p.getD here; (.str here v, here)
  | .read p name => let here := p.getD here; (.read here (name.settle here), here)
  | .call p callee arguments =>
    let (arguments, here) := settleAll here arguments
    -- Every location falls back to the last one that was given before it.
    let here := p.getD here
    (.call here (callee.settle here) arguments, here)
  | .index p base position =>
    let (position, here) := settle here position
    let here := p.getD here
    (.index here (base.settle here) position, here)
  | .length p operand =>
    let (operand, here) := settle here operand
    let here := p.getD here
    (.length here operand, here)
  | .paren p operand =>
    let (operand, here) := settle here operand
    let here := p.getD here
    (.paren here operand, here)
  | .negate p operand =>
    let (operand, here) := settle here operand
    let here := p.getD here
    (.negate here operand, here)
  | .binary p op lhs rhs =>
    let (lhs, here) := settle here lhs
    let (rhs, here) := settle here rhs
    -- An operation spans its operands, wherever it is said to be.
    (.binary (lhs.place.span rhs.place) op lhs rhs, p.getD here)
  | .array p elements =>
    let (elements, here) := settleAll here elements
    let here := p.getD here
    (.array here elements, here)
  | .newArray p element size =>
    let (size, here) := settle here size
    let here := p.getD here
    (.newArray here (element.settle here) size, here)

/-- Finishes expressions from left to right. -/
def settleAll (here : Location) :
    List (Expr (Option Location)) → List (Expr Location) × Location
  | [] => ([], here)
  | e :: es =>
    let (e, here) := settle here e
    let (es, here) := settleAll here es
    (e :: es, here)

end

/-- Finishes an expression that may be absent. -/
def settleOption (here : Location) :
    Option (Expr (Option Location)) → Option (Expr Location) × Location
  | none => (none, here)
  | some e =>
    let (e, here) := settle here e
    (some e, here)

end Expr

/-! ## Statements -/

namespace Stmt

mutual

/-- Finishes a statement; the second result is the cursor after it. -/
def settle (c : Cursor) : Draft Stmt → Stmt Location NodeId × Cursor
  | .declare p type name value =>
    let (value, here) := Expr.settleOption c.here value
    let c := (c.moveTo here).visit p
    (.declare c.here (type.settle c.here) (name.settle c.here) value, c)
  | .assign p target value =>
    let (value, here) := value.settle c.here
    let c := (c.moveTo here).visit p
    (.assign c.here (target.settle c.here) value, c)
  | .assignAt p target position value =>
    let (position, here) := position.settle c.here
    let (value, here) := value.settle here
    let c := (c.moveTo here).visit p
    (.assignAt c.here (target.settle c.here) position value, c)
  | .ifThen p condition (.mk yesMark yes) =>
    let (condition, here) := condition.settle c.here
    let (yes, c) := settleAll (c.moveTo here) yes
    let c := c.visit p
    -- A block draws its number when it is closed, after everything inside it.
    (.ifThen c.here condition (.mk (c.number yesMark) yes), c.skip 1)
  | .ifElse p condition (.mk yesMark yes) (.mk noMark no) =>
    let (condition, here) := condition.settle c.here
    let (yes, c) := settleAll (c.moveTo here) yes
    let (no, c) := settleAll c no
    let c := c.visit p
    (.ifElse c.here condition (.mk (c.number yesMark) yes) (.mk ((c.skip 1).number noMark) no),
      c.skip 2)
  | .loop p condition (.mk bodyMark body) =>
    let (condition, here) := condition.settle c.here
    let (body, c) := settleAll (c.moveTo here) body
    let c := c.visit p
    (.loop c.here condition (.mk (c.number bodyMark) body), c.skip 1)
  | .ret p mark value =>
    let (value, here) := Expr.settleOption c.here value
    let c := (c.moveTo here).visit p
    (.ret c.here (c.number mark) value, c.skip 1)
  | .print p newline value =>
    let (value, here) := Expr.settleOption c.here value
    let c := (c.moveTo here).visit p
    (.print c.here newline value, c)
  | .call p callee arguments =>
    let (arguments, here) := Expr.settleAll c.here arguments
    let c := (c.moveTo here).visit p
    (.call c.here (callee.settle c.here) arguments, c)

/-- Finishes statements in order. -/
def settleAll (c : Cursor) : List (Draft Stmt) → List (Stmt Location NodeId) × Cursor
  | [] => ([], c)
  | s :: ss =>
    let (s, c) := settle c s
    let (ss, c) := settleAll c ss
    (s :: ss, c)

end

end Stmt

/-! ## Items and programs -/

namespace Parameter

/-- A parameter whose names lack places stands where its function does. -/
def settle (here : Location) (p : Parameter (Option Location)) : Parameter Location :=
  ⟨p.type.settle here, p.name.settle here⟩

end Parameter

namespace Item

/-- Finishes an item. The item has the first of its two numbers and the body the second; both are
used up even if there is no body. -/
def settle (c : Cursor) : Draft Item → Item Location NodeId × Cursor
  | .main m =>
    let (body, c) := Stmt.settleAll c m.body.statements
    let c := c.visit m.place
    (.main
      { place := c.here
        mark := c.number m.mark
        body := .mk ((c.skip 1).number m.body.mark) body },
      c.skip 2)
  | .function f =>
    let (statements, c) := Stmt.settleAll c ((f.body.map Block.statements).getD [])
    let c := c.visit f.place
    (.function
      { place := c.here
        mark := c.number f.mark
        returns := f.returns.settle c.here
        name := f.name.settle c.here
        parameters := f.parameters.map (·.settle c.here)
        body := f.body.map fun body => .mk ((c.skip 1).number body.mark) statements },
      c.skip 2)

/-- Finishes items in order. -/
def settleAll (c : Cursor) : List (Draft Item) → List (Item Location NodeId) × Cursor
  | [] => ([], c)
  | i :: is =>
    let (i, c) := settle c i
    let (is, c) := settleAll c is
    (i :: is, c)

end Item

namespace Program

/-- Finishes a draft of a program. The root takes the last number. -/
def ofDraft (items : List (Draft Item)) : Program Location :=
  let (items, c) := Item.settleAll .start items
  { root := ⟨c.next⟩, items, nodeCount := c.next + 1 }

end Program

end Primer
