/-!
# Trees

The tree of a program: items made of statements made of expressions. Trees are annotated twice over.

* `L` is the type of *places*. Every node and every written name has one.
* `I` is the type of *marks* on the nodes that open a scope or ask for one: items, blocks and
  returns.

A finished program has locations for places and node numbers for marks (`Program`); a draft leaves
either open at every node (`Primer.Tree.Draft`). Because most operations never look at places, they
are defined for all `L`, and replacing the places of a tree commutes with them.
-/

namespace Primer

/-! ## Names and operators -/

/-- A name as it is written in a program, of a variable, a function or a type. -/
structure Name (L : Type) where
  text : String
  place : L
deriving DecidableEq, Repr

/-- The operators with two operands. -/
inductive BinOp where
  | add
  | sub
  | mul
  | div
  | less
  | greater
  | equal
  | notEqual
deriving DecidableEq, Repr, Inhabited

namespace BinOp

/-- All operators. -/
def all : List BinOp :=
  [.add, .sub, .mul, .div, .less, .greater, .equal, .notEqual]

/-- Whether an operator computes a number. -/
def isArithmetic : BinOp → Bool
  | .add | .sub | .mul | .div => true
  | _ => false

/-- Whether an operator compares by order. -/
def isRelational : BinOp → Bool
  | .less | .greater => true
  | _ => false

/-- An operator as it is written. -/
def text : BinOp → String
  | .add => "+"
  | .sub => "-"
  | .mul => "*"
  | .div => "/"
  | .less => "<"
  | .greater => ">"
  | .equal => "=="
  | .notEqual => "!="

/-- The operator that is written in a given way. -/
def ofText? (text : String) : Option BinOp :=
  all.find? (·.text = text)

end BinOp

/-! ## Expressions -/

/-- Expressions. A float is kept as the 64 bits of its binary representation. -/
inductive Expr (L : Type) where
  | int (place : L) (value : Int)
  | float (place : L) (bits : UInt64)
  | bool (place : L) (value : Bool)
  | char (place : L) (value : Char)
  | str (place : L) (value : String)
  | read (place : L) (name : Name L)
  | call (place : L) (callee : Name L) (arguments : List (Expr L))
  | index (place : L) (base : Name L) (position : Expr L)
  | length (place : L) (operand : Expr L)
  | paren (place : L) (operand : Expr L)
  | negate (place : L) (operand : Expr L)
  | binary (place : L) (op : BinOp) (lhs rhs : Expr L)
  /-- An array given by its elements. -/
  | array (place : L) (elements : List (Expr L))
  /-- A fresh array of a given size. -/
  | newArray (place : L) (element : Name L) (size : Expr L)

namespace Expr

variable {L : Type}

/-- The place of an expression. -/
def place : Expr L → L
  | .int p _ | .float p _ | .bool p _ | .char p _ | .str p _ | .read p _ | .call p _ _
  | .index p _ _ | .length p _ | .paren p _ | .negate p _ | .binary p _ _ _ | .array p _
  | .newArray p _ _ => p

/-- Whether an expression is directly a fresh array. -/
def isNewArray : Expr L → Bool
  | .newArray .. => true
  | _ => false

end Expr

/-! ## Statements and blocks -/

mutual

/-- Statements. -/
inductive Stmt (L I : Type) where
  /-- Declares a variable, with or without a first value. -/
  | declare (place : L) (type name : Name L) (value : Option (Expr L))
  | assign (place : L) (target : Name L) (value : Expr L)
  /-- Assigns to one element of an array. -/
  | assignAt (place : L) (target : Name L) (position value : Expr L)
  | ifThen (place : L) (condition : Expr L) (yes : Block L I)
  | ifElse (place : L) (condition : Expr L) (yes no : Block L I)
  | loop (place : L) (condition : Expr L) (body : Block L I)
  | ret (place : L) (mark : I) (value : Option (Expr L))
  /-- Prints a value, if there is one, and then a line end, if one is asked for. -/
  | print (place : L) (newline : Bool) (value : Option (Expr L))
  | call (place : L) (callee : Name L) (arguments : List (Expr L))

/-- Blocks: statements with a scope of their own. -/
inductive Block (L I : Type) where
  | mk (mark : I) (statements : List (Stmt L I))

end

namespace Block

variable {L I : Type}

/-- The mark of a block. -/
def mark : Block L I → I
  | .mk mark _ => mark

/-- The statements of a block. -/
def statements : Block L I → List (Stmt L I)
  | .mk _ statements => statements

end Block

/-! ## Items and programs -/

/-- A parameter of a function. -/
structure Parameter (L : Type) where
  type : Name L
  name : Name L
deriving DecidableEq, Repr

/-- A function of the program. The body is absent if none was written. -/
structure Function (L I : Type) where
  place : L
  mark : I
  returns : Name L
  name : Name L
  parameters : List (Parameter L)
  body : Option (Block L I)

/-- The statements with which a program starts. -/
structure EntryPoint (L I : Type) where
  place : L
  mark : I
  body : Block L I

/-- What a program consists of. -/
inductive Item (L I : Type) where
  | function (f : Function L I)
  | main (m : EntryPoint L I)

end Primer
