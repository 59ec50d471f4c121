/-!
# Types of the language

Two types agree only if they are the same: there are no conversions. Nine types have a name in
programs. The other two are `error`, which every ill-typed expression gets, and `args`, which only
the signature of the entry point mentions.
-/

namespace Primer

/-- The static types. -/
inductive Ty where
  | int
  | float
  | bool
  | char
  | string
  | intArray
  | floatArray
  | charArray
  | void
  /-- The type of every ill-typed expression. -/
  | error
  /-- The command-line arguments that the entry point is handed. -/
  | args
deriving DecidableEq, Repr, Inhabited

namespace Ty

/-- A type as it is written. -/
def text : Ty → String
  | .int => "int"
  | .float => "float"
  | .bool => "bool"
  | .char => "char"
  | .string => "string"
  | .intArray => "int[]"
  | .floatArray => "float[]"
  | .charArray => "char[]"
  | .void => "void"
  | .error => "error"
  | .args => "string[]"

/-- The types that programs can name. -/
def nameable : List Ty :=
  [.int, .float, .bool, .char, .string, .intArray, .floatArray, .charArray, .void]

/-- The nameable type of a given name. -/
def named? (name : String) : Option Ty :=
  nameable.find? (·.text = name)

/-- The type of the elements of an array or a string. -/
def element? : Ty → Option Ty
  | .intArray => some .int
  | .floatArray => some .float
  | .charArray | .string => some .char
  | .args => some .string
  | _ => none

/-- The type of arrays with elements of a given type. -/
def arrayOf? : Ty → Option Ty
  | .int => some .intArray
  | .float => some .floatArray
  | .char => some .charArray
  | _ => none

/-- Whether a type is one of the array types that programs can name. -/
def isArray : Ty → Bool
  | .intArray | .floatArray | .charArray => true
  | _ => false

/-- Whether arrays can have elements of this type. -/
def isScalar : Ty → Bool
  | .int | .float | .char => true
  | _ => false

/-- Whether arithmetic is defined for a type. -/
def isNumeric : Ty → Bool
  | .int | .float => true
  | _ => false

end Ty

end Primer
