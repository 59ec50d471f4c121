import Primer.Fault

/-!
# Positions

A position is a line and a column, both counted from one in 32 bits. Stepping forward past the last
column is a fault; stepping back stops at column one.
-/

namespace Primer

/-- A line and a column of a text. -/
structure Position where
  line : UInt32
  column : UInt32
deriving DecidableEq, Repr

namespace Position

/-- The first character of a text. -/
def first : Position := ⟨1, 1⟩

instance : Inhabited Position := ⟨first⟩

/-- The last column that can be counted. -/
def lastColumn : UInt32 := 4294967295

/-- One column further on the same line. -/
def advance (p : Position) : Except Fault Position :=
  if p.column = lastColumn then .error .columnOverflow else .ok ⟨p.line, p.column + 1⟩

/-- One column back on the same line, never before column one. -/
def back (p : Position) : Position :=
  ⟨p.line, if p.column ≤ 1 then 1 else p.column - 1⟩

/-- A position is written `line:column`. -/
def text (p : Position) : String :=
  Text.ofNat p.line.toNat ++ ":" ++ Text.ofNat p.column.toNat

end Position

end Primer
