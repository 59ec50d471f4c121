import Primer.Source.Location

/-!
# Diagnostics

A collection of located errors under one label, and its rendering: for each error the message, the
location, the source lines that it touches and a row of carets under the columns it names.

Rendering can fail in two ways only: the location of an error has no text, or the row of carets is
wider than a field can be.
-/

namespace Primer

/-- A value together with the place it belongs to. -/
structure Located (L ε : Type) where
  place : L
  value : ε
deriving DecidableEq, Repr

/-- Errors that can be put into words. -/
class Explained (ε : Type) where
  /-- The wording of an error. -/
  message : ε → String

instance : Explained String := ⟨id⟩

/-- Located errors in the order of reporting, under one label. -/
structure Diagnostics (ε : Type) where
  kind : String
  entries : List (Located Location ε)

namespace Diagnostics

variable {ε : Type}

/-- No errors, under the label `error`. -/
def empty : Diagnostics ε := ⟨"error", []⟩

/-- The same errors under another label. -/
def relabel (d : Diagnostics ε) (kind : String) : Diagnostics ε :=
  { d with kind := kind }

/-- Reports one more error. -/
def push (d : Diagnostics ε) (entry : Located Location ε) : Diagnostics ε :=
  { d with entries := d.entries ++ [entry] }

/-- How many errors were reported. -/
def count (d : Diagnostics ε) : Nat :=
  d.entries.length

/-- Whether no error was reported. -/
def isEmpty (d : Diagnostics ε) : Bool :=
  d.entries.isEmpty

/-- The wordings of the errors, in the order of reporting. -/
def messages [Explained ε] (d : Diagnostics ε) : List String :=
  d.entries.map fun entry => Explained.message entry.value

end Diagnostics

/-! ## Excerpts -/

namespace Location

/-- The leftmost column that an excerpt marks. -/
def firstMarked (l : Location) : Nat :=
  max 1 (min l.start.column.toNat (l.stop.column.toNat - 1))

/-- The rightmost column that an excerpt marks. -/
def lastMarked (l : Location) : Nat :=
  max 1 (max l.start.column.toNat (l.stop.column.toNat - 1))

/-- How many columns stand left of the marked ones. -/
def marginWidth (l : Location) : Nat :=
  l.firstMarked - 1

/-- How many columns are marked. -/
def markWidth (l : Location) : Nat :=
  l.lastMarked - l.firstMarked + 1

/-- How wide the column of line numbers is: the stop line has the longest number. -/
def gutterWidth (l : Location) : Nat :=
  Text.digitCount l.stop.line.toNat

/-- The source lines of a location, each behind its number. -/
def quotedLines (l : Location) : List String :=
  (l.source.linesBetween l.start.line.toNat l.stop.line.toNat).map fun (number, line) =>
    Text.ofNatRight l.gutterWidth number ++ " | " ++ line

/-- The row of carets. -/
def marks (l : Location) : Except Fault String := do
  Fault.checkWidth l.marginWidth
  Fault.checkWidth l.markWidth
  return Text.blanks l.gutterWidth ++ " | " ++ Text.blanks l.marginWidth ++
    Text.fill '^' l.markWidth

/-- The lines that show a location within its source. -/
def excerpt (l : Location) : Except Fault (List String) := do
  let marks ← l.marks
  return (Text.blanks l.gutterWidth ++ " |") :: l.quotedLines ++ [marks]

end Location

/-! ## Rendering -/

namespace Diagnostics

variable {ε : Type} [Explained ε]

/-- The lines of one error, a blank one last. -/
def entryLines (kind : String) (entry : Located Location ε) : Except Fault (List String) := do
  let location ← entry.place.text
  let excerpt ← entry.place.excerpt
  return [kind ++ ": " ++ Explained.message entry.value, " --> " ++ location] ++ excerpt ++ [""]

/-- The line that counts the errors. -/
def summary (count : Nat) : String :=
  "Build failed with " ++ Text.ofNat count ++ (if count = 1 then " error" else " errors")

/-- The lines of a collection. -/
def renderLines (d : Diagnostics ε) : Except Fault (List String) :=
  if d.entries.isEmpty then .ok ["No errors were reported"]
  else do
    let entries ← d.entries.mapM (entryLines d.kind)
    return entries.flatten ++ [summary d.count]

/-- The text of a collection; every line ends in a line feed. -/
def render (d : Diagnostics ε) : Except Fault String := do
  let lines ← d.renderLines
  return String.join (lines.map (· ++ "\n"))

end Diagnostics

end Primer
