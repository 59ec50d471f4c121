import Primer.Source.Position

/-!
# Sources and locations

A *source* is a named text, kept as its lines. A *location* is a half-open stretch `[start, stop)`
of a source. Locations serve diagnostics only, so a source without text is a valid one.
-/

namespace Primer

/-! ## Lines of a text -/

namespace Text

/-- Drops one carriage return at the end of a line that is held in reverse. -/
private def dropReturn : List Char → List Char
  | '\r' :: rest => rest
  | line => line

/-- The lines of a text, given the reversed beginning of the current line.

A line feed ends a line and takes one carriage return in front of it along. What follows the last
line feed is a line of its own unless it is empty. -/
def linesFrom : List Char → List Char → List (List Char)
  | [], [] => []
  | current, [] => [current.reverse]
  | current, c :: rest =>
    if c = '\n' then (dropReturn current).reverse :: linesFrom [] rest
    else linesFrom (c :: current) rest

/-- The lines of a text. -/
def lines (text : String) : List String :=
  (linesFrom [] text.toList).map String.ofList

end Text

/-! ## Sources -/

/-- A named text, as its lines. -/
structure Source where
  name : String
  lines : List String
deriving DecidableEq, Repr

namespace Source

/-- A source from its name and its whole text. -/
def ofText (name text : String) : Source :=
  ⟨name, Text.lines text⟩

/-- A source of which neither name nor text is known. -/
def unnamed : Source :=
  ⟨"<unknown>", []⟩

/-- The line with a given number, counted from one. -/
def line? (s : Source) : Nat → Option String
  | 0 => none
  | n + 1 => s.lines[n]?

/-- The lines numbered `first` to `last`, each with its number. -/
def linesBetween (s : Source) (first last : Nat) : List (Nat × String) :=
  (s.lines.zipIdx 1).filterMap fun (line, number) =>
    if first ≤ number ∧ number ≤ last then some (number, line) else none

end Source

/-! ## Locations -/

/-- The stretch of a source from `start` up to, and not including, `stop`. -/
structure Location where
  source : Source
  start : Position
  stop : Position
deriving DecidableEq, Repr

namespace Location

/-- The location of a single column. -/
def single (source : Source) (line column : UInt32) : Except Fault Location :=
  let start : Position := ⟨line, column⟩
  match start.advance with
  | .ok stop => .ok ⟨source, start, stop⟩
  | .error fault => .error fault

/-- The location of a node that has none of its own. -/
def unknown : Location :=
  ⟨.unnamed, ⟨1, 1⟩, ⟨1, 2⟩⟩

instance : Inhabited Location := ⟨unknown⟩

/-- The stretch from the start of `a` to the end of `b`, in the source of `a`. -/
def span (a b : Location) : Location :=
  ⟨a.source, a.start, b.stop⟩

/-- A single column is written as its position, a longer stretch as its first and its last position.
-/
def text (l : Location) : Except Fault String :=
  match l.start.advance with
  | .error fault => .error fault
  | .ok next =>
    .ok (l.source.name ++ ":" ++
      if l.stop = next then l.start.text
      else "[" ++ l.start.text ++ "-" ++ l.stop.back.text ++ "]")

end Location

end Primer
