import Primer.Script.Layout

/-!
# Scripts

A script holds the functions of a program, in the order of items, and after them the statements of
its entry points.
-/

namespace Primer

/-- A program as a script. -/
structure Script where
  functions : List Script.Function
  /-- The statements of the entry points. -/
  mains : List (List Script.Stmt)

namespace Script

/-- The lines of a script. -/
def layout (s : Script) : Except Fault (List Line) := do
  let functions ← s.functions.mapM Function.layout
  let mains ← s.mains.mapM (Stmt.layoutBlock 0)
  return functions.flatten ++ mains.flatten

/-- The text of a script. -/
def text (s : Script) : Except Fault String := do
  let lines ← s.layout
  return String.join (lines.map Line.render)

end Script

/-! ## From programs to scripts -/

variable {L : Type}

namespace Function

/-- A function of the program as one of the script. Its names are those of its symbol, so a function
that was not declared has no script. -/
def toScript? (t : Table) (m : ScopeMap) (f : Function L NodeId) : Option Script.Function := do
  let body ← f.body
  let scope ← m.get? f.mark
  let (_, symbol) ← t.functionOf scope
  return {
    name := Script.safeName symbol.name
    parameters := symbol.parameters.map fun x => Script.safeName (t.nameOf x)
    body := body.toScript t m }

end Function

namespace EntryPoint

/-- The statements of an entry point; one that was rejected has none. -/
def toScript? (t : Table) (m : ScopeMap) (e : EntryPoint L NodeId) :
    Option (List Script.Stmt) :=
  (m.get? e.mark).map fun _ => e.body.toScript t m

end EntryPoint

namespace Item

/-- The function that an item is, if it is one. -/
def function? {I : Type} : Item L I → Option (Function L I)
  | .function f => some f
  | .main _ => none

/-- The entry point that an item is, if it is one. -/
def main? {I : Type} : Item L I → Option (EntryPoint L I)
  | .function _ => none
  | .main e => some e

end Item

namespace Program

/-- The script of a program. -/
def toScript (t : Table) (m : ScopeMap) (p : Program L) : Script where
  functions := (p.items.filterMap Item.function?).filterMap (·.toScript? t m)
  mains := (p.items.filterMap Item.main?).filterMap (·.toScript? t m)

end Program

end Primer
