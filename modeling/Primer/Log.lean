import Primer.Log.Generation

/-!
# The log

A run analyzes a program and, if there are no errors, generates its script and its machine code. It
leaves a log, unless a fault stops it.
-/

namespace Primer

/-- What is generated from an accepted program. -/
structure Generated where
  script : String
  unit : Machine.CodeUnit

namespace Program

/-- Analyzes a program and generates what can be generated. -/
def runM (p : Program Location) (name : String) : Logged (Analysis × Option Generated) := do
  let a ← p.analyzeM
  if a.isAccepted then
    let script ← p.scriptTextM a.table a.scopes
    let unit ← p.emitM a.table a.scopes name
    return (a, some ⟨script, unit⟩)
  else return (a, none)

/-- The log of a run. -/
def log (p : Program Location) (name : String) : Except Fault (List Log.Entry) := do
  let (_, entries) ← (p.runM name).run []
  return entries

end Program

end Primer
