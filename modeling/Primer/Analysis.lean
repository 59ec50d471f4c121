import Primer.Analysis.Declaration
import Primer.Analysis.Reference
import Primer.Analysis.Typing

/-!
# Analysis

The three passes in sequence. Each is complete and reports under a label of its own. A program is
*accepted* if none of them reports anything.
-/

namespace Primer

/-- The results of the three passes. -/
structure Analysis where
  table : Table
  scopes : ScopeMap
  declarations : Diagnostics DeclarationError
  references : Diagnostics ReferenceError
  types : Diagnostics TypeError

namespace Analysis

/-- How many errors the passes reported together. -/
def errorCount (a : Analysis) : Nat :=
  a.declarations.count + a.references.count + a.types.count

end Analysis

namespace Report

variable {ε : Type}

/-- The findings of a pass that was not stopped, under a label. -/
def diagnostics (r : Report Location ε) (label : String) : Except Fault (Diagnostics ε) :=
  match r.fault with
  | some fault => .error fault
  | none => .ok ⟨label, r.findings⟩

end Report

namespace Program

/-- Analyzes a program. -/
def analyze (p : Program Location) : Except Fault Analysis := do
  let d := Declarations.ofProgram p
  -- The declarations cannot fail, and the two checks read the table only when it is complete.
  let references ← (p.references d.table d.scopes).diagnostics ReferenceError.label
  let types ← (p.types d.table d.scopes).diagnostics TypeError.label
  return {
    table := d.table
    scopes := d.scopes
    declarations := ⟨DeclarationError.label, d.findings⟩
    references
    types }

end Program

end Primer
