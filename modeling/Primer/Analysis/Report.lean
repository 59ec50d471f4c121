import Primer.Diagnostics
import Primer.Scope.Map

/-!
# Reports

A pass over a tree reports what it finds and goes on. Only a fault stops it, and then what was found
before the fault is still known. Reports are put together in reading order; nothing is added after a
fault.
-/

namespace Primer

/-- What a pass found, up to the fault that stopped it, if one did. -/
structure Report (L ε : Type) where
  findings : List (Located L ε)
  fault : Option Fault
deriving DecidableEq, Repr

namespace Report

variable {L ε : Type}

/-- Nothing to report. -/
def empty : Report L ε := ⟨[], none⟩

/-- Findings of a pass that was not stopped. -/
def ofFindings (findings : List (Located L ε)) : Report L ε :=
  ⟨findings, none⟩

/-- A single finding. -/
def one (place : L) (value : ε) : Report L ε :=
  .ofFindings [⟨place, value⟩]

/-- A pass that is stopped at once. -/
def stop (fault : Fault) : Report L ε :=
  ⟨[], some fault⟩

/-- Two reports, one after the other. -/
def append (a b : Report L ε) : Report L ε :=
  match a.fault with
  | some _ => a
  | none => ⟨a.findings ++ b.findings, b.fault⟩

instance : Append (Report L ε) := ⟨append⟩

theorem append_of_fault {a b : Report L ε} {fault : Fault} (h : a.fault = some fault) :
    a ++ b = a := by
  change append a b = a
  simp [append, h]

theorem append_of_no_fault {a b : Report L ε} (h : a.fault = none) :
    a ++ b = ⟨a.findings ++ b.findings, b.fault⟩ := by
  change append a b = _
  simp [append, h]

theorem fault_append_eq_none_iff {a b : Report L ε} :
    (a ++ b).fault = none ↔ a.fault = none ∧ b.fault = none := by
  cases h : a.fault with
  | none => simp [append_of_no_fault h]
  | some fault => simp [append_of_fault h, h]

/-- Reports, one after the other. -/
def concat : List (Report L ε) → Report L ε
  | [] => empty
  | a :: as => a ++ concat as

/-- Goes on with the scope of a node, or stops if there is none. -/
def inScopeOf (m : ScopeMap) (node : NodeId) (go : ScopeId → Report L ε) : Report L ε :=
  match m.scopeOf node with
  | .ok scope => go scope
  | .error fault => stop fault

end Report

end Primer
