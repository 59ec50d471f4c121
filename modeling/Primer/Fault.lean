import Primer.Identity
import Primer.Text.Decimal

/-!
# Faults

A *fault* stops the work at hand. It differs from a diagnostic, which reports a mistake of the
program under analysis: a fault says that a computation has no answer at all. There are four
causes.
-/

namespace Primer

/-- The causes that stop a computation. -/
inductive Fault where
  /-- The scope of a node is asked for, and none was recorded for it. -/
  | unscoped (node : NodeId)
  /-- The column after the last one that 32 bits can hold is asked for. -/
  | columnOverflow
  /-- Text is to be padded to a width above `Fault.widestField`. -/
  | widthOutOfRange
  /-- More slots are asked for than 16 bits can count, or more labels than 32 bits can. -/
  | frameOverflow
deriving DecidableEq, Repr

namespace Fault

/-- The widest field that text can be padded to. -/
def widestField : Nat := 65535

/-- The wording of a fault. -/
def message : Fault → String
  | .unscoped node => "node NodeId(" ++ Text.ofNat node.index ++ ") has no recorded scope"
  | .columnOverflow | .frameOverflow => "attempt to add with overflow"
  | .widthOutOfRange => "Formatting argument out of range"

/-- Refuses a width above `widestField`. -/
def checkWidth (width : Nat) : Except Fault Unit :=
  if width ≤ widestField then .ok () else .error .widthOutOfRange

end Fault

end Primer
