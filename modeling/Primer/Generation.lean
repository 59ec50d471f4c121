import Primer.Analysis
import Primer.Machine.Assembly
import Primer.Script

/-!
# Generation

A program that was accepted can be written as a script and emitted as machine code. Both are refused
for a program with errors.
-/

namespace Primer

/-- Why nothing was generated. -/
inductive Refusal where
  /-- The analysis reported errors. -/
  | rejected (errors : Nat)
  /-- Generation was stopped. -/
  | fault (f : Fault)
deriving DecidableEq, Repr

/-- The wording of a refusal. -/
def Refusal.message : Refusal → String
  | .rejected errors =>
    "Code generation refused, analysis reported " ++ Text.ofNat errors ++ " error(s)"
  | .fault f => f.message

namespace Analysis

variable {L : Type} {α : Type}

/-- Whether nothing was reported. -/
def isAccepted (a : Analysis) : Bool :=
  a.errorCount = 0

/-- Generates only for an accepted program. -/
def ifAccepted (a : Analysis) (result : Except Fault α) : Except Refusal α :=
  if a.isAccepted then result.mapError .fault else .error (.rejected a.errorCount)

/-- The text of the script of a program. -/
def scriptText (a : Analysis) (p : Program L) : Except Refusal String :=
  a.ifAccepted (p.toScript a.table a.scopes).text

/-- The machine code of a program. -/
def codeUnit (a : Analysis) (p : Program L) (name : String) : Except Refusal Machine.CodeUnit :=
  a.ifAccepted (p.emit a.table a.scopes name)

end Analysis

end Primer
