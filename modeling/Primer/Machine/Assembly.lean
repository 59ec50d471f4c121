import Primer.Machine.CodeUnit
import Primer.Machine.Emission

/-!
# Assembly

A function becomes a routine with the names and types of its symbol, an entry point the routine
`main`. The routines of a program stand in the order of its items.
-/

namespace Primer

open Machine

variable {L : Type}

namespace Machine

/-- How many slots the arguments of a signature take. -/
def Signature.argumentSlots (s : Signature) : Nat :=
  slotsOf s.parameters

/-- The signature of the entry point. -/
def Signature.ofMain : Signature := ⟨[.args], .void⟩

end Machine

namespace Function

/-- Emits a function. One that was not declared has no code. A function without result returns at
its end. -/
def emit? (t : Table) (m : ScopeMap) (f : Function L NodeId) :
    Except Fault (Option Machine.Routine) :=
  match f.body, (m.get? f.mark).bind t.functionOf with
  | some body, some (_, symbol) => do
    let signature := signatureOf t symbol
    let context : Machine.Context := ⟨t, symbol.parameters⟩
    let (code, frame) ← body.emit context m (.start signature.argumentSlots)
    -- The counts are looked at once, when nothing is left to be emitted.
    frame.finish <| some {
      name := symbol.name
      access := .ofFunction
      signature
      slots := frame.nextSlot
      body := code ++ if symbol.returns = .void then [.ret none] else [] }
  | _, _ => .ok none

end Function

namespace EntryPoint

/-- Emits an entry point. One that was rejected has no code. Its first slot holds the command line.
-/
def emit? (t : Table) (m : ScopeMap) (e : EntryPoint L NodeId) :
    Except Fault (Option Machine.Routine) :=
  match m.get? e.mark with
  | none => .ok none
  | some _ => do
    let (code, frame) ← e.body.emit ⟨t, []⟩ m (.start Signature.ofMain.argumentSlots)
    frame.finish <| some {
      name := "main"
      access := .ofMain
      signature := .ofMain
      slots := frame.nextSlot
      body := code ++ [.ret none] }

end EntryPoint

namespace Item

/-- Emits an item. -/
def emit? (t : Table) (m : ScopeMap) : Item L NodeId → Except Fault (Option Machine.Routine)
  | .function f => f.emit? t m
  | .main e => e.emit? t m

end Item

namespace Program

/-- Emits the functions of a program, in the order of items. -/
def emit (t : Table) (m : ScopeMap) (name : String) (p : Program L) :
    Except Fault Machine.CodeUnit := do
  let functions ← p.items.mapM (·.emit? t m)
  return ⟨name, functions.filterMap id⟩

end Program

end Primer
