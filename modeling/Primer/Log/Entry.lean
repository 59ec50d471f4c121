import Primer.Diagnostics

/-!
# Writing to the log

A run leaves a log: the spans that were entered and left, and the events between. Everything that
can write to it is a computation of type `Logged`.

An error is told as it is reported, and that takes the text of its location. So a computation that
writes to the log can be stopped where the same computation without a log would go on.
-/

namespace Primer

namespace Log

/-- How important an event is. -/
inductive Level where
  | debug
  | info
deriving DecidableEq, Repr

/-- The value of a field. -/
inductive Field where
  | text (value : String)
  | count (value : Nat)
deriving DecidableEq, Repr

/-- The fields of a span or an event, by name. -/
abbrev Fields : Type := List (String × Field)

/-- What is written to the log. -/
inductive Entry where
  | enter (span : String) (fields : Fields)
  | leave (span : String)
  | event (level : Level) (fields : Fields)
deriving DecidableEq, Repr

end Log

/-- Computations that write to the log and that a fault may stop. -/
abbrev Logged : Type → Type :=
  StateT (List Log.Entry) (Except Fault)

namespace Log

/-- Writes to the log. -/
def write (entry : Entry) : Logged Unit :=
  modify (· ++ [entry])

/-- Computes inside a span. -/
def inSpan {α : Type} (name : String) (fields : Fields) (x : Logged α) : Logged α := do
  write (.enter name fields)
  let result ← x
  write (.leave name)
  return result

/-- Writes how many errors a pass has reported. -/
def writeTotal {ε : Type} (d : Diagnostics ε) (message : String) : Logged Unit :=
  write (.event .info [("errors", .count d.count), ("message", .text message)])

end Log

/-! ## Reporting errors -/

namespace Diagnostics

variable {ε : Type} [Explained ε]

/-- Tells the log of an error. -/
def tell (kind : String) (entry : Located Location ε) : Logged Unit := do
  let location ← entry.place.text
  Log.write (.event .debug
    [("kind", .text kind), ("location", .text location),
      ("message", .text (Explained.message entry.value))])

/-- Reports one more error, after telling the log of it. -/
def record (d : Diagnostics ε) (entry : Located Location ε) : Logged (Diagnostics ε) := do
  tell d.kind entry
  return d.push entry

end Diagnostics

/-- Where a pass sends what it finds. A sink has a state that changes from error to error. -/
structure Sink (L ε σ : Type) where
  report : Located L ε → StateT σ Logged Unit

namespace Sink

variable {L ε σ : Type}

/-- Keeps errors in a collection. -/
def recorder [Explained ε] : Sink Location ε (Diagnostics ε) where
  report entry := do
    let d ← get
    set (← d.record entry)

/-- Drops errors, for whoever needs types only. -/
def silent : Sink L ε Unit where
  report _ := pure ()

/-- Sends several errors, in order. -/
def reportAll (sink : Sink L ε σ) (entries : List (Located L ε)) : StateT σ Logged Unit :=
  entries.forM sink.report

end Sink

end Primer
