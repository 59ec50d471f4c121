import Primer.Fault
import Primer.Machine.Instruction
import Primer.Scope.Table

/-!
# Frames

While a function is emitted, its frame says which slots and labels are in use. A parameter is
addressed by its position; any other variable gets a slot when it is first met.

Slots are counted with 16 bits and labels with 32. The counts of a frame only go up, so they
overflowed on the way to a frame exactly if they are out of range in it, and that is where emission
looks: when it is stopped for another reason, and when a function is finished.
-/

namespace Primer.Machine

/-- How many slots values of the given types take together. -/
def slotsOf (types : List Ty) : Nat :=
  types.foldr (fun type total => (Kind.ofTy type).width + total) 0

/-! ## Frames -/

/-- What is in use while a function is emitted. -/
structure Frame where
  /-- The slots given to variables, the newest first. -/
  locals : List (SymbolId × Nat)
  nextSlot : Nat
  nextLabel : Nat
deriving DecidableEq, Repr

namespace Frame

/-- The frame of a function whose first slots are taken by its arguments. -/
def start (argumentSlots : Nat) : Frame := ⟨[], argumentSlots, 0⟩

/-- The label to hand out. -/
def label (f : Frame) : Label := ⟨f.nextLabel⟩

/-- The frame after `n` labels were handed out. -/
def skipLabels (f : Frame) (n : Nat) : Frame :=
  { f with nextLabel := f.nextLabel + n }

/-- The slot of a variable, which is given one when it is first met. -/
def slot (f : Frame) (x : SymbolId) (type : Ty) : Nat × Frame :=
  match f.locals.lookup x with
  | some slot => (slot, f)
  | none =>
    (f.nextSlot,
      { f with
        locals := (x, f.nextSlot) :: f.locals
        nextSlot := f.nextSlot + (Kind.ofTy type).width })

/-- Whether the counts fit their words. -/
def InRange (f : Frame) : Prop :=
  f.nextSlot ≤ 65535 ∧ f.nextLabel ≤ 4294967295

instance (f : Frame) : Decidable f.InRange :=
  inferInstanceAs (Decidable (_ ∧ _))

/-- The fault that is met first on the way to a frame in which there is one. -/
def firstFault (f : Frame) (fault : Fault) : Fault :=
  if f.InRange then fault else .frameOverflow

/-- What was made on the way to a frame, unless the counts overflowed. -/
def finish {α : Type} (f : Frame) (made : α) : Except Fault α :=
  if f.InRange then .ok made else .error .frameOverflow

end Frame

/-- What emission looks up: the symbols, and which of them are the arguments of the function at
hand. -/
structure Context where
  table : Table
  arguments : List SymbolId

/-- Where the machine keeps a variable. -/
inductive Storage where
  | argument (position : Nat)
  | slot (index : Nat)
deriving DecidableEq, Repr

/-- The instruction that loads a variable. -/
def Storage.load (kind : Kind) : Storage → Instruction
  | .argument position => .loadArgument kind position
  | .slot n => .load kind n

/-- The instruction that stores a variable. -/
def Storage.store (kind : Kind) : Storage → Instruction
  | .argument position => .storeArgument kind position
  | .slot n => .store kind n

namespace Context

/-- Where the variable behind a name is kept, with its type, and the frame afterwards. -/
def storage? (c : Context) (s : ScopeId) (name : String) (f : Frame) :
    Option (Storage × Ty) × Frame :=
  match c.table.resolve s name with
  | none => (none, f)
  | some x =>
    -- An argument stays where the caller has put it.
    let type := c.table.typeOf x
    match c.arguments.idxOf? x with
    | some position => (some (.argument position, type), f)
    | none =>
      let (slot, f) := f.slot x type
      (some (.slot slot, type), f)

end Context

end Primer.Machine
