import Primer.Diagnostics
import Mathlib.Tactic.SplitIfs

/-!
# What rendering yields

Rendering goes through the errors of a collection and stops at the first one that cannot be shown:
its location has no text, or its row of carets is too wide (`Location.fault?`). If all can be shown,
the text is put together from what each error alone is shown as (`Diagnostics.render_eq`).
-/

namespace Primer

/-! ## Computations that may stop -/

section Stopping

variable {ε α β : Type}

/-- A computation that stops with the given fault, or else has the given value. -/
def unlessStopped (fault : Option ε) (value : α) : Except ε α :=
  fault.elim (.ok value) .error

theorem unlessStopped_eq_ok_iff {fault : Option ε} {value shown : α} :
    unlessStopped fault value = .ok shown ↔ fault = none ∧ value = shown := by
  cases fault <;> simp [unlessStopped]

theorem unlessStopped_eq_error_iff {fault : Option ε} {value : α} {stopping : ε} :
    unlessStopped fault value = .error stopping ↔ fault = some stopping := by
  cases fault <;> simp [unlessStopped]

/-- A list is gone through up to the first member that stops. -/
theorem mapM_unlessStopped {f : α → Except ε β} {fault : α → Option ε} {g : α → β}
    (h : ∀ x, f x = unlessStopped (fault x) (g x)) (xs : List α) :
    xs.mapM f = unlessStopped (xs.findSome? fault) (xs.map g) := by
  induction xs with
  | nil => rfl
  | cons x xs ih =>
    rw [List.mapM_cons, h, ih, List.findSome?_cons]
    cases hx : fault x with
    | some e => rfl
    | none => cases xs.findSome? fault <;> rfl

end Stopping

/-! ## Locations -/

namespace Location

variable (l : Location)

/-- Whether the row of carets fits into fields. -/
def Fits : Prop :=
  l.marginWidth ≤ Fault.widestField ∧ l.markWidth ≤ Fault.widestField

instance : Decidable l.Fits :=
  inferInstanceAs (Decidable (_ ∧ _))

/-- Why a location cannot be shown. -/
def fault? : Option Fault :=
  if l.start.column = Position.lastColumn then some .columnOverflow
  else if l.Fits then none
  else some .widthOutOfRange

/-- A location as it is written if there is a column after its first one. -/
def label : String :=
  l.source.name ++ ":" ++
    if l.stop = ⟨l.start.line, l.start.column + 1⟩ then l.start.text
    else "[" ++ l.start.text ++ "-" ++ l.stop.back.text ++ "]"

/-- The row of carets, however wide. -/
def caretRow : String :=
  Text.blanks l.gutterWidth ++ " | " ++ Text.blanks l.marginWidth ++ Text.fill '^' l.markWidth

/-- The lines of an excerpt, however wide. -/
def shownLines : List String :=
  (Text.blanks l.gutterWidth ++ " |") :: l.quotedLines ++ [l.caretRow]

theorem text_eq :
    l.text = if l.start.column = Position.lastColumn then .error .columnOverflow
      else .ok l.label := by
  unfold text Position.advance
  split_ifs <;> rfl

theorem excerpt_eq : l.excerpt = if l.Fits then .ok l.shownLines else .error .widthOutOfRange := by
  unfold excerpt marks Fault.checkWidth Fits
  by_cases hmargin : l.marginWidth ≤ Fault.widestField <;>
    by_cases hmark : l.markWidth ≤ Fault.widestField <;> simp only [hmargin, hmark] <;> rfl

end Location

/-! ## Collections -/

namespace Diagnostics

variable {ε : Type} [Explained ε]

/-- The lines of one error. -/
def shownEntry (kind : String) (entry : Located Location ε) : List String :=
  [kind ++ ": " ++ Explained.message entry.value, " --> " ++ entry.place.label] ++
    entry.place.shownLines ++ [""]

/-- The text of a collection, however wide. -/
def shownText (d : Diagnostics ε) : String :=
  if d.entries.isEmpty then "No errors were reported\n"
  else String.join
    (((d.entries.map (shownEntry d.kind)).flatten ++ [summary d.count]).map (· ++ "\n"))

theorem entryLines_eq (kind : String) (entry : Located Location ε) :
    entryLines kind entry = unlessStopped entry.place.fault? (shownEntry kind entry) := by
  rw [entryLines, Location.text_eq, Location.excerpt_eq, Location.fault?]
  split_ifs <;> rfl

/-- Rendering stops at the first error that cannot be shown. -/
theorem render_eq (d : Diagnostics ε) :
    d.render = unlessStopped (d.entries.findSome? (·.place.fault?)) d.shownText := by
  unfold render renderLines shownText
  rw [mapM_unlessStopped (entryLines_eq d.kind)]
  cases hentries : d.entries with
  | nil => rfl
  | cons entry entries =>
    cases (entry :: entries).findSome? (·.place.fault?) <;> rfl

end Diagnostics

end Primer
