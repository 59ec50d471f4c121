import Primer.Log
import Primer.Proofs.Analysis.ItemOrder
import Primer.Proofs.Analysis.Relabeling
import Primer.Proofs.Log.Generators
import Primer.Proofs.Machine.Heading
import Primer.Proofs.Tree.Places

/-!
# What the log tells

The log of a run is a sequence of spans with events in them. `Program.log_tells` says which spans
they are: one for each pass of the analysis, with an event for each of its diagnostics and one for
their number, and, if there are no errors, one for the script and one for the machine code.

An event shows where its error is, and a location has no text if it starts at the last column.
Errors are reported at places of the tree (`Program.place_mem_of_types` and the like), so it is
enough to look at these. No pass computes with places: it reports the same whatever they are, so it
cannot come up with a place that it was not given.
-/

namespace Primer

open Machine Declarations

variable {L L' : Type}

/-! ## Places of errors -/

namespace Program

/-- A program with other places. -/
def mapPlaces (f : L → L') (p : Program L) : Program L' :=
  ⟨p.root, p.items.map (Item.map f id), p.nodeCount⟩

theorem relabels_mapPlaces (f : L → L') (p : Program L) : p.Relabels f id (p.mapPlaces f) :=
  ⟨rfl, rfl, fun _ _ _ _ h => h⟩

theorem mapPlaces_congr {f g : L → L'} {p : Program L} (h : ∀ l ∈ p.places, f l = g l) :
    p.mapPlaces f = p.mapPlaces g := by
  unfold mapPlaces
  rw [List.map_congr_left fun i hi =>
    i.map_congr id fun l hl => h l (List.mem_flatMap.mpr ⟨i, hi, hl⟩)]

/-- What the program looks like if all that is left of a place is that it is one of the tree. -/
private theorem mapPlaces_mem (p : Program L) :
    p.mapPlaces (fun _ => True) = p.mapPlaces (· ∈ p.places) :=
  mapPlaces_congr fun _ hl => (eq_true hl).symm

private theorem mem_of_map_eq {ε : Type} {places : List L} {findings : List (Located L ε)}
    (h : findings.map (Located.map fun _ => True) = findings.map (Located.map (· ∈ places))) :
    ∀ e ∈ findings, e.place ∈ places := by
  intro e he
  have hplace : True = (e.place ∈ places) :=
    congrArg Located.place (List.map_inj_left.mp h e he)
  exact hplace.mp trivial

/-- Mistakes in declarations are reported at places of the tree. -/
theorem place_mem_of_declarations (p : Program L) :
    ∀ e ∈ (ofProgram p).findings, e.place ∈ p.places := by
  -- The tree is the same for both ways to look at places, so what is reported is the same too.
  refine mem_of_map_eq ?_
  have hany := (relabels_ofProgram (p.relabels_mapPlaces fun _ => True)).findings
  have hmem := (relabels_ofProgram (p.relabels_mapPlaces (· ∈ p.places))).findings
  rw [← hany, p.mapPlaces_mem, hmem]

section Distinct

variable {p : Program L} (hp : p.Distinct)

include hp

theorem references_mapPlaces (f : L → L') :
    (p.mapPlaces f).references (ofProgram p).table (ofProgram (p.mapPlaces f)).scopes =
      (p.references (ofProgram p).table (ofProgram p).scopes).map f :=
  references_map _ (p.relabels_mapPlaces f).items fun _ hi =>
    (p.relabels_mapPlaces f).tracked hp hi

theorem types_mapPlaces (f : L → L') :
    (p.mapPlaces f).types (ofProgram p).table (ofProgram (p.mapPlaces f)).scopes =
      (p.types (ofProgram p).table (ofProgram p).scopes).map f :=
  types_map _ (p.relabels_mapPlaces f).items fun _ hi => (p.relabels_mapPlaces f).tracked hp hi

theorem place_mem_of_references :
    ∀ e ∈ (p.references (ofProgram p).table (ofProgram p).scopes).findings,
      e.place ∈ p.places := by
  refine mem_of_map_eq ?_
  have hany := references_mapPlaces hp fun _ => True
  rw [p.mapPlaces_mem, references_mapPlaces hp] at hany
  exact (congrArg Report.findings hany).symm

theorem place_mem_of_types :
    ∀ e ∈ (p.types (ofProgram p).table (ofProgram p).scopes).findings, e.place ∈ p.places := by
  refine mem_of_map_eq ?_
  have hany := types_mapPlaces hp fun _ => True
  rw [p.mapPlaces_mem, types_mapPlaces hp] at hany
  exact (congrArg Report.findings hany).symm

end Distinct

end Program

/-! ## Spans -/

/-- The functions of a unit that the program declares: the entry point has other access flags. -/
def Machine.CodeUnit.userFunctions (u : CodeUnit) : List Routine :=
  u.functions.filter (·.access = .ofFunction)

namespace Log

/-- An event by itself. -/
structure Event where
  level : Level
  fields : Fields
deriving DecidableEq, Repr

/-- A span with the events in it. -/
structure Span where
  name : String
  fields : Fields
  events : List Event
deriving DecidableEq, Repr

/-- The entry of an event. -/
def Event.entry (e : Event) : Entry :=
  .event e.level e.fields

/-- The entries of a span: it is entered, its events follow, and it is left. -/
def Span.entries (s : Span) : List Entry :=
  .enter s.name s.fields :: s.events.map Event.entry ++ [.leave s.name]

/-- The event shows an error: the kind, the text of the location and the wording. -/
def Event.Shows {ε : Type} [Explained ε] (kind : String) (x : Located Location ε) (e : Event) :
    Prop :=
  ∃ location, x.place.text = .ok location ∧
    e = ⟨.debug, [("kind", .text kind), ("location", .text location),
      ("message", .text (Explained.message x.value))]⟩

/-- The span tells what a pass found: one event for each of its diagnostics, in order, and one for
their number. -/
structure Span.OfPass {ε : Type} [Explained ε] (name summary : String) (d : Diagnostics ε)
    (s : Span) : Prop where
  name : s.name = name
  fields : s.fields = []
  events : ∃ shown, List.Forall₂ (Event.Shows d.kind) d.entries shown ∧
    s.events = shown ++ [⟨.info, [("errors", .count d.count), ("message", .text summary)]⟩]

/-- The span of a script. Nothing is told but that it was written. -/
def Span.ofScript : Span :=
  ⟨"python", [], [⟨.info, [("message", .text "python emitted")]⟩]⟩

/-- The event of a function: its name and the text of its signature. -/
def Event.ofRoutine (r : Routine) : Event :=
  ⟨.debug, [("function", .text r.name), ("signature", .text r.signature.text),
    ("message", .text "function emitted")]⟩

/-- The span of a unit: one event for each function of the program, in order, and one for the number
of functions. -/
def Span.ofUnit (u : CodeUnit) : Span :=
  ⟨"bytecode", [("unit", .text u.name)],
    u.userFunctions.map Event.ofRoutine ++
      [⟨.info, [("functions", .count u.functions.length), ("message", .text "unit assembled")]⟩]⟩

end Log

/-! ## Computations that write -/

namespace Logged

variable {α β : Type} {x : Logged α} {a : α} {b : β} {entries rest : List Log.Entry} {fault : Fault}

/-- The computation is not stopped, and it writes the given entries to whatever log there is. -/
def Writes (x : Logged α) (a : α) (entries : List Log.Entry) : Prop :=
  ∀ log, x.run log = .ok (a, log ++ entries)

/-- The computation is stopped by a fault. -/
def Stops (x : Logged α) (fault : Fault) : Prop :=
  ∀ log, x.run log = .error fault

theorem Writes.pure (a : α) : Writes (pure a) a [] := by
  intro log
  rw [List.append_nil]
  rfl

theorem Writes.bind {next : α → Logged β} (hx : Writes x a entries)
    (hnext : Writes (next a) b rest) : Writes (x >>= next) b (entries ++ rest) := by
  intro log
  rw [StateT.run_bind, hx log, ← List.append_assoc]
  exact hnext _

theorem Writes.write (entry : Log.Entry) : Writes (Log.write entry) () [entry] :=
  fun _ => rfl

theorem Writes.inSpan {name : String} {fields : Log.Fields} (hx : Writes x a entries) :
    Writes (Log.inSpan name fields x) a (.enter name fields :: entries ++ [.leave name]) := by
  have h : Writes (Log.inSpan name fields x) a
      ([.enter name fields] ++ (entries ++ ([.leave name] ++ []))) :=
    (Writes.write _).bind (hx.bind ((Writes.write _).bind (Writes.pure a)))
  simpa using h

theorem Stops.bind {next : α → Logged β} (hx : Stops x fault) : Stops (x >>= next) fault := by
  intro log
  rw [StateT.run_bind, hx log]
  rfl

theorem Writes.bind_stops {next : α → Logged β} (hx : Writes x a entries)
    (hnext : Stops (next a) fault) : Stops (x >>= next) fault := by
  intro log
  rw [StateT.run_bind, hx log]
  exact hnext _

theorem Stops.inSpan {name : String} {fields : Log.Fields} (hx : Stops x fault) :
    Stops (Log.inSpan name fields x) fault :=
  (Writes.write _).bind_stops hx.bind

theorem writes_ok (a : α) : Writes (liftM (Except.ok a : Except Fault α)) a [] :=
  Writes.pure a

theorem stops_error (fault : Fault) : Stops (liftM (Except.error fault : Except Fault α)) fault :=
  fun _ => rfl

end Logged

/-! ## Passes -/

open Log Logged

section Passes

variable {ε : Type} [Explained ε]

/-- An error that starts before the last column can be told. -/
theorem Diagnostics.exists_writes_tell (kind : String) {x : Located Location ε}
    (h : x.place.start.column < 4294967295) :
    ∃ e : Event, e.Shows kind x ∧ Writes (Diagnostics.tell kind x) () [e.entry] := by
  have hcolumn : x.place.start.column ≠ Position.lastColumn := UInt32.ne_of_lt h
  obtain ⟨location, hlocation⟩ : ∃ location, x.place.text = .ok location := by
    simp [Location.text, Position.advance, hcolumn]
  refine ⟨_, ⟨location, hlocation, rfl⟩, ?_⟩
  rw [Diagnostics.tell, hlocation]
  exact (writes_ok location).bind (Writes.write _)

theorem Diagnostics.exists_writes_tellAll (kind : String) {xs : List (Located Location ε)}
    (h : ∀ x ∈ xs, x.place.start.column < 4294967295) :
    ∃ shown : List Event, List.Forall₂ (Event.Shows kind) xs shown ∧
      Writes (xs.forM (Diagnostics.tell kind)) () (shown.map Event.entry) := by
  induction xs with
  | nil => exact ⟨[], .nil, .pure ()⟩
  | cons x xs ih =>
    obtain ⟨hx, hxs⟩ := List.forall_mem_cons.mp h
    obtain ⟨e, he, hwrites⟩ := exists_writes_tell kind hx
    obtain ⟨shown, hshown, hrest⟩ := ih hxs
    exact ⟨e :: shown, .cons he hshown, hwrites.bind hrest⟩

/-- The recorder tells of errors and keeps them, in the same order. -/
theorem Sink.run_reportAll_recorder (d : Diagnostics ε) (xs : List (Located Location ε)) :
    (Sink.recorder.reportAll xs).run d = (do
      xs.forM (Diagnostics.tell d.kind)
      return ((), ⟨d.kind, d.entries ++ xs⟩)) := by
  induction xs generalizing d with
  | nil => simp
  | cons x xs ih =>
    -- Each error is told before it is kept.
    have hfirst : (Sink.recorder.report x).run d = (do
        Diagnostics.tell d.kind x
        return ((), d.push x)) := by
      simp [Sink.recorder, Diagnostics.record]
    have hcons : Sink.recorder.reportAll (x :: xs) = (do
        Sink.recorder.report x
        Sink.recorder.reportAll xs) := by
      simp [Sink.reportAll]
    rw [hcons, StateT.run_bind, hfirst, List.forM_eq_forM, List.forM_cons]
    simp [ih, Diagnostics.push]

/-- What is told of errors that can be told, and the total after them. -/
theorem exists_writes_total (name summary : String) (d : Diagnostics ε)
    (h : ∀ x ∈ d.entries, x.place.start.column < 4294967295) {α : Type} (a : α) :
    ∃ s, Span.OfPass name summary d s ∧ Writes (Log.inSpan name [] do
      d.entries.forM (Diagnostics.tell d.kind)
      Log.writeTotal d summary
      return a) a s.entries := by
  obtain ⟨shown, hshown, hwrites⟩ := Diagnostics.exists_writes_tellAll d.kind h
  refine ⟨⟨name, [], _⟩, ⟨rfl, rfl, shown, hshown, rfl⟩, ?_⟩
  have htotal : Writes (do
      d.entries.forM (Diagnostics.tell d.kind)
      Log.writeTotal d summary
      return a) a (shown.map Event.entry ++ ([_] ++ [])) :=
    hwrites.bind ((Writes.write _).bind (Writes.pure a))
  simpa [Span.entries, Event.entry] using htotal.inSpan

/-- The span of a pass that sends its report to a recorder and is not stopped. -/
theorem exists_writes_pass (name label summary : String) {x : StateT (Diagnostics ε) Logged Unit}
    {r : Report Location ε} (hx : x = r.sendTo Sink.recorder) (hfault : r.fault = none)
    (h : ∀ e ∈ r.findings, e.place.start.column < 4294967295) :
    ∃ s, Span.OfPass name summary ⟨label, r.findings⟩ s ∧ Writes (Log.inSpan name [] do
      let (_, errors) ← x.run (Diagnostics.empty.relabel label)
      Log.writeTotal errors summary
      return errors) ⟨label, r.findings⟩ s.entries := by
  obtain ⟨s, hs, hwrites⟩ := exists_writes_total name summary ⟨label, r.findings⟩ h
    (⟨label, r.findings⟩ : Diagnostics ε)
  refine ⟨s, hs, ?_⟩
  -- The collection is empty at first, so it ends with the findings of the pass and nothing else.
  have hrun : x.run (Diagnostics.empty.relabel label) = (do
      r.findings.forM (Diagnostics.tell label)
      return ((), ⟨label, r.findings⟩)) := by
    rw [hx, Report.sendTo, hfault]
    simpa [Diagnostics.empty, Diagnostics.relabel] using
      Sink.run_reportAll_recorder (Diagnostics.empty.relabel label) r.findings
  rw [hrun]
  simpa using hwrites

end Passes

/-! ## Generators -/

section Generators

variable {p : Program L} {t : Table} {m : ScopeMap}

/-- Only the end of a script is told, whatever types were inferred for it. -/
theorem Program.writes_scriptTextM {text : String} (h : (p.toScript t m).text = .ok text) :
    Writes (p.scriptTextM t m) text Span.ofScript.entries := by
  rw [Program.scriptTextM, Program.toScriptM_eq, pure_bind, h]
  exact ((writes_ok text).bind ((Writes.write _).bind (Writes.pure text))).inSpan

theorem Program.stops_scriptTextM {fault : Fault} (h : (p.toScript t m).text = .error fault) :
    Stops (p.scriptTextM t m) fault := by
  rw [Program.scriptTextM, Program.toScriptM_eq, pure_bind, h]
  exact (stops_error fault).bind.inSpan

/-- The routine of a function can be told from that of an entry point by its access. -/
theorem Item.access_of_emit? {i : Item L NodeId} {r : Routine} (h : i.emit? t m = .ok (some r)) :
    r.access = (match i with | .function _ => .ofFunction | .main _ => .ofMain) := by
  cases i with
  | function f =>
    -- The flags are written down where the routine is put together, whatever is in its body.
    simp only [Item.emit?, Function.emit?] at h
    split at h
    · obtain ⟨x, -, hr⟩ := exists_of_bind_eq_ok h
      obtain rfl := Option.some.inj (Frame.inRange_of_finish hr).2
      rfl
    · cases h
  | main e =>
    simp only [Item.emit?, EntryPoint.emit?] at h
    split at h
    · cases h
    · obtain ⟨x, -, hr⟩ := exists_of_bind_eq_ok h
      obtain rfl := Option.some.inj (Frame.inRange_of_finish hr).2
      rfl

/-- The entries for routines: only functions of the program are told. -/
def Log.routineEntries (rs : List Routine) : List Entry :=
  (rs.filter (·.access = .ofFunction)).map fun r => (Event.ofRoutine r).entry

theorem Item.writes_emitM? {i : Item L NodeId} {r : Option Routine} (h : i.emit? t m = .ok r) :
    Writes (i.emitM? t m) r (routineEntries r.toList) := by
  have haccess := fun x (hx : r = some x) => access_of_emit? (hx ▸ h)
  cases i with
  | function f =>
    change Writes (f.emitM? t m) r _
    rw [Function.emitM?_eq, show f.emit? t m = .ok r from h]
    refine (writes_ok r).bind ?_
    cases r with
    | none => exact .pure none
    | some r =>
      -- The event is written because of the constructor, and the filter looks at the flags.
      have hr : r.access = .ofFunction := haccess r rfl
      have htold : Writes (do r.tell; return some r) (some r) ([(Event.ofRoutine r).entry] ++ []) :=
        (Writes.write _).bind (.pure (some r))
      simpa [routineEntries, hr] using htold
  | main e =>
    change Writes (e.emitM? t m) r _
    rw [EntryPoint.emitM?_eq, show e.emit? t m = .ok r from h]
    cases r with
    | none => exact .pure none
    | some r =>
      have hr : r.access = .ofMain := haccess r rfl
      simpa [routineEntries, hr, Access.ofMain, Access.ofFunction] using writes_ok (some r)

theorem Item.stops_emitM? {i : Item L NodeId} {fault : Fault} (h : i.emit? t m = .error fault) :
    Stops (i.emitM? t m) fault := by
  cases i with
  | function f =>
    change Stops (f.emitM? t m) fault
    rw [Function.emitM?_eq, show f.emit? t m = .error fault from h]
    exact (stops_error fault).bind
  | main e =>
    change Stops (e.emitM? t m) fault
    rw [EntryPoint.emitM?_eq, show e.emit? t m = .error fault from h]
    exact stops_error fault

/-- Items are emitted as they are without a log. -/
theorem Item.mapM_emitM? (items : List (Item L NodeId)) :
    (∀ rs, items.mapM (·.emit? t m) = .ok rs →
      Writes (items.mapM (·.emitM? t m)) rs (routineEntries (rs.filterMap id))) ∧
    ∀ fault, items.mapM (·.emit? t m) = .error fault →
      Stops (items.mapM (·.emitM? t m)) fault := by
  induction items with
  | nil =>
    refine ⟨fun rs hrs => ?_, fun fault h => by cases h⟩
    cases hrs
    exact .pure []
  | cons i items ih =>
    rw [List.mapM_cons, List.mapM_cons]
    cases hi : i.emit? t m with
    | error fault =>
      -- The first item that is stopped stops all of them, and the rest writes nothing.
      refine ⟨fun rs hrs => (by cases hrs), fun fault' h => ?_⟩
      cases h
      exact (stops_emitM? hi).bind
    | ok r =>
      cases hitems : items.mapM (·.emit? t m) with
      | error fault =>
        refine ⟨fun rs hrs => (by cases hrs), fun fault' h => ?_⟩
        cases h
        exact (writes_emitM? hi).bind_stops (ih.2 fault hitems).bind
      | ok rs =>
        refine ⟨fun rs' hrs => ?_, fun fault h => by cases h⟩
        cases hrs
        have hwrites : Writes (do
            let r ← i.emitM? t m
            let rs ← items.mapM (·.emitM? t m)
            return r :: rs) (r :: rs)
            (routineEntries r.toList ++ (routineEntries (rs.filterMap id) ++ [])) :=
          (writes_emitM? hi).bind ((ih.1 rs hitems).bind (.pure (r :: rs)))
        have hentries : routineEntries ((r :: rs).filterMap id) =
            routineEntries r.toList ++ (routineEntries (rs.filterMap id) ++ []) := by
          cases r with
          | none => simp [routineEntries]
          | some r =>
            simp only [routineEntries, List.filterMap_cons, id, List.filter_cons, Option.toList]
            split <;> simp
        rwa [hentries]

theorem Program.writes_emitM {name : String} {u : CodeUnit} (h : p.emit t m name = .ok u) :
    Writes (p.emitM t m name) u (Span.ofUnit u).entries := by
  obtain ⟨rs, hrs, hu⟩ := exists_of_bind_eq_ok h
  cases hu
  have hwrites : Writes (do
      let emitted ← p.items.mapM (·.emitM? t m)
      let functions := emitted.filterMap id
      Log.write (.event .info
        [("functions", .count functions.length), ("message", .text "unit assembled")])
      return (⟨name, functions⟩ : CodeUnit)) ⟨name, rs.filterMap id⟩
      (routineEntries (rs.filterMap id) ++ ([_] ++ [])) :=
    ((Item.mapM_emitM? p.items).1 rs hrs).bind ((Writes.write _).bind (.pure _))
  simpa [Program.emitM, Span.ofUnit, Span.entries, CodeUnit.userFunctions, routineEntries,
    Function.comp_def, Event.entry] using hwrites.inSpan

theorem Program.stops_emitM {name : String} {fault : Fault} (h : p.emit t m name = .error fault) :
    Stops (p.emitM t m name) fault := by
  cases hrs : p.items.mapM (·.emit? t m) with
  | ok rs =>
    rw [Program.emit, hrs] at h
    cases h
  | error fault' =>
    rw [Program.emit, hrs] at h
    cases h
    exact ((Item.mapM_emitM? p.items).2 fault hrs).bind.inSpan

end Generators

/-! ## Whole programs -/

section Programs

variable {p : Program Location} (hplaces : ∀ l ∈ p.places, l.start.column < 4294967295)

include hplaces

theorem Declarations.exists_writes_ofProgramM :
    ∃ s, Span.OfPass "declarations" "symbol table built" p.results.declarations s ∧
      Writes (ofProgramM p) (ofProgram p) s.entries := by
  obtain ⟨reported, hfindings, hrun⟩ := tells_items (empty.record p.root Table.global) p.items
  -- Nothing is reported before the first item, so all findings are reported on the way.
  obtain rfl : (ofProgram p).findings = reported := hfindings.trans (List.nil_append _)
  obtain ⟨s, hs, hwrites⟩ := exists_writes_total "declarations" "symbol table built"
    (ofProgram p).diagnostics (fun x hx => hplaces _ (p.place_mem_of_declarations x hx))
    (ofProgram p)
  refine ⟨s, hs, ?_⟩
  have hitems : (p.items.forM itemM).run (empty.record p.root Table.global) = (do
      (ofProgram p).findings.forM (Diagnostics.tell DeclarationError.label)
      return ((), ofProgram p)) := hrun
  rw [ofProgramM, hitems]
  simpa [diagnostics] using hwrites

namespace Program

variable (hp : p.Distinct)

include hp

theorem exists_writes_referencesM :
    ∃ s, Span.OfPass "references" "reference check finished" p.results.references s ∧
      Writes (p.referencesM (ofProgram p).table (ofProgram p).scopes) p.results.references
        s.entries := by
  refine exists_writes_pass _ _ _ ?_ (fault_references hp)
    fun x hx => hplaces _ (place_mem_of_references hp x hx)
  rw [Program.references, Report.sendTo_concat]
  exact congrArg _ (funext fun b => b.referencesM_eq _ _ _)

theorem exists_writes_typesM :
    ∃ s, Span.OfPass "types" "type check finished" p.results.types s ∧
      Writes (p.typesM (ofProgram p).table (ofProgram p).scopes) p.results.types s.entries := by
  refine exists_writes_pass _ _ _ ?_ (fault_types hp)
    fun x hx => hplaces _ (place_mem_of_types hp x hx)
  rw [Program.types, Report.sendTo_concat]
  exact congrArg _ (funext fun b => b.typesM_eq _ _ _)

/-- The analysis with a log finds what the analysis without one finds, and tells it. -/
theorem exists_writes_analyzeM :
    ∃ declarations references types,
      Span.OfPass "declarations" "symbol table built" p.results.declarations declarations ∧
      Span.OfPass "references" "reference check finished" p.results.references references ∧
      Span.OfPass "types" "type check finished" p.results.types types ∧
      Writes p.analyzeM p.results ([declarations, references, types].flatMap Span.entries) := by
  obtain ⟨declarations, hd, hd'⟩ := exists_writes_ofProgramM hplaces
  obtain ⟨references, hr, hr'⟩ := exists_writes_referencesM hplaces hp
  obtain ⟨types, ht, ht'⟩ := exists_writes_typesM hplaces hp
  refine ⟨declarations, references, types, hd, hr, ht, ?_⟩
  have hall : Writes p.analyzeM p.results
      (declarations.entries ++ (references.entries ++ (types.entries ++ []))) :=
    hd'.bind (hr'.bind (ht'.bind (.pure _)))
  simpa using hall

end Program

end Programs

namespace Program

variable {p : Program Location} {entries : List Entry}

theorem writes_runM_of_rejected (hanalyze : Writes p.analyzeM p.results entries)
    (hrejected : p.results.isAccepted = false) (name : String) :
    Writes (p.runM name) (p.results, none) entries := by
  have hrun : Writes (p.runM name) (p.results, none) (entries ++ []) := by
    refine hanalyze.bind ?_
    rw [hrejected]
    exact .pure _
  rwa [List.append_nil] at hrun

/-- A run of an accepted program ends with both results, unless the script is refused because of its
width or the unit because of a frame. -/
theorem runM_of_isAccepted (hp : p.Distinct) (hanalyze : Writes p.analyzeM p.results entries)
    (haccepted : p.results.isAccepted = true) (name : String) :
    (p.FitsFrames ∧
      ∃ text u, p.results.scriptText p = .ok text ∧ p.results.codeUnit p name = .ok u ∧
        Writes (p.runM name) (p.results, some ⟨text, u⟩)
          (entries ++ (Span.ofScript.entries ++ (Span.ofUnit u).entries))) ∨
    (Stops (p.runM name) .widthOutOfRange ∧ ∃ i ∈ p.items, 16384 ≤ i.nesting) ∨
    (Stops (p.runM name) .frameOverflow ∧ ¬p.FitsFrames) := by
  have ha := analyze_eq_results hp
  have hscript : p.results.scriptText p = _ := Analysis.ifAccepted_eq haccepted _
  have hunit : p.results.codeUnit p name = _ := Analysis.ifAccepted_eq haccepted _
  obtain ⟨hemits, hover⟩ := emit_of_fits hp ha haccepted name
  rw [runM]
  -- The script comes first. If it is too wide, the unit is not even begun.
  cases htext : (p.toScript p.results.table p.results.scopes).text with
  | error fault =>
    rw [htext] at hscript
    obtain ⟨-, hwidth, hnesting⟩ := of_scriptText_eq_error hp ha haccepted hscript
    cases hwidth
    refine .inr (.inl ⟨hanalyze.bind_stops ?_, hnesting⟩)
    rw [if_pos haccepted]
    exact (stops_scriptTextM htext).bind
  | ok text =>
    rw [htext] at hscript
    -- The script is in the log already when the unit is stopped, but the log is lost with the run.
    by_cases hfits : p.FitsFrames
    · obtain ⟨u, hemit⟩ := hemits hfits
      rw [hemit] at hunit
      refine .inl ⟨hfits, text, u, hscript, hunit, hanalyze.bind ?_⟩
      rw [if_pos haccepted]
      have hboth : Writes (do
          let script ← p.scriptTextM p.results.table p.results.scopes
          let unit ← p.emitM p.results.table p.results.scopes name
          return (p.results, some (⟨script, unit⟩ : Generated))) (p.results, some ⟨text, u⟩)
          (Span.ofScript.entries ++ ((Span.ofUnit u).entries ++ [])) :=
        (writes_scriptTextM htext).bind ((writes_emitM hemit).bind (.pure _))
      rwa [List.append_nil] at hboth
    · refine .inr (.inr ⟨hanalyze.bind_stops ?_, hfits⟩)
      rw [if_pos haccepted]
      exact (writes_scriptTextM htext).bind_stops (stops_emitM (hover hfits)).bind

/-- The functions of a unit that the program declares are the functions of the program. -/
theorem map_name_userFunctions {rs : List Routine} {items : List (Item L NodeId)}
    (h : List.Forall₂ (fun i r => i.heading? = some r.heading) items rs) (name : String) :
    (CodeUnit.mk name rs).userFunctions.map Routine.name =
      (items.filterMap Item.function?).map (·.name.text) := by
  unfold CodeUnit.userFunctions
  induction h with
  | nil => rfl
  | @cons i r items rs hheading _ ih =>
    rcases Item.cases_of_heading? hheading with ⟨f, rfl, hname, haccess⟩ | ⟨e, rfl, -, haccess⟩
    · have hr : r.access = .ofFunction := haccess
      have hf : r.name = f.name.text := hname
      rw [List.filterMap_cons_some (f := Item.function?) rfl]
      simpa [hr, hf] using ih
    · have hr : r.access = .ofMain := haccess
      rw [List.filterMap_cons_none (f := Item.function?) rfl]
      simpa [hr, Access.ofMain, Access.ofFunction] using ih

theorem log_eq_error {fault : Fault} {name : String} (h : Stops (p.runM name) fault) :
    p.log name = .error fault := by
  rw [log, h []]
  rfl

end Program

/-! ## A program that does not fit -/

section Crowd

variable {names : List String}

/-- A block that declares floats of given names. -/
def Block.floats {I : Type} (mark : I) (place : L) (names : List String) : Block L I :=
  .mk mark (names.map fun name => .declare place ⟨"float", place⟩ ⟨name, place⟩ none)

/-- The entry point has `count` blocks one after the other that declare floats of the same names:
`main { if (true) { float x0; … } … if (true) { float x0; … } }` -/
def Program.crowd (count : Nat) (names : List String) : Program Location :=
  .ofDraft [.main ⟨none, none, .mk none
    (List.replicate count (.ifThen none (.bool none true) (.floats none none names)))⟩]

/-- A statement of the entry point. -/
def Stmt.InCrowd (names : List String) (st : Stmt Location NodeId) : Prop :=
  ∃ node, st = .ifThen .unknown (.bool .unknown true) (.floats node .unknown names)

theorem Stmt.settleAll_floats (c : Cursor) (names : List String) (node : NodeId) :
    Stmt.settleAll c (Block.floats none none names).statements =
      ((Block.floats node c.here names).statements, c) := by
  induction names with
  | nil => rfl
  | cons name names ih =>
    change (_ :: (Stmt.settleAll c (Block.floats none none names).statements).1,
      (Stmt.settleAll c (Block.floats none none names).statements).2) = _
    rw [ih]
    rfl

theorem Stmt.settleAll_crowd (names : List String) (count n : Nat) :
    ∃ sts n', Stmt.settleAll ⟨.unknown, n⟩ (List.replicate count
        (.ifThen none (.bool none true) (.floats none none names))) = (sts, ⟨.unknown, n'⟩) ∧
      sts.length = count ∧ ∀ st ∈ sts, st.InCrowd names := by
  induction count generalizing n with
  | zero => exact ⟨[], n, rfl, rfl, fun st hst => absurd hst List.not_mem_nil⟩
  | succ count ih =>
    obtain ⟨sts, n', hrest, hlength, hall⟩ := ih (n + 1)
    -- A block takes one number and leaves the cursor where it is.
    have hfirst : Stmt.settle ⟨.unknown, n⟩
        (.ifThen none (.bool none true) (.floats none none names)) =
        (.ifThen .unknown (.bool .unknown true) (.floats ⟨n⟩ .unknown names),
          ⟨.unknown, n + 1⟩) := by
      have hblock := Stmt.settleAll_floats ⟨.unknown, n⟩ names ⟨n⟩
      simp only [Block.floats, Block.statements] at hblock
      simp [Block.floats, Stmt.settle, Expr.settle, Cursor.visit, Cursor.moveTo, Cursor.number,
        Cursor.skip, hblock]
    refine ⟨.ifThen .unknown (.bool .unknown true) (.floats ⟨n⟩ .unknown names) :: sts, n',
      ?_, ?_, ?_⟩
    · simp only [List.replicate_succ, Stmt.settleAll, hfirst, hrest]
    · rw [List.length_cons, hlength]
    · exact List.forall_mem_cons.mpr ⟨⟨⟨n⟩, rfl⟩, hall⟩

theorem Program.exists_items_crowd (count : Nat) (names : List String) :
    ∃ mark node sts, (crowd count names).items = [.main ⟨.unknown, mark, .mk node sts⟩] ∧
      sts.length = count ∧ ∀ st ∈ sts, st.InCrowd names := by
  obtain ⟨sts, n, hsts, hlength, hall⟩ := Stmt.settleAll_crowd names count 0
  refine ⟨⟨n⟩, ⟨n + 1⟩, sts, ?_, hlength, hall⟩
  simp [crowd, ofDraft, Item.settleAll, Item.settle, Block.statements, Cursor.start, hsts,
    Cursor.visit, Cursor.moveTo, Cursor.number, Cursor.skip, Block.mark]

namespace Report

variable {ε : Type} {r q : Report L ε}

theorem findings_append_eq_nil (hr : r.findings = []) (hq : q.findings = []) :
    (r ++ q).findings = [] := by
  cases hfault : r.fault with
  | none => simp [append_of_no_fault hfault, hr, hq]
  | some fault => rw [append_of_fault hfault, hr]

theorem findings_concat_eq_nil {rs : List (Report L ε)} (h : ∀ r ∈ rs, r.findings = []) :
    (concat rs).findings = [] := by
  induction rs with
  | nil => rfl
  | cons r rs ih =>
    obtain ⟨hr, hrs⟩ := List.forall_mem_cons.mp h
    exact findings_append_eq_nil hr (ih hrs)

theorem findings_inScopeOf_eq_nil {m : ScopeMap} {node : NodeId} {go : ScopeId → Report L ε}
    (h : ∀ s, (go s).findings = []) : (inScopeOf m node go).findings = [] := by
  rw [inScopeOf]
  cases m.scopeOf node with
  | ok s => exact h s
  | error fault => rfl

end Report

section

variable {t : Table} {m : ScopeMap} {s : ScopeId} {sts : List (Stmt Location NodeId)}

/-- Nothing is referred to in floats without values, and nothing can be of the wrong type. -/
theorem Block.findings_floats (node : NodeId) (place : L) (names : List String) :
    ((Block.floats node place names).references t m).findings = [] ∧
      ((Block.floats node place names).types t m).findings = [] := by
  constructor
  · refine Report.findings_inScopeOf_eq_nil fun s => ?_
    induction names with
    | nil => rfl
    | cons name names ih => exact Report.findings_append_eq_nil rfl ih
  · refine Report.findings_inScopeOf_eq_nil fun s => ?_
    induction names with
    | nil => rfl
    | cons name names ih => exact Report.findings_append_eq_nil rfl ih

theorem Block.wellDeclared_floats (node : NodeId) (place : L) (hnames : names.Nodup) :
    (Block.floats node place names).WellDeclared [] := by
  have hdeclares : Block.declares (Block.floats node place names).statements = names := by
    simp [Block.floats, Block.statements, Block.declares, List.filterMap_map, Function.comp_def,
      Stmt.declares?]
  refine ⟨?_, hdeclares.symm ▸ hnames⟩
  clear hdeclares hnames
  induction names with
  | nil => trivial
  | cons name names ih =>
    have hfloat : (Ty.named? "float").isSome := by decide
    exact ⟨⟨hfloat, List.not_mem_nil⟩, ih⟩

/-- A float takes two slots. -/
theorem Block.slotsOf_floats (node : NodeId) (place : L) (names : List String) :
    slotsOf (Block.floats node place names).declaredTypes = 2 * names.length := by
  induction names with
  | nil => rfl
  | cons name names ih =>
    change 2 + slotsOf (Block.floats node place names).declaredTypes = _
    rw [ih, List.length_cons, Nat.mul_succ, Nat.add_comm]

theorem Block.nesting_floats (node : NodeId) (place : L) (names : List String) :
    (Block.floats node place names).nesting = 1 := by
  induction names with
  | nil => rfl
  | cons name names ih => exact ih

theorem Block.places_floats (node : NodeId) (place : L) (names : List String) :
    ∀ l ∈ (Block.floats node place names).places, l = place := by
  intro l hl
  rw [Block.floats, Block.places, Block.placesAll_eq_flatMap] at hl
  obtain ⟨st, hst, hl⟩ := List.mem_flatMap.mp hl
  obtain ⟨name, -, rfl⟩ := List.mem_map.mp hst
  simpa [Stmt.places, Expr.placesOption] using hl

variable (h : ∀ st ∈ sts, st.InCrowd names)

include h

theorem Block.findings_crowd :
    (Block.referencesAll t m s sts).findings = [] ∧ (Block.typesAll t m s sts).findings = [] := by
  induction sts with
  | nil => exact ⟨rfl, rfl⟩
  | cons st sts ih =>
    obtain ⟨⟨node, rfl⟩, hsts⟩ := List.forall_mem_cons.mp h
    obtain ⟨hreferences, htypes⟩ :=
      Block.findings_floats (t := t) (m := m) node Location.unknown names
    obtain ⟨hrestReferences, hrestTypes⟩ := ih hsts
    exact ⟨Report.findings_append_eq_nil (Report.findings_append_eq_nil rfl hreferences)
        hrestReferences,
      Report.findings_append_eq_nil (Report.findings_append_eq_nil rfl htypes) hrestTypes⟩

theorem Block.wellDeclared_crowd (hnames : names.Nodup) (node : NodeId) :
    (Block.mk node sts).WellDeclared [] := by
  have hnone : Block.declares sts = [] := by
    refine List.filterMap_eq_nil_iff.mpr fun st hst => ?_
    obtain ⟨node, rfl⟩ := h st hst
    rfl
  refine ⟨?_, by simp [hnone]⟩
  clear hnone
  induction sts with
  | nil => trivial
  | cons st sts ih =>
    obtain ⟨⟨node, rfl⟩, hsts⟩ := List.forall_mem_cons.mp h
    exact ⟨Block.wellDeclared_floats node Location.unknown hnames, ih hsts⟩

theorem Block.slotsOf_crowd :
    slotsOf (Block.declaredTypesAll sts) = sts.length * (2 * names.length) := by
  induction sts with
  | nil => simp [Block.declaredTypesAll, slotsOf]
  | cons st sts ih =>
    obtain ⟨⟨node, rfl⟩, hsts⟩ := List.forall_mem_cons.mp h
    rw [Block.declaredTypesAll, slotsOf_append, ih hsts, Stmt.declaredTypes, Block.slotsOf_floats,
      List.length_cons, Nat.add_one_mul sts.length, Nat.add_comm]

theorem Block.nestingAll_crowd : Block.nestingAll sts ≤ 1 := by
  induction sts with
  | nil => exact Nat.zero_le 1
  | cons st sts ih =>
    obtain ⟨⟨node, rfl⟩, hsts⟩ := List.forall_mem_cons.mp h
    exact Nat.max_le.mpr ⟨(Block.nesting_floats node Location.unknown names).le, ih hsts⟩

theorem Block.places_crowd : ∀ l ∈ Block.placesAll sts, l = .unknown := by
  intro l hl
  rw [Block.placesAll_eq_flatMap] at hl
  obtain ⟨st, hst, hl⟩ := List.mem_flatMap.mp hl
  obtain ⟨node, rfl⟩ := h st hst
  simp only [Stmt.places, Expr.places, List.mem_cons, List.mem_append, List.not_mem_nil,
    or_false] at hl
  rcases hl with hl | hl | hl
  · exact hl
  · exact hl
  · exact Block.places_floats node Location.unknown names l hl

end

namespace Program

variable (count : Nat)

theorem distinct_crowd : (crowd count names).Distinct := by
  refine distinct_ofDraft _ ?_
  intro i hi mark hmark
  obtain rfl := List.mem_singleton.mp hi
  have hnone : mark = none ∨ ¬count = 0 ∧ mark = none := by
    simpa [Item.nodes, Block.nodes, Block.nodesAll_eq_flatMap, Stmt.nodes, Block.floats] using hmark
  exact hnone.elim id And.right

/-- The crowd is accepted. -/
theorem isAccepted_crowd (hnames : names.Nodup) :
    (crowd count names).results.isAccepted = true := by
  obtain ⟨mark, node, sts, hitems, -, hall⟩ := exists_items_crowd count names
  -- Names are declared once in each block, and blocks are scopes of their own.
  have hdeclared : (crowd count names).WellDeclared := by
    constructor
    · rw [hitems]
      exact List.forall_mem_singleton.mpr (Block.wellDeclared_crowd hall hnames node)
    · rw [hitems]
      exact List.nodup_singleton _
  have hclean := (clean_iff_wellDeclared (distinct_crowd count)).mpr hdeclared
  have hbody : ∀ m, ∀ b ∈ (crowd count names).acceptedBodies m, b = .mk node sts := by
    intro m b hb
    rw [acceptedBodies, hitems] at hb
    obtain ⟨i, hi, hb⟩ := List.mem_filterMap.mp hb
    obtain rfl := List.mem_singleton.mp hi
    simp only [Item.acceptedBody?, Option.ite_none_right_eq_some, Option.some.injEq] at hb
    exact hb.2.symm
  have hpass : ∀ {ε : Type} (m : ScopeMap) (go : Block Location NodeId → Report Location ε),
      (go (.mk node sts)).findings = [] →
        (Report.concat (((crowd count names).acceptedBodies m).map go)).findings = [] := by
    intro ε m go hgo
    refine Report.findings_concat_eq_nil (List.forall_mem_map.mpr fun b hb => ?_)
    rw [hbody m b hb]
    exact hgo
  have hreferences : ∀ t m, ((crowd count names).references t m).findings = [] := fun t m =>
    hpass m _ (Report.findings_inScopeOf_eq_nil fun s => (Block.findings_crowd hall).1)
  have htypes : ∀ t m, ((crowd count names).types t m).findings = [] := fun t m =>
    hpass m _ (Report.findings_inScopeOf_eq_nil fun s => (Block.findings_crowd hall).2)
  simp [Analysis.isAccepted, Analysis.errorCount, results, Diagnostics.count, hclean, hreferences,
    htypes]

theorem column_lt_of_mem_places_crowd :
    ∀ l ∈ (crowd count names).places, l.start.column < 4294967295 := by
  obtain ⟨mark, node, sts, hitems, -, hall⟩ := exists_items_crowd count names
  intro l hl
  rw [places, hitems, List.flatMap_singleton] at hl
  obtain rfl : l = .unknown := by
    rcases List.mem_cons.mp hl with rfl | hl
    · rfl
    · exact Block.places_crowd hall l hl
  decide

/-- One slot is for the command line, and the rest is for floats. -/
theorem fitsFrames_crowd :
    (crowd count names).FitsFrames → 1 + count * (2 * names.length) ≤ 65535 := by
  obtain ⟨mark, node, sts, hitems, hlength, hall⟩ := exists_items_crowd count names
  intro hfits
  have hslots := (hfits _ (hitems ▸ List.mem_singleton_self _)).slots
  have hfloats := Block.slotsOf_crowd hall
  rw [hlength] at hfloats
  rw [← hfloats]
  exact hslots

theorem nesting_crowd : ∀ i ∈ (crowd count names).items, i.nesting < 16384 := by
  obtain ⟨mark, node, sts, hitems, -, hall⟩ := exists_items_crowd count names
  rw [hitems]
  refine List.forall_mem_singleton.mpr ?_
  have hsts := Block.nestingAll_crowd hall
  change Block.nestingAll sts + 1 < 16384
  omega

/-- A crowd that takes more slots than there are is stopped while its unit is assembled. -/
theorem log_crowd (hnames : names.Nodup) (hcrowded : 65535 < 1 + count * (2 * names.length))
    (name : String) : (crowd count names).log name = .error .frameOverflow := by
  have hp : (crowd count names).Distinct := distinct_crowd count
  obtain ⟨declarations, references, types, -, -, -, hanalyze⟩ :=
    exists_writes_analyzeM (column_lt_of_mem_places_crowd count) hp
  rcases runM_of_isAccepted hp hanalyze (isAccepted_crowd count hnames) name with
    ⟨hfits, -⟩ | ⟨-, i, hi, hnesting⟩ | ⟨hstops, -⟩
  · exact absurd (fitsFrames_crowd count hfits) (Nat.not_le.mpr hcrowded)
  · exact absurd (nesting_crowd count i hi) (Nat.not_lt.mpr hnesting)
  · exact log_eq_error hstops

/-- The blocks of this program have 32768 floats together. -/
def crowded : Program Location :=
  crowd 2048 ["a", "b", "c", "d", "e", "f", "g", "h", "i", "j", "k", "l", "m", "n", "o", "p"]

end Program

end Crowd

end Primer
