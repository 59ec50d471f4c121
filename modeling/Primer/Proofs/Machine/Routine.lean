import Primer.Proofs.Machine.Jump
import Primer.Proofs.Machine.Typed
import Primer.Proofs.Typing.Environment

/-!
# Routines of an accepted program

An item is emitted from its *outline*: the block to run, the symbols of its parameters and its
signature. Every item of an accepted program has an outline, its block is well typed, and the item
is emitted unless the counts of its frame overflow (`Program.exists_drafted`). So a unit has one
routine for each item, in the order of items (`Program.assembled_of_codeUnit`). A unit can also be
assembled with the analysis of another program; its routines come from outlines too
(`Analysis.exists_emit?`, `Item.exists_yields`).
-/

namespace Primer

open Machine

variable {L : Type}

/-- What the routine of an item is made from. -/
structure Outline (L : Type) where
  body : Block L NodeId
  /-- The parameters that have symbols; the entry point has none. -/
  arguments : List SymbolId
  signature : Signature

/-- The outline of an item, if it was declared. -/
def Item.outline? (t : Table) (m : ScopeMap) : Item L NodeId → Option (Outline L)
  | .function f =>
    f.body.bind fun body => ((m.get? f.mark).bind t.functionOf).map fun (_, symbol) =>
      ⟨body, symbol.parameters, signatureOf t symbol⟩
  | .main e => (m.get? e.mark).map fun _ => ⟨e.body, [], .ofMain⟩

/-- The type that an item is declared to return. -/
def Item.declaredReturn? : Item L NodeId → Option Ty
  | .function f => Ty.named? f.returns.text
  | .main _ => some .void

namespace Outline

/-- The context in which the block is emitted. -/
def context (o : Outline L) (t : Table) : Context := ⟨t, o.arguments⟩

/-- The frame in which the block is emitted. -/
def frame (o : Outline L) : Frame := .start o.signature.argumentSlots

/-- What is added to the code of the block: a function without result returns at its end. -/
def ending (o : Outline L) : Code :=
  if o.signature.returns = .void then [.ret none] else []

/-- The return at the end sets no label and is no jump. -/
theorem wired_ending (o : Outline L) {P : Code → Prop} (n : Nat) : o.ending.Wired P n n := by
  unfold ending
  split_ifs
  · exact .one rfl rfl
  · exact .nil

/-- A routine with the code of a well-typed block. The entry point is not a function, so its block
may not return anything. -/
structure Assembled (t : Table) (m : ScopeMap) (o : Outline L) (r : Routine) : Prop where
  signature : r.signature = o.signature
  emits : ∃ code f, o.body.Emits (o.context t) m o.frame code f ∧ r.body = code ++ o.ending
  wellTyped : ∃ returns, (∀ τ, returns = some τ → τ = o.signature.returns) ∧
    o.body.WellTyped t m o.arguments returns
  parameters : o.signature.parameters = o.arguments.map t.typeOf ∨ o.arguments = []

/-- No label is set twice in a routine. -/
theorem Assembled.nodup_labels {t : Table} {m : ScopeMap} {o : Outline L} {r : Routine}
    (h : o.Assembled t m r) : (Code.labels r.body).Nodup := by
  obtain ⟨code, f, hcode, hbody⟩ := h.emits
  rw [hbody]
  exact (hcode.wired.append (o.wired_ending _)).numbered.labels.nodup

end Outline

/-- The routine of an item, with the result type that the item declares. -/
def Item.Assembled (t : Table) (m : ScopeMap) (i : Item L NodeId) (r : Routine) : Prop :=
  ∃ o, i.outline? t m = some o ∧ i.declaredReturn? = some o.signature.returns ∧ o.Assembled t m r

theorem Item.newsStored_of_outline? {t : Table} {m : ScopeMap} {i : Item L NodeId} {o : Outline L}
    (ho : i.outline? t m = some o) (h : i.newsStored = true) : o.body.newsStored = true := by
  cases i with
  | function f =>
    obtain ⟨body, hbody, hmap⟩ := Option.bind_eq_some_iff.mp ho
    obtain ⟨symbol, -, rfl⟩ := Option.map_eq_some_iff.mp hmap
    simpa [Item.newsStored, hbody] using h
  | main e =>
    obtain ⟨s, -, rfl⟩ := Option.map_eq_some_iff.mp ho
    exact h

/-! ## Routines of any tree -/

/-- Only a frame without overflow lets anything pass. -/
theorem Machine.Frame.inRange_of_finish {α : Type} {f : Frame} {made x : α}
    (h : f.finish made = .ok x) : f.InRange ∧ made = x := by
  unfold finish at h
  split_ifs at h with hrange
  exact ⟨hrange, Except.ok.inj h⟩

/-- The routine of an outline: the code of the block with the ending, and as many slots as are in
use at the end of the block. -/
structure Outline.Yields (t : Table) (m : ScopeMap) (o : Outline L) (r : Routine) (code : Code)
    (f : Frame) : Prop where
  emits : o.body.Emits (o.context t) m o.frame code f
  signature : r.signature = o.signature
  slots : r.slots = f.nextSlot
  body : r.body = code ++ o.ending
  parameters : o.signature.parameters = o.arguments.map t.typeOf ∨ o.arguments = []

theorem Item.exists_yields {t : Table} {m : ScopeMap} {i : Item L NodeId} {r : Routine}
    (h : i.emit? t m = .ok (some r)) :
    ∃ o code f, i.outline? t m = some o ∧ o.Yields t m r code f := by
  cases i with
  | function f =>
    simp only [Item.emit?, Function.emit?] at h
    split at h
    next body _ symbol hbody hsymbol =>
      -- A frame within its range is returned as it is, so the routine can be read off.
      obtain ⟨⟨code, frame⟩, hcode, hr⟩ := exists_of_bind_eq_ok h
      obtain rfl := Option.some.inj (Frame.inRange_of_finish hr).2
      refine ⟨⟨body, symbol.parameters, signatureOf t symbol⟩, code, frame, ?_,
        Block.emits_of_emit hcode, rfl, rfl, rfl, .inl rfl⟩
      simp [Item.outline?, hbody, hsymbol]
    next => cases h
  | main e =>
    simp only [Item.emit?, EntryPoint.emit?] at h
    split at h
    next => cases h
    next s hmark =>
      -- Unlike a function, the entry point has no symbol of its own: only its scope may be missing.
      obtain ⟨⟨code, frame⟩, hcode, hr⟩ := exists_of_bind_eq_ok h
      obtain rfl := Option.some.inj (Frame.inRange_of_finish hr).2
      refine ⟨⟨e.body, [], .ofMain⟩, code, frame, ?_, Block.emits_of_emit hcode, rfl, rfl, rfl,
        .inr rfl⟩
      simp [Item.outline?, hmark]

/-- What is emitted from items comes from them one by one. -/
theorem Item.forall₂_of_mapM_emit? {t : Table} {m : ScopeMap} {items : List (Item L NodeId)}
    {rs : List (Option Routine)} (h : items.mapM (·.emit? t m) = .ok rs) :
    List.Forall₂ (fun i r => i.emit? t m = .ok r) items rs := by
  induction items generalizing rs with
  | nil =>
    cases h
    exact .nil
  | cons i items ih =>
    rw [List.mapM_cons] at h
    obtain ⟨first, hfirst, h⟩ := exists_of_bind_eq_ok h
    obtain ⟨rest, hrest, h⟩ := exists_of_bind_eq_ok h
    cases h
    exact .cons hfirst (ih hrest)

/-- What is generated for an accepted program is what the generator returns. -/
theorem Analysis.ifAccepted_eq {a : Analysis} {α : Type} (haccepted : a.isAccepted = true)
    (result : Except Fault α) : a.ifAccepted result = result.mapError .fault :=
  if_pos haccepted

/-- A unit holds what was emitted from the items, and only an accepted program has one. -/
theorem Analysis.exists_mapM_of_codeUnit {a : Analysis} {p : Program L} {name : String}
    {u : CodeUnit} (hu : a.codeUnit p name = .ok u) :
    a.isAccepted = true ∧ ∃ rs, p.items.mapM (·.emit? a.table a.scopes) = .ok rs ∧
      u = ⟨name, rs.filterMap id⟩ := by
  unfold Analysis.codeUnit Analysis.ifAccepted at hu
  split at hu
  · next haccepted =>
    refine ⟨haccepted, ?_⟩
    cases hemit : p.emit a.table a.scopes name with
    | error fault => simp [hemit, Except.mapError] at hu
    | ok v =>
      obtain rfl : v = u := by simpa [hemit, Except.mapError] using hu
      obtain ⟨rs, hrs, hv⟩ := exists_of_bind_eq_ok hemit
      cases hv
      exact ⟨rs, hrs, rfl⟩
  · cases hu

/-- Every routine of a unit is that of an item of the tree, also if the analysis is of another
tree. -/
theorem Analysis.exists_emit? {a : Analysis} {p : Program L} {name : String} {u : CodeUnit}
    (hu : a.codeUnit p name = .ok u) {r : Routine} (hr : r ∈ u.functions) :
    ∃ i ∈ p.items, i.emit? a.table a.scopes = .ok (some r) := by
  obtain ⟨-, rs, hrs, rfl⟩ := Analysis.exists_mapM_of_codeUnit hu
  have hr : some r ∈ rs := by simpa using hr
  obtain ⟨n, hn, hget⟩ := List.getElem_of_mem hr
  have hall := Item.forall₂_of_mapM_emit? hrs
  have hn' : n < p.items.length := hall.length_eq ▸ hn
  exact ⟨p.items[n], List.getElem_mem hn', (hall.get hn' hn).trans (congrArg Except.ok hget)⟩

/-! ## Routines of an accepted program -/

/-- A declared function is emitted from its header and body. -/
theorem Function.Entered.outline?_eq {t : Table} {m : ScopeMap} {k : Nat} {f : Function L NodeId}
    {body : Block L NodeId} {s : ScopeId} {returns : Ty} {types : List Ty}
    (hf : f.Entered t m k body s returns types) :
    (Item.function f).outline? t m =
      some ⟨body, SymbolId.block (k + 1) f.parameters.length, ⟨types, returns⟩⟩ := by
  simp [Item.outline?, hf.body_eq, hf.mark, Table.functionOf, hf.owner, Table.function?, hf.symbol,
    Symbol.function?, signatureOf, hf.map_typeOf]

theorem EntryPoint.Entered.outline?_eq {t : Table} {m : ScopeMap} {k : Nat}
    {e : EntryPoint L NodeId} {s : ScopeId} (he : e.Entered t m k s) :
    (Item.main e).outline? t m = some ⟨e.body, [], .ofMain⟩ := by
  simp [Item.outline?, he.mark]

/-- The routine of a declared function, from the code of its block. -/
theorem Function.Entered.emit?_eq {t : Table} {m : ScopeMap} {k : Nat} {f : Function L NodeId}
    {body : Block L NodeId} {s : ScopeId} {returns : Ty} {types : List Ty} {code : Code}
    {frame : Frame} (hf : f.Entered t m k body s returns types)
    (hcode : body.Emits ⟨t, SymbolId.block (k + 1) f.parameters.length⟩ m
      (.start (Signature.argumentSlots ⟨types, returns⟩)) code frame) :
    f.emit? t m = frame.finish (some ⟨f.name.text, .ofFunction, ⟨types, returns⟩, frame.nextSlot,
      code ++ if returns = .void then [.ret none] else []⟩) := by
  -- The emitter finds the symbol through the scope of the function.
  have hfunction : (m.get? f.mark).bind t.functionOf =
      some (⟨k⟩, ⟨f.name.text, returns, SymbolId.block (k + 1) f.parameters.length⟩) := by
    simp [hf.mark, Table.functionOf, hf.owner, Table.function?, hf.symbol, Symbol.function?]
  simp only [Function.emit?, hf.body_eq, hfunction, signatureOf, hf.map_typeOf, hcode.emit_eq, bind,
    Except.bind]

/-- The routine of a declared entry point. -/
theorem EntryPoint.Entered.emit?_eq {t : Table} {m : ScopeMap} {k : Nat}
    {e : EntryPoint L NodeId} {s : ScopeId} {code : Code} {frame : Frame} (he : e.Entered t m k s)
    (hcode : e.body.Emits ⟨t, []⟩ m (.start Signature.ofMain.argumentSlots) code frame) :
    e.emit? t m =
      frame.finish (some ⟨"main", .ofMain, .ofMain, frame.nextSlot, code ++ [.ret none]⟩) := by
  simp only [EntryPoint.emit?, he.mark, hcode.emit_eq, bind, Except.bind]

/-- The emission of an item comes to a routine, which is finished unless the counts of its frame
overflowed. -/
structure Item.Drafted (t : Table) (m : ScopeMap) (i : Item L NodeId) (r : Routine) (f : Frame) :
    Prop where
  emit?_eq : i.emit? t m = f.finish (some r)
  assembled : i.Assembled t m r
  yields : ∃ o code, i.outline? t m = some o ∧ o.Yields t m r code f

section Accepted

variable {p : Program Location} {a : Analysis}

private theorem Program.drafted_function (hp : p.Distinct) (ha : p.analyze = .ok a)
    (haccepted : a.isAccepted = true) {k : Nat} {f : Function Location NodeId}
    (hi : (k, .function f) ∈ p.numberedItems) :
    ∃ r frame, (Item.function f).Drafted a.table a.scopes r frame := by
  obtain ⟨body, s, returns, types, hf, hwell⟩ := Program.wellTyped_function hp ha haccepted hi
  let arguments := SymbolId.block (k + 1) f.parameters.length
  let o : Outline Location := ⟨body, arguments, ⟨types, returns⟩⟩
  obtain ⟨code, frame, hcode⟩ := Block.WellTyped.exists_emits (c := o.context a.table) hwell o.frame
  have hparameters : o.signature.parameters = o.arguments.map a.table.typeOf ∨ o.arguments = [] :=
    .inl hf.map_typeOf.symm
  have hreturns : ∀ τ, some returns = some τ → τ = o.signature.returns :=
    fun τ hτ => (Option.some.inj hτ).symm
  exact ⟨_, frame, hf.emit?_eq hcode,
    ⟨o, hf.outline?_eq, hf.returns_named, rfl, ⟨code, frame, hcode, rfl⟩,
      ⟨some returns, hreturns, hwell⟩, hparameters⟩,
    o, code, hf.outline?_eq, hcode, rfl, rfl, rfl, hparameters⟩

private theorem Program.drafted_main (hp : p.Distinct) (ha : p.analyze = .ok a)
    (haccepted : a.isAccepted = true) {k : Nat} {e : EntryPoint Location NodeId}
    (hi : (k, .main e) ∈ p.numberedItems) :
    ∃ r frame, (Item.main e).Drafted a.table a.scopes r frame := by
  obtain ⟨s, he, hwell⟩ := Program.wellTyped_main hp ha haccepted hi
  let o : Outline Location := ⟨e.body, [], .ofMain⟩
  obtain ⟨code, frame, hcode⟩ := Block.WellTyped.exists_emits (c := o.context a.table) hwell o.frame
  have hreturns : ∀ τ, none = some τ → τ = o.signature.returns := fun τ hτ => by cases hτ
  exact ⟨_, frame, he.emit?_eq hcode,
    ⟨o, he.outline?_eq, rfl, rfl, ⟨code, frame, hcode, rfl⟩, ⟨none, hreturns, hwell⟩, .inr rfl⟩,
    o, code, he.outline?_eq, hcode, rfl, rfl, rfl, .inr rfl⟩

/-- Every item of an accepted program has a routine to come to. -/
theorem Program.exists_drafted (hp : p.Distinct) (ha : p.analyze = .ok a)
    (haccepted : a.isAccepted = true) {i : Item Location NodeId} (hi : i ∈ p.items) :
    ∃ r f, i.Drafted a.table a.scopes r f := by
  -- What is known about declared items is stated for their numbers.
  obtain ⟨k, hk⟩ := Item.exists_mem_numbered (k := 0) hi
  cases i with
  | function f => exact Program.drafted_function hp ha haccepted hk
  | main e => exact Program.drafted_main hp ha haccepted hk

/-- Items that each have a routine are emitted one after the other. -/
theorem Item.mapM_emit?_eq {t : Table} {m : ScopeMap} {items : List (Item L NodeId)}
    {rs : List Routine} (h : List.Forall₂ (fun i r => i.emit? t m = .ok (some r)) items rs) :
    items.mapM (·.emit? t m) = .ok (rs.map some) := by
  induction h with
  | nil => rfl
  | cons hr _ ih =>
    rw [List.mapM_cons, hr, ih]
    rfl

private theorem forall₂_filterMap_id {α β : Type} {R : α → Option β → Prop} {S : α → β → Prop}
    {xs : List α} {ys : List (Option β)} (h : List.Forall₂ R xs ys)
    (hS : ∀ x ∈ xs, ∀ y, R x y → ∃ z, y = some z ∧ S x z) :
    List.Forall₂ S xs (ys.filterMap id) := by
  induction h with
  | nil => exact .nil
  | @cons x y xs ys hxy _ ih =>
    obtain ⟨z, rfl, hz⟩ := hS x List.mem_cons_self y hxy
    exact .cons hz (ih fun x hx => hS x (List.mem_cons_of_mem _ hx))

/-- The unit of a program has one routine for each item, in the order of items. -/
theorem Program.assembled_of_codeUnit (hp : p.Distinct) (ha : p.analyze = .ok a) {name : String}
    {u : CodeUnit} (hu : a.codeUnit p name = .ok u) :
    List.Forall₂ (fun i r => i.emit? a.table a.scopes = .ok (some r) ∧
      i.Assembled a.table a.scopes r) p.items u.functions := by
  obtain ⟨haccepted, rs, hrs, rfl⟩ := Analysis.exists_mapM_of_codeUnit hu
  refine forall₂_filterMap_id (Item.forall₂_of_mapM_emit? hrs) fun i hi x hx => ?_
  obtain ⟨r, f, hdrafted⟩ := Program.exists_drafted hp ha haccepted hi
  obtain ⟨-, rfl⟩ := Frame.inRange_of_finish (hdrafted.emit?_eq.symm.trans hx)
  exact ⟨r, rfl, hx, hdrafted.assembled⟩

/-- What holds of each routine with the code of a well-typed block, in which fresh arrays are only
stored, holds of all routines of the unit. -/
theorem Program.forall₂_routine_of_codeUnit {R : Item Location NodeId → Routine → Prop}
    (hp : p.Distinct) (ha : p.analyze = .ok a) (hnew : p.newsStored = true) {name : String}
    {u : CodeUnit} (hu : a.codeUnit p name = .ok u)
    (hR : ∀ i o r, a.table.Nameable → i.outline? a.table a.scopes = some o →
      i.declaredReturn? = some o.signature.returns → o.Assembled a.table a.scopes r →
      o.body.newsStored = true → R i r) :
    List.Forall₂ R p.items u.functions := by
  obtain ⟨haccepted, -⟩ := Analysis.exists_mapM_of_codeUnit hu
  obtain ⟨htable, -⟩ := Program.of_isAccepted ha haccepted
  have ht : a.table.Nameable := htable ▸ Declarations.nameable_ofProgram p
  have hitems : ∀ i ∈ p.items, i.newsStored = true := List.all_eq_true.mp hnew
  have hall := Program.assembled_of_codeUnit hp ha hu
  refine ((List.forall₂_and_left _ _).mpr ⟨hitems, hall⟩).imp ?_
  rintro i r ⟨hi, -, o, ho, hreturn, hr⟩
  exact hR i o r ht ho hreturn hr (Item.newsStored_of_outline? ho hi)

/-- Acceptance of a program that can be evaluated, with a check of its analysis. -/
theorem Program.exists_accepted (check : Analysis → Bool)
    (h : p.analyze.toOption.any (fun a => a.isAccepted && check a) = true) :
    ∃ a, p.analyze = .ok a ∧ a.isAccepted = true ∧ check a = true := by
  cases ha : p.analyze with
  | error fault => simp [ha, Except.toOption] at h
  | ok a =>
    have hboth : a.isAccepted = true ∧ check a = true := by simpa [ha, Except.toOption] using h
    exact ⟨a, rfl, hboth⟩

end Accepted

end Primer
