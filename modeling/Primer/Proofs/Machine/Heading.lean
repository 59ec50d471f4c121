import Primer.Proofs.Declaration.WellDeclared
import Primer.Proofs.Machine.Routine

/-!
# Headings of routines

A routine has a name, access flags and a signature. For an accepted program all of them can be read
off the headers of its items, without a look at the table (`Item.heading?`), and routines stand in
the order of items (`Program.headed_of_isAccepted`). Names of items differ, so a routine is found by
the name of its item (`Program.Headed.forall₂_function?`).
-/

namespace Primer

open Machine

variable {L I : Type}

namespace Machine

/-- Name, access and signature of a routine. -/
structure Heading where
  name : String
  access : Access
  signature : Signature
deriving DecidableEq, Repr

/-- The heading of a routine. -/
def Routine.heading (r : Routine) : Heading :=
  ⟨r.name, r.access, r.signature⟩

end Machine

/-- What the header of an item says about its routine. A function is private, and its signature has
the types that the header names. The entry point is public and takes the command line. -/
def Item.heading? : Item L I → Option Heading
  | .function f => do
    let returns ← Ty.named? f.returns.text
    let parameters ← f.parameters.mapM fun q => Ty.named? q.type.text
    return ⟨f.name.text, ⟨false, true, true⟩, ⟨parameters, returns⟩⟩
  | .main _ => some ⟨"main", ⟨true, false, true⟩, ⟨[.args], .void⟩⟩

/-- A heading tells whether the item is a function or the entry point. -/
theorem Item.cases_of_heading? {i : Item L I} {h : Heading} (hi : i.heading? = some h) :
    (∃ f, i = .function f ∧ h.name = f.name.text ∧ h.access = .ofFunction) ∨
      ∃ e, i = .main e ∧ h.name = "main" ∧ h.access = .ofMain := by
  cases i with
  | function f =>
    simp only [Item.heading?, Option.bind_eq_bind, Option.bind_eq_some_iff] at hi
    obtain ⟨returns, -, parameters, -, hi⟩ := hi
    obtain rfl := Option.some.inj hi
    exact .inl ⟨f, rfl, rfl, rfl⟩
  | main e =>
    obtain rfl := Option.some.inj hi
    exact .inr ⟨e, rfl, rfl, rfl⟩

theorem Item.name_of_heading? {i : Item L I} {h : Heading} (hi : i.heading? = some h) :
    i.name = h.name := by
  rcases Item.cases_of_heading? hi with ⟨f, rfl, hname, -⟩ | ⟨e, rfl, hname, -⟩
  · exact hname.symm
  · exact hname.symm

/-! ## Declared items -/

theorem Function.Entered.heading?_eq {t : Table} {m : ScopeMap} {k : Nat} {f : Function L NodeId}
    {body : Block L NodeId} {s : ScopeId} {returns : Ty} {types : List Ty}
    (hf : f.Entered t m k body s returns types) :
    (Item.function f).heading? = some ⟨f.name.text, .ofFunction, ⟨types, returns⟩⟩ := by
  have htypes := mapM_eq_some_of_map hf.types_named
  simp only [Item.heading?, hf.returns_named, htypes, Option.bind_eq_bind, Option.bind_some]
  rfl

/-- The routine of a declared item has the heading that the header says. -/
theorem Item.Entered.heading?_eq {t : Table} {m : ScopeMap} {k : Nat} {i : Item L NodeId}
    {r : Routine} (hi : i.Entered t m k) (hr : i.emit? t m = .ok (some r)) :
    i.heading? = some r.heading := by
  cases i with
  | function f =>
    obtain ⟨body, s, returns, types, hf⟩ := hi
    -- The emitter takes name and types from the symbol, which has them from the header.
    have howner : (m.get? f.mark).bind t.functionOf =
        some (⟨k⟩, ⟨f.name.text, returns, SymbolId.block (k + 1) f.parameters.length⟩) := by
      simp [hf.mark, Table.functionOf, hf.owner, Table.function?, hf.symbol, Symbol.function?]
    simp only [Item.emit?, Function.emit?, hf.body_eq, howner] at hr
    obtain ⟨⟨code, frame⟩, -, hr⟩ := exists_of_bind_eq_ok hr
    obtain rfl := Option.some.inj (Frame.inRange_of_finish hr).2
    rw [hf.heading?_eq]
    simp only [Routine.heading, signatureOf, hf.map_typeOf]
  | main e =>
    obtain ⟨s, he⟩ := hi
    simp only [Item.emit?, EntryPoint.emit?, he.mark] at hr
    obtain ⟨⟨code, frame⟩, -, hr⟩ := exists_of_bind_eq_ok hr
    obtain rfl := Option.some.inj (Frame.inRange_of_finish hr).2
    rfl

/-! ## Routines by name -/

/-- A member of a list is found by its key if all keys differ. -/
theorem find?_of_nodup {α β : Type} [DecidableEq β] {f : α → β} {xs : List α}
    (hnodup : (xs.map f).Nodup) {x : α} (hx : x ∈ xs) : xs.find? (f · = f x) = some x := by
  induction xs with
  | nil => exact absurd hx List.not_mem_nil
  | cons y xs ih =>
    obtain ⟨hy, hrest⟩ := List.nodup_cons.mp hnodup
    rcases List.mem_cons.mp hx with rfl | hx
    · simp
    · have hne : f y ≠ f x := fun he => hy (he ▸ List.mem_map_of_mem hx)
      simpa [List.find?_cons, hne] using ih hrest hx

theorem Item.map_name_of_heading? {items : List (Item L I)} {rs : List Routine}
    (h : List.Forall₂ (fun i r => i.heading? = some r.heading) items rs) :
    rs.map Routine.name = items.map Item.name := by
  induction h with
  | nil => rfl
  | cons hheading _ ih =>
    rw [List.map_cons, List.map_cons, ih, Item.name_of_heading? hheading]
    rfl

/-- The routines are those of the items of a program, one for one and in order, with the headings
that the items say, and no two of them have the same name. -/
structure Program.Headed (p : Program L) (t : Table) (m : ScopeMap) (rs : List Routine) : Prop where
  routines : List.Forall₂ (fun i r => i.emit? t m = .ok (some r) ∧ i.heading? = some r.heading)
    p.items rs
  names : (rs.map Routine.name).Nodup

namespace Program.Headed

variable {p : Program L} {t : Table} {m : ScopeMap} {rs : List Routine} (h : p.Headed t m rs)

include h

theorem map_name : rs.map Routine.name = p.items.map Item.name :=
  Item.map_name_of_heading? (h.routines.imp fun _ _ hr => hr.2)

/-- The routine of an item is found by the name of the item. -/
theorem forall₂_function? (name : String) :
    List.Forall₂ (fun i r => i.emit? t m = .ok (some r) ∧ i.heading? = some r.heading ∧
      (CodeUnit.mk name rs).function? i.name = some r) p.items rs := by
  have hmem : List.Forall₂ (fun r (i : Item L NodeId) => r ∈ rs ∧ i.emit? t m = .ok (some r) ∧
      i.heading? = some r.heading) rs p.items :=
    (List.forall₂_and_left _ _).mpr ⟨fun r hr => hr, h.routines.flip⟩
  refine (hmem.imp ?_).flip
  rintro r i ⟨hr, hemit, hheading⟩
  refine ⟨hemit, hheading, ?_⟩
  rw [Item.name_of_heading? hheading]
  exact find?_of_nodup h.names hr

/-- No routine is found by a name that no item has. -/
theorem function?_eq_none (name : String) {other : String}
    (hother : ∀ i ∈ p.items, i.name ≠ other) : (CodeUnit.mk name rs).function? other = none := by
  refine List.find?_eq_none.mpr fun r hr => ?_
  have hname : r.name ∈ p.items.map Item.name := h.map_name ▸ List.mem_map_of_mem hr
  obtain ⟨i, hi, hi'⟩ := List.mem_map.mp hname
  simpa [← hi'] using hother i hi

end Program.Headed

/-- The unit of a program has the routines of its items. -/
theorem Program.headed_of_codeUnit {p : Program Location} {a : Analysis} (hp : p.Distinct)
    (ha : p.analyze = .ok a) {name : String} {u : CodeUnit} (hu : a.codeUnit p name = .ok u) :
    p.Headed a.table a.scopes u.functions := by
  obtain ⟨haccepted, -⟩ := Analysis.exists_mapM_of_codeUnit hu
  obtain ⟨htable, hscopes, hclean, -, -⟩ := Program.of_isAccepted ha haccepted
  have hall := Program.assembled_of_codeUnit hp ha hu
  have hroutines : List.Forall₂ (fun i r => i.emit? a.table a.scopes = .ok (some r) ∧
      i.heading? = some r.heading) p.items u.functions := by
    refine ((List.forall₂_and_left _ _).mpr ⟨fun i hi => hi, hall⟩).imp ?_
    rintro i r ⟨hi, hemit, -⟩
    obtain ⟨k, hk⟩ := Item.exists_mem_numbered (k := 0) hi
    have hentered : i.Entered a.table a.scopes k := by
      rw [htable, hscopes]
      exact Program.entered_item hp hclean hk
    exact ⟨hemit, hentered.heading?_eq hemit⟩
  refine ⟨hroutines, ?_⟩
  -- Routines have the names of their items, in the same order, so their names differ too.
  rw [Item.map_name_of_heading? (hroutines.imp fun _ _ hr => hr.2)]
  exact ((clean_iff_wellDeclared hp).mp hclean).names

end Primer
