import Primer.Machine.Assembly
import Primer.Proofs.Declaration.Coverage
import Primer.Proofs.Declaration.Rejection
import Primer.Proofs.Tree.Exchange

/-!
# What an exchanged statement changes

One statement of a program is exchanged for another one. If the two agree for the passes over
declarations and references and for emission (`Stmt.Agrees`), so do the programs: the same is
declared, the same references are mistaken, and the same code is emitted
(`Program.Exchange.agrees`).

Of the pass over types only the number of findings is compared. If one statement has so many more or
less than the other, so have the programs (`Program.Exchange.shifts`).
-/

namespace Primer

variable {L : Type}

/-! ## The passes that agree -/

/-- Two statements that declare the same, have the same mistaken references and the same code. -/
structure Stmt.Agrees (x x' : Stmt L NodeId) : Prop where
  nodes : x'.nodes = x.nodes
  declarations : ∀ s d, x'.declarations s d = x.declarations s d
  references : ∀ t m s, x'.references t m s = x.references t m s
  emit : ∀ c m s f, x'.emit c m s f = x.emit c m s f

/-- The same of blocks. -/
structure Block.Agrees (b b' : Block L NodeId) : Prop where
  nodes : b'.nodes = b.nodes
  declarations : ∀ s d, b'.declarations s d = b.declarations s d
  references : ∀ t m, b'.references t m = b.references t m
  emit : ∀ c m f, b'.emit c m f = b.emit c m f

/-- The same of items. -/
structure Item.Agrees (i i' : Item L NodeId) : Prop where
  nodes : i'.nodes = i.nodes
  declarations : ∀ d : Declarations L, d.item i' = d.item i
  references : ∀ t m, (i'.acceptedBody? m).map (·.references t m) =
    (i.acceptedBody? m).map (·.references t m)
  emit? : ∀ t m, i'.emit? t m = i.emit? t m

/-- The same of programs. -/
structure Program.Agrees (p p' : Program L) : Prop where
  nodes : p'.nodes = p.nodes
  declarations : Declarations.ofProgram p' = Declarations.ofProgram p
  references : ∀ t m, p'.references t m = p.references t m
  emit : ∀ t m name, p'.emit t m name = p.emit t m name

theorem Block.emitAll_exchange {x x' : Stmt L NodeId}
    (h : ∀ c m s f, x'.emit c m s f = x.emit c m s f) (front rest : List (Stmt L NodeId))
    (c : Machine.Context) (m : ScopeMap) (s : ScopeId) (f : Machine.Frame) :
    Block.emitAll c m s (front ++ x' :: rest) f = Block.emitAll c m s (front ++ x :: rest) f := by
  induction front generalizing f with
  | nil => simp only [List.nil_append, Block.emitAll, h]
  | cons st front ih => simp only [List.cons_append, Block.emitAll, ih]

theorem Stmt.Agrees.block {x x' : Stmt L NodeId} (h : x.Agrees x') (mark : NodeId)
    (front rest : List (Stmt L NodeId)) :
    Block.Agrees (.mk mark (front ++ x :: rest)) (.mk mark (front ++ x' :: rest)) where
  nodes := by simp [Block.nodes, Block.nodesAll_eq_flatMap, h.nodes]
  declarations s d := by
    simp only [Block.declarations, Block.declarationsAll_append, Block.declarationsAll,
      h.declarations]
  references t m := by
    simp only [Block.references, Block.referencesAll_eq_concat, List.map_append, List.map_cons,
      h.references]
  emit c m f := by simp only [Block.emit, Block.emitAll_exchange h.emit]

theorem Block.Agrees.stmt {b b' : Block L NodeId} {st st' : Stmt L NodeId} (h : b.Agrees b')
    (hst : Stmt.Nests b b' st st') : st.Agrees st' := by
  cases hst <;> exact {
    nodes := by simp only [Stmt.nodes, h.nodes]
    declarations := fun s d => by simp only [Stmt.declarations, h.declarations]
    references := fun t m s => by simp only [Stmt.references, h.references]
    emit := fun c m s f => by simp only [Stmt.emit, h.emit] }

theorem Block.Exchange.agrees {mark : NodeId} {x x' : Stmt L NodeId} {b b' : Block L NodeId}
    (hx : x.Agrees x') (h : b.Exchange mark x x' b') : b.Agrees b' := by
  -- From the exchanged statement outwards, through a block and the statement around it.
  induction h with
  | here => exact hx.block _ _ _
  | inside hst _ ih => exact (ih.stmt hst).block _ _ _

theorem Item.Exchange.agrees {mark : NodeId} {x x' : Stmt L NodeId} {i i' : Item L NodeId}
    (hx : x.Agrees x') (h : i.Exchange mark x x' i') : i.Agrees i' := by
  cases h with
  | @function f body body' hbody h =>
    -- A body is used as a whole everywhere, so what holds of it carries over field by field.
    have hbodies := h.agrees hx
    exact {
      nodes := by simp [Item.nodes, hbody, hbodies.nodes]
      declarations := fun d => by
        simp only [Declarations.item, Declarations.function, hbody, Declarations.accept,
          hbodies.declarations]
      references := fun t m => by
        simp only [Item.acceptedBody?, hbody]
        split_ifs <;> simp [hbodies.references]
      emit? := fun t m => by
        simp only [Item.emit?, Function.emit?, hbody]
        cases (m.get? f.mark).bind t.functionOf <;> simp only [hbodies.emit] }
  | @main e body' h =>
    have hbodies := h.agrees hx
    exact {
      nodes := by simp [Item.nodes, hbodies.nodes]
      declarations := fun d => by
        simp only [Declarations.item, Declarations.entryPoint, hbodies.declarations]
      references := fun t m => by
        simp only [Item.acceptedBody?]
        split_ifs <;> simp [hbodies.references]
      emit? := fun t m => by
        simp only [Item.emit?, EntryPoint.emit?, hbodies.emit] }

/-- The passes over the items of a program, where accepted bodies are reported on. -/
theorem Program.map_acceptedBodies {ε : Type} (m : ScopeMap) (p : Program L)
    (go : Block L NodeId → Report L ε) :
    (p.acceptedBodies m).map go = p.items.filterMap fun i => (i.acceptedBody? m).map go := by
  rw [Program.acceptedBodies, List.map_filterMap]

/-- Programs agree if a statement is exchanged for one that agrees with it. -/
theorem Program.Exchange.agrees {mark : NodeId} {x x' : Stmt L NodeId} {p p' : Program L}
    (hx : x.Agrees x') (h : Program.Exchange mark x x' p p') : p.Agrees p' := by
  cases h with
  | mk h =>
    have hitems := h.agrees hx
    exact {
      nodes := by simp [Program.nodes, hitems.nodes]
      declarations := by
        simp only [Declarations.ofProgram, List.foldl_append, List.foldl_cons, hitems.declarations]
      references := fun t m => by
        simp only [Program.references, Program.map_acceptedBodies, List.filterMap_append,
          List.filterMap_cons, hitems.references]
      emit := fun t m name => by
        simp only [Program.emit, List.mapM_append, List.mapM_cons, hitems.emit?] }

/-! ## Counting findings -/

/-- The second report is stopped where the first one is. If neither is, it has lost some findings
and gained others. -/
structure Report.Shifts {ε : Type} (lost gained : Nat) (r r' : Report L ε) : Prop where
  fault : r'.fault = r.fault
  count : r.fault = none → r'.findings.length + lost = r.findings.length + gained

namespace Report.Shifts

variable {ε : Type} {lost gained : Nat} {r r' : Report L ε}

theorem refl (n : Nat) (r : Report L ε) : Shifts n n r r :=
  ⟨rfl, fun _ => rfl⟩

theorem ofFindings {xs xs' : List (Located L ε)} (h : xs'.length + lost = xs.length + gained) :
    Shifts lost gained (.ofFindings xs) (.ofFindings xs') :=
  ⟨rfl, fun _ => h⟩

theorem append {lost' gained' : Nat} {q q' : Report L ε} (h : Shifts lost gained r r')
    (hq : Shifts lost' gained' q q') :
    Shifts (lost + lost') (gained + gained') (r ++ q) (r' ++ q') := by
  cases hfault : r.fault with
  | some fault =>
    rw [append_of_fault hfault, append_of_fault (h.fault.trans hfault)]
    exact ⟨h.fault, fun hnone => by rw [hfault] at hnone; cases hnone⟩
  | none =>
    rw [append_of_no_fault hfault, append_of_no_fault (h.fault.trans hfault)]
    refine ⟨hq.fault, fun hnone => ?_⟩
    have hcount := h.count hfault
    have hcount' := hq.count hnone
    simp only [List.length_append]
    omega

theorem append_right (h : Shifts lost gained r r') (q : Report L ε) :
    Shifts lost gained (r ++ q) (r' ++ q) :=
  h.append (.refl 0 q)

theorem append_left (q : Report L ε) (h : Shifts lost gained r r') :
    Shifts lost gained (q ++ r) (q ++ r') := by
  simpa using (Shifts.refl 0 q).append h

theorem concat (h : Shifts lost gained r r') (front rest : List (Report L ε)) :
    Shifts lost gained (.concat (front ++ r :: rest)) (.concat (front ++ r' :: rest)) := by
  induction front with
  | nil => exact h.append_right _
  | cons q front ih => exact ih.append_left q

/-- A node without a scope stops both reports. -/
theorem inScopeOf {m : ScopeMap} {node : NodeId} {go go' : ScopeId → Report L ε}
    (h : ∀ s, m.get? node = some s → Shifts lost gained (go s) (go' s)) :
    Shifts lost gained (.inScopeOf m node go) (.inScopeOf m node go') := by
  cases hnode : m.get? node with
  | some s =>
    rw [inScopeOf_of_get? hnode, inScopeOf_of_get? hnode]
    exact h s hnode
  | none =>
    simp only [Report.inScopeOf, ScopeMap.scopeOf, hnode]
    exact ⟨rfl, fun hstop => by cases hstop⟩

end Report.Shifts

section Types

variable {lost gained : Nat} {t : Table} {m : ScopeMap} {mark : NodeId} {x x' : Stmt L NodeId}

theorem Report.Shifts.block {node : NodeId} {st st' : Stmt L NodeId}
    (h : ∀ s, m.get? node = some s → Shifts lost gained (st.types t m s) (st'.types t m s))
    (front rest : List (Stmt L NodeId)) :
    Shifts lost gained (Block.types t m (.mk node (front ++ st :: rest)))
      (Block.types t m (.mk node (front ++ st' :: rest))) := by
  refine .inScopeOf fun s hs => ?_
  simp only [Block.typesAll_eq_concat, List.map_append, List.map_cons]
  exact (h s hs).concat _ _

theorem Report.Shifts.stmt {b b' : Block L NodeId} {st st' : Stmt L NodeId}
    (h : Shifts lost gained (b.types t m) (b'.types t m)) (hst : Stmt.Nests b b' st st')
    (s : ScopeId) : Shifts lost gained (st.types t m s) (st'.types t m s) := by
  cases hst with
  | ifThen | loop => exact h.append_left _
  | yes => exact (h.append_right _).append_left _
  | no => exact (h.append_left _).append_left _

theorem Block.Exchange.shifts {b b' : Block L NodeId}
    (hx : ∀ s, m.get? mark = some s → Report.Shifts lost gained (x.types t m s) (x'.types t m s))
    (h : b.Exchange mark x x' b') : Report.Shifts lost gained (b.types t m) (b'.types t m) := by
  induction h with
  | here => exact .block hx _ _
  | inside hst _ ih => exact .block (fun s _ => ih.stmt hst s) _ _

theorem Block.Exchange.mark_mem {b b' : Block L NodeId} (h : b.Exchange mark x x' b') :
    mark ∈ b.nodes := by
  induction h with
  | here => exact List.mem_cons_self
  | @inside mark' front st st' rest b b' hst _ ih =>
    refine List.mem_cons_of_mem _ ?_
    rw [Block.nodesAll_eq_flatMap]
    refine List.mem_flatMap.mpr ⟨st, List.mem_append_right _ List.mem_cons_self, ?_⟩
    cases hst with
    | ifThen | loop => exact ih
    | yes => exact List.mem_append_left _ ih
    | no => exact List.mem_append_right _ ih

/-- An item that is exchanged is accepted if it was, and its body is exchanged. -/
theorem Item.Exchange.acceptedBody? {i i' : Item L NodeId} (h : i.Exchange mark x x' i') :
    (i.acceptedBody? m = none ∧ i'.acceptedBody? m = none) ∨
      ∃ b b', i.acceptedBody? m = some b ∧ i'.acceptedBody? m = some b' ∧
        b.Exchange mark x x' b' := by
  cases h with
  | function hbody h =>
    simp only [Item.acceptedBody?, hbody]
    split_ifs
    · exact .inr ⟨_, _, rfl, rfl, h⟩
    · exact .inl ⟨rfl, rfl⟩
  | main h =>
    simp only [Item.acceptedBody?]
    split_ifs
    · exact .inr ⟨_, _, rfl, rfl, h⟩
    · exact .inl ⟨rfl, rfl⟩

theorem Item.Exchange.mark_mem {i i' : Item L NodeId} (h : i.Exchange mark x x' i') :
    mark ∈ i.nodes := by
  cases h with
  | function hbody h => exact List.mem_cons_of_mem _ (by simpa [hbody] using h.mark_mem)
  | main h => exact List.mem_cons_of_mem _ h.mark_mem

open Declarations (ofProgram) in
/-- A program with distinct nodes has so many type errors more or less as the statement has that is
exchanged. If that statement is passed over, there are as many as before. -/
theorem Program.Exchange.shifts {p p' : Program L} (hp : p.Distinct)
    (h : Program.Exchange mark x x' p p')
    (hx : ∀ s, (ofProgram p).scopes.get? mark = some s → Report.Shifts lost gained
      (x.types (ofProgram p).table (ofProgram p).scopes s)
      (x'.types (ofProgram p).table (ofProgram p).scopes s))
    (hnone : (ofProgram p).scopes.get? mark = none → lost = gained) :
    Report.Shifts lost gained (p.types (ofProgram p).table (ofProgram p).scopes)
      (p'.types (ofProgram p).table (ofProgram p).scopes) := by
  have hcovered := Declarations.covered_ofProgram hp
  -- From here on it does not matter where the table and the scopes come from.
  generalize (ofProgram p).table = t at *
  generalize (ofProgram p).scopes = m at *
  cases h with
  | @mk root front i i' rest nodeCount h =>
    simp only [Program.types, Program.map_acceptedBodies, List.filterMap_append,
      List.filterMap_cons]
    rcases h.acceptedBody? (m := m) with ⟨hi, hi'⟩ | ⟨b, b', hi, hi', hbodies⟩
    · -- The item is passed over, so the statement has no scope.
      have hitem := (hcovered i (List.mem_append_right _ List.mem_cons_self)).nodes
      rw [hi] at hitem
      rcases hitem with ⟨hsome, -⟩ | ⟨-, hnodes⟩
      · cases hsome
      · obtain rfl := hnone (hnodes mark h.mark_mem)
        rw [hi, hi']
        exact .refl _ _
    · rw [hi, hi']
      exact (hbodies.shifts hx).concat _ _

end Types

end Primer
