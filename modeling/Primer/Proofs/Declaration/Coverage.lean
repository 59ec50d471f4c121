import Primer.Analysis.Reference
import Primer.Analysis.Typing
import Primer.Proofs.Declaration.Placement

/-!
# Which nodes have scopes

An item of a program is either accepted, and then a scope is recorded for each of its nodes, or it
is rejected, and then none is recorded for any of them (`Item.Covered`). This holds for every
program whose nodes have distinct numbers, whatever mistakes are in it
(`Declarations.covered_ofProgram`).

The later passes visit accepted items only, and all the scopes that they ask for are those of nodes
in such items. So no fault stops them.
-/

namespace Primer

variable {L : Type}

/-- The nodes of an item have their scopes in place, or none has a scope. -/
inductive Item.Covered (t : Table) (m : ScopeMap) : Item L NodeId → Prop where
  | function {f body s owner} (hbody : f.body = some body) (hmark : m.get? f.mark = some s)
      (hplaced : Block.Placed t m owner s body) : Item.Covered t m (.function f)
  | main {e s owner} (hmark : m.get? e.mark = some s) (hplaced : Block.Placed t m owner s e.body) :
      Item.Covered t m (.main e)
  | rejected {i} (hnone : ∀ node ∈ i.nodes, m.get? node = none) : Item.Covered t m i

open Declarations

section Extend

variable {o : ScopeId} {k : Nat} {nodes : List NodeId} {d d' : Declarations L}

/-- Declaring something else records nothing for the nodes of an item. -/
theorem Item.Covered.extend (h : Extends o k nodes d d') {i : Item L NodeId}
    (hdisjoint : ∀ node ∈ i.nodes, node ∉ nodes) (hi : i.Covered d.table d.scopes) :
    i.Covered d'.table d'.scopes := by
  have hkept : ∀ node ∈ i.nodes, d'.scopes.get? node = d.scopes.get? node :=
    fun node hn => h.recorded node (hdisjoint node hn)
  cases hi with
  | @function f body s owner hbody hmark hplaced =>
    have hnodes : (Item.function f).nodes = f.mark :: body.nodes := by simp [Item.nodes, hbody]
    rw [hnodes] at hkept hdisjoint
    exact .function hbody ((hkept f.mark List.mem_cons_self).trans hmark)
      (hplaced.extend h fun node hn => hdisjoint node (List.mem_cons_of_mem _ hn))
  | @main e s owner hmark hplaced =>
    exact .main ((hkept e.mark List.mem_cons_self).trans hmark)
      (hplaced.extend h fun node hn => hdisjoint node (List.mem_cons_of_mem _ hn))
  | rejected hnone => exact .rejected fun node hn => (hkept node hn).trans (hnone node hn)

/-- An item is rejected if nothing is recorded while it is declared. -/
theorem Item.Covered.of_extends_nil (h : Extends o k [] d d') {i : Item L NodeId}
    (hfresh : ∀ node ∈ i.nodes, d.scopes.get? node = none) : i.Covered d'.table d'.scopes :=
  .rejected fun node hn => (h.recorded node List.not_mem_nil).trans (hfresh node hn)

end Extend

/-! ## Declaring items -/

namespace Declarations

variable {d : Declarations L}

/-- A body in a new scope. The scope and the body are placed for every node that is not the body's
own. -/
private theorem placed_body {d₁ d₂ : Declarations L} {mark : NodeId} {owner : Option SymbolId}
    {body : Block L NodeId} (hmark : mark ∉ body.nodes) (hbody : body.nodes.Nodup)
    (hd₁ : d₁ = (d.openFor mark Table.global owner).2)
    (hextends : Extends ⟨d.table.scopes.size⟩ 0 [] d₁ d₂) :
    let s : ScopeId := ⟨d.table.scopes.size⟩
    (body.declarations s d₂).scopes.get? mark = some s ∧
      Block.Placed (body.declarations s d₂).table (body.declarations s d₂).scopes
        (d₂.table.owner? s) s body := by
  intro s
  have hs : s.index < d₂.table.scopes.size := by
    refine Nat.lt_of_lt_of_le ?_ hextends.scopes_le
    simp [hd₁, openFor, s]
  -- The scope was recorded when it was opened, and neither parameters nor body record the mark
  -- again.
  have hrecord : d₁.scopes.get? mark = some s := by
    simp [hd₁, openFor, ScopeMap.get?_record, s]
  have hlater := body.extends_declarations s s d₂ hs (Nat.zero_le _)
  refine ⟨?_, body.placed_declarations s d₂ hbody⟩
  rw [hlater.recorded mark hmark, hextends.recorded mark List.not_mem_nil, hrecord]

theorem covered_function (f : Function L NodeId)
    (hnodes : (Item.function f).nodes.Nodup)
    (hfresh : ∀ node ∈ (Item.function f).nodes, d.scopes.get? node = none) :
    (Item.function f).Covered (d.function f).table (d.function f).scopes := by
  unfold function
  cases hbody : f.body with
  | none => exact .of_extends_nil (extends_report Table.global 0 d _ _) hfresh
  | some body =>
    simp only
    -- A function that is rejected leaves the table and the records as they were.
    split_ifs
    · exact .of_extends_nil (extends_report Table.global 0 d _ _) hfresh
    · have htypes := (extends_resolveType Table.global 0 d f.returns).trans
        (extends_resolveTypes Table.global 0 (d.resolveType f.returns).2
          (f.parameters.map (·.type)))
      split
      next returns types hreturns htypes' =>
        let d' := ((d.resolveType f.returns).2.resolveTypes (f.parameters.map (·.type))).2
        have hdefine := htypes.trans (extends_define Table.global 0 d'
          (.fn ⟨f.name.text, returns, []⟩) (Nat.zero_le _) (resolveType_nameable hreturns))
        have hnameable := resolveTypes_nameable (Prod.ext htypes' rfl)
        unfold accept
        split
        -- The name cannot be taken any more, but the definition might say so.
        next d₁ heq =>
          rw [heq] at hdefine
          exact .of_extends_nil hdefine hfresh
        next x d₁ heq =>
          rw [heq] at hdefine
          simp only [Item.nodes, hbody, Option.map_some, Option.getD_some,
            List.nodup_cons] at hnodes
          have hparameters := extends_parameters ⟨d₁.table.scopes.size⟩ 0
            (d₁.openFor f.mark Table.global (some x)).2 x (Nat.zero_le _)
            ((f.parameters.map (·.name)).zip types) (Nat.zero_le _)
            (fun p hp => hnameable p.2 (List.of_mem_zip hp).2)
          obtain ⟨hmark, hplaced⟩ := placed_body hnodes.1 hnodes.2 rfl hparameters
          exact .function hbody hmark hplaced
      · exact .of_extends_nil htypes hfresh

theorem covered_entryPoint (e : EntryPoint L NodeId)
    (hnodes : (Item.main e).nodes.Nodup)
    (hfresh : ∀ node ∈ (Item.main e).nodes, d.scopes.get? node = none) :
    (Item.main e).Covered (d.entryPoint e).table (d.entryPoint e).scopes := by
  unfold entryPoint
  split_ifs
  · exact .of_extends_nil (extends_report Table.global 0 d _ _) hfresh
  · obtain ⟨hmark, hbody⟩ := List.nodup_cons.mp hnodes
    obtain ⟨hrecord, hplaced⟩ := placed_body hmark hbody rfl (Extends.refl _ 0 _)
    exact .main hrecord hplaced

theorem covered_item (i : Item L NodeId) (hnodes : i.nodes.Nodup)
    (hfresh : ∀ node ∈ i.nodes, d.scopes.get? node = none) :
    i.Covered (d.item i).table (d.item i).scopes := by
  cases i with
  | function f => exact covered_function f hnodes hfresh
  | main e => exact covered_entryPoint e hnodes hfresh

/-- Items in order: those before stay covered while the rest is declared. -/
theorem covered_items (items : List (Item L NodeId)) (hd : 0 < d.table.scopes.size)
    (hnodes : (items.flatMap Item.nodes).Nodup)
    (hfresh : ∀ node ∈ items.flatMap Item.nodes, d.scopes.get? node = none) :
    ∀ i ∈ items, i.Covered (items.foldl item d).table (items.foldl item d).scopes := by
  induction items generalizing d with
  | nil => exact fun _ hi => absurd hi List.not_mem_nil
  | cons first rest ih =>
    rw [List.flatMap_cons] at hnodes hfresh
    obtain ⟨hfirst, hrest, hdisjoint⟩ := List.nodup_append'.mp hnodes
    have hstep := extends_item (k := 0) d first hd (Nat.zero_le _)
    have hd' : 0 < (d.item first).table.scopes.size := Nat.lt_of_lt_of_le hd hstep.scopes_le
    intro i hi
    -- An item is covered when it is declared, and later items have other nodes.
    rcases List.mem_cons.mp hi with rfl | hi
    · exact (covered_item i hfirst fun node hn => hfresh node (List.mem_append_left _ hn)).extend
        (extends_items (k := 0) _ rest hd' (Nat.zero_le _)) fun node hn => hdisjoint hn
    · refine ih hd' hrest (fun node hn => ?_) i hi
      rw [hstep.recorded node fun hm => hdisjoint hm hn]
      exact hfresh node (List.mem_append_right _ hn)

/-- Every item of a program is covered, if no two nodes have the same number. -/
theorem covered_ofProgram {p : Program L} (hp : p.Distinct) :
    ∀ i ∈ p.items, i.Covered (ofProgram p).table (ofProgram p).scopes := by
  obtain ⟨hroot, hitems⟩ := List.nodup_cons.mp hp
  refine covered_items p.items (by simp [record, empty, Table.empty]) hitems ?_
  intro node hn
  -- Before the items are declared only the root has a scope.
  have hne : node ≠ p.root := fun he => hroot (he ▸ hn)
  simp [record, empty, ScopeMap.get?_record, hne]

end Declarations

/-! ## Recorded nodes -/

section Recorded

variable {t : Table} {m : ScopeMap} {owner : Option SymbolId}

private theorem Block.Placed.isSome_get?_block {b : Block L NodeId}
    (ih : ∀ st ∈ b.statements, ∀ s, st.Placed t m owner s → ∀ node ∈ st.nodes,
      (m.get? node).isSome)
    {s : ScopeId} (hb : b.Placed t m owner s) : ∀ node ∈ b.nodes, (m.get? node).isSome := by
  cases hb with
  | @mk _ r node sts hnode hparent howner hsts =>
    intro n hn
    rcases List.mem_cons.mp hn with rfl | hn
    · simp [hnode]
    · rw [Block.nodesAll_eq_flatMap] at hn
      obtain ⟨st, hst, hn⟩ := List.mem_flatMap.mp hn
      exact ih st hst r (hsts st hst) n hn

/-- All blocks and returns of a placed statement have scopes. -/
theorem Stmt.Placed.isSome_get? {st : Stmt L NodeId} {s : ScopeId} (hst : st.Placed t m owner s) :
    ∀ node ∈ st.nodes, (m.get? node).isSome := by
  induction st using Stmt.inductionOn generalizing s with
  | declare p type name value => exact fun _ hn => absurd hn List.not_mem_nil
  | assign p target value => exact fun _ hn => absurd hn List.not_mem_nil
  | assignAt p target position value => exact fun _ hn => absurd hn List.not_mem_nil
  | print p newline value => exact fun _ hn => absurd hn List.not_mem_nil
  | call p callee arguments => exact fun _ hn => absurd hn List.not_mem_nil
  -- A return and a block are the only places where a number is looked up.
  | ret p node value =>
    intro n hn
    obtain rfl := List.mem_singleton.mp hn
    cases hst with
    | ret hnode => simp [hnode]
  | ifThen p condition yes ih =>
    cases hst with
    | ifThen hyes => exact Block.Placed.isSome_get?_block (fun st hm s => ih st hm) hyes
  | loop p condition body ih =>
    cases hst with
    | loop hbody => exact Block.Placed.isSome_get?_block (fun st hm s => ih st hm) hbody
  | ifElse p condition yes no ihy ihn =>
    cases hst with
    | ifElse hyes hno =>
      intro n hn
      rcases List.mem_append.mp hn with hn | hn
      · exact Block.Placed.isSome_get?_block (fun st hm s => ihy st hm) hyes n hn
      · exact Block.Placed.isSome_get?_block (fun st hm s => ihn st hm) hno n hn

theorem Block.Placed.isSome_get? {b : Block L NodeId} {s : ScopeId} (hb : b.Placed t m owner s) :
    ∀ node ∈ b.nodes, (m.get? node).isSome :=
  Block.Placed.isSome_get?_block (fun _ _ _ hst => hst.isSome_get?) hb

/-- The nodes of an accepted body are among those of its item. -/
theorem Item.nodes_of_acceptedBody? {i : Item L NodeId} {body : Block L NodeId}
    (h : i.acceptedBody? m = some body) : ∀ node ∈ body.nodes, node ∈ i.nodes := by
  intro node hn
  cases i with
  | function f =>
    have hbody : f.body = some body := by
      simp only [Item.acceptedBody?] at h
      split_ifs at h
      exact h
    exact List.mem_cons_of_mem _ (by simpa [hbody] using hn)
  | main e =>
    have hbody : e.body = body := by
      simp only [Item.acceptedBody?] at h
      split_ifs at h
      exact Option.some.inj h
    exact List.mem_cons_of_mem _ (hbody ▸ hn)

/-- An item without scopes is passed over. -/
theorem Item.acceptedBody?_eq_none {i : Item L NodeId}
    (hnone : ∀ node ∈ i.nodes, m.get? node = none) : i.acceptedBody? m = none := by
  cases i with
  | function f => simp [Item.acceptedBody?, hnone f.mark List.mem_cons_self]
  | main e => simp [Item.acceptedBody?, hnone e.mark List.mem_cons_self]

/-- An accepted item has a scope for each of its nodes; any other has none and is passed over. -/
theorem Item.Covered.nodes {i : Item L NodeId} (hi : i.Covered t m) :
    ((i.acceptedBody? m).isSome ∧ ∀ node ∈ i.nodes, (m.get? node).isSome) ∨
      (i.acceptedBody? m = none ∧ ∀ node ∈ i.nodes, m.get? node = none) := by
  cases hi with
  -- The mark tells whether the item was accepted, and its nodes go along with it.
  | @function f body s owner hbody hmark hplaced =>
    refine .inl ⟨by simp [Item.acceptedBody?, hmark, hbody], ?_⟩
    intro node hn
    simp only [Item.nodes, hbody, Option.map_some, Option.getD_some] at hn
    rcases List.mem_cons.mp hn with rfl | hn
    · simp [hmark]
    · exact hplaced.isSome_get? node hn
  | @main e s owner hmark hplaced =>
    refine .inl ⟨by simp [Item.acceptedBody?, hmark], ?_⟩
    intro node hn
    rcases List.mem_cons.mp hn with rfl | hn
    · simp [hmark]
    · exact hplaced.isSome_get? node hn
  | rejected hnone => exact .inr ⟨Item.acceptedBody?_eq_none hnone, hnone⟩

/-- The body of an accepted item is placed. -/
theorem Item.Covered.placed {i : Item L NodeId} (hi : i.Covered t m) {body : Block L NodeId}
    (hbody : i.acceptedBody? m = some body) : ∃ owner s, body.Placed t m owner s := by
  cases hi with
  | function hbody' hmark hplaced =>
    simp only [Item.acceptedBody?, hmark, Option.isSome_some, if_true, hbody'] at hbody
    obtain rfl := Option.some.inj hbody
    exact ⟨_, _, hplaced⟩
  | main hmark hplaced =>
    simp only [Item.acceptedBody?, hmark, Option.isSome_some, if_true] at hbody
    obtain rfl := Option.some.inj hbody
    exact ⟨_, _, hplaced⟩
  | rejected hnone =>
    rw [Item.acceptedBody?_eq_none hnone] at hbody
    cases hbody

end Recorded

/-! ## Passes without faults -/

theorem Report.inScopeOf_of_get? {ε : Type} {m : ScopeMap} {node : NodeId} {s : ScopeId}
    (h : m.get? node = some s) (go : ScopeId → Report L ε) : inScopeOf m node go = go s := by
  simp [inScopeOf, ScopeMap.scopeOf, h]

theorem Report.fault_concat_eq_none {ε : Type} {reports : List (Report L ε)}
    (h : ∀ r ∈ reports, r.fault = none) : (concat reports).fault = none := by
  induction reports with
  | nil => rfl
  | cons r reports ih =>
    exact fault_append_eq_none_iff.mpr
      ⟨h r List.mem_cons_self, ih fun r hr => h r (List.mem_cons_of_mem _ hr)⟩

theorem Block.referencesAll_eq_concat (t : Table) (m : ScopeMap) (s : ScopeId)
    (sts : List (Stmt L NodeId)) :
    Block.referencesAll t m s sts = .concat (sts.map (·.references t m s)) := by
  induction sts with
  | nil => rfl
  | cons st sts ih => rw [Block.referencesAll, ih, List.map_cons, Report.concat]

theorem Block.typesAll_eq_concat (t : Table) (m : ScopeMap) (s : ScopeId)
    (sts : List (Stmt L NodeId)) :
    Block.typesAll t m s sts = .concat (sts.map (·.types t m s)) := by
  induction sts with
  | nil => rfl
  | cons st sts ih => rw [Block.typesAll, ih, List.map_cons, Report.concat]

section Passes

variable {t : Table} {m : ScopeMap} {owner : Option SymbolId}

private theorem Block.fault_references_block {b : Block L NodeId}
    (ih : ∀ st ∈ b.statements, ∀ s, st.Placed t m owner s → (st.references t m s).fault = none)
    {parent : ScopeId} (hb : b.Placed t m owner parent) : (b.references t m).fault = none := by
  cases hb with
  | @mk _ s node sts hnode hparent howner hsts =>
    rw [Block.references, Report.inScopeOf_of_get? hnode, Block.referencesAll_eq_concat]
    refine Report.fault_concat_eq_none fun r hr => ?_
    obtain ⟨st, hst, rfl⟩ := List.mem_map.mp hr
    exact ih st hst s (hsts st hst)

/-- Checking the references of a placed statement is not stopped. -/
theorem Stmt.Placed.fault_references {st : Stmt L NodeId} {s : ScopeId}
    (hst : st.Placed t m owner s) : (st.references t m s).fault = none := by
  induction st using Stmt.inductionOn generalizing s with
  | declare p type name value => rfl
  | assign p target value => rfl
  | assignAt p target position value => rfl
  | print p newline value => rfl
  | call p callee arguments => rfl
  -- Scopes are asked for at returns and blocks only, and these are placed.
  | ret p node value =>
    cases hst with
    | ret hnode =>
      rw [Stmt.references, Report.inScopeOf_of_get? hnode]
      rfl
  | ifThen p condition yes ih =>
    cases hst with
    | ifThen hyes =>
      exact Report.fault_append_eq_none_iff.mpr
        ⟨rfl, Block.fault_references_block (fun st hm s => ih st hm) hyes⟩
  | loop p condition body ih =>
    cases hst with
    | loop hbody =>
      exact Report.fault_append_eq_none_iff.mpr
        ⟨rfl, Block.fault_references_block (fun st hm s => ih st hm) hbody⟩
  | ifElse p condition yes no ihy ihn =>
    cases hst with
    | ifElse hyes hno =>
      exact Report.fault_append_eq_none_iff.mpr ⟨rfl, Report.fault_append_eq_none_iff.mpr
        ⟨Block.fault_references_block (fun st hm s => ihy st hm) hyes,
          Block.fault_references_block (fun st hm s => ihn st hm) hno⟩⟩

theorem Block.Placed.fault_references {b : Block L NodeId} {s : ScopeId}
    (hb : b.Placed t m owner s) : (b.references t m).fault = none :=
  Block.fault_references_block (fun _ _ _ hst => hst.fault_references) hb

private theorem Block.fault_types_block {b : Block L NodeId}
    (ih : ∀ st ∈ b.statements, ∀ s, st.Placed t m owner s → (st.types t m s).fault = none)
    {parent : ScopeId} (hb : b.Placed t m owner parent) : (b.types t m).fault = none := by
  cases hb with
  | @mk _ s node sts hnode hparent howner hsts =>
    rw [Block.types, Report.inScopeOf_of_get? hnode, Block.typesAll_eq_concat]
    refine Report.fault_concat_eq_none fun r hr => ?_
    obtain ⟨st, hst, rfl⟩ := List.mem_map.mp hr
    exact ih st hst s (hsts st hst)

/-- Checking the types of a placed statement is not stopped. -/
theorem Stmt.Placed.fault_types {st : Stmt L NodeId} {s : ScopeId} (hst : st.Placed t m owner s) :
    (st.types t m s).fault = none := by
  induction st using Stmt.inductionOn generalizing s with
  | declare p type name value => cases value <;> rfl
  | assign p target value => rfl
  | assignAt p target position value => rfl
  | print p newline value => cases value <;> rfl
  | call p callee arguments => rfl
  | ret p node value =>
    cases hst with
    | ret hnode =>
      rw [Stmt.types, Report.inScopeOf_of_get? hnode]
      -- What the value is worth was found out before the scope is asked for.
      refine Report.fault_append_eq_none_iff.mpr ⟨rfl, ?_⟩
      cases t.functionOf s <;> rfl
  | ifThen p condition yes ih =>
    cases hst with
    | ifThen hyes =>
      exact Report.fault_append_eq_none_iff.mpr
        ⟨rfl, Block.fault_types_block (fun st hm s => ih st hm) hyes⟩
  | loop p condition body ih =>
    cases hst with
    | loop hbody =>
      exact Report.fault_append_eq_none_iff.mpr
        ⟨rfl, Block.fault_types_block (fun st hm s => ih st hm) hbody⟩
  | ifElse p condition yes no ihy ihn =>
    cases hst with
    | ifElse hyes hno =>
      exact Report.fault_append_eq_none_iff.mpr ⟨rfl, Report.fault_append_eq_none_iff.mpr
        ⟨Block.fault_types_block (fun st hm s => ihy st hm) hyes,
          Block.fault_types_block (fun st hm s => ihn st hm) hno⟩⟩

theorem Block.Placed.fault_types {b : Block L NodeId} {s : ScopeId} (hb : b.Placed t m owner s) :
    (b.types t m).fault = none :=
  Block.fault_types_block (fun _ _ _ hst => hst.fault_types) hb

end Passes

/-! ## Programs -/

namespace Program

variable {p : Program L}

/-- The later passes see placed blocks only. -/
theorem placed_of_mem_acceptedBodies (hp : p.Distinct) {body : Block L NodeId}
    (hbody : body ∈ p.acceptedBodies (ofProgram p).scopes) :
    ∃ owner s, body.Placed (ofProgram p).table (ofProgram p).scopes owner s := by
  obtain ⟨i, hi, hbody⟩ := List.mem_filterMap.mp hbody
  exact (covered_ofProgram hp i hi).placed hbody

theorem fault_references (hp : p.Distinct) :
    (p.references (ofProgram p).table (ofProgram p).scopes).fault = none := by
  refine Report.fault_concat_eq_none fun r hr => ?_
  obtain ⟨body, hbody, rfl⟩ := List.mem_map.mp hr
  obtain ⟨owner, s, hplaced⟩ := placed_of_mem_acceptedBodies hp hbody
  exact hplaced.fault_references

theorem fault_types (hp : p.Distinct) :
    (p.types (ofProgram p).table (ofProgram p).scopes).fault = none := by
  refine Report.fault_concat_eq_none fun r hr => ?_
  obtain ⟨body, hbody, rfl⟩ := List.mem_map.mp hr
  obtain ⟨owner, s, hplaced⟩ := placed_of_mem_acceptedBodies hp hbody
  exact hplaced.fault_types

end Program

end Primer
