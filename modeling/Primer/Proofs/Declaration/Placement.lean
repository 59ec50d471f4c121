import Primer.Proofs.Declaration.Extension

/-!
# Where scopes are placed

Declaring a tree opens one scope for every block, directly inside the scope of the block around it,
and records it for the block and for every return that the block contains. All these scopes belong
to the same function. `Stmt.Placed` and `Block.Placed` say so for a table and a scope map;
`Stmt.placed_declarations` proves it for every tree whose nodes have distinct numbers.
-/

namespace Primer

variable {L : Type}

mutual

/-- The blocks and returns of a statement in the scope `s` have their scopes where they belong. -/
inductive Stmt.Placed (t : Table) (m : ScopeMap) (owner : Option SymbolId) :
    ScopeId → Stmt L NodeId → Prop where
  | declare {s p type name value} : Stmt.Placed t m owner s (.declare p type name value)
  | assign {s p target value} : Stmt.Placed t m owner s (.assign p target value)
  | assignAt {s p target position value} :
      Stmt.Placed t m owner s (.assignAt p target position value)
  | ifThen {s p condition yes} (hyes : Block.Placed t m owner s yes) :
      Stmt.Placed t m owner s (.ifThen p condition yes)
  | ifElse {s p condition yes no} (hyes : Block.Placed t m owner s yes)
      (hno : Block.Placed t m owner s no) : Stmt.Placed t m owner s (.ifElse p condition yes no)
  | loop {s p condition body} (hbody : Block.Placed t m owner s body) :
      Stmt.Placed t m owner s (.loop p condition body)
  /-- A return has the scope of the block that contains it. -/
  | ret {s p node value} (hnode : m.get? node = some s) :
      Stmt.Placed t m owner s (.ret p node value)
  | print {s p newline value} : Stmt.Placed t m owner s (.print p newline value)
  | call {s p callee arguments} : Stmt.Placed t m owner s (.call p callee arguments)

/-- A block has a scope inside that of its parent, for the same function. -/
inductive Block.Placed (t : Table) (m : ScopeMap) (owner : Option SymbolId) :
    ScopeId → Block L NodeId → Prop where
  | mk {parent s node sts} (hnode : m.get? node = some s) (hparent : t.parent? s = some parent)
      (howner : t.owner? s = owner) (hsts : ∀ st ∈ sts, Stmt.Placed t m owner s st) :
      Block.Placed t m owner parent (.mk node sts)

end

open Declarations

/-! ## Later declarations -/

section Extend

variable {o : ScopeId} {k : Nat} {nodes : List NodeId} {d d' : Declarations L}
  {owner : Option SymbolId}

/-- A block stays placed if its statements do. -/
private theorem Block.Placed.extend_block (h : Extends o k nodes d d') {b : Block L NodeId}
    (ih : ∀ st ∈ b.statements, ∀ s, (∀ node ∈ st.nodes, node ∉ nodes) →
      Stmt.Placed d.table d.scopes owner s st → Stmt.Placed d'.table d'.scopes owner s st)
    {s : ScopeId} (hdisjoint : ∀ node ∈ b.nodes, node ∉ nodes)
    (hb : Block.Placed d.table d.scopes owner s b) :
    Block.Placed d'.table d'.scopes owner s b := by
  cases hb with
  | @mk _ r node sts hnode hparent howner hsts =>
    -- The scope is an older one, and its node is not among those that are declared now.
    have hr : r.index < d.table.scopes.size := Table.lt_size_of_parent? hparent
    refine .mk ((h.recorded node (hdisjoint node List.mem_cons_self)).trans hnode)
      ((h.parent r hr).trans hparent) ((h.owner r hr).trans howner) ?_
    intro st hst
    refine ih st hst r (fun n hn => hdisjoint n (List.mem_cons_of_mem _ ?_)) (hsts st hst)
    rw [Block.nodesAll_eq_flatMap]
    exact List.mem_flatMap.mpr ⟨st, hst, hn⟩

/-- Declaring something else moves no scope. -/
theorem Stmt.Placed.extend (h : Extends o k nodes d d') {st : Stmt L NodeId} {s : ScopeId}
    (hdisjoint : ∀ node ∈ st.nodes, node ∉ nodes)
    (hst : Stmt.Placed d.table d.scopes owner s st) :
    Stmt.Placed d'.table d'.scopes owner s st := by
  induction st using Stmt.inductionOn generalizing s with
  | declare p type name value => exact .declare
  | assign p target value => exact .assign
  | assignAt p target position value => exact .assignAt
  | print p newline value => exact .print
  | call p callee arguments => exact .call
  -- A return was recorded under its own number, which the step does not touch.
  | ret p node value =>
    cases hst with
    | ret hnode =>
      exact .ret ((h.recorded node (hdisjoint node (List.mem_singleton_self _))).trans hnode)
  | ifThen p condition yes ih =>
    cases hst with
    | ifThen hyes =>
      exact .ifThen (Block.Placed.extend_block h (fun st hm s => ih st hm) hdisjoint hyes)
  | loop p condition body ih =>
    cases hst with
    | loop hbody =>
      exact .loop (Block.Placed.extend_block h (fun st hm s => ih st hm) hdisjoint hbody)
  | ifElse p condition yes no ihy ihn =>
    cases hst with
    | ifElse hyes hno =>
      exact .ifElse
        (Block.Placed.extend_block h (fun st hm s => ihy st hm)
          (fun n hn => hdisjoint n (List.mem_append_left _ hn)) hyes)
        (Block.Placed.extend_block h (fun st hm s => ihn st hm)
          (fun n hn => hdisjoint n (List.mem_append_right _ hn)) hno)

theorem Block.Placed.extend (h : Extends o k nodes d d') {b : Block L NodeId} {s : ScopeId}
    (hdisjoint : ∀ node ∈ b.nodes, node ∉ nodes)
    (hb : Block.Placed d.table d.scopes owner s b) :
    Block.Placed d'.table d'.scopes owner s b :=
  Block.Placed.extend_block h (fun _ _ _ hd hst => hst.extend h hd) hdisjoint hb

end Extend

/-! ## The pass places every scope -/

/-- Statements in order: those before stay placed while the rest is declared. -/
private theorem Block.placed_all {sts : List (Stmt L NodeId)}
    (ih : ∀ st ∈ sts, ∀ (s : ScopeId) (d : Declarations L), s.index < d.table.scopes.size →
      st.nodes.Nodup →
      Stmt.Placed (st.declarations s d).table (st.declarations s d).scopes (d.table.owner? s) s st)
    (s : ScopeId) (d : Declarations L) (hs : s.index < d.table.scopes.size)
    (hnodes : (Block.nodesAll sts).Nodup) :
    ∀ st ∈ sts, Stmt.Placed (Block.declarationsAll s sts d).table
      (Block.declarationsAll s sts d).scopes (d.table.owner? s) s st := by
  induction sts generalizing d with
  | nil => exact fun _ hm => absurd hm List.not_mem_nil
  | cons first rest ihs =>
    obtain ⟨hfirst, hrest, hdisjoint⟩ := List.nodup_append'.mp hnodes
    have hstep := first.extends_declarations s d hs (Nat.zero_le _)
    have hs' : s.index < (first.declarations s d).table.scopes.size :=
      Nat.lt_of_lt_of_le hs hstep.scopes_le
    have hlater := Block.extends_declarationsAll rest s (first.declarations s d) hs' (Nat.zero_le _)
    intro st hm
    rcases List.mem_cons.mp hm with rfl | hm
    -- The first statement is placed at once, and the rest has other nodes.
    · exact (ih st List.mem_cons_self s d hs hfirst).extend hlater (fun n hn => hdisjoint hn)
    · have howner : (first.declarations s d).table.owner? s = d.table.owner? s :=
        hstep.owner s hs
      rw [← howner]
      exact ihs (fun st hm => ih st (List.mem_cons_of_mem _ hm)) _ hs' hrest st hm

private theorem Block.placed_block {b : Block L NodeId}
    (ih : ∀ st ∈ b.statements, ∀ (s : ScopeId) (d : Declarations L),
      s.index < d.table.scopes.size → st.nodes.Nodup →
      Stmt.Placed (st.declarations s d).table (st.declarations s d).scopes (d.table.owner? s) s st)
    (s : ScopeId) (d : Declarations L) (hnodes : b.nodes.Nodup) :
    Block.Placed (b.declarations s d).table (b.declarations s d).scopes (d.table.owner? s) s b := by
  obtain ⟨node, sts⟩ := b
  obtain ⟨hnode, hsts⟩ := List.nodup_cons.mp hnodes
  -- The block opens the next scope; its statements record other nodes than its own.
  let r : ScopeId := ⟨d.table.scopes.size⟩
  let d₁ := (d.openBlock node s).2
  have hr : r.index < d₁.table.scopes.size := by
    simp [d₁, r, Declarations.openBlock, Table.openBlock]
  have hparent : d₁.table.parent? r = some s := by
    simp [d₁, r, Declarations.openBlock, Table.openBlock, Table.parent?_openScope]
  have howner : d₁.table.owner? r = d.table.owner? s := by
    simp [d₁, r, Declarations.openBlock, Table.openBlock, Table.owner?_openScope]
  have hrecord : d₁.scopes.get? node = some r := by
    simp [d₁, r, Declarations.openBlock, Table.openBlock, ScopeMap.get?_record]
  have hbody := Block.extends_declarationsAll sts r d₁ hr (Nat.zero_le _)
  refine .mk ((hbody.recorded node hnode).trans hrecord) ((hbody.parent r hr).trans hparent)
    ((hbody.owner r hr).trans howner) ?_
  have hall := Block.placed_all ih r d₁ hr hsts
  rw [howner] at hall
  exact hall

/-- Declaring a statement places the scopes of all its blocks and returns. -/
theorem Stmt.placed_declarations (st : Stmt L NodeId) (s : ScopeId) (d : Declarations L)
    (hs : s.index < d.table.scopes.size) (hnodes : st.nodes.Nodup) :
    Stmt.Placed (st.declarations s d).table (st.declarations s d).scopes (d.table.owner? s) s
      st := by
  induction st using Stmt.inductionOn generalizing s d with
  | declare p type name value => exact .declare
  | assign p target value => exact .assign
  | assignAt p target position value => exact .assignAt
  | print p newline value => exact .print
  | call p callee arguments => exact .call
  | ret p node value => exact .ret (by simp [Stmt.declarations, record, ScopeMap.get?_record])
  | ifThen p condition yes ih => exact .ifThen (Block.placed_block ih s d hnodes)
  | loop p condition body ih => exact .loop (Block.placed_block ih s d hnodes)
  | ifElse p condition yes no ihy ihn =>
    obtain ⟨hyes, hno, hdisjoint⟩ := List.nodup_append'.mp hnodes
    -- Declaring the second block does not move the first.
    have hstep := yes.extends_declarations s s d hs (Nat.zero_le _)
    have hs' : s.index < (yes.declarations s d).table.scopes.size :=
      Nat.lt_of_lt_of_le hs hstep.scopes_le
    have hlater := no.extends_declarations s s (yes.declarations s d) hs' (Nat.zero_le _)
    have hplaced := Block.placed_block ihn s (yes.declarations s d) hno
    rw [hstep.owner s hs] at hplaced
    exact .ifElse ((Block.placed_block ihy s d hyes).extend hlater fun n hn => hdisjoint hn)
      hplaced

theorem Block.placed_declarations (b : Block L NodeId) (s : ScopeId) (d : Declarations L)
    (hnodes : b.nodes.Nodup) :
    Block.Placed (b.declarations s d).table (b.declarations s d).scopes (d.table.owner? s) s b :=
  Block.placed_block (fun st _ => st.placed_declarations) s d hnodes

end Primer
