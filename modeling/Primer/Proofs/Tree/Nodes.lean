import Primer.Proofs.Tree.Induction
import Primer.Tree.Draft
import Mathlib.Data.List.Nodup

/-!
# The nodes of a tree

The marked nodes of a tree, in reading order: items, blocks and returns, and the root of a program.
Passes look scopes up by node number, so most of what they guarantee holds for programs whose nodes
have distinct numbers (`Program.Distinct`). Finishing a draft that prescribes no number yields such
a program, `Program.distinct_ofDraft`: every construct takes its numbers from a stretch of its own.
-/

namespace Primer

variable {L I : Type}

/-! ## Listing nodes -/

mutual

/-- The marks in a statement. -/
def Stmt.nodes : Stmt L I → List I
  | .declare .. | .assign .. | .assignAt .. | .print .. | .call .. => []
  | .ifThen _ _ yes => yes.nodes
  | .ifElse _ _ yes no => yes.nodes ++ no.nodes
  | .loop _ _ body => body.nodes
  | .ret _ mark _ => [mark]

/-- The mark of a block and those in its statements. -/
def Block.nodes : Block L I → List I
  | .mk mark statements => mark :: Block.nodesAll statements

/-- The marks in the statements of a block. -/
def Block.nodesAll : List (Stmt L I) → List I
  | [] => []
  | st :: sts => st.nodes ++ Block.nodesAll sts

end

/-- The mark of an item and those in its body. -/
def Item.nodes : Item L I → List I
  | .function f => f.mark :: (f.body.map Block.nodes).getD []
  | .main e => e.mark :: e.body.nodes

/-- The numbers in a program, the root's first. -/
def Program.nodes (p : Program L) : List NodeId :=
  p.root :: p.items.flatMap Item.nodes

/-- No two nodes of the program have the same number. -/
def Program.Distinct (p : Program L) : Prop :=
  p.nodes.Nodup

theorem Block.nodesAll_eq_flatMap (sts : List (Stmt L I)) :
    Block.nodesAll sts = sts.flatMap Stmt.nodes := by
  induction sts with
  | nil => rfl
  | cons st sts ih => simp [Block.nodesAll, ih]

/-! ## Numbers from a stretch -/

/-- Things with distinct numbers from `lo` up to, and not including, `hi`. -/
structure Drawn {α : Type} (index : α → Nat) (lo hi : Nat) (xs : List α) : Prop where
  le : lo ≤ hi
  nodup : xs.Nodup
  range : ∀ x ∈ xs, lo ≤ index x ∧ index x < hi

namespace Drawn

variable {α : Type} {index : α → Nat} {lo mid hi : Nat} {as bs : List α}

theorem nil (lo : Nat) : Drawn index lo lo [] :=
  ⟨Nat.le_refl lo, List.nodup_nil, fun _ h => absurd h List.not_mem_nil⟩

theorem single {x : α} (hx : index x = lo) : Drawn index lo (lo + 1) [x] := by
  refine ⟨Nat.le_succ lo, List.nodup_singleton _, ?_⟩
  intro n hn
  obtain rfl := List.mem_singleton.mp hn
  exact ⟨Nat.le_of_eq hx.symm, Nat.lt_succ_of_le (Nat.le_of_eq hx)⟩

/-- Adjacent stretches share no number. -/
theorem append (ha : Drawn index lo mid as) (hb : Drawn index mid hi bs) :
    Drawn index lo hi (as ++ bs) := by
  refine ⟨Nat.le_trans ha.le hb.le, ?_, ?_⟩
  · refine List.Nodup.append ha.nodup hb.nodup ?_
    -- A number in both would be below `mid` and not below it.
    intro n hna hnb
    have h₁ := (ha.range n hna).2
    have h₂ := (hb.range n hnb).1
    omega
  · intro n hn
    rcases List.mem_append.mp hn with hn | hn
    · have := ha.range n hn
      have := hb.le
      omega
    · have := hb.range n hn
      have := ha.le
      omega

/-- The order of the numbers does not matter. -/
theorem perm (ha : Drawn index lo hi as) (h : as.Perm bs) : Drawn index lo hi bs :=
  ⟨ha.le, h.nodup_iff.mp ha.nodup, fun n hn => ha.range n (h.mem_iff.mpr hn)⟩

end Drawn

theorem NodeId.drawn_single (n : Nat) : Drawn NodeId.index n (n + 1) [⟨n⟩] := .single rfl

/-! ## Finished drafts -/

private theorem NodeId.perm_two_blocks (yes no : NodeId) (as bs : List NodeId) :
    ((as ++ bs) ++ ([yes] ++ [no])).Perm ((yes :: as) ++ (no :: bs)) := by
  -- The marks of the two blocks are moved in front of the statements that they belong to.
  have hmiddle : (no :: (as ++ bs)).Perm (as ++ no :: bs) := List.perm_middle.symm
  exact List.perm_append_comm.trans (hmiddle.cons yes)

/-- What is handed out while statements are finished, in order, if this holds for each of them. -/
private theorem Stmt.drawn_settleAll {sts : List (Draft Stmt)}
    (ih : ∀ st ∈ sts, ∀ c : Cursor, (∀ mark ∈ st.nodes, mark = none) →
      Drawn NodeId.index c.next (st.settle c).2.next (st.settle c).1.nodes)
    (c : Cursor) (h : ∀ mark ∈ Block.nodesAll sts, mark = none) :
    Drawn NodeId.index c.next (Stmt.settleAll c sts).2.next
      (Block.nodesAll (Stmt.settleAll c sts).1) := by
  induction sts generalizing c with
  | nil => exact .nil c.next
  | cons st sts ihs =>
    have hst : ∀ mark ∈ st.nodes, mark = none :=
      fun mark hm => h mark (List.mem_append_left _ hm)
    have hsts : ∀ mark ∈ Block.nodesAll sts, mark = none :=
      fun mark hm => h mark (List.mem_append_right _ hm)
    have hfirst := ih st List.mem_cons_self c hst
    have hrest := ihs (fun st hm => ih st (List.mem_cons_of_mem _ hm)) (st.settle c).2 hsts
    exact hfirst.append hrest

theorem Stmt.drawn_settle (st : Draft Stmt) (c : Cursor) (h : ∀ mark ∈ st.nodes, mark = none) :
    Drawn NodeId.index c.next (st.settle c).2.next (st.settle c).1.nodes := by
  induction st using Stmt.inductionOn generalizing c with
  | declare p type name value => exact .nil c.next
  | assign p target value => exact .nil c.next
  | assignAt p target position value => exact .nil c.next
  | print p newline value => exact .nil c.next
  | call p callee arguments => exact .nil c.next
  | ret p mark value =>
    obtain rfl : mark = none := h mark (List.mem_singleton_self _)
    exact NodeId.drawn_single c.next
  | ifThen p condition yes ih =>
    obtain ⟨mark, sts⟩ := yes
    obtain rfl : mark = none := h mark List.mem_cons_self
    have hbody := Stmt.drawn_settleAll ih (c.moveTo (condition.settle c.here).2)
      (fun mark hm => h mark (List.mem_cons_of_mem _ hm))
    -- The block takes its number after its statements took theirs.
    exact (hbody.append (NodeId.drawn_single _)).perm List.perm_append_comm
  | loop p condition body ih =>
    obtain ⟨mark, sts⟩ := body
    obtain rfl : mark = none := h mark List.mem_cons_self
    have hbody := Stmt.drawn_settleAll ih (c.moveTo (condition.settle c.here).2)
      (fun mark hm => h mark (List.mem_cons_of_mem _ hm))
    exact (hbody.append (NodeId.drawn_single _)).perm List.perm_append_comm
  | ifElse p condition yes no ihy ihn =>
    obtain ⟨yesMark, yes⟩ := yes
    obtain ⟨noMark, no⟩ := no
    have hy : ∀ mark ∈ yesMark :: Block.nodesAll yes, mark = none :=
      fun mark hm => h mark (List.mem_append_left _ hm)
    have hn : ∀ mark ∈ noMark :: Block.nodesAll no, mark = none :=
      fun mark hm => h mark (List.mem_append_right _ hm)
    obtain rfl : yesMark = none := hy yesMark List.mem_cons_self
    obtain rfl : noMark = none := hn noMark List.mem_cons_self
    have hyes := Stmt.drawn_settleAll ihy (c.moveTo (condition.settle c.here).2)
      (fun mark hm => hy mark (List.mem_cons_of_mem _ hm))
    have hno := Stmt.drawn_settleAll ihn
      (Stmt.settleAll (c.moveTo (condition.settle c.here).2) yes).2
      (fun mark hm => hn mark (List.mem_cons_of_mem _ hm))
    have hall := (hyes.append hno).append ((NodeId.drawn_single _).append (NodeId.drawn_single _))
    -- Both blocks are numbered after the statements of both.
    exact hall.perm (NodeId.perm_two_blocks _ _ _ _)

/-- Statements that were finished one after the other. -/
theorem Stmt.drawn_settleAll_of_none (sts : List (Draft Stmt)) (c : Cursor)
    (h : ∀ mark ∈ Block.nodesAll sts, mark = none) :
    Drawn NodeId.index c.next (Stmt.settleAll c sts).2.next
      (Block.nodesAll (Stmt.settleAll c sts).1) :=
  Stmt.drawn_settleAll (fun st _ c => st.drawn_settle c) c h

theorem Item.drawn_settle (i : Draft Item) (c : Cursor) (h : ∀ mark ∈ i.nodes, mark = none) :
    Drawn NodeId.index c.next (i.settle c).2.next (i.settle c).1.nodes := by
  cases i with
  | main e =>
    obtain ⟨place, mark, ⟨bodyMark, sts⟩⟩ := e
    obtain rfl : mark = none := h mark List.mem_cons_self
    obtain rfl : bodyMark = none := h bodyMark (List.mem_cons_of_mem _ List.mem_cons_self)
    have hbody := Stmt.drawn_settleAll_of_none sts c
      (fun mark hm => h mark (List.mem_cons_of_mem _ (List.mem_cons_of_mem _ hm)))
    exact (hbody.append ((NodeId.drawn_single _).append (NodeId.drawn_single _))).perm
      List.perm_append_comm
  | function f =>
    obtain ⟨place, mark, returns, name, parameters, body⟩ := f
    obtain rfl : mark = none := h mark List.mem_cons_self
    cases body with
    | none =>
      -- The number of the missing body stays unused.
      have hitem := NodeId.drawn_single c.next
      exact ⟨by simp [Item.settle, Stmt.settleAll, Cursor.skip, Cursor.visit, Cursor.moveTo],
        hitem.nodup, fun n hn => ⟨(hitem.range n hn).1, Nat.lt_succ_of_lt (hitem.range n hn).2⟩⟩
    | some body =>
      obtain ⟨bodyMark, sts⟩ := body
      obtain rfl : bodyMark = none := h bodyMark (List.mem_cons_of_mem _ List.mem_cons_self)
      have hbody := Stmt.drawn_settleAll_of_none sts c
        (fun mark hm => h mark (List.mem_cons_of_mem _ (List.mem_cons_of_mem _ hm)))
      exact (hbody.append ((NodeId.drawn_single _).append (NodeId.drawn_single _))).perm
        List.perm_append_comm

theorem Item.drawn_settleAll (items : List (Draft Item)) (c : Cursor)
    (h : ∀ i ∈ items, ∀ mark ∈ i.nodes, mark = none) :
    Drawn NodeId.index c.next (Item.settleAll c items).2.next
      ((Item.settleAll c items).1.flatMap Item.nodes) := by
  induction items generalizing c with
  | nil => exact .nil c.next
  | cons i items ih =>
    have hfirst := i.drawn_settle c (h i List.mem_cons_self)
    have hrest := ih (i.settle c).2 (fun i hi => h i (List.mem_cons_of_mem _ hi))
    simp only [Item.settleAll, List.flatMap_cons]
    exact hfirst.append hrest

/-- A program that was finished without prescribed numbers has distinct nodes. -/
theorem Program.distinct_ofDraft (items : List (Draft Item))
    (h : ∀ i ∈ items, ∀ mark ∈ i.nodes, mark = none) : (Program.ofDraft items).Distinct := by
  have hitems := Item.drawn_settleAll items .start h
  -- The root is numbered last and listed first.
  exact ((hitems.append (NodeId.drawn_single _)).perm List.perm_append_comm).nodup

end Primer
