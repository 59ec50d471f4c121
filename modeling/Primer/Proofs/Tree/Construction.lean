import Primer.Proofs.Tree.Nodes
import Mathlib.Logic.Relation

/-!
# Trees are built bottom-up

A tree is built from finished pieces. Pieces without marks cost nothing; every other piece takes the
next free numbers when it is put together: a return one, a block of a conditional or a loop one, an
item two, of which the second is for its body. In which order pieces are finished is left open, as
long as the parts of a piece come before the piece (`Bench.Step`). Finishing a draft is one such
order (`Program.builtBottomUp_ofDraft`).

Whatever the order, no number is handed out twice and all are below the number of nodes, the root
has the largest one, and the body of an item has a larger number than all blocks and returns in it
(`Program.fresh_numbers`).
-/

namespace Primer

variable {L : Type}

/-! ## Building -/

/-- Trees under construction. -/
structure Bench (L : Type) where
  /-- The next free number. -/
  next : Nat
  /-- Statements that are finished and not yet part of a block. -/
  statements : List (Stmt L NodeId)
  /-- Items that are finished. -/
  items : List (Item L NodeId)

namespace Bench

/-- Nothing is finished, and no number is handed out. -/
def start : Bench L := ⟨0, [], []⟩

/-- One piece is finished. Its parts are taken from the pieces that were finished before, wherever
they lie. -/
inductive Step : Bench L → Bench L → Prop where
  /-- A statement without marks. -/
  | plain {b st} (hst : st.nodes = []) : Step b { b with statements := st :: b.statements }
  | ret {b place value} :
      Step b { b with
        next := b.next + 1
        statements := .ret place ⟨b.next⟩ value :: b.statements }
  | ifThen {b place condition yes rest} (h : b.statements.Perm (yes ++ rest)) :
      Step b { b with
        next := b.next + 1
        statements := .ifThen place condition (.mk ⟨b.next⟩ yes) :: rest }
  | ifElse {b place condition yes no rest} (h : b.statements.Perm (yes ++ no ++ rest)) :
      Step b { b with
        next := b.next + 2
        statements :=
          .ifElse place condition (.mk ⟨b.next⟩ yes) (.mk ⟨b.next + 1⟩ no) :: rest }
  | loop {b place condition body rest} (h : b.statements.Perm (body ++ rest)) :
      Step b { b with
        next := b.next + 1
        statements := .loop place condition (.mk ⟨b.next⟩ body) :: rest }
  | main {b place body rest} (h : b.statements.Perm (body ++ rest)) :
      Step b {
        next := b.next + 2
        statements := rest
        items := .main ⟨place, ⟨b.next⟩, .mk ⟨b.next + 1⟩ body⟩ :: b.items }
  | function {b place returns name parameters body rest} (h : b.statements.Perm (body ++ rest)) :
      Step b {
        next := b.next + 2
        statements := rest
        items := .function ⟨place, ⟨b.next⟩, returns, name, parameters,
          some (.mk ⟨b.next + 1⟩ body)⟩ :: b.items }
  /-- A function without a body. The number of the body stays unused. -/
  | header {b place returns name parameters} :
      Step b { b with
        next := b.next + 2
        items := .function ⟨place, ⟨b.next⟩, returns, name, parameters, none⟩ :: b.items }

/-- Pieces are finished one after the other. -/
abbrev Steps : Bench L → Bench L → Prop :=
  Relation.ReflTransGen Step

/-- The numbers of all finished pieces. -/
def nodes (b : Bench L) : List NodeId :=
  b.statements.flatMap Stmt.nodes ++ b.items.flatMap Item.nodes

end Bench

/-- A program that was put together from finished items. The root takes the last number. -/
def Program.BuiltBottomUp (p : Program L) : Prop :=
  ∃ b rest, Bench.Steps .start b ∧ b.items.Perm (p.items ++ rest) ∧ p.root = ⟨b.next⟩ ∧
    p.nodeCount = b.next + 1

/-! ## Numbers on the bench -/

/-- The body of an item, if it has one. -/
def Item.body? {I : Type} : Item L I → Option (Block L I)
  | .function f => f.body
  | .main e => some e.body

/-- The body of an item was numbered after everything in it. -/
def Item.BodyLast (i : Item L NodeId) : Prop :=
  ∀ body, i.body? = some body → ∀ n ∈ Block.nodesAll body.statements, n.index < body.mark.index

/-- Numbers from a stretch are numbers from a longer one. -/
theorem Drawn.widen {α : Type} {index : α → Nat} {lo mid hi : Nat} {xs : List α}
    (h : Drawn index lo mid xs) (hle : mid ≤ hi) : Drawn index lo hi xs :=
  ⟨Nat.le_trans h.le hle, h.nodup,
    fun x hx => ⟨(h.range x hx).1, Nat.lt_of_lt_of_le (h.range x hx).2 hle⟩⟩

theorem NodeId.drawn_pair (n : Nat) : Drawn NodeId.index n (n + 2) [⟨n⟩, ⟨n + 1⟩] :=
  (NodeId.drawn_single n).append (NodeId.drawn_single (n + 1))

namespace Bench

variable {b b' : Bench L}

/-- The numbers on the bench, with those of statements that are about to be used in front. -/
theorem nodes_perm {used rest : List (Stmt L NodeId)} (h : b.statements.Perm (used ++ rest)) :
    b.nodes.Perm
      (Block.nodesAll used ++ rest.flatMap Stmt.nodes ++ b.items.flatMap Item.nodes) := by
  have hstatements := h.flatMap_right Stmt.nodes
  rw [List.flatMap_append] at hstatements
  rw [Block.nodesAll_eq_flatMap]
  exact hstatements.append_right _

/-- Statements become a block with a number of its own. -/
theorem nodes_perm_block {used rest : List (Stmt L NodeId)} {mark : NodeId}
    (h : b.statements.Perm (used ++ rest)) :
    (mark :: Block.nodesAll used ++ rest.flatMap Stmt.nodes ++ b.items.flatMap Item.nodes).Perm
      (b.nodes ++ [mark]) :=
  ((nodes_perm h).symm.cons mark).trans (List.perm_append_singleton mark b.nodes).symm

/-- Statements become the body of an item, with one number for each. -/
theorem nodes_perm_item {used rest : List (Stmt L NodeId)} {item body : NodeId}
    (h : b.statements.Perm (used ++ rest)) :
    (rest.flatMap Stmt.nodes ++
      ((item :: body :: Block.nodesAll used) ++ b.items.flatMap Item.nodes)).Perm
        (b.nodes ++ [item, body]) := by
  refine List.perm_iff_count.mpr fun n => ?_
  have hcount := (nodes_perm h).count_eq n
  simp only [List.count_append, List.count_cons, List.count_nil] at hcount ⊢
  omega

/-- What a step does to the numbers: those that were there stay, and new ones come from the stretch
that is handed out. -/
theorem Step.exists_fresh (h : Step b b') :
    ∃ fresh, Drawn NodeId.index b.next b'.next fresh ∧ b'.nodes.Perm (b.nodes ++ fresh) := by
  cases h with
  | plain hst => exact ⟨[], .nil _, by simp [nodes, hst]⟩
  | ret => exact ⟨_, NodeId.drawn_single _, (List.perm_append_singleton _ b.nodes).symm⟩
  | ifThen h => exact ⟨_, NodeId.drawn_single _, nodes_perm_block h⟩
  | loop h => exact ⟨_, NodeId.drawn_single _, nodes_perm_block h⟩
  | ifElse h =>
    -- The two blocks leave the bench and come back inside one statement: a matter of counting.
    refine ⟨_, NodeId.drawn_pair _, List.perm_iff_count.mpr fun n => ?_⟩
    have hcount := (nodes_perm h).count_eq n
    simp only [nodes, Stmt.nodes, Block.nodes, Block.nodesAll_eq_flatMap, List.flatMap_append,
      List.flatMap_cons, List.count_append, List.count_cons, List.count_nil] at hcount ⊢
    omega
  | main h => exact ⟨_, NodeId.drawn_pair _, nodes_perm_item h⟩
  | function h => exact ⟨_, NodeId.drawn_pair _, nodes_perm_item h⟩
  | header =>
    -- A header has no body, so the number that a body would get is skipped.
    exact ⟨_, (NodeId.drawn_single _).widen (Nat.le_succ _),
      List.perm_middle.trans (List.perm_append_singleton _ b.nodes).symm⟩

/-- Everything in the statements that become a body has been numbered. -/
theorem lt_next_of_mem_used {used rest : List (Stmt L NodeId)} {n : NodeId}
    (hb : Drawn NodeId.index 0 b.next b.nodes) (h : b.statements.Perm (used ++ rest))
    (hn : n ∈ Block.nodesAll used) : n.index < b.next + 1 := by
  have hmem : n ∈ b.nodes := (nodes_perm h).mem_iff.mpr (by simp [hn])
  exact Nat.lt_succ_of_lt (hb.range n hmem).2

/-- The numbers on the bench are distinct and were handed out, those of bodies last. -/
structure Numbered (b : Bench L) : Prop where
  drawn : Drawn NodeId.index 0 b.next b.nodes
  bodyLast : ∀ i ∈ b.items, i.BodyLast

theorem numbered_start : (start : Bench L).Numbered :=
  ⟨.nil 0, List.forall_mem_nil _⟩

theorem Step.numbered (h : Step b b') (hb : b.Numbered) : b'.Numbered := by
  constructor
  · obtain ⟨fresh, hfresh, hperm⟩ := h.exists_fresh
    exact (hb.drawn.append hfresh).perm hperm.symm
  · cases h with
    -- Statements do not touch the items that are done.
    | plain | ret | ifThen | ifElse | loop => exact hb.bodyLast
    | main h =>
      refine List.forall_mem_cons.mpr ⟨?_, hb.bodyLast⟩
      rintro _ ⟨rfl⟩ n hn
      exact lt_next_of_mem_used hb.drawn h hn
    | function h =>
      refine List.forall_mem_cons.mpr ⟨?_, hb.bodyLast⟩
      rintro _ ⟨rfl⟩ n hn
      exact lt_next_of_mem_used hb.drawn h hn
    | header =>
      refine List.forall_mem_cons.mpr ⟨?_, hb.bodyLast⟩
      -- There is no body whose number would have to be the last.
      rintro _ ⟨⟩

theorem Steps.numbered (h : Steps b b') (hb : b.Numbered) : b'.Numbered := by
  induction h with
  | refl => exact hb
  | tail _ hstep ih => exact hstep.numbered ih

end Bench

/-! ## Finishing a draft -/

open Bench

section Draft

variable (items : List (Item Location NodeId))

/-- Statements of a draft are finished one after the other, if each of them is finished by steps. -/
private theorem Stmt.steps_settleAll {sts : List (Draft Stmt)}
    (ih : ∀ st ∈ sts, ∀ (c : Cursor) statements, (∀ mark ∈ st.nodes, mark = none) →
      Steps ⟨c.next, statements, items⟩
        ⟨(st.settle c).2.next, (st.settle c).1 :: statements, items⟩)
    (c : Cursor) (statements : List (Stmt Location NodeId))
    (h : ∀ mark ∈ Block.nodesAll sts, mark = none) :
    Steps ⟨c.next, statements, items⟩
      ⟨(Stmt.settleAll c sts).2.next, (Stmt.settleAll c sts).1.reverse ++ statements, items⟩ := by
  induction sts generalizing c statements with
  | nil => exact .refl
  | cons st sts ihs =>
    obtain ⟨hst, hsts⟩ := List.forall_mem_append.mp h
    -- The first statement is put on the bench before the others are settled.
    have hfirst := ih st List.mem_cons_self c statements hst
    have hrest := ihs (fun st hm => ih st (List.mem_cons_of_mem _ hm)) (st.settle c).2
      ((st.settle c).1 :: statements) hsts
    simp only [Stmt.settleAll, List.reverse_cons, List.append_assoc, List.singleton_append]
    exact hfirst.trans hrest

theorem Stmt.steps_settle (st : Draft Stmt) (c : Cursor) (statements : List (Stmt Location NodeId))
    (h : ∀ mark ∈ st.nodes, mark = none) :
    Steps ⟨c.next, statements, items⟩
      ⟨(st.settle c).2.next, (st.settle c).1 :: statements, items⟩ := by
  induction st using Stmt.inductionOn generalizing c statements with
  | declare p type name value => exact .single (.plain rfl)
  | assign p target value => exact .single (.plain rfl)
  | assignAt p target position value => exact .single (.plain rfl)
  | print p newline value => exact .single (.plain rfl)
  | call p callee arguments => exact .single (.plain rfl)
  | ret p mark value =>
    obtain rfl : mark = none := h mark (List.mem_singleton_self _)
    exact .single .ret
  | ifThen p condition yes ih =>
    obtain ⟨mark, sts⟩ := yes
    obtain ⟨rfl, hsts⟩ := List.forall_mem_cons.mp h
    have hbody := Stmt.steps_settleAll items ih (c.moveTo (condition.settle c.here).2) statements
      hsts
    -- The statements of the block lie on the bench with the newest in front.
    exact hbody.tail (.ifThen ((List.reverse_perm _).append_right _))
  | loop p condition body ih =>
    obtain ⟨mark, sts⟩ := body
    obtain ⟨rfl, hsts⟩ := List.forall_mem_cons.mp h
    have hbody := Stmt.steps_settleAll items ih (c.moveTo (condition.settle c.here).2) statements
      hsts
    exact hbody.tail (.loop ((List.reverse_perm _).append_right _))
  | ifElse p condition yes no ihy ihn =>
    obtain ⟨yesMark, yes⟩ := yes
    obtain ⟨noMark, no⟩ := no
    obtain ⟨hy, hn⟩ := List.forall_mem_append.mp h
    obtain ⟨rfl, hyes⟩ := List.forall_mem_cons.mp hy
    obtain ⟨rfl, hno⟩ := List.forall_mem_cons.mp hn
    have hfirst := Stmt.steps_settleAll items ihy (c.moveTo (condition.settle c.here).2) statements
      hyes
    have hsecond := Stmt.steps_settleAll items ihn
      (Stmt.settleAll (c.moveTo (condition.settle c.here).2) yes).2
      ((Stmt.settleAll (c.moveTo (condition.settle c.here).2) yes).1.reverse ++ statements) hno
    -- The second block lies on top of the first, so the two are exchanged.
    refine (hfirst.trans hsecond).tail (.ifElse ?_)
    rw [List.append_assoc]
    exact ((List.reverse_perm _).append ((List.reverse_perm _).append_right _)).trans
      (List.perm_append_comm_assoc _ _ _)

/-- An item is finished after the statements of its body. -/
theorem Item.steps_settle (i : Draft Item) (c : Cursor) (h : ∀ mark ∈ i.nodes, mark = none) :
    Steps ⟨c.next, [], items⟩ ⟨(i.settle c).2.next, [], (i.settle c).1 :: items⟩ := by
  cases i with
  | main e =>
    -- The item and its body both draw a number, after everything inside.
    obtain ⟨place, mark, ⟨bodyMark, sts⟩⟩ := e
    obtain ⟨rfl, hbody⟩ := List.forall_mem_cons.mp h
    obtain ⟨rfl, hsts⟩ := List.forall_mem_cons.mp hbody
    have hsteps := Stmt.steps_settleAll items (fun st _ => st.steps_settle items) c [] hsts
    exact hsteps.tail (.main ((List.reverse_perm _).append_right _))
  | function f =>
    obtain ⟨place, mark, returns, name, parameters, body⟩ := f
    obtain ⟨rfl, hbody⟩ := List.forall_mem_cons.mp h
    cases body with
    | none => exact .single .header
    | some body =>
      obtain ⟨bodyMark, sts⟩ := body
      obtain ⟨rfl, hsts⟩ := List.forall_mem_cons.mp hbody
      have hsteps := Stmt.steps_settleAll items (fun st _ => st.steps_settle items) c [] hsts
      exact hsteps.tail (.function ((List.reverse_perm _).append_right _))

theorem Item.steps_settleAll (drafts : List (Draft Item)) (c : Cursor)
    (h : ∀ i ∈ drafts, ∀ mark ∈ i.nodes, mark = none) :
    Steps ⟨c.next, [], items⟩
      ⟨(Item.settleAll c drafts).2.next, [], (Item.settleAll c drafts).1.reverse ++ items⟩ := by
  induction drafts generalizing c items with
  | nil => exact .refl
  | cons i drafts ih =>
    obtain ⟨hi, hdrafts⟩ := List.forall_mem_cons.mp h
    have hrest := ih ((i.settle c).1 :: items) (i.settle c).2 hdrafts
    simp only [Item.settleAll, List.reverse_cons, List.append_assoc, List.singleton_append]
    exact (i.steps_settle items c hi).trans hrest

end Draft

namespace Program

/-- A draft without prescribed numbers is finished by steps. -/
theorem builtBottomUp_ofDraft (drafts : List (Draft Item))
    (h : ∀ i ∈ drafts, ∀ mark ∈ i.nodes, mark = none) : (ofDraft drafts).BuiltBottomUp := by
  have hsteps := Item.steps_settleAll [] drafts .start h
  refine ⟨_, [], hsteps, ?_, rfl, rfl⟩
  exact (List.reverse_perm _).append_right []

/-! ## Fresh numbers -/

/-- The numbers of a program tell its nodes apart, and those of parents come late. -/
structure FreshlyNumbered (p : Program L) : Prop where
  distinct : p.nodes.Nodup
  below : ∀ n ∈ p.nodes, n.index < p.nodeCount
  root : p.root.index = p.nodeCount - 1
  bodies : ∀ i ∈ p.items, ∀ body, i.body? = some body → ∀ n ∈ body.nodes,
    n = body.mark ∨ n.index < body.mark.index

theorem freshlyNumbered_of_numbered {p : Program L} {b : Bench L} {rest : List (Item L NodeId)}
    (hb : b.Numbered) (hitems : b.items.Perm (p.items ++ rest)) (hroot : p.root = ⟨b.next⟩)
    (hcount : p.nodeCount = b.next + 1) : p.FreshlyNumbered := by
  -- The items of the program are among those on the bench, and so are their numbers.
  have hperm := hitems.flatMap_right Item.nodes
  rw [List.flatMap_append] at hperm
  have hnodes : Drawn NodeId.index 0 b.next (p.items.flatMap Item.nodes) := by
    refine ⟨hb.drawn.le, ?_, fun n hn => hb.drawn.range n ?_⟩
    · exact (hperm.nodup_iff.mp hb.drawn.nodup.of_append_right).of_append_left
    · exact List.mem_append_right _ (hperm.mem_iff.mpr (List.mem_append_left _ hn))
  have hdrawn : Drawn NodeId.index 0 p.nodeCount p.nodes := by
    have hall := (hnodes.append (NodeId.drawn_single b.next)).perm List.perm_append_comm
    rw [nodes, hroot, hcount]
    exact hall
  refine ⟨hdrawn.nodup, fun n hn => (hdrawn.range n hn).2, by simp [hroot, hcount], ?_⟩
  intro i hi body hbody n hn
  obtain ⟨mark, sts⟩ := body
  rcases List.mem_cons.mp hn with hmark | hinner
  · exact .inl hmark
  · have hmem : i ∈ b.items := hitems.mem_iff.mpr (List.mem_append_left _ hi)
    exact .inr (hb.bodyLast i hmem _ hbody n hinner)

/-- Whatever the order in which the pieces of a program are finished, its numbers are fresh. One
such order is that in which drafts without prescribed numbers are finished. -/
theorem fresh_numbers :
    (∀ drafts : List (Draft Item), (∀ i ∈ drafts, ∀ mark ∈ i.nodes, mark = none) →
      (ofDraft drafts).BuiltBottomUp) ∧
    ∀ p : Program Location, p.BuiltBottomUp → p.FreshlyNumbered := by
  refine ⟨builtBottomUp_ofDraft, ?_⟩
  rintro p ⟨b, rest, hsteps, hitems, hroot, hcount⟩
  exact freshlyNumbered_of_numbered (hsteps.numbered numbered_start) hitems hroot hcount

/-- A function with a loop, a conditional and two returns, one without a body and an entry point. -/
def windingDraft : List (Draft Item) :=
  let name (text : String) : Name (Option Location) := ⟨text, none⟩
  let inner : Draft Stmt :=
    .ifElse none (.bool none true) (.mk none [.ret none none (some (.int none 1))]) (.mk none [])
  let body : Draft Block :=
    .mk none [.loop none (.bool none true) (.mk none [inner]), .ret none none (some (.int none 2))]
  [.function ⟨none, none, name "int", name "f", [], some body⟩,
    .function ⟨none, none, name "void", name "g", [], none⟩,
    .main ⟨none, none, .mk none [.call none (name "f") []]⟩]

/-- An entry point in front of a function that was finished before it. -/
def mainInFront : Program Location :=
  let name (text : String) : Name Location := ⟨text, .unknown⟩
  { root := ⟨4⟩
    items := [.main ⟨.unknown, ⟨2⟩, .mk ⟨3⟩ []⟩,
      .function ⟨.unknown, ⟨0⟩, name "void", name "g", [], some (.mk ⟨1⟩ [])⟩]
    nodeCount := 5 }

theorem fresh_numbers_winding :
    (ofDraft windingDraft).nodes.map NodeId.index = [11, 5, 6, 3, 1, 0, 2, 4, 7, 9, 10] ∧
      (ofDraft windingDraft).nodeCount = 12 ∧ (ofDraft windingDraft).FreshlyNumbered ∧
      mainInFront.BuiltBottomUp ∧ mainInFront.FreshlyNumbered := by
  have hfunction : Step .start ⟨2, [], mainInFront.items.drop 1⟩ := .function (.refl [])
  have hmain : Step ⟨2, [], mainInFront.items.drop 1⟩ ⟨4, [], mainInFront.items⟩ := .main (.refl [])
  have hbuilt : mainInFront.BuiltBottomUp :=
    ⟨_, [], .tail (.single hfunction) hmain, .refl _, rfl, rfl⟩
  exact ⟨by decide, rfl, fresh_numbers.2 _ (fresh_numbers.1 windingDraft (by decide)), hbuilt,
    fresh_numbers.2 _ hbuilt⟩

end Program

end Primer
