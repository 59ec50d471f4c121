import Primer.Machine.Assembly
import Primer.Proofs.Analysis.Relabeling

/-!
# Code of relabeled trees

Instructions have no places, and marks are used only to look scopes up. So a tree with other labels
has the same code in the same frames, as long as the same scopes are recorded for its nodes, and a
relabeled program has the same unit (`Program.emit_map`).
-/

namespace Primer

open Machine

variable {L L' : Type}

/-! ## Expressions -/

namespace Expr

variable (f : L → L') (c : Context) (s : ScopeId)

private theorem emitAll_map_of {es : List (Expr L)}
    (ih : ∀ e ∈ es, (e.map f).emit c s = e.emit c s) (fr : Frame) :
    emitAll c s (mapAll f es) fr = emitAll c s es fr := by
  induction es generalizing fr with
  | nil => rfl
  | cons e es ihs =>
    simp only [mapAll, emitAll, ih e List.mem_cons_self,
      ihs fun e he => ih e (List.mem_cons_of_mem _ he)]

private theorem emitElements_map_of (element : Element) {es : List (Expr L)}
    (ih : ∀ e ∈ es, (e.map f).emit c s = e.emit c s) (position : Nat) (fr : Frame) :
    emitElements c s element position (mapAll f es) fr =
      emitElements c s element position es fr := by
  induction es generalizing position fr with
  | nil => rfl
  | cons e es ihs =>
    simp only [mapAll, emitElements, ih e List.mem_cons_self,
      ihs fun e he => ih e (List.mem_cons_of_mem _ he)]

theorem emit_map (e : Expr L) : (e.map f).emit c s = e.emit c s := by
  induction e using Expr.inductionOn with
  | int p n => rfl
  | float p bits => rfl
  | bool p b => rfl
  | char p ch => rfl
  | str p text => rfl
  | read p name => rfl
  | call p callee arguments ih =>
    funext fr
    simp only [map, emit, Name.text_map, length_mapAll, emitAll_map_of f c s ih]
  | index p base position ih =>
    funext fr
    simp only [map, emit, Name.text_map, ih]
  | length p operand ih =>
    funext fr
    simp only [map, emit, ih]
  | paren p operand ih => exact ih
  | negate p operand ih =>
    funext fr
    simp only [map, emit, ih]
  | binary p op lhs rhs ihl ihr =>
    funext fr
    simp only [map, emit, ihl, ihr]
  | array p elements ih =>
    funext fr
    -- The element type is inferred from the first element, which has kept its type.
    have hfirst : ((mapAll f elements).head?.map (·.typeIn c.table s)) =
        elements.head?.map (·.typeIn c.table s) := by
      cases elements with
      | nil => rfl
      | cons e es => exact congrArg some (e.typeIn_map f c.table s)
    simp only [map, emit, hfirst, length_mapAll, emitElements_map_of f c s _ ih]
  | newArray p element size ih =>
    funext fr
    simp only [map, emit, Name.text_map, ih]

theorem emitAll_map (es : List (Expr L)) (fr : Frame) :
    emitAll c s (mapAll f es) fr = emitAll c s es fr :=
  emitAll_map_of f c s (fun e _ => e.emit_map f c s) fr

end Expr

/-! ## Statements -/

section Statements

variable (f : L → L') {g : NodeId → NodeId} {m m' : ScopeMap} (c : Context)

private theorem Block.emit_map_of {b : Block L NodeId}
    (ih : ∀ st ∈ b.statements, ∀ s, m.Follows g m' st.nodes →
      (st.map f g).emit c m' s = st.emit c m s)
    (hb : m.Follows g m' b.nodes) : (b.map f g).emit c m' = b.emit c m := by
  obtain ⟨mark, sts⟩ := b
  obtain ⟨s, hs, hs'⟩ := hb mark List.mem_cons_self
  have hsts : ∀ fr,
      Block.emitAll c m' s (Block.mapAll f g sts) fr = Block.emitAll c m s sts fr := by
    have hstatements : ∀ st ∈ sts, (st.map f g).emit c m' s = st.emit c m s :=
      fun st hst => ih st hst s (hb.statement hst)
    -- Every statement starts in the frame that the one before it left.
    clear ih hb
    induction sts with
    | nil => exact fun _ => rfl
    | cons st sts ihs =>
      intro fr
      simp only [Block.mapAll, Block.emitAll, hstatements st List.mem_cons_self,
        ihs fun st hst => hstatements st (List.mem_cons_of_mem _ hst)]
  funext fr
  simp only [Block.map, Block.emit, ScopeMap.scopeOf, hs, hs']
  exact hsts fr

theorem Stmt.emit_map (st : Stmt L NodeId) (s : ScopeId) (hst : m.Follows g m' st.nodes) :
    (st.map f g).emit c m' s = st.emit c m s := by
  induction st using Stmt.inductionOn generalizing s with
  | declare p type name value =>
    funext fr
    cases value <;> simp only [Stmt.map, Stmt.emit, Name.text_map, Option.map_none,
      Option.map_some, Expr.emit_map]
  | assign p target value =>
    funext fr
    simp only [Stmt.map, Stmt.emit, Name.text_map, Expr.emit_map]
  | assignAt p target position value =>
    funext fr
    simp only [Stmt.map, Stmt.emit, Name.text_map, Expr.emit_map]
  | print p newline value =>
    funext fr
    cases value <;> simp only [Stmt.map, Stmt.emit, Option.map_none, Option.map_some,
      Expr.emit_map]
  | call p callee arguments =>
    funext fr
    simp only [Stmt.map, Stmt.emit, Name.text_map, Expr.emitAll_map, Expr.length_mapAll]
  | ret p node value =>
    funext fr
    cases value <;> simp only [Stmt.map, Stmt.emit, Option.map_none, Option.map_some,
      Expr.emit_map]
  | ifThen p condition yes ih =>
    funext fr
    simp only [Stmt.map, Stmt.emit, Expr.emit_map, Block.emit_map_of f c ih hst]
  | loop p condition body ih =>
    funext fr
    simp only [Stmt.map, Stmt.emit, Expr.emit_map, Block.emit_map_of f c ih hst]
  | ifElse p condition yes no ihy ihn =>
    funext fr
    -- The nodes of a choice are those of the two branches, and the map follows both.
    obtain ⟨hyes, hno⟩ := ScopeMap.Follows.of_append hst
    simp only [Stmt.map, Stmt.emit, Expr.emit_map, Block.emit_map_of f c ihy hyes,
      Block.emit_map_of f c ihn hno]

theorem Block.emit_map (b : Block L NodeId) (hb : m.Follows g m' b.nodes) :
    (b.map f g).emit c m' = b.emit c m :=
  Block.emit_map_of f c (fun st _ => st.emit_map f c) hb

end Statements

/-! ## Items and programs -/

section Programs

variable (f : L → L') {g : NodeId → NodeId} {m m' : ScopeMap} (t : Table)

theorem Item.Tracked.emit?_map {i : Item L NodeId} (h : i.Tracked g m m') :
    (i.map f g).emit? t m' = i.emit? t m := by
  cases i with
  | function fn =>
    have hmark := h.get?_eq (n := fn.mark) List.mem_cons_self
    cases hbody : fn.body with
    | none => simp [Item.map, Item.emit?, Function.emit?, Function.map, hbody]
    | some body =>
      cases hs : m.get? fn.mark with
      | none => simp [Item.map, Item.emit?, Function.emit?, Function.map, hmark, hs]
      | some s =>
        -- The function has a scope, so every node of its body has one.
        have hfollows : m.Follows g m' body.nodes :=
          h.follows_body (by simp [Item.acceptedBody?, hs, hbody])
        cases hsymbol : t.functionOf s with
        | none => simp [Item.map, Item.emit?, Function.emit?, Function.map, hmark, hs, hsymbol]
        | some symbol =>
          simp [Item.map, Item.emit?, Function.emit?, Function.map, hbody, hmark, hs, hsymbol,
            body.emit_map f _ hfollows]
  | main e =>
    have hmark := h.get?_eq (n := e.mark) List.mem_cons_self
    cases hs : m.get? e.mark with
    | none => simp [Item.map, Item.emit?, EntryPoint.emit?, EntryPoint.map, hmark, hs]
    | some s =>
      have hfollows : m.Follows g m' e.body.nodes :=
        h.follows_body (by simp [Item.acceptedBody?, hs])
      simp [Item.map, Item.emit?, EntryPoint.emit?, EntryPoint.map, hmark, hs,
        e.body.emit_map f _ hfollows]

theorem Program.emit_map {p : Program L} {q : Program L'}
    (hitems : q.items = p.items.map (Item.map f g)) (htracked : ∀ i ∈ p.items, i.Tracked g m m')
    (name : String) : q.emit t m' name = p.emit t m name := by
  have hroutines : ∀ is : List (Item L NodeId), (∀ i ∈ is, i.Tracked g m m') →
      (is.map (Item.map f g)).mapM (·.emit? t m') = is.mapM (·.emit? t m) := by
    intro is his
    induction is with
    | nil => rfl
    | cons i is ih =>
      rw [List.map_cons, List.mapM_cons, List.mapM_cons, (his i List.mem_cons_self).emit?_map,
        ih fun i hi => his i (List.mem_cons_of_mem _ hi)]
  rw [Program.emit, hitems, hroutines p.items htracked, Program.emit]

end Programs

end Primer
