import Primer.Proofs.Declaration.Lexical
import Primer.Proofs.Declaration.Placement

/-!
# What scopes bind

If a tree is declared without a mistake, then the symbols that it adds are numbered as its
declarations are written, and the scope of every block binds exactly what the block declares
directly. `Stmt.Bound` and `Block.Bound` say so for a table and a scope map, and
`Stmt.bound_declarations` proves it of the pass.
-/

namespace Primer

variable {L : Type}

mutual

/-- The declarations of a statement in the scope `s`, numbered from `k`, have their symbols, and the
scopes of its blocks bind what they should. -/
inductive Stmt.Bound (t : Table) (m : ScopeMap) : ScopeId → Nat → Stmt L NodeId → Prop where
  | declare {s k p type name value τ} (htype : Ty.named? type.text = some τ)
      (hsymbol : t.symbol? ⟨k⟩ = some (.var name.text τ))
      (hlocal : t.localResolve s name.text = some ⟨k⟩) :
      Stmt.Bound t m s k (.declare p type name value)
  | assign {s k p target value} : Stmt.Bound t m s k (.assign p target value)
  | assignAt {s k p target position value} :
      Stmt.Bound t m s k (.assignAt p target position value)
  | ifThen {s k p condition yes} (hyes : Block.Bound t m s k yes) :
      Stmt.Bound t m s k (.ifThen p condition yes)
  | ifElse {s k p condition yes no} (hyes : Block.Bound t m s k yes)
      (hno : Block.Bound t m s (k + yes.variableCount) no) :
      Stmt.Bound t m s k (.ifElse p condition yes no)
  | loop {s k p condition body} (hbody : Block.Bound t m s k body) :
      Stmt.Bound t m s k (.loop p condition body)
  | ret {s k p node value} : Stmt.Bound t m s k (.ret p node value)
  | print {s k p newline value} : Stmt.Bound t m s k (.print p newline value)
  | call {s k p callee arguments} : Stmt.Bound t m s k (.call p callee arguments)

/-- The scope of a block binds what the block declares directly. -/
inductive Block.Bound (t : Table) (m : ScopeMap) : ScopeId → Nat → Block L NodeId → Prop where
  | mk {parent s k node sts} (hnode : m.get? node = some s) (hlt : parent.index < s.index)
      (hsize : s.index < t.scopes.size)
      (hbinds : ∀ name, t.localResolve s name =
        ((Block.layer k sts).lookup name).map Declared.symbol)
      (hsts : ∀ k' st, (k', st) ∈ Block.numbered k sts → Stmt.Bound t m s k' st) :
      Block.Bound t m parent k (.mk node sts)

end

/-- The scope binds variables only. -/
def Table.BindsVariables (t : Table) (s : ScopeId) : Prop :=
  ∀ name x, t.localResolve s name = some x → ∃ n τ, t.symbol? x = some (.var n τ)

theorem Block.mem_of_mem_numbered {k k' : Nat} {st : Stmt L NodeId} {sts : List (Stmt L NodeId)}
    (h : (k', st) ∈ Block.numbered k sts) : st ∈ sts := by
  induction sts generalizing k with
  | nil => exact absurd h List.not_mem_nil
  | cons first rest ih =>
    rcases List.mem_cons.mp h with heq | h
    · obtain ⟨-, rfl⟩ := Prod.mk.inj heq
      exact List.mem_cons_self
    · exact List.mem_cons_of_mem _ (ih h)

open Declarations

/-! ## Later declarations -/

section Extend

variable {o : ScopeId} {nodes : List NodeId} {d d' : Declarations L}

private theorem Block.Bound.extend_block (h : Extends o d.table.symbols.size nodes d d')
    {b : Block L NodeId}
    (ih : ∀ st ∈ b.statements, ∀ s k, o.index ≤ s.index → (∀ node ∈ st.nodes, node ∉ nodes) →
      Stmt.Bound d.table d.scopes s k st → Stmt.Bound d'.table d'.scopes s k st)
    {s : ScopeId} {k : Nat} (ho : o.index ≤ s.index) (hdisjoint : ∀ node ∈ b.nodes, node ∉ nodes)
    (hb : Block.Bound d.table d.scopes s k b) : Block.Bound d'.table d'.scopes s k b := by
  cases hb with
  | @mk _ r _ node sts hnode hlt hsize hbinds hsts =>
    -- The scope of the block comes after the open one, so its names are settled.
    have hne : r ≠ o := fun he => by subst he; omega
    refine .mk ((h.recorded node (hdisjoint node List.mem_cons_self)).trans hnode) hlt
      (Nat.lt_of_lt_of_le hsize h.scopes_le)
      (fun name => (h.bindings r hsize hne name).trans (hbinds name)) ?_
    intro k' st hm
    have hst : st ∈ sts := Block.mem_of_mem_numbered hm
    refine ih st hst r k' (Nat.le_of_lt (Nat.lt_of_le_of_lt ho hlt))
      (fun n hn => hdisjoint n (List.mem_cons_of_mem _ ?_)) (hsts k' st hm)
    rw [Block.nodesAll_eq_flatMap]
    exact List.mem_flatMap.mpr ⟨st, hst, hn⟩

/-- Declaring something else, in the scope around or further out, changes none of it. -/
theorem Stmt.Bound.extend (h : Extends o d.table.symbols.size nodes d d') {st : Stmt L NodeId}
    {s : ScopeId} {k : Nat} (ho : o.index ≤ s.index) (hdisjoint : ∀ node ∈ st.nodes, node ∉ nodes)
    (hst : Stmt.Bound d.table d.scopes s k st) : Stmt.Bound d'.table d'.scopes s k st := by
  induction st using Stmt.inductionOn generalizing s k with
  -- The symbol and its binding were there before, so they stay.
  | declare p type name value =>
    cases hst with
    | declare htype hsymbol hlocal =>
      exact .declare htype ((h.symbol _ (Table.lt_size_of_symbol? hsymbol)).trans hsymbol)
        (h.kept _ _ _ hlocal)
  | assign p target value => exact .assign
  | assignAt p target position value => exact .assignAt
  | print p newline value => exact .print
  | call p callee arguments => exact .call
  | ret p node value => exact .ret
  | ifThen p condition yes ih =>
    cases hst with
    | ifThen hyes =>
      exact .ifThen (Block.Bound.extend_block h (fun st hm s k => ih st hm) ho hdisjoint hyes)
  | loop p condition body ih =>
    cases hst with
    | loop hbody =>
      exact .loop (Block.Bound.extend_block h (fun st hm s k => ih st hm) ho hdisjoint hbody)
  -- Each block has nodes of its own, and none of them is among the new ones.
  | ifElse p condition yes no ihy ihn =>
    cases hst with
    | ifElse hyes hno =>
      exact .ifElse
        (Block.Bound.extend_block h (fun st hm s k => ihy st hm) ho
          (fun n hn => hdisjoint n (List.mem_append_left _ hn)) hyes)
        (Block.Bound.extend_block h (fun st hm s k => ihn st hm) ho
          (fun n hn => hdisjoint n (List.mem_append_right _ hn)) hno)

theorem Block.Bound.extend (h : Extends o d.table.symbols.size nodes d d') {b : Block L NodeId}
    {s : ScopeId} {k : Nat} (ho : o.index ≤ s.index) (hdisjoint : ∀ node ∈ b.nodes, node ∉ nodes)
    (hb : Block.Bound d.table d.scopes s k b) : Block.Bound d'.table d'.scopes s k b :=
  Block.Bound.extend_block h (fun _ _ _ _ ho hd hst => hst.extend h ho hd) ho hdisjoint hb

end Extend

/-! ## What is added to the open scope -/

namespace Declarations

/-- `n` symbols are added, and the scope `s` binds the names of a layer in addition. -/
structure Adds (s : ScopeId) (layer : Layer) (n : Nat) (d d' : Declarations L) : Prop where
  symbols : d'.table.symbols.size = d.table.symbols.size + n
  bindings : ∀ name, d'.table.localResolve s name =
    (d.table.localResolve s name).or ((layer.lookup name).map Declared.symbol)
  onlyVariables : d'.table.BindsVariables s

theorem Adds.refl {s : ScopeId} {d : Declarations L} (h : d.table.BindsVariables s) :
    Adds s [] 0 d d :=
  ⟨rfl, fun name => by simp, h⟩

theorem Adds.trans {s : ScopeId} {layer layer' : Layer} {n n' : Nat} {d d' d'' : Declarations L}
    (h : Adds s layer n d d') (h' : Adds s layer' n' d' d'') :
    Adds s (layer ++ layer') (n + n') d d'' where
  symbols := by rw [h'.symbols, h.symbols, Nat.add_assoc]
  bindings name := by
    rw [h'.bindings, h.bindings, List.lookup_append, Option.or_assoc]
    cases layer.lookup name <;> rfl
  onlyVariables := h'.onlyVariables

/-- A block adds symbols and leaves the names of every older scope alone. -/
theorem Adds.of_extends {s r : ScopeId} {nodes : List NodeId} {n : Nat} {d d' : Declarations L}
    (hs : s.index < d.table.scopes.size) (hr : d.table.scopes.size ≤ r.index)
    (hvars : d.table.BindsVariables s) (h : Extends r d.table.symbols.size nodes d d')
    (hn : d'.table.symbols.size = d.table.symbols.size + n) : Adds s [] n d d' := by
  have hne : s ≠ r := fun he => by subst he; omega
  have hsame : ∀ name, d'.table.localResolve s name = d.table.localResolve s name :=
    h.bindings s hs hne
  refine ⟨hn, fun name => by simp [hsame], ?_⟩
  intro name x hx
  rw [hsame] at hx
  obtain ⟨y, τ, hy⟩ := hvars name x hx
  exact ⟨y, τ, (h.symbol x (Table.lt_size_of_symbol? hy)).trans hy⟩

/-- A variable that is declared without a mistake gets the next number. -/
theorem declareVariable_of_clean {d : Declarations L} {s : ScopeId} {type name : Name L}
    (hvars : d.table.BindsVariables s)
    (hclean : (d.declareVariable s type name).findings = []) :
    ∃ τ, Ty.named? type.text = some τ ∧ d.table.localResolve s name.text = none ∧
      d.declareVariable s type name = (d.define s (.var name.text τ)).2 := by
  unfold declareVariable resolveType at hclean ⊢
  cases htype : Ty.named? type.text with
  | none => simp [htype, report] at hclean
  | some τ =>
    simp only [htype] at hclean ⊢
    split_ifs at hclean ⊢ with hvar
    · simp [report] at hclean
    · refine ⟨τ, rfl, ?_, rfl⟩
      cases hlocal : d.table.localResolve s name.text with
      | none => rfl
      | some x =>
        -- What the scope binds is a variable, and that would have been reported.
        obtain ⟨n, σ, hx⟩ := hvars name.text x hlocal
        refine absurd ?_ hvar
        simp [hasVariable, Table.paramLocalResolve, hlocal, Table.function?, hx, Symbol.function?]

/-- What a definition adds to its scope. -/
theorem adds_define {d : Declarations L} {s : ScopeId} {name type : String} {τ : Ty}
    (hs : s.index < d.table.scopes.size) (hvars : d.table.BindsVariables s)
    (hfree : d.table.localResolve s name = none) :
    Adds s [(name, ⟨⟨d.table.symbols.size⟩, type, false⟩)] 1 d
      (d.define s (.var name τ)).2 where
  symbols := by simp [define, Table.symbols_define_of_free (x := .var name τ) hs hfree]
  bindings n := by
    simp only [define, Table.localResolve_define_of_free (x := .var name τ) hs hfree, Symbol.name,
      true_and]
    -- The new name is looked up first, but it was free, so nothing is hidden by it.
    by_cases hn : n = name
    · subst hn
      simp [hfree]
    · have hne : (n == name) = false := beq_eq_false_iff_ne.mpr hn
      simp [hn, List.lookup_cons, hne]
  onlyVariables := by
    intro n x hx
    simp only [define, Table.localResolve_define_of_free (x := .var name τ) hs hfree,
      Table.symbol?_define_of_free (x := .var name τ) hs hfree] at hx ⊢
    split_ifs at hx with hn
    · obtain rfl := Option.some.inj hx
      exact ⟨name, τ, by simp⟩
    · obtain ⟨y, σ, hy⟩ := hvars n x hx
      have hlt := Table.lt_size_of_symbol? hy
      exact ⟨y, σ, by rw [if_neg (Nat.ne_of_lt hlt)]; exact hy⟩

end Declarations

/-! ## The pass binds every name -/

/-- Statements in order, if each of them is bound when it is declared. -/
private theorem Block.bound_all {sts : List (Stmt L NodeId)}
    (ih : ∀ st ∈ sts, ∀ (s : ScopeId) (d : Declarations L), s.index < d.table.scopes.size →
      d.table.BindsVariables s → st.nodes.Nodup → (st.declarations s d).findings = [] →
      Adds s (st.layer d.table.symbols.size) st.variableCount d (st.declarations s d) ∧
        Stmt.Bound (st.declarations s d).table (st.declarations s d).scopes s
          d.table.symbols.size st)
    (s : ScopeId) (d : Declarations L) (hs : s.index < d.table.scopes.size)
    (hvars : d.table.BindsVariables s) (hnodes : (Block.nodesAll sts).Nodup)
    (hclean : (Block.declarationsAll s sts d).findings = []) :
    Adds s (Block.layer d.table.symbols.size sts) (Block.variableCountAll sts) d
        (Block.declarationsAll s sts d) ∧
      ∀ k st, (k, st) ∈ Block.numbered d.table.symbols.size sts →
        Stmt.Bound (Block.declarationsAll s sts d).table (Block.declarationsAll s sts d).scopes s k
          st := by
  induction sts generalizing d with
  | nil => exact ⟨Adds.refl hvars, fun _ _ hm => absurd hm List.not_mem_nil⟩
  | cons first rest ihs =>
    obtain ⟨hfirst, hrest, hdisjoint⟩ := List.nodup_append'.mp hnodes
    let d₁ := first.declarations s d
    -- The first statement is bound when it is declared; what comes later does not change it,
    -- because the nodes are distinct and its names are taken.
    have hstep : Extends s d.table.symbols.size first.nodes d d₁ :=
      first.extends_declarations s d hs (Nat.le_refl _)
    have hs' : s.index < d₁.table.scopes.size := Nat.lt_of_lt_of_le hs hstep.scopes_le
    have hlater : Extends s d₁.table.symbols.size (Block.nodesAll rest) d₁
        (Block.declarationsAll s rest d₁) :=
      Block.extends_declarationsAll rest s d₁ hs' (Nat.le_refl _)
    obtain ⟨hadds, hbound⟩ := ih first List.mem_cons_self s d hs hvars hfirst
      (hlater.findings_eq_nil hclean)
    obtain ⟨hadds', hbound'⟩ := ihs (fun st hm => ih st (List.mem_cons_of_mem _ hm)) d₁ hs'
      hadds.onlyVariables hrest hclean
    have hcount : d₁.table.symbols.size = d.table.symbols.size + first.variableCount :=
      hadds.symbols
    -- The numbers of the rest start behind those of the first statement.
    rw [hcount] at hadds' hbound'
    refine ⟨Block.layer_cons _ first rest ▸ hadds.trans hadds', ?_⟩
    intro k st hm
    rcases List.mem_cons.mp hm with heq | hm
    · obtain ⟨rfl, rfl⟩ := Prod.mk.inj heq
      exact hbound.extend hlater (Nat.le_refl _) (fun n hn => hdisjoint hn)
    · exact hbound' k st hm

private theorem Block.bound_block {b : Block L NodeId}
    (ih : ∀ st ∈ b.statements, ∀ (s : ScopeId) (d : Declarations L),
      s.index < d.table.scopes.size → d.table.BindsVariables s → st.nodes.Nodup →
      (st.declarations s d).findings = [] →
      Adds s (st.layer d.table.symbols.size) st.variableCount d (st.declarations s d) ∧
        Stmt.Bound (st.declarations s d).table (st.declarations s d).scopes s
          d.table.symbols.size st)
    (s : ScopeId) (d : Declarations L) (hs : s.index < d.table.scopes.size)
    (hnodes : b.nodes.Nodup) (hclean : (b.declarations s d).findings = []) :
    (b.declarations s d).table.symbols.size = d.table.symbols.size + b.variableCount ∧
      Block.Bound (b.declarations s d).table (b.declarations s d).scopes s d.table.symbols.size
        b := by
  obtain ⟨node, sts⟩ := b
  obtain ⟨hnode, hsts⟩ := List.nodup_cons.mp hnodes
  -- The block opens the next scope, which binds nothing at first.
  let r : ScopeId := ⟨d.table.scopes.size⟩
  let d₁ := (d.openBlock node s).2
  have hr : r.index < d₁.table.scopes.size := by
    simp [d₁, r, Declarations.openBlock, Table.openBlock]
  have hempty : ∀ name, d₁.table.localResolve r name = none := by
    intro name
    simp [d₁, r, Declarations.openBlock, Table.openBlock, Table.localResolve_eq_none_of_size_le]
  have hvars : d₁.table.BindsVariables r := by
    intro name x hx
    rw [hempty] at hx
    cases hx
  have hrecord : d₁.scopes.get? node = some r := by
    simp [d₁, r, Declarations.openBlock, Table.openBlock, ScopeMap.get?_record]
  have hbody := Block.extends_declarationsAll (k := 0) sts r d₁ hr (Nat.zero_le _)
  obtain ⟨hadds, hbound⟩ := Block.bound_all ih r d₁ hr hvars hsts hclean
  refine ⟨hadds.symbols, .mk ((hbody.recorded node hnode).trans hrecord) hs
    (Nat.lt_of_lt_of_le hr hbody.scopes_le) ?_ hbound⟩
  intro name
  have hbinds := hadds.bindings name
  -- So what it binds in the end is what its statements have added.
  rw [hempty] at hbinds
  exact hbinds

/-- A statement that is declared without a mistake. -/
theorem Stmt.bound_declarations (st : Stmt L NodeId) (s : ScopeId) (d : Declarations L)
    (hs : s.index < d.table.scopes.size) (hvars : d.table.BindsVariables s)
    (hnodes : st.nodes.Nodup) (hclean : (st.declarations s d).findings = []) :
    Adds s (st.layer d.table.symbols.size) st.variableCount d (st.declarations s d) ∧
      Stmt.Bound (st.declarations s d).table (st.declarations s d).scopes s d.table.symbols.size
        st := by
  induction st using Stmt.inductionOn generalizing s d with
  | declare p type name value =>
    obtain ⟨τ, htype, hfree, heq⟩ := declareVariable_of_clean hvars hclean
    simp only [Stmt.declarations, heq]
    refine ⟨adds_define hs hvars hfree, .declare htype ?_ ?_⟩
    · simp [define, Table.symbol?_define_of_free (x := .var name.text τ) hs hfree]
    · simp [define, Table.localResolve_define_of_free (x := .var name.text τ) hs hfree, Symbol.name]
  | assign p target value => exact ⟨Adds.refl hvars, .assign⟩
  | assignAt p target position value => exact ⟨Adds.refl hvars, .assignAt⟩
  | print p newline value => exact ⟨Adds.refl hvars, .print⟩
  | call p callee arguments => exact ⟨Adds.refl hvars, .call⟩
  | ret p node value => exact ⟨⟨rfl, fun name => by simp [Stmt.declarations, record, Stmt.layer],
      hvars⟩, .ret⟩
  -- A block binds names in its own scopes, so here only the count of symbols goes up.
  | ifThen p condition yes ih =>
    obtain ⟨hcount, hbound⟩ := Block.bound_block ih s d hs hnodes hclean
    have hstep := yes.extends_declarations ⟨d.table.scopes.size⟩ s d hs (Nat.le_refl _)
    exact ⟨Adds.of_extends hs (Nat.le_refl _) hvars hstep hcount, .ifThen hbound⟩
  | loop p condition body ih =>
    obtain ⟨hcount, hbound⟩ := Block.bound_block ih s d hs hnodes hclean
    have hstep := body.extends_declarations ⟨d.table.scopes.size⟩ s d hs (Nat.le_refl _)
    exact ⟨Adds.of_extends hs (Nat.le_refl _) hvars hstep hcount, .loop hbound⟩
  | ifElse p condition yes no ihy ihn =>
    obtain ⟨hyes, hno, hdisjoint⟩ := List.nodup_append'.mp hnodes
    -- The second block is declared behind the first, and numbered behind it too.
    let d₁ := yes.declarations s d
    have hstep : Extends ⟨d.table.scopes.size⟩ d.table.symbols.size yes.nodes d d₁ :=
      yes.extends_declarations _ s d hs (Nat.le_refl _)
    have hs' : s.index < d₁.table.scopes.size := Nat.lt_of_lt_of_le hs hstep.scopes_le
    have hlater : Extends ⟨d₁.table.scopes.size⟩ d₁.table.symbols.size no.nodes d₁
        (no.declarations s d₁) :=
      no.extends_declarations _ s d₁ hs' (Nat.le_refl _)
    obtain ⟨hcount, hbound⟩ := Block.bound_block ihy s d hs hyes (hlater.findings_eq_nil hclean)
    obtain ⟨hcount', hbound'⟩ := Block.bound_block ihn s d₁ hs' hno hclean
    have hadds := Adds.of_extends hs (Nat.le_refl _) hvars hstep hcount
    have hadds' := Adds.of_extends hs' (Nat.le_refl _) hadds.onlyVariables hlater hcount'
    refine ⟨hadds.trans hadds', .ifElse (hbound.extend (hlater.reopen (Nat.le_refl _)) (o := s)
      (Nat.le_refl _) fun n hn => hdisjoint hn) ?_⟩
    rw [← hcount]
    exact hbound'

/-- A block that is declared without a mistake. -/
theorem Block.bound_declarations (b : Block L NodeId) (s : ScopeId) (d : Declarations L)
    (hs : s.index < d.table.scopes.size) (hnodes : b.nodes.Nodup)
    (hclean : (b.declarations s d).findings = []) :
    (b.declarations s d).table.symbols.size = d.table.symbols.size + b.variableCount ∧
      Block.Bound (b.declarations s d).table (b.declarations s d).scopes s d.table.symbols.size b :=
  Block.bound_block (fun st _ => st.bound_declarations) s d hs hnodes hclean

end Primer
