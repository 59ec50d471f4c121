import Primer.Analysis.Declaration
import Primer.Proofs.Scope.Operations
import Primer.Proofs.Tree.Nodes

/-!
# How declarations grow

Declaring a construct adds to what was declared before and takes nothing back. `Extends` says what
stays: everything known of older scopes, except that the open scope can bind more names, the older
symbols, the scopes of all nodes outside the construct, and the findings so far. It holds for every
tree, with or without mistakes in it.

Facts about whole tables come along: numbers fall along parents, symbols have types with a name, and
bound names have symbols.
-/

namespace Primer

variable {L : Type}

/-- Every symbol has a type that programs can name. -/
def Table.Nameable (t : Table) : Prop :=
  ∀ x y, t.symbol? x = some y → y.type ∈ Ty.nameable

/-- Every name that is bound in some scope stands for a symbol of the table. -/
def Table.Populated (t : Table) : Prop :=
  ∀ s name x, t.localResolve s name = some x → x.index < t.symbols.size

theorem Ty.named?_mem {name : String} {type : Ty} (h : Ty.named? name = some type) :
    type ∈ Ty.nameable :=
  List.mem_of_find?_eq_some h

namespace Declarations

/-- What declaring a construct with the given nodes in the scope `o` keeps. Symbols with numbers
below `k` stay as they are. -/
structure Extends (o : ScopeId) (k : Nat) (nodes : List NodeId) (d d' : Declarations L) :
    Prop where
  scopes_le : d.table.scopes.size ≤ d'.table.scopes.size
  symbols_le : d.table.symbols.size ≤ d'.table.symbols.size
  parent : ∀ r : ScopeId, r.index < d.table.scopes.size →
    d'.table.parent? r = d.table.parent? r
  owner : ∀ r : ScopeId, r.index < d.table.scopes.size → d'.table.owner? r = d.table.owner? r
  bindings : ∀ r : ScopeId, r.index < d.table.scopes.size → r ≠ o → ∀ name,
    d'.table.localResolve r name = d.table.localResolve r name
  kept : ∀ r name x, d.table.localResolve r name = some x → d'.table.localResolve r name = some x
  symbol : ∀ x : SymbolId, x.index < k → d'.table.symbol? x = d.table.symbol? x
  recorded : ∀ node, node ∉ nodes → d'.scopes.get? node = d.scopes.get? node
  findings : ∃ new, d'.findings = d.findings ++ new
  descends : d.table.Descends → d'.table.Descends
  nameable : d.table.Nameable → d'.table.Nameable
  populated : d.table.Populated → d'.table.Populated

namespace Extends

variable {o : ScopeId} {k : Nat} {nodes nodes' : List NodeId} {d d' d'' : Declarations L}

theorem refl (o : ScopeId) (k : Nat) (d : Declarations L) : Extends o k [] d d where
  scopes_le := Nat.le_refl _
  symbols_le := Nat.le_refl _
  parent _ _ := rfl
  owner _ _ := rfl
  bindings _ _ _ _ := rfl
  kept _ _ _ h := h
  symbol _ _ := rfl
  recorded _ _ := rfl
  findings := ⟨[], (List.append_nil _).symm⟩
  descends h := h
  nameable h := h
  populated h := h

theorem trans (h : Extends o k nodes d d') (h' : Extends o k nodes' d' d'') :
    Extends o k (nodes ++ nodes') d d'' where
  -- What is old for the first step is old for the second too.
  scopes_le := Nat.le_trans h.scopes_le h'.scopes_le
  symbols_le := Nat.le_trans h.symbols_le h'.symbols_le
  parent r hr := (h'.parent r (Nat.lt_of_lt_of_le hr h.scopes_le)).trans (h.parent r hr)
  owner r hr := (h'.owner r (Nat.lt_of_lt_of_le hr h.scopes_le)).trans (h.owner r hr)
  bindings r hr ho name :=
    (h'.bindings r (Nat.lt_of_lt_of_le hr h.scopes_le) ho name).trans (h.bindings r hr ho name)
  kept r name x hx := h'.kept r name x (h.kept r name x hx)
  symbol x hx := (h'.symbol x hx).trans (h.symbol x hx)
  recorded node hn :=
    (h'.recorded node fun hm => hn (List.mem_append_right _ hm)).trans
      (h.recorded node fun hm => hn (List.mem_append_left _ hm))
  findings := by
    obtain ⟨new, hnew⟩ := h.findings
    obtain ⟨new', hnew'⟩ := h'.findings
    exact ⟨new ++ new', by rw [hnew', hnew, List.append_assoc]⟩
  descends ht := h'.descends (h.descends ht)
  nameable ht := h'.nameable (h.nameable ht)
  populated ht := h'.populated (h.populated ht)

/-- What was declared in a scope that is not yet in the table touches no older scope. -/
theorem reopen {s : ScopeId} (hs : d.table.scopes.size ≤ s.index)
    (h : Extends s k nodes d d') : Extends o k nodes d d' :=
  { h with
    bindings := fun r hr _ name => h.bindings r hr (fun he => by subst he; omega) name }

/-- If nothing is reported afterwards, nothing was before. -/
theorem findings_eq_nil (h : Extends o k nodes d d') (hd : d'.findings = []) :
    d.findings = [] := by
  obtain ⟨new, hnew⟩ := h.findings
  rw [hd] at hnew
  exact (List.append_eq_nil_iff.mp hnew.symm).1

end Extends

/-! ## Single operations -/

section Operations

variable (o s : ScopeId) (k : Nat) (d : Declarations L)

theorem extends_report (place : L) (error : DeclarationError) :
    Extends o k [] d (d.report place error) :=
  { Extends.refl o k d with findings := ⟨[⟨place, error⟩], rfl⟩ }

theorem extends_record (node : NodeId) : Extends o k [node] d (d.record node s) :=
  { Extends.refl o k d with
    recorded := fun n hn => by
      have hne : n ≠ node := fun he => hn (he ▸ List.mem_singleton_self _)
      simp [record, ScopeMap.get?_record, hne] }

theorem extends_openFor (node : NodeId) (parent : ScopeId) (owner : Option SymbolId)
    (hp : parent.index < d.table.scopes.size) :
    Extends o k [node] d (d.openFor node parent owner).2 where
  scopes_le := by simp [openFor]
  symbols_le := Nat.le_refl _
  parent r hr := by
    simp [openFor, Table.parent?_openScope, Nat.ne_of_lt hr]
  owner r hr := by
    simp [openFor, Table.owner?_openScope, Nat.ne_of_lt hr]
  bindings r hr _ name := by
    simp [openFor]
  kept r name x hx := by
    simpa [openFor] using hx
  symbol x _ := rfl
  recorded n hn := by
    have hne : n ≠ node := fun he => hn (he ▸ List.mem_singleton_self _)
    simp [openFor, ScopeMap.get?_record, hne]
  findings := ⟨[], (List.append_nil _).symm⟩
  descends ht := by
    intro r p hrp
    simp only [openFor, Table.parent?_openScope] at hrp
    -- The new scope is the last one, so its parent came before.
    split_ifs at hrp with hr
    · obtain rfl := Option.some.inj hrp
      omega
    · exact ht r p hrp
  nameable ht := ht
  populated ht r name x hx := ht r name x (by simpa [openFor] using hx)

theorem extends_openBlock (node : NodeId) (parent : ScopeId)
    (hp : parent.index < d.table.scopes.size) :
    Extends o k [node] d (d.openBlock node parent).2 :=
  extends_openFor o k d node parent (d.table.owner? parent) hp

theorem extends_define (x : Symbol) (hk : k ≤ d.table.symbols.size)
    (hx : x.type ∈ Ty.nameable) : Extends s k [] d (d.define s x).2 := by
  -- A definition that is refused leaves the table as it is.
  rcases Table.define_cases d.table s x with ⟨hs, hfree⟩ | h
  · refine
      { scopes_le := by simp [define]
        symbols_le := by simp [define, Table.symbols_define_of_free hs hfree]
        parent := fun r _ => by simp [define]
        owner := fun r _ => by simp [define]
        bindings := ?_
        kept := ?_
        symbol := ?_
        recorded := fun _ _ => rfl
        findings := ⟨[], (List.append_nil _).symm⟩
        descends := ?_
        nameable := ?_
        populated := ?_ }
    · intro r _ hr name
      have hne : ¬(s = r ∧ name = x.name) := fun he => hr he.1.symm
      simp [define, Table.localResolve_define_of_free hs hfree, hne]
    · intro r name y hy
      -- The new name was free in its scope, so it takes the place of no other.
      have hne : ¬(s = r ∧ name = x.name) := by
        rintro ⟨rfl, rfl⟩
        rw [hfree] at hy
        cases hy
      simpa [define, Table.localResolve_define_of_free hs hfree, hne] using hy
    · intro y hy
      have hne : y.index ≠ d.table.symbols.size := by omega
      simp [define, Table.symbol?_define_of_free hs hfree, hne]
    · intro ht r p hrp
      simp only [define, Table.parent?_define] at hrp
      exact ht r p hrp
    · intro ht y z hyz
      simp only [define, Table.symbol?_define_of_free hs hfree] at hyz
      split_ifs at hyz with hy
      · obtain rfl := Option.some.inj hyz
        exact hx
      · exact ht y z hyz
    · intro ht r name y hy
      simp only [define, Table.localResolve_define_of_free hs hfree,
        Table.symbols_define_of_free hs hfree, Array.size_push] at hy ⊢
      split_ifs at hy with hname
      · obtain rfl := Option.some.inj hy
        exact Nat.lt_succ_self _
      · exact Nat.lt_succ_of_lt (ht r name y hy)
  · simpa [define, h] using Extends.refl s k d

theorem extends_addParameter (f x : SymbolId) (hk : k ≤ f.index) :
    Extends o k [] d (d.addParameter f x) :=
  { Extends.refl o k d with
    symbols_le := by simp [addParameter]
    symbol := fun y hy => by
      -- Only the symbol of the function changes, and that has a number from `k` on.
      have hne : f.index ≠ y.index := by omega
      simp [addParameter, Table.symbol?_addParameter, hne]
    nameable := fun ht y z hyz => by
      simp only [addParameter, Table.symbol?_addParameter] at hyz
      split_ifs at hyz with hy
      · obtain ⟨w, hw, rfl⟩ := Option.map_eq_some_iff.mp hyz
        have hw := ht y w hw
        -- A symbol keeps its type when it gets another parameter.
        cases w <;> exact hw
      · exact ht y z hyz
    populated := fun ht r name y hy => by simpa [addParameter] using ht r name y hy }

theorem extends_resolveType (name : Name L) : Extends o k [] d (d.resolveType name).2 := by
  unfold resolveType
  split
  · exact Extends.refl o k d
  · exact extends_report o k d _ _

theorem extends_resolveTypes (names : List (Name L)) :
    Extends o k [] d (d.resolveTypes names).2 := by
  induction names generalizing d with
  | nil => exact Extends.refl o k d
  | cons name names ih =>
    have hfirst := extends_resolveType o k d name
    unfold resolveTypes
    split
    next d' heq =>
      rw [heq] at hfirst
      exact hfirst
    next type d' heq =>
      rw [heq] at hfirst
      exact hfirst.trans (ih d')

theorem extends_declareVariable (type name : Name L) (hk : k ≤ d.table.symbols.size) :
    Extends s k [] d (d.declareVariable s type name) := by
  unfold declareVariable resolveType
  cases htype : Ty.named? type.text with
  | none => exact extends_report s k d _ _
  | some τ =>
    simp only
    split_ifs
    · exact extends_report s k d _ _
    · exact extends_define s k d _ hk (Ty.named?_mem htype)

theorem extends_parameters (f : SymbolId) (hf : k ≤ f.index) (ps : List (Name L × Ty))
    (hk : k ≤ d.table.symbols.size) (hps : ∀ p ∈ ps, p.2 ∈ Ty.nameable) :
    Extends s k [] d (d.parameters f s ps) := by
  induction ps generalizing d with
  | nil => exact Extends.refl s k d
  | cons p ps ih =>
    obtain ⟨name, type⟩ := p
    have htype : type ∈ Ty.nameable := hps (name, type) List.mem_cons_self
    have hps' : ∀ p ∈ ps, p.2 ∈ Ty.nameable := fun p hp => hps p (List.mem_cons_of_mem _ hp)
    have hfirst := extends_define s k d (.var name.text type) hk htype
    unfold parameters
    -- Either way something is added: a parameter, or a mistake.
    split
    next x d' heq =>
      rw [heq] at hfirst
      have hadd := extends_addParameter s k d' f x hf
      have hk' : k ≤ (d'.addParameter f x).table.symbols.size :=
        Nat.le_trans hk (Nat.le_trans hfirst.symbols_le hadd.symbols_le)
      exact (hfirst.trans hadd).trans (ih _ hk' hps')
    next d' heq =>
      rw [heq] at hfirst
      have hreport := extends_report s k d' name.place (.duplicateParameter name.text)
      have hk' : k ≤ (d'.report name.place (.duplicateParameter name.text)).table.symbols.size :=
        Nat.le_trans hk (Nat.le_trans hfirst.symbols_le hreport.symbols_le)
      exact (hfirst.trans hreport).trans (ih _ hk' hps')

end Operations

end Declarations

/-! ## Statements and blocks -/

section Trees

open Declarations

variable {k : Nat}

/-- Statements that extend what was declared, one after the other. -/
private theorem Block.extends_all {sts : List (Stmt L NodeId)}
    (ih : ∀ st ∈ sts, ∀ (s : ScopeId) (d : Declarations L), s.index < d.table.scopes.size →
      k ≤ d.table.symbols.size → Extends s k st.nodes d (st.declarations s d))
    (s : ScopeId) (d : Declarations L) (hs : s.index < d.table.scopes.size)
    (hk : k ≤ d.table.symbols.size) :
    Extends s k (Block.nodesAll sts) d (Block.declarationsAll s sts d) := by
  induction sts generalizing d with
  | nil => exact Extends.refl s k d
  | cons st sts ihs =>
    have hfirst := ih st List.mem_cons_self s d hs hk
    exact hfirst.trans (ihs (fun st hm => ih st (List.mem_cons_of_mem _ hm)) _
      (Nat.lt_of_lt_of_le hs hfirst.scopes_le) (Nat.le_trans hk hfirst.symbols_le))

/-- A block whose statements extend what was declared. Its own scope is new. -/
private theorem Block.extends_block {b : Block L NodeId}
    (ih : ∀ st ∈ b.statements, ∀ (s : ScopeId) (d : Declarations L),
      s.index < d.table.scopes.size → k ≤ d.table.symbols.size →
      Extends s k st.nodes d (st.declarations s d))
    (o s : ScopeId) (d : Declarations L) (hs : s.index < d.table.scopes.size)
    (hk : k ≤ d.table.symbols.size) : Extends o k b.nodes d (b.declarations s d) := by
  obtain ⟨node, sts⟩ := b
  have hopen := extends_openBlock ⟨d.table.scopes.size⟩ k d node s hs
  have hnew : d.table.scopes.size < (d.openBlock node s).2.table.scopes.size := by
    simp [openBlock, Table.openBlock]
  -- The open scope of the statements is the one that the block has just opened.
  exact (hopen.trans (Block.extends_all ih ⟨d.table.scopes.size⟩ _ hnew hk)).reopen (Nat.le_refl _)

theorem Stmt.extends_declarations (st : Stmt L NodeId) (s : ScopeId) (d : Declarations L)
    (hs : s.index < d.table.scopes.size) (hk : k ≤ d.table.symbols.size) :
    Extends s k st.nodes d (st.declarations s d) := by
  induction st using Stmt.inductionOn generalizing s d with
  | declare p type name value => exact extends_declareVariable s k d type name hk
  | assign p target value => exact Extends.refl s k d
  | assignAt p target position value => exact Extends.refl s k d
  | print p newline value => exact Extends.refl s k d
  | call p callee arguments => exact Extends.refl s k d
  | ret p node value => exact extends_record s s k d node
  | ifThen p condition yes ih => exact Block.extends_block ih s s d hs hk
  | loop p condition body ih => exact Block.extends_block ih s s d hs hk
  | ifElse p condition yes no ihy ihn =>
    have hyes := Block.extends_block ihy s s d hs hk
    exact hyes.trans (Block.extends_block ihn s s _ (Nat.lt_of_lt_of_le hs hyes.scopes_le)
      (Nat.le_trans hk hyes.symbols_le))

theorem Block.extends_declarationsAll (sts : List (Stmt L NodeId)) (s : ScopeId)
    (d : Declarations L) (hs : s.index < d.table.scopes.size) (hk : k ≤ d.table.symbols.size) :
    Extends s k (Block.nodesAll sts) d (Block.declarationsAll s sts d) :=
  Block.extends_all (fun st _ => st.extends_declarations) s d hs hk

theorem Block.extends_declarations (b : Block L NodeId) (o s : ScopeId) (d : Declarations L)
    (hs : s.index < d.table.scopes.size) (hk : k ≤ d.table.symbols.size) :
    Extends o k b.nodes d (b.declarations s d) :=
  Block.extends_block (fun st _ => st.extends_declarations) o s d hs hk

end Trees

/-! ## Items and programs -/

namespace Declarations

variable {k : Nat}

theorem resolveType_nameable {d : Declarations L} {name : Name L} {type : Ty}
    (h : (d.resolveType name).1 = some type) : type ∈ Ty.nameable := by
  unfold resolveType at h
  split at h
  next τ hτ =>
    obtain rfl := Option.some.inj h
    exact Ty.named?_mem hτ
  · cases h

theorem resolveTypes_nameable {d d' : Declarations L} {names : List (Name L)} {types : List Ty}
    (h : d.resolveTypes names = (some types, d')) : ∀ type ∈ types, type ∈ Ty.nameable := by
  induction names generalizing d types d' with
  | nil =>
    simp only [resolveTypes, Prod.mk.injEq, Option.some.injEq] at h
    obtain ⟨rfl, -⟩ := h
    exact fun _ hm => absurd hm List.not_mem_nil
  | cons name names ih =>
    unfold resolveTypes resolveType at h
    -- The first name without a type ends the search, so all names before have types.
    cases htype : Ty.named? name.text with
    | none => simp [htype] at h
    | some τ =>
      simp only [htype, Prod.mk.injEq, Option.map_eq_some_iff] at h
      obtain ⟨⟨rest, hrest, rfl⟩, -⟩ := h
      intro type hm
      rcases List.mem_cons.mp hm with rfl | hm
      · exact Ty.named?_mem htype
      · exact ih (Prod.ext hrest rfl) type hm

theorem extends_accept (d : Declarations L) (f : Function L NodeId) (body : Block L NodeId)
    (returns : Ty) (types : List Ty) (hd : 0 < d.table.scopes.size)
    (hk : k ≤ d.table.symbols.size) (hreturns : returns ∈ Ty.nameable)
    (htypes : ∀ type ∈ types, type ∈ Ty.nameable) :
    Extends Table.global k (f.mark :: body.nodes) d (d.accept f body returns types) := by
  have hdefine := extends_define Table.global k d (.fn ⟨f.name.text, returns, []⟩) hk hreturns
  unfold accept
  split
  next d₁ heq =>
    rw [heq] at hdefine
    exact { hdefine with recorded := fun node hn => hdefine.recorded node List.not_mem_nil }
  next x d₁ heq =>
    -- The symbol of the function is the next one, so adding parameters changes no older symbol.
    have hx : k ≤ x.index := by
      rcases Table.define_cases d.table Table.global (.fn ⟨f.name.text, returns, []⟩) with h | h
      · have := Table.define_fst_of_free h.1 h.2
        have hfst : (d.define Table.global (.fn ⟨f.name.text, returns, []⟩)).1 = some x := by
          rw [heq]
        rw [define, this] at hfst
        obtain rfl := Option.some.inj hfst
        exact hk
      · simp [define, h] at heq
    rw [heq] at hdefine
    have hd₁ : 0 < d₁.table.scopes.size := Nat.lt_of_lt_of_le hd hdefine.scopes_le
    have hk₁ : k ≤ d₁.table.symbols.size := Nat.le_trans hk hdefine.symbols_le
    -- From here on everything happens in the new scope of the function or below it.
    let scope : ScopeId := ⟨d₁.table.scopes.size⟩
    have hopen := extends_openFor scope k d₁ f.mark Table.global (some x) hd₁
    have hparameters := extends_parameters scope k (d₁.openFor f.mark Table.global (some x)).2 x hx
      ((f.parameters.map (·.name)).zip types) hk₁
      (fun p hp => htypes p.2 (List.of_mem_zip hp).2)
    have hscope : scope.index < (d₁.openFor f.mark Table.global (some x)).2.table.scopes.size := by
      simp [openFor, scope]
    have hbody := body.extends_declarations scope scope _
      (Nat.lt_of_lt_of_le hscope hparameters.scopes_le)
      (Nat.le_trans hk₁ hparameters.symbols_le)
    exact hdefine.trans (((hopen.trans hparameters).trans hbody).reopen (Nat.le_refl _))

theorem extends_function (d : Declarations L) (f : Function L NodeId)
    (hd : 0 < d.table.scopes.size) (hk : k ≤ d.table.symbols.size) :
    Extends Table.global k (Item.function f).nodes d (d.function f) := by
  unfold function
  cases hbody : f.body with
  | none =>
    have hreport := extends_report Table.global k d f.name.place (.missingBody f.name.text)
    exact { hreport with recorded := fun node hn => hreport.recorded node List.not_mem_nil }
  | some body =>
    have hnodes : (Item.function f).nodes = f.mark :: body.nodes := by simp [Item.nodes, hbody]
    rw [hnodes]
    simp only
    split_ifs with hname
    · have hreport := extends_report Table.global k d f.name.place (.duplicateFunction f.name.text)
      exact { hreport with recorded := fun node hn => hreport.recorded node List.not_mem_nil }
    · have hreturns := extends_resolveType Table.global k d f.returns
      have htypes := extends_resolveTypes Table.global k (d.resolveType f.returns).2
        (f.parameters.map (·.type))
      have hboth := hreturns.trans htypes
      -- If a type is unknown the function is left out, and nothing is recorded for its nodes.
      have hmarks : Extends Table.global k (f.mark :: body.nodes) d
          ((d.resolveType f.returns).2.resolveTypes (f.parameters.map (·.type))).2 :=
        { hboth with recorded := fun node _ => hboth.recorded node List.not_mem_nil }
      split
      next returns types hr ht =>
        exact hboth.trans (extends_accept _ f body returns types
          (Nat.lt_of_lt_of_le hd hboth.scopes_le) (Nat.le_trans hk hboth.symbols_le)
          (resolveType_nameable hr) (resolveTypes_nameable (Prod.ext ht rfl)))
      · exact hmarks

theorem extends_entryPoint (d : Declarations L) (e : EntryPoint L NodeId)
    (hd : 0 < d.table.scopes.size) (hk : k ≤ d.table.symbols.size) :
    Extends Table.global k (Item.main e).nodes d (d.entryPoint e) := by
  unfold entryPoint
  split_ifs
  · have hreport := extends_report Table.global k d e.place .duplicateMain
    exact { hreport with recorded := fun node hn => hreport.recorded node List.not_mem_nil }
  · have hdefine := extends_define Table.global k d (.fn ⟨"main", .void, []⟩) hk (by decide)
    -- The name is bound globally, and everything else happens in the scope that is opened here.
    let d₁ := (d.define Table.global (.fn ⟨"main", .void, []⟩)).2
    let scope : ScopeId := ⟨d₁.table.scopes.size⟩
    have hd₁ : 0 < d₁.table.scopes.size := Nat.lt_of_lt_of_le hd hdefine.scopes_le
    have hopen := extends_openFor scope k d₁ e.mark Table.global none hd₁
    have hscope : scope.index < (d₁.openFor e.mark Table.global none).2.table.scopes.size := by
      simp [openFor, scope]
    have hbody := e.body.extends_declarations scope scope _ hscope
      (Nat.le_trans hk hdefine.symbols_le)
    exact hdefine.trans ((hopen.trans hbody).reopen (Nat.le_refl _))

/-- Declaring an item adds to what was declared before. -/
theorem extends_item (d : Declarations L) (i : Item L NodeId) (hd : 0 < d.table.scopes.size)
    (hk : k ≤ d.table.symbols.size) : Extends Table.global k i.nodes d (d.item i) := by
  cases i with
  | function f => exact extends_function d f hd hk
  | main e => exact extends_entryPoint d e hd hk

theorem extends_items (d : Declarations L) (items : List (Item L NodeId))
    (hd : 0 < d.table.scopes.size) (hk : k ≤ d.table.symbols.size) :
    Extends Table.global k (items.flatMap Item.nodes) d (items.foldl item d) := by
  induction items generalizing d with
  | nil => exact Extends.refl _ k d
  | cons i items ih =>
    have hfirst := extends_item d i hd hk
    simp only [List.flatMap_cons, List.foldl_cons]
    exact hfirst.trans (ih _ (Nat.lt_of_lt_of_le hd hfirst.scopes_le)
      (Nat.le_trans hk hfirst.symbols_le))

end Declarations

theorem Table.descends_empty : Table.empty.Descends := by
  intro s p h
  unfold Table.parent? Table.scope? Table.empty at h
  rcases s with ⟨_ | n⟩ <;> simp at h

theorem Table.nameable_empty : Table.empty.Nameable := by
  intro x y h
  simp [Table.symbol?, Table.empty] at h

theorem Table.populated_empty : Table.empty.Populated := by
  intro s name x h
  unfold Table.localResolve Table.scope? Table.empty at h
  rcases s with ⟨_ | n⟩ <;> simp [Scope.lookup] at h

/-- Numbers fall along parents in the table of a program. -/
theorem Declarations.descends_ofProgram (p : Program L) :
    (Declarations.ofProgram p).table.Descends :=
  (extends_items (k := 0) _ p.items (by simp [record, empty, Table.empty])
    (Nat.zero_le _)).descends Table.descends_empty

/-- Symbols of a program have types with a name. -/
theorem Declarations.nameable_ofProgram (p : Program L) :
    (Declarations.ofProgram p).table.Nameable :=
  (extends_items (k := 0) _ p.items (by simp [record, empty, Table.empty])
    (Nat.zero_le _)).nameable Table.nameable_empty

/-- Names that a program binds stand for symbols. -/
theorem Declarations.populated_ofProgram (p : Program L) :
    (Declarations.ofProgram p).table.Populated :=
  (extends_items (k := 0) _ p.items (by simp [record, empty, Table.empty])
    (Nat.zero_le _)).populated Table.populated_empty

end Primer
