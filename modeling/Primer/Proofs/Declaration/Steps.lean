import Primer.Proofs.Declaration.Extension
import Mathlib.Logic.Relation

/-!
# Declaring in single steps

Declaring a program is a run of single operations: a mistake is reported, the scope of a node is
recorded, a scope is opened, a symbol is defined, a parameter is added. `Declarations.Step` lists
them with what each of them needs: every number that it is given must be that of a scope or of a
symbol that exists already. The pass meets these needs for every program, with or without mistakes
(`Declarations.steps_ofProgram`).

So no stored number ever leads outside the table. `Table.Closed` says this for the numbers in a
table, `Declarations.Closed` for the recorded ones too; a step keeps it, hence a run does.
-/

namespace Primer

variable {L : Type}

/-! ## Closed tables -/

namespace Table

/-- Every number that a table stores is that of one of its scopes or of one of its symbols. -/
structure Closed (t : Table) : Prop where
  global : global.index < t.scopes.size
  parent : ∀ s p, t.parent? s = some p → p.index < t.scopes.size
  child : ∀ s scope, t.scope? s = some scope → ∀ c ∈ scope.children, c.index < t.scopes.size
  owner : ∀ s x, t.owner? s = some x → x.index < t.symbols.size
  symbol : ∀ s scope, t.scope? s = some scope → ∀ x ∈ scope.symbols, x.index < t.symbols.size
  bound : ∀ s name x, t.localResolve s name = some x → x.index < t.symbols.size
  parameter : ∀ x f, t.function? x = some f → ∀ y ∈ f.parameters, y.index < t.symbols.size

theorem closed_empty : Table.empty.Closed where
  global := Nat.zero_lt_one
  parent s p h := by
    rcases s with ⟨_ | n⟩ <;> simp [parent?, scope?, Table.empty] at h
  child s scope h c hc := by
    rcases s with ⟨_ | n⟩ <;> simp [scope?, Table.empty] at h
    simp [← h] at hc
  owner s x h := by
    rcases s with ⟨_ | n⟩ <;> simp [owner?, scope?, Table.empty] at h
  symbol s scope h x hx := by
    rcases s with ⟨_ | n⟩ <;> simp [scope?, Table.empty] at h
    simp [← h] at hx
  bound s name x h := by
    rcases s with ⟨_ | n⟩ <;> simp [localResolve, Scope.lookup, scope?, Table.empty] at h
  parameter x f h := by simp [function?, symbol?, Table.empty] at h

namespace Closed

variable {t : Table}

theorem openScope (ht : t.Closed) {parent : ScopeId} {owner : Option SymbolId}
    (hparent : parent.index < t.scopes.size)
    (howner : ∀ x, owner = some x → x.index < t.symbols.size) :
    (t.openScope parent owner).2.Closed where
  global := by
    rw [size_openScope]
    exact Nat.lt_succ_of_lt ht.global
  parent s p h := by
    rw [parent?_openScope] at h
    rw [size_openScope]
    -- The new scope has the given parent, and the others have theirs.
    split_ifs at h with hs
    · obtain rfl := Option.some.inj h
      exact Nat.lt_succ_of_lt hparent
    · exact Nat.lt_succ_of_lt (ht.parent s p h)
  child s scope h c hc := by
    rw [scope?_openScope] at h
    rw [size_openScope]
    split_ifs at h with hs hs'
    · obtain rfl := Option.some.inj h
      exact absurd hc List.not_mem_nil
    · -- The parent has one child more, and that is the new scope.
      obtain ⟨old, hold, rfl⟩ := Option.map_eq_some_iff.mp h
      rcases List.mem_append.mp hc with hc | hc
      · exact Nat.lt_succ_of_lt (ht.child s old hold c hc)
      · obtain rfl := List.mem_singleton.mp hc
        exact Nat.lt_succ_self _
    · exact Nat.lt_succ_of_lt (ht.child s scope h c hc)
  owner s x h := by
    rw [owner?_openScope] at h
    rw [symbols_openScope]
    split_ifs at h with hs
    · exact howner x h
    · exact ht.owner s x h
  symbol s scope h x hx := by
    rw [scope?_openScope] at h
    rw [symbols_openScope]
    split_ifs at h with hs hs'
    · obtain rfl := Option.some.inj h
      exact absurd hx List.not_mem_nil
    · obtain ⟨old, hold, rfl⟩ := Option.map_eq_some_iff.mp h
      exact ht.symbol s old hold x hx
    · exact ht.symbol s scope h x hx
  bound s name x h := ht.bound s name x (by simpa using h)
  parameter x f h y hy := ht.parameter x f h y hy

theorem define (ht : t.Closed) (s : ScopeId) {x : Symbol}
    (hx : ∀ f, x.function? = some f → f.parameters = []) : (t.define s x).2.Closed := by
  rcases define_cases t s x with ⟨hs, hfree⟩ | hnothing
  · have hsize : (t.define s x).2.symbols.size = t.symbols.size + 1 := by
      rw [symbols_define_of_free hs hfree, Array.size_push]
    refine ⟨?_, ?_, ?_, ?_, ?_, ?_, ?_⟩
    · rw [size_define]
      exact ht.global
    · intro r p h
      rw [parent?_define] at h
      rw [size_define]
      exact ht.parent r p h
    · intro r scope h c hc
      rw [scope?_define_of_free hs hfree] at h
      rw [size_define]
      split_ifs at h with hr
      · obtain ⟨old, hold, rfl⟩ := Option.map_eq_some_iff.mp h
        exact ht.child r old hold c hc
      · exact ht.child r scope h c hc
    · intro r y h
      rw [owner?_define] at h
      rw [hsize]
      exact Nat.lt_succ_of_lt (ht.owner r y h)
    · intro r scope h y hy
      rw [scope?_define_of_free hs hfree] at h
      rw [hsize]
      split_ifs at h with hr
      · -- The scope binds one name more, and its symbol is the new one.
        obtain ⟨old, hold, rfl⟩ := Option.map_eq_some_iff.mp h
        rcases List.mem_append.mp hy with hy | hy
        · exact Nat.lt_succ_of_lt (ht.symbol r old hold y hy)
        · obtain rfl := List.mem_singleton.mp hy
          exact Nat.lt_succ_self _
      · exact Nat.lt_succ_of_lt (ht.symbol r scope h y hy)
    · intro r name y h
      rw [localResolve_define_of_free hs hfree] at h
      rw [hsize]
      split_ifs at h with hr
      · obtain rfl := Option.some.inj h
        exact Nat.lt_succ_self _
      · exact Nat.lt_succ_of_lt (ht.bound r name y h)
    · intro y f h z hz
      unfold function? at h
      rw [symbol?_define_of_free hs hfree] at h
      rw [hsize]
      -- A function is defined without parameters. They are added later.
      split_ifs at h with hy
      · rw [hx f h] at hz
        exact absurd hz List.not_mem_nil
      · exact Nat.lt_succ_of_lt (ht.parameter y f h z hz)
  · rw [hnothing]
    exact ht

theorem addParameter (ht : t.Closed) (f : SymbolId) {y : SymbolId}
    (hy : y.index < t.symbols.size) : (t.addParameter f y).Closed where
  global := ht.global
  parent := ht.parent
  child := ht.child
  owner s x h := by
    rw [size_symbols_addParameter]
    exact ht.owner s x h
  symbol s scope h x hx := by
    rw [size_symbols_addParameter]
    exact ht.symbol s scope h x hx
  bound s name x h := by
    rw [size_symbols_addParameter]
    exact ht.bound s name x h
  parameter x g h z hz := by
    unfold function? at h
    rw [symbol?_addParameter] at h
    rw [size_symbols_addParameter]
    -- One function has a parameter more, which is a symbol of the table by assumption.
    split_ifs at h with hx
    · obtain ⟨symbol, hsymbol, hg⟩ := Option.bind_eq_some_iff.mp h
      obtain ⟨old, hold, rfl⟩ := Option.map_eq_some_iff.mp hsymbol
      cases old with
      | var name type => cases hg
      | fn old =>
        obtain rfl := Option.some.inj hg
        rcases List.mem_append.mp hz with hz | hz
        · exact ht.parameter x old (Option.bind_eq_some_iff.mpr ⟨_, hold, rfl⟩) z hz
        · obtain rfl := List.mem_singleton.mp hz
          exact hy
    · exact ht.parameter x g h z hz

end Closed

/-- A symbol that was defined is in the table. -/
theorem lt_size_of_define_fst {t : Table} {s : ScopeId} {x : Symbol} {y : SymbolId}
    (h : (t.define s x).1 = some y) : y.index < (t.define s x).2.symbols.size := by
  rcases define_cases t s x with ⟨hs, hfree⟩ | hnothing
  · rw [define_fst_of_free hs hfree] at h
    obtain rfl := Option.some.inj h
    rw [symbols_define_of_free hs hfree, Array.size_push]
    exact Nat.lt_succ_self _
  · rw [hnothing] at h
    cases h

end Table

/-! ## Steps -/

namespace Declarations

/-- One operation, on numbers of scopes and symbols that exist. -/
inductive Step (d : Declarations L) : Declarations L → Prop where
  | report (place : L) (error : DeclarationError) : Step d (d.report place error)
  | record (node : NodeId) {s : ScopeId} (hs : s.index < d.table.scopes.size) :
      Step d (d.record node s)
  | openFor (node : NodeId) {parent : ScopeId} {owner : Option SymbolId}
      (hparent : parent.index < d.table.scopes.size)
      (howner : ∀ x, owner = some x → x.index < d.table.symbols.size) :
      Step d (d.openFor node parent owner).2
  /-- A function has no parameters yet when it is defined. -/
  | define {s : ScopeId} {x : Symbol} (hs : s.index < d.table.scopes.size)
      (hx : ∀ f, x.function? = some f → f.parameters = []) : Step d (d.define s x).2
  | addParameter {f x : SymbolId} (hf : f.index < d.table.symbols.size)
      (hx : x.index < d.table.symbols.size) : Step d (d.addParameter f x)

/-- Operations in sequence. -/
abbrev Steps : Declarations L → Declarations L → Prop :=
  Relation.ReflTransGen Step

/-- The table is closed, and only scopes of the table are recorded. -/
structure Closed (d : Declarations L) : Prop where
  table : d.table.Closed
  recorded : ∀ node s, d.scopes.get? node = some s → s.index < d.table.scopes.size

variable {d d' : Declarations L}

/-- Scopes and symbols are never removed. -/
theorem Step.size_le (h : Step d d') :
    d.table.scopes.size ≤ d'.table.scopes.size ∧ d.table.symbols.size ≤ d'.table.symbols.size := by
  cases h with
  | report place error => exact ⟨Nat.le_refl _, Nat.le_refl _⟩
  | record node hs => exact ⟨Nat.le_refl _, Nat.le_refl _⟩
  | openFor node hparent howner => simp [Declarations.openFor]
  | @define s x hs hx =>
    rcases Table.define_cases d.table s x with ⟨hs, hfree⟩ | hnothing
    · simp [Declarations.define, Table.symbols_define_of_free hs hfree]
    · simp [Declarations.define, hnothing]
  | addParameter hf hx => simp [Declarations.addParameter]

theorem Step.closed (h : Step d d') (hd : d.Closed) : d'.Closed := by
  have hsize := h.size_le.1
  cases h with
  | report place error => exact ⟨hd.table, hd.recorded⟩
  | @record node s hs =>
    refine ⟨hd.table, ?_⟩
    intro other r hr
    simp only [Declarations.record, ScopeMap.get?_record] at hr
    split_ifs at hr
    · obtain rfl := Option.some.inj hr
      exact hs
    · exact hd.recorded other r hr
  | @openFor node parent owner hparent howner =>
    refine ⟨hd.table.openScope hparent howner, ?_⟩
    intro other r hr
    simp only [Declarations.openFor, ScopeMap.get?_record, Table.openScope_fst] at hr
    -- What is recorded last is the scope that was just opened.
    split_ifs at hr
    · obtain rfl := Option.some.inj hr
      simp [Declarations.openFor]
    · exact Nat.lt_of_lt_of_le (hd.recorded other r hr) hsize
  | @define s x hs hx =>
    exact ⟨hd.table.define s hx, fun node r hr => Nat.lt_of_lt_of_le (hd.recorded node r hr) hsize⟩
  | @addParameter f x hf hx => exact ⟨hd.table.addParameter f hx, hd.recorded⟩

theorem Steps.size_le (h : Steps d d') :
    d.table.scopes.size ≤ d'.table.scopes.size ∧ d.table.symbols.size ≤ d'.table.symbols.size := by
  induction h with
  | refl => exact ⟨Nat.le_refl _, Nat.le_refl _⟩
  | tail _ hstep ih =>
    exact ⟨Nat.le_trans ih.1 hstep.size_le.1, Nat.le_trans ih.2 hstep.size_le.2⟩

theorem Steps.closed (h : Steps d d') (hd : d.Closed) : d'.Closed := by
  induction h with
  | refl => exact hd
  | tail _ hstep ih => exact hstep.closed ih

/-! ## The pass takes steps -/

section Operations

variable {s : ScopeId}

theorem steps_resolveType (d : Declarations L) (name : Name L) :
    Steps d (d.resolveType name).2 := by
  unfold resolveType
  split
  · exact .refl
  · exact .single (.report _ _)

theorem steps_resolveTypes (d : Declarations L) (names : List (Name L)) :
    Steps d (d.resolveTypes names).2 := by
  induction names generalizing d with
  | nil => exact .refl
  | cons name names ih =>
    have hfirst := steps_resolveType d name
    unfold resolveTypes
    split
    next d' heq =>
      rw [heq] at hfirst
      exact hfirst
    next type d' heq =>
      rw [heq] at hfirst
      exact hfirst.trans (ih d')

theorem steps_declareVariable (hs : s.index < d.table.scopes.size) (type name : Name L) :
    Steps d (d.declareVariable s type name) := by
  unfold declareVariable resolveType
  cases Ty.named? type.text with
  | none => exact .single (.report _ _)
  | some τ =>
    simp only
    split_ifs
    · exact .single (.report _ _)
    · exact .single (.define hs fun f hf => nomatch hf)

theorem steps_parameters {f : SymbolId} (hs : s.index < d.table.scopes.size)
    (hf : f.index < d.table.symbols.size) (ps : List (Name L × Ty)) :
    Steps d (d.parameters f s ps) := by
  induction ps generalizing d with
  | nil => exact .refl
  | cons p ps ih =>
    obtain ⟨name, type⟩ := p
    have hdefine : Step d (d.define s (.var name.text type)).2 :=
      .define hs fun f hf => nomatch hf
    have hdefined := fun x => @Table.lt_size_of_define_fst d.table s (.var name.text type) x
    unfold parameters
    split
    -- A free name makes two steps, and the second needs the number that the first has handed out.
    next x d' heq =>
      obtain ⟨hscopes, hsymbols⟩ := hdefine.size_le
      have hx : x.index < (d.define s (.var name.text type)).2.table.symbols.size :=
        hdefined x (congrArg Prod.fst heq)
      rw [heq] at hdefine hx hscopes hsymbols
      have hadd : Step d' (d'.addParameter f x) := .addParameter (Nat.lt_of_lt_of_le hf hsymbols) hx
      have hrest := @ih (d'.addParameter f x)
        (Nat.lt_of_lt_of_le hs (Nat.le_trans hscopes hadd.size_le.1))
        (Nat.lt_of_lt_of_le hf (Nat.le_trans hsymbols hadd.size_le.2))
      exact .head hdefine (.head hadd hrest)
    -- A name that is taken makes two steps as well, of which the first does nothing.
    next d' heq =>
      rw [heq] at hdefine
      obtain ⟨hscopes, hsymbols⟩ := hdefine.size_le
      have hrest := @ih (d'.report name.place (.duplicateParameter name.text))
        (Nat.lt_of_lt_of_le hs hscopes) (Nat.lt_of_lt_of_le hf hsymbols)
      exact .head hdefine (.head (.report _ _) hrest)

/-- A block belongs to the function of its parent, which is in a closed table. -/
theorem step_openBlock (hd : d.Closed) (node : NodeId) (hs : s.index < d.table.scopes.size) :
    Step d (d.openBlock node s).2 :=
  .openFor node hs (hd.table.owner s)

end Operations

end Declarations

open Declarations

/-- Statements in order, each of which is declared in steps. -/
private theorem Block.steps_all {sts : List (Stmt L NodeId)}
    (ih : ∀ st ∈ sts, ∀ (s : ScopeId) (d : Declarations L), d.Closed →
      s.index < d.table.scopes.size → Steps d (st.declarations s d))
    (s : ScopeId) (d : Declarations L) (hd : d.Closed) (hs : s.index < d.table.scopes.size) :
    Steps d (Block.declarationsAll s sts d) := by
  induction sts generalizing d with
  | nil => exact .refl
  | cons st sts ihs =>
    have hfirst := ih st List.mem_cons_self s d hd hs
    exact hfirst.trans (ihs (fun st hm => ih st (List.mem_cons_of_mem _ hm)) _ (hfirst.closed hd)
      (Nat.lt_of_lt_of_le hs hfirst.size_le.1))

private theorem Block.steps_block {b : Block L NodeId}
    (ih : ∀ st ∈ b.statements, ∀ (s : ScopeId) (d : Declarations L), d.Closed →
      s.index < d.table.scopes.size → Steps d (st.declarations s d))
    (s : ScopeId) (d : Declarations L) (hd : d.Closed) (hs : s.index < d.table.scopes.size) :
    Steps d (b.declarations s d) := by
  obtain ⟨node, sts⟩ := b
  have hopen : Step d (d.openBlock node s).2 := step_openBlock hd node hs
  have hnew : d.table.scopes.size < (d.openBlock node s).2.table.scopes.size := by
    simp [openBlock, Table.openBlock]
  exact .head hopen (Block.steps_all ih ⟨d.table.scopes.size⟩ _ (hopen.closed hd) hnew)

/-- Declaring a statement is a run of steps. -/
theorem Stmt.steps_declarations (st : Stmt L NodeId) (s : ScopeId) (d : Declarations L)
    (hd : d.Closed) (hs : s.index < d.table.scopes.size) : Steps d (st.declarations s d) := by
  induction st using Stmt.inductionOn generalizing s d with
  | declare p type name value => exact steps_declareVariable hs type name
  | assign p target value => exact .refl
  | assignAt p target position value => exact .refl
  | print p newline value => exact .refl
  | call p callee arguments => exact .refl
  | ret p node value => exact .single (.record node hs)
  | ifThen p condition yes ih => exact Block.steps_block ih s d hd hs
  | loop p condition body ih => exact Block.steps_block ih s d hd hs
  | ifElse p condition yes no ihy ihn =>
    have hyes := Block.steps_block ihy s d hd hs
    exact hyes.trans (Block.steps_block ihn s _ (hyes.closed hd)
      (Nat.lt_of_lt_of_le hs hyes.size_le.1))

theorem Block.steps_declarations (b : Block L NodeId) (s : ScopeId) (d : Declarations L)
    (hd : d.Closed) (hs : s.index < d.table.scopes.size) : Steps d (b.declarations s d) :=
  Block.steps_block (fun st _ => st.steps_declarations) s d hd hs

namespace Declarations

variable {d : Declarations L}

theorem steps_accept (hd : d.Closed) (f : Function L NodeId) (body : Block L NodeId)
    (returns : Ty) (types : List Ty) : Steps d (d.accept f body returns types) := by
  have hdefine : Step d (d.define Table.global (.fn ⟨f.name.text, returns, []⟩)).2 :=
    .define hd.table.global fun g hg => by
      obtain rfl := Option.some.inj hg
      rfl
  have hdefined := fun x =>
    @Table.lt_size_of_define_fst d.table Table.global (.fn ⟨f.name.text, returns, []⟩) x
  unfold accept
  split
  next d₁ heq =>
    rw [heq] at hdefine
    exact .single hdefine
  next x d₁ heq =>
    have hx : x.index <
        (d.define Table.global (.fn ⟨f.name.text, returns, []⟩)).2.table.symbols.size :=
      hdefined x (congrArg Prod.fst heq)
    rw [heq] at hdefine hx
    have hd₁ : d₁.Closed := hdefine.closed hd
    -- The scope of the function belongs to the symbol that was just defined.
    let d₂ := (d₁.openFor f.mark Table.global (some x)).2
    let scope : ScopeId := ⟨d₁.table.scopes.size⟩
    have hopen : Step d₁ d₂ := .openFor f.mark hd₁.table.global fun y hy => by
      obtain rfl := Option.some.inj hy
      exact hx
    have hscope : scope.index < d₂.table.scopes.size := by simp [d₂, scope, openFor]
    have hparameters : Steps d₂ (d₂.parameters x scope ((f.parameters.map (·.name)).zip types)) :=
      steps_parameters hscope (Nat.lt_of_lt_of_le hx hopen.size_le.2) _
    have hbody := body.steps_declarations scope _ (hparameters.closed (hopen.closed hd₁))
      (Nat.lt_of_lt_of_le hscope hparameters.size_le.1)
    exact .head hdefine (.head hopen (hparameters.trans hbody))

theorem steps_function (hd : d.Closed) (f : Function L NodeId) : Steps d (d.function f) := by
  unfold function
  cases f.body with
  | none => exact .single (.report _ _)
  | some body =>
    simp only
    split_ifs
    · exact .single (.report _ _)
    · have htypes : Steps d _ := (steps_resolveType d f.returns).trans
        (steps_resolveTypes (d.resolveType f.returns).2 (f.parameters.map (·.type)))
      split
      next returns types _ _ => exact htypes.trans (steps_accept (htypes.closed hd) f body _ _)
      · exact htypes

theorem steps_entryPoint (hd : d.Closed) (e : EntryPoint L NodeId) : Steps d (d.entryPoint e) := by
  unfold entryPoint
  split_ifs
  · exact .single (.report _ _)
  · let d₁ := (d.define Table.global (.fn ⟨"main", .void, []⟩)).2
    let d₂ := (d₁.openFor e.mark Table.global none).2
    have hdefine : Step d d₁ := .define hd.table.global fun g hg => by
      obtain rfl := Option.some.inj hg
      rfl
    have hopen : Step d₁ d₂ :=
      .openFor e.mark (hdefine.closed hd).table.global fun y hy => nomatch hy
    have hscope : d₁.table.scopes.size < d₂.table.scopes.size := by simp [d₂, openFor]
    have hbody := e.body.steps_declarations ⟨d₁.table.scopes.size⟩ d₂
      (hopen.closed (hdefine.closed hd)) hscope
    exact .head hdefine (.head hopen hbody)

theorem steps_item (hd : d.Closed) (i : Item L NodeId) : Steps d (d.item i) := by
  cases i with
  | function f => exact steps_function hd f
  | main e => exact steps_entryPoint hd e

theorem steps_items (hd : d.Closed) (items : List (Item L NodeId)) :
    Steps d (items.foldl item d) := by
  induction items generalizing d with
  | nil => exact .refl
  | cons i items ih =>
    have hfirst := steps_item hd i
    exact hfirst.trans (ih (hfirst.closed hd))

theorem closed_empty : (empty : Declarations L).Closed :=
  ⟨Table.closed_empty, fun _ _ h => nomatch h⟩

/-- Every program is declared in steps, from nothing. -/
theorem steps_ofProgram (p : Program L) : Steps empty (ofProgram p) := by
  have hroot : Step (empty : Declarations L) (empty.record p.root Table.global) :=
    .record p.root closed_empty.table.global
  exact .head hroot (steps_items (hroot.closed closed_empty) p.items)

/-- What is declared never leads outside the table. -/
theorem closed_ofProgram (p : Program L) : (ofProgram p).Closed :=
  (steps_ofProgram p).closed closed_empty

end Declarations

end Primer
