import Primer.Proofs.Declaration.Arrangement

/-!
# The shape of the table of a program

The pass declares every program by operations that keep a table in its three layers. Each of them
needs something of the scope that it works in, and this holds where the pass uses it: statements are
declared in scopes of blocks only, and the parameters of a function before any block of it.

So the table of every program, with or without mistakes in it, has the shape that `Table.HasShape`
describes (`Declarations.hasShape_ofProgram`).
-/

namespace Primer

variable {L : Type}

/-! ## The pass -/

open Declarations

variable {items : List (Item L NodeId)}

/-- A variable that may be declared has a free name, and none of a parameter. -/
theorem Table.Arranged.of_hasVariable_eq_false {d : Declarations L}
    (ht : d.table.Arranged items) {s : ScopeId} {name : String} (hs : s ≠ Table.global)
    (h : d.hasVariable s name = false) :
    d.table.localResolve s name = none ∧ ∀ x f, d.table.owner? s = some x →
      d.table.symbol? x = some (.fn f) → ∀ z ∈ f.parameters, name ≠ d.table.nameOf z := by
  -- A name that the scope binds is a variable there, and would have been refused.
  have hfree : d.table.localResolve s name = none := by
    cases hx : d.table.localResolve s name with
    | none => rfl
    | some x =>
      obtain ⟨n, type, hvar⟩ :=
        ht.others s hs x ((ht.consistent.localResolve_eq_some_iff _ _ _).mp hx).1
      simp [Declarations.hasVariable, paramLocalResolve, hx, function?, hvar,
        Symbol.function?] at h
  refine ⟨hfree, ?_⟩
  rintro x f hx hf z hz rfl
  -- So would the name of a parameter, since the scope belongs to the function.
  have hfunction : d.table.functionOf s = some (x, f) := by
    simp [functionOf, hx, function?, hf, Symbol.function?]
  cases hfind : f.parameters.find? (fun w => d.table.nameOf w = d.table.nameOf z) with
  | none => simpa using List.find?_eq_none.mp hfind z hz
  | some w =>
    obtain ⟨n, type, hvar⟩ := ht.parameters x f hf w (List.mem_of_find?_eq_some hfind)
    simp [Declarations.hasVariable, paramLocalResolve, hfree, hfunction, hfind, function?, hvar,
      Symbol.function?] at h

theorem Declarations.arranged_declareVariable {d : Declarations L} (hd : d.table.Arranged items)
    {s : ScopeId} (hs : d.table.IsInner s) (type name : Name L) :
    (d.declareVariable s type name).table.Arranged items := by
  unfold declareVariable resolveType
  cases Ty.named? type.text with
  | none => exact hd
  | some τ =>
    simp only
    split_ifs with hvariable
    · exact hd
    · obtain ⟨hfree, happart⟩ := hd.of_hasVariable_eq_false (hd.ne_global_of_isInner hs)
        (by simpa using hvariable)
      exact hd.define hs.lt_size hfree (.var hs happart)

/-- The scope of a block stays one. -/
theorem Table.IsInner.extend {o s : ScopeId} {k : Nat} {nodes : List NodeId}
    {d d' : Declarations L} (h : Extends o k nodes d d') (hs : d.table.IsInner s) :
    d'.table.IsInner s := by
  obtain ⟨p, hp, hne⟩ := hs
  exact ⟨p, (h.parent s (Table.lt_size_of_parent? hp)).trans hp, hne⟩

private theorem Block.arranged_all {sts : List (Stmt L NodeId)}
    (ih : ∀ st ∈ sts, ∀ (s : ScopeId) (d : Declarations L), d.table.Arranged items →
      d.table.IsInner s → (st.declarations s d).table.Arranged items)
    (s : ScopeId) (d : Declarations L) (hd : d.table.Arranged items) (hs : d.table.IsInner s) :
    (Block.declarationsAll s sts d).table.Arranged items := by
  induction sts generalizing d with
  | nil => exact hd
  | cons st sts ihs =>
    have hextends := st.extends_declarations s d hs.lt_size (Nat.zero_le _)
    exact ihs (fun st hm => ih st (List.mem_cons_of_mem _ hm)) _
      (ih st List.mem_cons_self s d hd hs) (hs.extend hextends)

private theorem Block.arranged_block {b : Block L NodeId}
    (ih : ∀ st ∈ b.statements, ∀ (s : ScopeId) (d : Declarations L), d.table.Arranged items →
      d.table.IsInner s → (st.declarations s d).table.Arranged items)
    (s : ScopeId) (d : Declarations L) (hd : d.table.Arranged items)
    (hs : s.index < d.table.scopes.size) (hne : s ≠ Table.global) :
    (b.declarations s d).table.Arranged items := by
  obtain ⟨node, sts⟩ := b
  have hopen : (d.openBlock node s).2.table.Arranged items :=
    hd.openScope hs (hd.closed.owner s) (fun h => absurd h hne) (fun h => absurd h hne)
      fun _ => rfl
  have hinner : (d.openBlock node s).2.table.IsInner ⟨d.table.scopes.size⟩ := by
    refine ⟨s, ?_, hne⟩
    simp [openBlock, Table.openBlock, Table.parent?_openScope]
  exact Block.arranged_all ih _ _ hopen hinner

theorem Stmt.arranged_declarations (st : Stmt L NodeId) (s : ScopeId) (d : Declarations L)
    (hd : d.table.Arranged items) (hs : d.table.IsInner s) :
    (st.declarations s d).table.Arranged items := by
  induction st using Stmt.inductionOn generalizing s d with
  | declare p type name value => exact arranged_declareVariable hd hs type name
  | assign p target value => exact hd
  | assignAt p target position value => exact hd
  | print p newline value => exact hd
  | call p callee arguments => exact hd
  | ret p node value => exact hd
  | ifThen p condition yes ih =>
    exact Block.arranged_block ih s d hd hs.lt_size (hd.ne_global_of_isInner hs)
  | loop p condition body ih =>
    exact Block.arranged_block ih s d hd hs.lt_size (hd.ne_global_of_isInner hs)
  | ifElse p condition yes no ihy ihn =>
    have hne := hd.ne_global_of_isInner hs
    -- The second block is declared after the first, in a table that has grown.
    have hextends := yes.extends_declarations s s d hs.lt_size (Nat.zero_le _)
    exact Block.arranged_block ihn s _ (Block.arranged_block ihy s d hd hs.lt_size hne)
      (Nat.lt_of_lt_of_le hs.lt_size hextends.scopes_le) hne

theorem Block.arranged_declarations (b : Block L NodeId) (s : ScopeId) (d : Declarations L)
    (hd : d.table.Arranged items) (hs : s.index < d.table.scopes.size) (hne : s ≠ Table.global) :
    (b.declarations s d).table.Arranged items :=
  Block.arranged_block (fun st _ => st.arranged_declarations) s d hd hs hne

namespace Declarations

variable {d : Declarations L}

/-- Declaring parameters in the scope of a function, as long as no other scope belongs to it. -/
theorem arranged_parameters (hd : d.table.Arranged items) {c : ScopeId} {x : SymbolId}
    (hc : d.table.DeclaresFor c x) (ps : List (Name L × Ty)) :
    (d.parameters x c ps).table.Arranged items := by
  induction ps generalizing d with
  | nil => exact hd
  | cons p ps ih =>
    obtain ⟨name, type⟩ := p
    unfold parameters
    rcases Table.define_cases d.table c (.var name.text type) with ⟨hs, hfree⟩ | hnothing
    · have hdefine : d.define c (.var name.text type) =
          (some ⟨d.table.symbols.size⟩, (d.define c (.var name.text type)).2) :=
        Prod.ext (Table.define_fst_of_free hs hfree) rfl
      rw [hdefine]
      have hnext : ((d.define c (.var name.text type)).2.addParameter x
          ⟨d.table.symbols.size⟩).table = d.table.declareParameter c x name.text type := rfl
      apply ih
      · exact hd.declareParameter hc hfree
      · rw [hnext]
        exact ⟨by simpa using hc.parent, by simpa using hc.owner, by simpa using hc.only⟩
    -- A name that is taken leaves the table as it is.
    · have hdefine : d.define c (.var name.text type) = (none, d) := by
        simp [define, hnothing]
      rw [hdefine]
      exact ih (d := d.report name.place (.duplicateParameter name.text)) hd hc

theorem arranged_accept (hd : d.table.Arranged items) {f : Function L NodeId}
    (hf : .function f ∈ items) (body : Block L NodeId) (returns : Ty) (types : List Ty) :
    (d.accept f body returns types).table.Arranged items := by
  let x : Symbol := .fn ⟨f.name.text, returns, []⟩
  unfold accept
  rcases Table.define_cases d.table Table.global x with ⟨hs, hfree⟩ | hnothing
  · have hdefine : d.define Table.global x =
        (some ⟨d.table.symbols.size⟩, (d.define Table.global x).2) :=
      Prod.ext (Table.define_fst_of_free hs hfree) rfl
    rw [hdefine]
    let y : SymbolId := ⟨d.table.symbols.size⟩
    let d₁ := (d.define Table.global x).2
    let scope : ScopeId := ⟨d₁.table.scopes.size⟩
    let d₂ := (d₁.openFor f.mark Table.global (some y)).2
    have hd₁ : d₁.table.Arranged items := hd.define hs hfree (.fn rfl rfl)
    have hy : y.index < d₁.table.symbols.size :=
      Table.lt_size_of_define_fst (congrArg Prod.fst hdefine)
    -- No scope belongs to the function before its own is opened, since its number is new.
    have hnew : ∀ s, d₁.table.owner? s ≠ some y := by
      intro s hs
      exact Nat.lt_irrefl _ (hd.closed.owner s y (by simpa [d₁, define] using hs))
    have hd₂ : d₂.table.Arranged items := by
      refine hd₁.openScope hd₁.consistent.global_lt (fun z hz => Option.some.inj hz ▸ hy)
        (fun _ => ?_) (fun _ c _ => hnew c) (fun h => absurd rfl h)
      exact .function hf rfl ((Table.mem_defined_define hs hfree).mpr (.inr ⟨rfl, rfl⟩))
        ((Table.symbol?_define_of_free hs hfree y).trans (if_pos rfl)) rfl rfl
    -- The new scope belongs to the function, and it is the only one so far.
    have hc : d₂.table.DeclaresFor scope y := by
      refine ⟨?_, ?_, fun s hs => ?_⟩
      · simp [d₂, scope, openFor, Table.parent?_openScope]
      · simp [d₂, scope, openFor, Table.owner?_openScope]
      · simp only [d₂, openFor, Table.owner?_openScope] at hs
        split_ifs at hs with hscope
        · exact ScopeId.ext hscope
        · exact absurd hs (hnew s)
    have hscope := Table.lt_size_of_parent? hc.parent
    let ps := (f.parameters.map (·.name)).zip types
    have hparameters : Steps d₂ (d₂.parameters y scope ps) := steps_parameters hscope hy ps
    exact body.arranged_declarations scope _ (arranged_parameters hd₂ hc ps)
      (Nat.lt_of_lt_of_le hscope hparameters.size_le.1) (hd₂.ne_global_of_parent? hc.parent)
  · have hdefine : d.define Table.global x = (none, d) := by simp [define, hnothing]
    rw [hdefine]
    exact hd

/-- Types that are looked up change nothing in the table. -/
theorem table_resolveType (d : Declarations L) (name : Name L) :
    (d.resolveType name).2.table = d.table := by
  unfold resolveType
  split <;> rfl

theorem table_resolveTypes (d : Declarations L) (names : List (Name L)) :
    (d.resolveTypes names).2.table = d.table := by
  induction names generalizing d with
  | nil => rfl
  | cons name names ih =>
    have hfirst := table_resolveType d name
    unfold resolveTypes
    split
    next d' heq =>
      rw [heq] at hfirst
      exact hfirst
    next type d' heq =>
      rw [heq] at hfirst
      exact (ih d').trans hfirst

theorem arranged_function (hd : d.table.Arranged items) {f : Function L NodeId}
    (hf : .function f ∈ items) : (d.function f).table.Arranged items := by
  unfold function
  cases f.body with
  | none => exact hd
  | some body =>
    simp only
    split_ifs
    · exact hd
    · have htypes : ((d.resolveType f.returns).2.resolveTypes
          (f.parameters.map (·.type))).2.table.Arranged items := by
        rwa [table_resolveTypes, table_resolveType]
      split
      next returns types _ _ => exact arranged_accept htypes hf body returns types
      · exact htypes

/-- The entry point is entered only if the global scope does not bind its name, and then it is the
first one. -/
theorem arranged_entryPoint (hd : d.table.Arranged items) {e : EntryPoint L NodeId}
    (he : .main e ∈ items) : (d.entryPoint e).table.Arranged items := by
  unfold entryPoint
  split_ifs with hmain
  · exact hd
  · let x : Symbol := .fn ⟨"main", .void, []⟩
    have hs := hd.consistent.global_lt
    -- A global name stands for a function, so `main` is free if no function has it.
    have hfree : d.table.localResolve Table.global x.name = none := by
      cases hx : d.table.localResolve Table.global "main" with
      | none => exact hx
      | some y =>
        obtain ⟨g, hg⟩ :=
          hd.functions y ((hd.consistent.localResolve_eq_some_iff _ _ _).mp hx).1
        simp [hasFunction, hx, Table.function?, hg, Symbol.function?] at hmain
    let d₁ := (d.define Table.global x).2
    let d₂ := (d₁.openFor e.mark Table.global none).2
    have hd₁ : d₁.table.Arranged items := hd.define hs hfree (.fn rfl rfl)
    -- A scope without owner belongs to an entry point, and there was none before.
    have hnew : ∀ c, d₁.table.parent? c = some Table.global → d₁.table.owner? c ≠ none := by
      intro c hc hnone
      have hc : d.table.parent? c = some Table.global := by simpa [d₁, define] using hc
      have hnone : d.table.owner? c = none := by simpa [d₁, define] using hnone
      cases hd.items c hc with
      | function _ howner => exact absurd (hnone.symm.trans howner) (by simp)
      | main _ _ hname =>
        have hfree : d.table.localResolve Table.global "main" = none := hfree
        simp [hfree] at hname
    have hbound : (d₁.table.localResolve Table.global "main").isSome := by
      have hresolve := Table.localResolve_define_of_free hs hfree Table.global "main"
      rw [if_pos ⟨rfl, rfl⟩] at hresolve
      exact Option.isSome_of_eq_some hresolve
    have hd₂ : d₂.table.Arranged items :=
      hd₁.openScope hd₁.consistent.global_lt (fun z hz => by cases hz)
        (fun _ => .main he rfl hbound rfl) (fun _ => hnew) (fun h => absurd rfl h)
    have hc : d₂.table.parent? ⟨d₁.table.scopes.size⟩ = some Table.global := by
      simp [d₂, openFor, Table.parent?_openScope]
    exact e.body.arranged_declarations ⟨d₁.table.scopes.size⟩ d₂ hd₂
      (Table.lt_size_of_parent? hc) (hd₂.ne_global_of_parent? hc)

theorem arranged_items (hd : d.table.Arranged items) (is : List (Item L NodeId))
    (his : ∀ i ∈ is, i ∈ items) : (is.foldl item d).table.Arranged items := by
  induction is generalizing d with
  | nil => exact hd
  | cons i is ih =>
    have hi := his i List.mem_cons_self
    have hfirst : (d.item i).table.Arranged items := by
      cases i with
      | function f => exact arranged_function hd hi
      | main e => exact arranged_entryPoint hd hi
    exact ih hfirst fun j hj => his j (List.mem_cons_of_mem _ hj)

theorem arranged_ofProgram (p : Program L) : (ofProgram p).table.Arranged p.items :=
  arranged_items (d := empty.record p.root Table.global) Table.arranged_empty p.items fun _ h => h

end Declarations

/-! ## Every table -/

/-- The shape of the table of a program with the given items. -/
structure Table.HasShape (items : List (Item L NodeId)) (t : Table) : Prop where
  /-- The global scope holds functions, -/
  functions : ∀ x ∈ t.defined global, ∃ f, t.symbol? x = some (.fn f)
  /-- and every other scope holds variables. -/
  others : ∀ s, s ≠ global → ∀ x ∈ t.defined s, ∃ name type, t.symbol? x = some (.var name type)
  /-- So a call reaches a function exactly if the global scope binds its name. -/
  callee : ∀ s name, (t.callee? s name).isSome ↔ (t.localResolve global name).isSome
  /-- A child of the global scope is the scope of a function with its parameters, or that of the
  entry point, which is empty, -/
  items : ∀ c ∈ t.children global, t.ItemScope items (t.owner? c) (t.defined c)
  /-- and no two of them belong to the same item. -/
  single : ∀ c ∈ t.children global, ∀ c' ∈ t.children global, t.owner? c = t.owner? c' → c = c'
  /-- Every scope below that of a function belongs to the function, and every scope below that of
  the entry point belongs to none. -/
  inherits : ∀ c ∈ t.children global, ∀ s, c ∈ t.chain s → t.owner? s = t.owner? c
  /-- No variable below the scope of a function has the name of a parameter. -/
  apart : ∀ c ∈ t.children global, ∀ x f, t.owner? c = some x → t.symbol? x = some (.fn f) →
    ∀ s, c ∈ t.chain s → s ≠ c → ∀ y ∈ t.defined s, ∀ z ∈ f.parameters, t.nameOf y ≠ t.nameOf z
  /-- The types that programs cannot name are those of no symbol. -/
  types : ∀ x y, t.symbol? x = some y → y.type ≠ .error ∧ y.type ≠ .args

/-- The table of every program has its shape, with or without mistakes in the program. -/
theorem Declarations.hasShape_ofProgram (p : Program L) :
    (ofProgram p).table.HasShape p.items := by
  have ht := arranged_ofProgram p
  have hchild : ∀ c ∈ (ofProgram p).table.children Table.global,
      (ofProgram p).table.parent? c = some Table.global :=
    fun c hc => (ht.consistent.mem_children_iff _ c).mp hc
  exact {
    functions := ht.functions
    others := ht.others
    callee := ht.isSome_callee?_iff
    items := fun c hc => ht.items c (hchild c hc)
    single := fun c hc c' hc' => ht.single c c' (hchild c hc) (hchild c' hc')
    inherits := fun c hc s hs => (ht.owner?_of_mem_chain (hchild c hc) hs).1
    apart := by
      intro c hc x f hx hf s hs hne
      obtain ⟨howner, hinner⟩ := ht.owner?_of_mem_chain (hchild c hc) hs
      exact ht.apart s (hinner hne) x f (howner.trans hx) hf
    -- Both sentinels have no name, and symbols get their types by name.
    types := by
      intro x y hy
      have htype := nameable_ofProgram p x y hy
      constructor
      · intro he
        rw [he] at htype
        exact absurd htype (by decide)
      · intro he
        rw [he] at htype
        exact absurd htype (by decide) }

end Primer
