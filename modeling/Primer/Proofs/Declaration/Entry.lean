import Primer.Proofs.Declaration.Binding

/-!
# Items in the table

What the table and the scope map of a program without mistaken declarations hold for each of its
items: the symbol of a function with its parameters, the scope that binds them, and below it the
scopes of the body. `Program.entered_item` gives this for every item, and
`Program.localResolve_global` says what the global scope binds.
-/

namespace Primer

variable {L : Type}

/-! ## Items that were entered -/

/-- The symbols of `n` parameters, of which the first has the number `k`. -/
def SymbolId.block (k n : Nat) : List SymbolId :=
  (List.range' k n).map SymbolId.mk

/-- A function whose symbol has the number `k`, with the scope of its parameters. -/
structure Function.Entered (t : Table) (m : ScopeMap) (k : Nat) (f : Function L NodeId)
    (body : Block L NodeId) (s : ScopeId) (returns : Ty) (types : List Ty) : Prop where
  body_eq : f.body = some body
  mark : m.get? f.mark = some s
  parent : t.parent? s = some Table.global
  owner : t.owner? s = some ⟨k⟩
  returns_named : Ty.named? f.returns.text = some returns
  types_named : f.parameters.map (fun p => Ty.named? p.type.text) = types.map some
  symbol : t.symbol? ⟨k⟩ =
    some (.fn ⟨f.name.text, returns, SymbolId.block (k + 1) f.parameters.length⟩)
  parameter : ∀ (j : Nat) (p : Parameter L) (τ : Ty), f.parameters[j]? = some p →
    types[j]? = some τ → t.symbol? ⟨k + 1 + j⟩ = some (.var p.name.text τ)
  bindings : ∀ name, t.localResolve s name =
    ((Parameter.layer (k + 1) f.parameters).lookup name).map Declared.symbol
  placed : Block.Placed t m (some ⟨k⟩) s body
  bound : Block.Bound t m s (k + 1 + f.parameters.length) body

/-- An entry point whose symbol has the number `k`. Its scope binds nothing. -/
structure EntryPoint.Entered (t : Table) (m : ScopeMap) (k : Nat) (e : EntryPoint L NodeId)
    (s : ScopeId) : Prop where
  mark : m.get? e.mark = some s
  parent : t.parent? s = some Table.global
  owner : t.owner? s = none
  symbol : t.symbol? ⟨k⟩ = some (.fn ⟨"main", .void, []⟩)
  bindings : ∀ name, t.localResolve s name = none
  placed : Block.Placed t m none s e.body
  bound : Block.Bound t m s (k + 1) e.body

/-- An item whose symbol has the number `k`. -/
def Item.Entered (t : Table) (m : ScopeMap) (k : Nat) : Item L NodeId → Prop
  | .function f => ∃ body s returns types, f.Entered t m k body s returns types
  | .main e => ∃ s, e.Entered t m k s

open Declarations

/-- Declaring other items changes nothing of one that was entered. -/
theorem Item.Entered.extend {nodes : List NodeId} {d d' : Declarations L}
    (h : Extends Table.global d.table.symbols.size nodes d d') (ht : d.table.Descends) {k : Nat}
    {i : Item L NodeId} (hdisjoint : ∀ node ∈ i.nodes, node ∉ nodes)
    (hi : i.Entered d.table d.scopes k) : i.Entered d'.table d'.scopes k := by
  cases i with
  | function f =>
    obtain ⟨body, s, returns, types, hf⟩ := hi
    have hnodes : (Item.function f).nodes = f.mark :: body.nodes := by
      simp [Item.nodes, hf.body_eq]
    rw [hnodes] at hdisjoint
    have hs : s.index < d.table.scopes.size := Table.lt_size_of_parent? hf.parent
    -- Later items bind names in the global scope only, and the scope of the function is another.
    have hpos : Table.global.index < s.index := ht s _ hf.parent
    have hne : s ≠ Table.global := fun he => by subst he; omega
    have hbody : ∀ node ∈ body.nodes, node ∉ nodes :=
      fun n hn => hdisjoint n (List.mem_cons_of_mem _ hn)
    refine ⟨body, s, returns, types, ?_⟩
    exact
      { body_eq := hf.body_eq
        mark := (h.recorded _ (hdisjoint _ List.mem_cons_self)).trans hf.mark
        parent := (h.parent s hs).trans hf.parent
        owner := (h.owner s hs).trans hf.owner
        returns_named := hf.returns_named
        types_named := hf.types_named
        symbol := (h.symbol _ (Table.lt_size_of_symbol? hf.symbol)).trans hf.symbol
        parameter := fun j p τ hp hτ =>
          have hsymbol := hf.parameter j p τ hp hτ
          (h.symbol _ (Table.lt_size_of_symbol? hsymbol)).trans hsymbol
        bindings := fun name => (h.bindings s hs hne name).trans (hf.bindings name)
        placed := hf.placed.extend h hbody
        bound := hf.bound.extend h (Nat.zero_le _) hbody }
  | main e =>
    obtain ⟨s, he⟩ := hi
    have hs : s.index < d.table.scopes.size := Table.lt_size_of_parent? he.parent
    -- The scope of the entry point is not the global one either.
    have hpos : Table.global.index < s.index := ht s _ he.parent
    have hne : s ≠ Table.global := fun he => by subst he; omega
    have hbody : ∀ node ∈ e.body.nodes, node ∉ nodes :=
      fun n hn => hdisjoint n (List.mem_cons_of_mem _ hn)
    refine ⟨s, ?_⟩
    exact
      { mark := (h.recorded _ (hdisjoint _ List.mem_cons_self)).trans he.mark
        parent := (h.parent s hs).trans he.parent
        owner := (h.owner s hs).trans he.owner
        symbol := (h.symbol _ (Table.lt_size_of_symbol? he.symbol)).trans he.symbol
        bindings := fun name => (h.bindings s hs hne name).trans (he.bindings name)
        placed := he.placed.extend h hbody
        bound := he.bound.extend h (Nat.zero_le _) hbody }

/-! ## Headers without mistakes -/

namespace Declarations

theorem resolveType_of_clean {d : Declarations L} {name : Name L}
    (hclean : (d.resolveType name).2.findings = []) :
    ∃ τ, Ty.named? name.text = some τ ∧ d.resolveType name = (some τ, d) := by
  unfold resolveType at hclean ⊢
  cases htype : Ty.named? name.text with
  | none => simp [htype, report] at hclean
  | some τ => exact ⟨τ, rfl, rfl⟩

theorem resolveTypes_of_clean {d : Declarations L} {names : List (Name L)}
    (hclean : (d.resolveTypes names).2.findings = []) :
    ∃ types, names.map (fun name => Ty.named? name.text) = types.map some ∧
      d.resolveTypes names = (some types, d) := by
  induction names with
  | nil => exact ⟨[], rfl, rfl⟩
  | cons name names ih =>
    unfold resolveTypes at hclean ⊢
    -- A report about the first name would still be there after the others.
    have hfirst : (d.resolveType name).2.findings = [] := by
      cases hr : d.resolveType name with
      | mk type d' =>
        cases type with
        | none => simpa [hr] using hclean
        | some τ =>
          simp only [hr] at hclean
          exact (extends_resolveTypes Table.global 0 d' names).findings_eq_nil hclean
    obtain ⟨τ, hτ, hr⟩ := resolveType_of_clean hfirst
    simp only [hr] at hclean ⊢
    obtain ⟨types, htypes, hrest⟩ := ih hclean
    exact ⟨τ :: types, by simp [hτ, htypes], by simp [hrest]⟩

/-- The parameters of a function whose symbol is `x`, if none is declared twice. -/
structure EntersParameters (x : SymbolId) (s : ScopeId) (g : FunctionSymbol)
    (ps : List (Parameter L)) (types : List Ty) (d d' : Declarations L) : Prop where
  symbols : d'.table.symbols.size = d.table.symbols.size + ps.length
  function : d'.table.symbol? x = some (.fn { g with
    parameters := g.parameters ++ SymbolId.block d.table.symbols.size ps.length })
  bindings : ∀ name, d'.table.localResolve s name = (d.table.localResolve s name).or
    (((Parameter.layer d.table.symbols.size ps).lookup name).map Declared.symbol)
  parameter : ∀ (j : Nat) (p : Parameter L) (τ : Ty), ps[j]? = some p → types[j]? = some τ →
    d'.table.symbol? ⟨d.table.symbols.size + j⟩ = some (.var p.name.text τ)
  symbol : ∀ y : SymbolId, y.index < d.table.symbols.size → y ≠ x →
    d'.table.symbol? y = d.table.symbol? y

/-- A parameter with a free name gets the next number. -/
theorem enters_parameter {x : SymbolId} {s : ScopeId} {p : Parameter L} {τ : Ty}
    {g : FunctionSymbol} {d : Declarations L} (hs : s.index < d.table.scopes.size)
    (hx : d.table.symbol? x = some (.fn g)) (hfree : d.table.localResolve s p.name.text = none) :
    EntersParameters x s g [p] [τ] d
      ((d.define s (.var p.name.text τ)).2.addParameter x ⟨d.table.symbols.size⟩) := by
  have hfree' : d.table.localResolve s (Symbol.var p.name.text τ).name = none := hfree
  have hxlt : x.index < d.table.symbols.size := Table.lt_size_of_symbol? hx
  -- A parameter changes two symbols: a new one, and that of the function, `x`.
  have hsymbol : ∀ z : SymbolId, z ≠ x →
      ((d.define s (.var p.name.text τ)).2.addParameter x ⟨d.table.symbols.size⟩).table.symbol? z =
        if z.index = d.table.symbols.size then some (.var p.name.text τ)
        else d.table.symbol? z := by
    intro z hz
    have hne : x.index ≠ z.index := fun he => hz (by cases x; cases z; simp_all)
    simp [addParameter, define, Table.symbol?_addParameter, hne,
      Table.symbol?_define_of_free hs hfree']
  exact
    { symbols := by simp [addParameter, define, Table.symbols_define_of_free hs hfree']
      function := by
        simp [addParameter, define, Table.symbol?_addParameter, SymbolId.block,
          Table.symbol?_define_of_free hs hfree', Nat.ne_of_lt hxlt, hx,
          Symbol.addParameter]
      bindings := by
        intro name
        have hlocal : ((d.define s (.var p.name.text τ)).2.addParameter x
            ⟨d.table.symbols.size⟩).table.localResolve s name =
              if name = p.name.text then some ⟨d.table.symbols.size⟩
              else d.table.localResolve s name := by
          simp [addParameter, define, Symbol.name, Table.localResolve_define_of_free hs hfree']
        rw [hlocal]
        -- The scope may hold parameters from before, but none of this name.
        by_cases hname : name = p.name.text
        · subst hname
          simp [Parameter.layer, hfree]
        · have hne : (name == p.name.text) = false := beq_eq_false_iff_ne.mpr hname
          simp [Parameter.layer, List.lookup_cons, hname, hne]
      parameter := by
        intro j q σ hq hσ
        -- There is one parameter, so its position is zero.
        have hj : j = 0 := by
          have hlt := (List.getElem?_eq_some_iff.mp hq).1
          simpa using hlt
        subst hj
        obtain rfl := Option.some.inj hq
        obtain rfl := Option.some.inj hσ
        have hne : (⟨d.table.symbols.size⟩ : SymbolId) ≠ x := fun he => by
          rw [← he] at hxlt
          exact Nat.lt_irrefl _ hxlt
        rw [Nat.add_zero, hsymbol _ hne, if_pos rfl]
      symbol := by
        intro z hz hzx
        rw [hsymbol z hzx, if_neg (Nat.ne_of_lt hz)] }

/-- The first parameter and then the others. -/
theorem EntersParameters.cons {x : SymbolId} {s : ScopeId} {p : Parameter L}
    {ps : List (Parameter L)} {τ : Ty} {types : List Ty} {g : FunctionSymbol}
    {d d₁ d' : Declarations L} (hx : x.index < d.table.symbols.size)
    (h : EntersParameters x s g [p] [τ] d d₁)
    (h' : EntersParameters x s { g with
      parameters := g.parameters ++ SymbolId.block d.table.symbols.size 1 } ps types d₁ d') :
    EntersParameters x s g (p :: ps) (τ :: types) d d' where
  symbols := by
    rw [h'.symbols, h.symbols, List.length_singleton, List.length_cons]
    omega
  function := by
    rw [h'.function, h.symbols]
    simp [SymbolId.block, List.range'_succ]
  bindings name := by
    rw [h'.bindings, h.bindings, h.symbols, Option.or_assoc]
    congr 1
    -- The names of the later parameters come behind this one.
    cases hname : name == p.name.text with
    | true => simp [Parameter.layer, List.lookup_cons, hname]
    | false => simp [Parameter.layer, List.lookup_cons, hname]
  parameter j q σ hq hσ := by
    cases j with
    | zero =>
      have hfirst := h.parameter 0 q σ hq hσ
      have hne : (⟨d.table.symbols.size⟩ : SymbolId) ≠ x := fun he => by
        rw [← he] at hx
        exact Nat.lt_irrefl _ hx
      exact (h'.symbol _ (Table.lt_size_of_symbol? hfirst) hne).trans hfirst
    | succ j =>
      have hlater := h'.parameter j q σ hq hσ
      rw [h.symbols, List.length_singleton, Nat.add_assoc, Nat.add_comm 1 j] at hlater
      exact hlater
  symbol y hy hyx := by
    have hlt : y.index < d₁.table.symbols.size := by
      rw [h.symbols]
      exact Nat.lt_add_right _ hy
    rw [h'.symbol y hlt hyx, h.symbol y hy hyx]

/-- Parameters that are declared without a mistake, each in its turn. -/
theorem parameters_of_clean {x : SymbolId} {s : ScopeId} {ps : List (Parameter L)}
    {types : List Ty} {g : FunctionSymbol} {d : Declarations L}
    (hs : s.index < d.table.scopes.size) (hx : d.table.symbol? x = some (.fn g))
    (hlength : ps.length = types.length) (htypes : ∀ type ∈ types, type ∈ Ty.nameable)
    (hclean : (d.parameters x s ((ps.map (·.name)).zip types)).findings = []) :
    EntersParameters x s g ps types d (d.parameters x s ((ps.map (·.name)).zip types)) := by
  induction ps generalizing types g d with
  | nil =>
    exact ⟨rfl, by simpa [parameters, SymbolId.block] using hx,
      fun name => by simp [parameters, Parameter.layer], fun j p τ hp => by simp at hp,
      fun y _ _ => rfl⟩
  | cons p ps ih =>
    obtain ⟨τ, types, rfl⟩ : ∃ τ rest, types = τ :: rest := by
      cases types with
      | nil => simp at hlength
      | cons τ rest => exact ⟨τ, rest, rfl⟩
    have hrest : ∀ type ∈ types, type ∈ Ty.nameable :=
      fun type hm => htypes type (List.mem_cons_of_mem _ hm)
    simp only [List.map_cons, List.zip_cons_cons, parameters] at hclean ⊢
    cases hfree : d.table.localResolve s p.name.text with
    | some z =>
      -- A name that is taken is reported, and the report stays.
      have hdefine : d.define s (.var p.name.text τ) = (none, d) := by
        simp [define, Table.define_of_bound (x := .var p.name.text τ) hfree]
      simp only [hdefine] at hclean
      have hlater := extends_parameters (L := L) s 0
        (d.report p.name.place (.duplicateParameter p.name.text)) x (Nat.zero_le _)
        ((ps.map (·.name)).zip types) (Nat.zero_le _)
        (fun q hq => hrest q.2 (List.of_mem_zip hq).2)
      have hnone := hlater.findings_eq_nil hclean
      simp [report] at hnone
    | none =>
      -- The name is free, so the next symbol is that of the parameter.
      have hdefine : d.define s (.var p.name.text τ) =
          (some ⟨d.table.symbols.size⟩, (d.define s (.var p.name.text τ)).2) := by
        simp only [define, Table.define_fst_of_free (x := .var p.name.text τ) hs hfree]
      rw [hdefine] at hclean ⊢
      have hfirst : EntersParameters x s g [p] [τ] d
          ((d.define s (.var p.name.text τ)).2.addParameter x ⟨d.table.symbols.size⟩) :=
        enters_parameter hs hx hfree
      have hs₁ : s.index < ((d.define s (.var p.name.text τ)).2.addParameter x
          ⟨d.table.symbols.size⟩).table.scopes.size := by
        simpa [addParameter, define] using hs
      exact hfirst.cons (Table.lt_size_of_symbol? hx)
        (ih hs₁ hfirst.function (by simpa using hlength) hrest hclean)

end Declarations

/-! ## Items without mistakes -/

/-- The scope binds functions only. -/
def Table.BindsFunctions (t : Table) (s : ScopeId) : Prop :=
  ∀ name x, t.localResolve s name = some x → ∃ f, t.symbol? x = some (.fn f)

namespace Declarations

/-- What the declaration of an item adds: its symbols, its name in the global scope, its scopes. -/
structure Enters (i : Item L NodeId) (d d' : Declarations L) : Prop where
  symbols : d'.table.symbols.size = d.table.symbols.size + i.symbolCount
  bindings : ∀ name, d'.table.localResolve Table.global name =
    (d.table.localResolve Table.global name).or
      (([i.declared d.table.symbols.size].lookup name).map Declared.symbol)
  functions : d'.table.BindsFunctions Table.global
  entered : i.Entered d'.table d'.scopes d.table.symbols.size

/-- A name that no function has is free, if only functions have names. -/
theorem localResolve_eq_none_of_hasFunction {d : Declarations L} {name : String}
    (hfns : d.table.BindsFunctions Table.global) (h : ¬d.hasFunction name = true) :
    d.table.localResolve Table.global name = none := by
  cases hlocal : d.table.localResolve Table.global name with
  | none => rfl
  | some x =>
    obtain ⟨f, hf⟩ := hfns name x hlocal
    refine absurd ?_ h
    simp [hasFunction, hlocal, Table.function?, hf, Symbol.function?]

/-- What the symbol and the scope of an item leave, before its parameters and its body. -/
structure Prepares (g : FunctionSymbol) (mark : NodeId) (owner : Option SymbolId) (s : ScopeId)
    (d d' : Declarations L) : Prop where
  lt_size : s.index < d'.table.scopes.size
  ne_global : Table.global ≠ s
  symbols : d'.table.symbols.size = d.table.symbols.size + 1
  symbol : d'.table.symbol? ⟨d.table.symbols.size⟩ = some (.fn g)
  recorded : d'.scopes.get? mark = some s
  parent : d'.table.parent? s = some Table.global
  owner : d'.table.owner? s = owner
  empty : ∀ name, d'.table.localResolve s name = none
  names : ∀ name, d'.table.localResolve Table.global name =
    if name = g.name then some ⟨d.table.symbols.size⟩ else d.table.localResolve Table.global name

theorem Prepares.global_lt {g : FunctionSymbol} {mark : NodeId} {owner : Option SymbolId}
    {s : ScopeId} {d d' : Declarations L} (h : Prepares g mark owner s d d') :
    Table.global.index < d'.table.scopes.size :=
  Nat.lt_of_le_of_lt (Nat.zero_le _) h.lt_size

theorem prepares_openFor {d : Declarations L} {g : FunctionSymbol} (mark : NodeId)
    (owner : Option SymbolId) (hd : Table.global.index < d.table.scopes.size)
    (hfree : d.table.localResolve Table.global g.name = none) :
    let d₁ := (d.define Table.global (.fn g)).2
    Prepares g mark owner ⟨d₁.table.scopes.size⟩ d (d₁.openFor mark Table.global owner).2 := by
  intro d₁
  have hfree' : d.table.localResolve Table.global (Symbol.fn g).name = none := hfree
  -- Defining a symbol opens no scope.
  have hsize : d₁.table.scopes.size = d.table.scopes.size := by simp [d₁, define]
  exact
    { lt_size := by simp [openFor]
      ne_global := fun he => by
        have hindex : Table.global.index = d₁.table.scopes.size := congrArg ScopeId.index he
        exact Nat.lt_irrefl _ (hindex.trans hsize ▸ hd)
      symbols := by simp [d₁, openFor, define, Table.symbols_define_of_free hd hfree']
      symbol := by simp [d₁, openFor, define, Table.symbol?_define_of_free hd hfree']
      recorded := by simp [openFor, ScopeMap.get?_record]
      parent := by simp [openFor, Table.parent?_openScope]
      owner := by simp [openFor, Table.owner?_openScope]
      empty := fun name => by simp [openFor, Table.localResolve_eq_none_of_size_le]
      names := fun name => by
        simp [d₁, openFor, define, Table.localResolve_define_of_free hd hfree', Symbol.name] }

private theorem lookup_single (name : String) (x : String × Declared) :
    ([x].lookup name).map Declared.symbol = if name = x.1 then some x.2.symbol else none := by
  obtain ⟨other, x⟩ := x
  by_cases h : name = other
  · subst h
    simp
  · have hne : (name == other) = false := beq_eq_false_iff_ne.mpr h
    simp [List.lookup_cons, h, hne]

/-- An item whose name is added to the global scope is entered, if its scopes are. -/
theorem Enters.of_names {i : Item L NodeId} {nodes : List NodeId} {d d' : Declarations L}
    {g : FunctionSymbol} (hfns : d.table.BindsFunctions Table.global)
    (hkeep : Extends Table.global d.table.symbols.size nodes d d')
    (hsymbols : d'.table.symbols.size = d.table.symbols.size + i.symbolCount)
    (hfree : d.table.localResolve Table.global (i.declared d.table.symbols.size).1 = none)
    (hnames : ∀ name, d'.table.localResolve Table.global name =
      if name = (i.declared d.table.symbols.size).1 then some ⟨d.table.symbols.size⟩
      else d.table.localResolve Table.global name)
    (hsymbol : d'.table.symbol? ⟨d.table.symbols.size⟩ = some (.fn g))
    (hentered : i.Entered d'.table d'.scopes d.table.symbols.size) : Enters i d d' := by
  refine ⟨hsymbols, ?_, ?_, hentered⟩
  · intro name
    have hown : (i.declared d.table.symbols.size).2.symbol = ⟨d.table.symbols.size⟩ := by
      cases i <;> rfl
    rw [hnames, lookup_single, hown]
    by_cases hname : name = (i.declared d.table.symbols.size).1
    · subst hname
      simp [hfree]
    · simp [hname]
  · intro name y hy
    rw [hnames] at hy
    split_ifs at hy with hname
    · obtain rfl := Option.some.inj hy
      exact ⟨g, hsymbol⟩
    · -- An older function keeps its symbol all the way.
      obtain ⟨f, hf⟩ := hfns name y hy
      exact ⟨f, (hkeep.symbol y (Table.lt_size_of_symbol? hf)).trans hf⟩

/-- A function with a free name: first its symbol and its scope, then its parameters, then its
body. -/
theorem accept_of_free {d : Declarations L} {f : Function L NodeId} {body : Block L NodeId}
    {returns : Ty} {types : List Ty} (hd : Table.global.index < d.table.scopes.size)
    (hfree : d.table.localResolve Table.global f.name.text = none) :
    let x : SymbolId := ⟨d.table.symbols.size⟩
    let d₁ := (d.define Table.global (.fn ⟨f.name.text, returns, []⟩)).2
    let s : ScopeId := ⟨d₁.table.scopes.size⟩
    d.accept f body returns types = body.declarations s
      ((d₁.openFor f.mark Table.global (some x)).2.parameters x s
        ((f.parameters.map (·.name)).zip types)) := by
  intro x d₁ s
  have hdefine : d.define Table.global (.fn ⟨f.name.text, returns, []⟩) = (some x, d₁) :=
    Prod.ext (Table.define_fst_of_free hd hfree) rfl
  unfold accept
  rw [hdefine]
  rfl

/-- A function whose header has no mistake, and whose body has none. -/
theorem enters_accept {d : Declarations L} {f : Function L NodeId} {body : Block L NodeId}
    {returns : Ty} {types : List Ty} (hd : Table.global.index < d.table.scopes.size)
    (hfns : d.table.BindsFunctions Table.global)
    (hfree : d.table.localResolve Table.global f.name.text = none) (hbody : f.body = some body)
    (hreturns : Ty.named? f.returns.text = some returns)
    (htypes : f.parameters.map (fun p => Ty.named? p.type.text) = types.map some)
    (hnodes : (f.mark :: body.nodes).Nodup)
    (hclean : (d.accept f body returns types).findings = []) :
    Enters (.function f) d (d.accept f body returns types) := by
  have hlength : f.parameters.length = types.length := by
    simpa using congrArg List.length htypes
  -- Types come from names, so none of them is a sentinel.
  have hnameable : ∀ type ∈ types, type ∈ Ty.nameable := by
    intro type hm
    have hsome : some type ∈ types.map some := List.mem_map_of_mem hm
    rw [← htypes] at hsome
    obtain ⟨p, -, hp⟩ := List.mem_map.mp hsome
    exact Ty.named?_mem hp
  have hkeep : Extends Table.global d.table.symbols.size (f.mark :: body.nodes) d
      (d.accept f body returns types) :=
    extends_accept d f body returns types hd (Nat.le_refl _) (Ty.named?_mem hreturns) hnameable
  -- The stages of the declaration: the name, the scope, the parameters.
  let g : FunctionSymbol := ⟨f.name.text, returns, []⟩
  let x : SymbolId := ⟨d.table.symbols.size⟩
  let d₁ := (d.define Table.global (.fn g)).2
  let d₂ := (d₁.openFor f.mark Table.global (some x)).2
  let s : ScopeId := ⟨d₁.table.scopes.size⟩
  let d₃ := d₂.parameters x s ((f.parameters.map (·.name)).zip types)
  have hopen : Prepares g f.mark (some x) s d d₂ := prepares_openFor f.mark (some x) hd hfree
  have haccept : d.accept f body returns types = body.declarations s d₃ := accept_of_free hd hfree
  rw [haccept] at hclean hkeep ⊢
  obtain ⟨hmark, hbodyNodes⟩ := List.nodup_cons.mp hnodes
  -- Parameters are bound in the scope of the function and belong to its symbol, the newest one.
  have hkeep₃ : Extends s d.table.symbols.size [] d₂ d₃ :=
    extends_parameters s d.table.symbols.size d₂ x (Nat.le_refl _) _
      (by rw [hopen.symbols]; exact Nat.le_succ _)
      (fun p hp => hnameable p.2 (List.of_mem_zip hp).2)
  have hs₃ : s.index < d₃.table.scopes.size := Nat.lt_of_lt_of_le hopen.lt_size hkeep₃.scopes_le
  have hglobal₃ : Table.global.index < d₃.table.scopes.size :=
    Nat.lt_of_lt_of_le hopen.global_lt hkeep₃.scopes_le
  -- The body is declared below `s`, so it changes nothing of `s` itself.
  have hkeep₄ : Extends ⟨d₃.table.scopes.size⟩ d₃.table.symbols.size body.nodes d₃
      (body.declarations s d₃) :=
    body.extends_declarations _ s d₃ hs₃ (Nat.le_refl _)
  have hold : ∀ r : ScopeId, r.index < d₃.table.scopes.size →
      r ≠ ⟨d₃.table.scopes.size⟩ := fun r hr he => by subst he; exact Nat.lt_irrefl _ hr
  have hparameters : EntersParameters x s g f.parameters types d₂ d₃ :=
    parameters_of_clean hopen.lt_size hopen.symbol hlength hnameable
      (hkeep₄.findings_eq_nil hclean)
  have hsymbols₃ : d₃.table.symbols.size = d.table.symbols.size + 1 + f.parameters.length := by
    rw [hparameters.symbols, hopen.symbols]
  obtain ⟨hcount, hbound⟩ := body.bound_declarations s d₃ hs₃ hbodyNodes hclean
  have hplaced := body.placed_declarations s d₃ hbodyNodes
  have howner₃ : d₃.table.owner? s = some x :=
    (hkeep₃.owner s hopen.lt_size).trans hopen.owner
  rw [howner₃] at hplaced
  rw [hsymbols₃] at hbound
  -- Below the global scope names come and go, but there the function is the only new one.
  have hnames : ∀ name, (body.declarations s d₃).table.localResolve Table.global name =
      if name = f.name.text then some x else d.table.localResolve Table.global name := by
    intro name
    rw [hkeep₄.bindings _ hglobal₃ (hold _ hglobal₃),
      hkeep₃.bindings _ hopen.global_lt hopen.ne_global, hopen.names]
  have hfunction : (body.declarations s d₃).table.symbol? x = some (.fn ⟨f.name.text, returns,
      SymbolId.block (d.table.symbols.size + 1) f.parameters.length⟩) := by
    have hlt := Table.lt_size_of_symbol? hparameters.function
    rw [hkeep₄.symbol x hlt, hparameters.function, hopen.symbols]
    simp [g]
  refine .of_names hfns hkeep ?_ hfree hnames hfunction ⟨body, s, returns, types, ?_⟩
  -- One symbol for the function, one for each parameter, and those of the body.
  · rw [hcount, hsymbols₃]
    simp [Item.symbolCount, hbody]
    omega
  · exact
      { body_eq := hbody
        mark := by
          rw [hkeep₄.recorded _ hmark, hkeep₃.recorded _ List.not_mem_nil]
          exact hopen.recorded
        parent := by
          rw [hkeep₄.parent s hs₃, hkeep₃.parent s hopen.lt_size]
          exact hopen.parent
        owner := (hkeep₄.owner s hs₃).trans howner₃
        returns_named := hreturns
        types_named := htypes
        symbol := hfunction
        parameter := by
          intro j p τ hp hτ
          have hsymbol := hparameters.parameter j p τ hp hτ
          rw [hopen.symbols] at hsymbol
          rw [hkeep₄.symbol _ (Table.lt_size_of_symbol? hsymbol), hsymbol]
        bindings := by
          intro name
          rw [hkeep₄.bindings s hs₃ (hold s hs₃), hparameters.bindings, hopen.symbols,
            hopen.empty]
          rfl
        placed := hplaced
        bound := hbound }

/-- A function that is declared without a mistake. -/
theorem enters_function {d : Declarations L} {f : Function L NodeId}
    (hd : Table.global.index < d.table.scopes.size) (hfns : d.table.BindsFunctions Table.global)
    (hnodes : (Item.function f).nodes.Nodup) (hclean : (d.function f).findings = []) :
    Enters (.function f) d (d.function f) := by
  unfold function at hclean ⊢
  cases hbody : f.body with
  | none => simp [hbody, report] at hclean
  | some body =>
    have hmarks : (Item.function f).nodes = f.mark :: body.nodes := by simp [Item.nodes, hbody]
    rw [hmarks] at hnodes
    simp only [hbody] at hclean ⊢
    split_ifs at hclean ⊢ with hname
    · simp [report] at hclean
    · have hfree := localResolve_eq_none_of_hasFunction hfns hname
      -- Whatever comes after the types keeps what they reported.
      have htypesClean : ((d.resolveType f.returns).2.resolveTypes
          (f.parameters.map (·.type))).2.findings = [] := by
        split at hclean
        next returns types hr ht =>
          have hkeep := extends_resolveTypes Table.global 0 (d.resolveType f.returns).2
            (f.parameters.map (·.type))
          have hkeep' := extends_resolveType Table.global 0 d f.returns
          exact (extends_accept (k := 0) _ f body returns types
            (Nat.lt_of_lt_of_le hd (Nat.le_trans hkeep'.scopes_le hkeep.scopes_le))
            (Nat.zero_le _) (resolveType_nameable hr)
            (resolveTypes_nameable (Prod.ext ht rfl))).findings_eq_nil hclean
        · exact hclean
      have hreturnsClean := (extends_resolveTypes Table.global 0 (d.resolveType f.returns).2
        (f.parameters.map (·.type))).findings_eq_nil htypesClean
      obtain ⟨returns, hreturns, hr⟩ := resolveType_of_clean hreturnsClean
      rw [hr] at htypesClean
      obtain ⟨types, htypes, ht⟩ := resolveTypes_of_clean htypesClean
      simp only [hr, ht] at hclean ⊢
      refine enters_accept hd hfns hfree hbody hreturns ?_ hnodes hclean
      simpa [Function.comp_def] using htypes

/-- An entry point that is declared without a mistake. -/
theorem enters_entryPoint {d : Declarations L} {e : EntryPoint L NodeId}
    (hd : Table.global.index < d.table.scopes.size) (hfns : d.table.BindsFunctions Table.global)
    (hnodes : (Item.main e).nodes.Nodup) (hclean : (d.entryPoint e).findings = []) :
    Enters (.main e) d (d.entryPoint e) := by
  have hkeep := extends_entryPoint d e hd (Nat.le_refl d.table.symbols.size)
  unfold entryPoint at hclean hkeep ⊢
  split_ifs at hclean hkeep ⊢ with hname
  · simp [report] at hclean
  · have hfree := localResolve_eq_none_of_hasFunction hfns hname
    -- As for a function, but without parameters.
    let g : FunctionSymbol := ⟨"main", .void, []⟩
    let x : SymbolId := ⟨d.table.symbols.size⟩
    let d₁ := (d.define Table.global (.fn g)).2
    let d₂ := (d₁.openFor e.mark Table.global none).2
    let s : ScopeId := ⟨d₁.table.scopes.size⟩
    have hopen : Prepares g e.mark none s d d₂ := prepares_openFor e.mark none hd hfree
    change (e.body.declarations s d₂).findings = [] at hclean
    change Enters (.main e) d (e.body.declarations s d₂)
    obtain ⟨hmark, hbodyNodes⟩ := List.nodup_cons.mp hnodes
    have hkeep₃ : Extends ⟨d₂.table.scopes.size⟩ d₂.table.symbols.size e.body.nodes d₂
        (e.body.declarations s d₂) :=
      e.body.extends_declarations _ s d₂ hopen.lt_size (Nat.le_refl _)
    -- A scope that was there before is none that the body has opened.
    have hold : ∀ r : ScopeId, r.index < d₂.table.scopes.size →
        r ≠ ⟨d₂.table.scopes.size⟩ := fun r hr he => by subst he; exact Nat.lt_irrefl _ hr
    obtain ⟨hcount, hbound⟩ :=
      e.body.bound_declarations s d₂ hopen.lt_size hbodyNodes hclean
    have hplaced := e.body.placed_declarations s d₂ hbodyNodes
    rw [hopen.owner] at hplaced
    rw [hopen.symbols] at hbound
    have hnames : ∀ name, (e.body.declarations s d₂).table.localResolve Table.global name =
        if name = "main" then some x else d.table.localResolve Table.global name := by
      intro name
      rw [hkeep₃.bindings _ hopen.global_lt (hold _ hopen.global_lt), hopen.names]
    have hfunction : (e.body.declarations s d₂).table.symbol? x = some (.fn g) := by
      rw [hkeep₃.symbol x (Table.lt_size_of_symbol? hopen.symbol), hopen.symbol]
    refine .of_names hfns hkeep ?_ hfree hnames hfunction ⟨s, ?_⟩
    · rw [hcount, hopen.symbols]
      simp [Item.symbolCount]
      omega
    · exact
        { mark := (hkeep₃.recorded _ hmark).trans hopen.recorded
          parent := (hkeep₃.parent s hopen.lt_size).trans hopen.parent
          owner := (hkeep₃.owner s hopen.lt_size).trans hopen.owner
          symbol := hfunction
          bindings := fun name =>
            (hkeep₃.bindings s hopen.lt_size (hold s hopen.lt_size) name).trans (hopen.empty name)
          placed := hplaced
          bound := hbound }

/-- An item that is declared without a mistake. -/
theorem enters_item {d : Declarations L} {i : Item L NodeId}
    (hd : Table.global.index < d.table.scopes.size) (hfns : d.table.BindsFunctions Table.global)
    (hnodes : i.nodes.Nodup) (hclean : (d.item i).findings = []) : Enters i d (d.item i) := by
  cases i with
  | function f => exact enters_function hd hfns hnodes hclean
  | main e => exact enters_entryPoint hd hfns hnodes hclean

/-- The step of the induction over the items: each is entered, and stays. -/
theorem enters_items {d : Declarations L} {items : List (Item L NodeId)}
    (hd : Table.global.index < d.table.scopes.size) (hfns : d.table.BindsFunctions Table.global)
    (ht : d.table.Descends) (hnodes : (items.flatMap Item.nodes).Nodup)
    (hclean : (items.foldl item d).findings = []) :
    (∀ name, (items.foldl item d).table.localResolve Table.global name =
      (d.table.localResolve Table.global name).or
        (((Item.layer (Item.numbered d.table.symbols.size items)).lookup name).map
          Declared.symbol)) ∧
      ∀ k i, (k, i) ∈ Item.numbered d.table.symbols.size items →
        i.Entered (items.foldl item d).table (items.foldl item d).scopes k := by
  induction items generalizing d with
  | nil => exact ⟨fun name => by simp [Item.numbered, Item.layer], fun k i hi => by cases hi⟩
  | cons i items ih =>
    simp only [List.flatMap_cons, List.foldl_cons] at hnodes hclean ⊢
    obtain ⟨hfirst, hrest, hdisjoint⟩ := List.nodup_append.mp hnodes
    have hkeep : Extends Table.global 0 i.nodes d (d.item i) :=
      extends_item d i hd (Nat.zero_le _)
    have hd' := Nat.lt_of_lt_of_le hd hkeep.scopes_le
    -- The item is entered when its turn comes, and the later ones have other nodes and symbols.
    have hlater : Extends Table.global (d.item i).table.symbols.size (items.flatMap Item.nodes)
        (d.item i) (items.foldl item (d.item i)) :=
      extends_items _ items hd' (Nat.le_refl _)
    have henters := enters_item hd hfns hfirst (hlater.findings_eq_nil hclean)
    obtain ⟨hnames, hitems⟩ :=
      ih hd' henters.functions (hkeep.descends ht) hrest hclean
    rw [henters.symbols] at hnames hitems
    constructor
    · intro name
      rw [hnames, henters.bindings, Option.or_assoc]
      congr 1
      -- The functions of the later items come behind this one.
      cases hi : i.declared d.table.symbols.size with
      | mk other x =>
        cases hname : name == other with
        | true => simp [Item.numbered, Item.layer, hi, List.lookup_cons, hname]
        | false => simp [Item.numbered, Item.layer, hi, List.lookup_cons, hname]
    · intro k j hj
      simp only [Item.numbered, List.mem_cons] at hj
      rcases hj with hj | hj
      · obtain ⟨rfl, rfl⟩ := Prod.mk.inj hj
        exact henters.entered.extend hlater (hkeep.descends ht)
          fun node hn hm => hdisjoint node hn node hm rfl
      · exact hitems k j hj

end Declarations

/-! ## Programs without mistakes -/

/-- What the declarations of a whole program leave. -/
private theorem Program.entered {p : Program L} (hp : p.Distinct)
    (hclean : (Declarations.ofProgram p).findings = []) :
    (∀ name, (Declarations.ofProgram p).table.localResolve Table.global name =
      ((Item.layer p.numberedItems).lookup name).map Declared.symbol) ∧
      ∀ k i, (k, i) ∈ p.numberedItems →
        i.Entered (Declarations.ofProgram p).table (Declarations.ofProgram p).scopes k := by
  have hempty : ∀ name, Table.empty.localResolve Table.global name = none := fun name => rfl
  have hnodes : (p.items.flatMap Item.nodes).Nodup := (List.nodup_cons.mp hp).2
  obtain ⟨hnames, hitems⟩ := enters_items (L := L) (d := empty.record p.root Table.global)
    (by simp [record, empty, Table.empty, Table.global])
    (fun name x hx => by simp [record, empty, hempty] at hx) Table.descends_empty hnodes hclean
  refine ⟨fun name => ?_, hitems⟩
  have hname := hnames name
  simp only [record, empty, hempty, Option.none_or] at hname
  exact hname

/-- The global scope binds the functions of the program. -/
theorem Program.localResolve_global {p : Program L} (hp : p.Distinct)
    (hclean : (Declarations.ofProgram p).findings = []) (name : String) :
    (Declarations.ofProgram p).table.localResolve Table.global name =
      ((Item.layer p.numberedItems).lookup name).map Declared.symbol :=
  (Program.entered hp hclean).1 name

/-- Every item of the program is in the table. -/
theorem Program.entered_item {p : Program L} (hp : p.Distinct)
    (hclean : (Declarations.ofProgram p).findings = []) {k : Nat} {i : Item L NodeId}
    (hi : (k, i) ∈ p.numberedItems) :
    i.Entered (Declarations.ofProgram p).table (Declarations.ofProgram p).scopes k :=
  (Program.entered hp hclean).2 k i hi

end Primer
