import Primer.Proofs.Declaration.Steps
import Primer.Proofs.Scope.Consistency

/-!
# Tables in three layers

The table of a program has three layers. The global scope holds the functions. Directly below it
stands one scope for each item that was entered: that of a function holds its parameters, that of
the entry point holds nothing. The scopes of blocks stand below these, belong to the same function
as the item, and hold variables whose names are not those of its parameters.

`Table.Arranged` says this scope by scope, each with its parent only, so that single operations can
be seen to keep it: opening a scope (`Table.Arranged.openScope`), defining a symbol
(`Table.Arranged.define`) and declaring a parameter (`Table.Arranged.declareParameter`). What
follows for the way outwards from a scope, at any depth, stands at the end.
-/

namespace Primer

variable {L : Type}

namespace Table

/-! ## Arranged tables -/

/-- A scope with the given owner and symbols belongs to one of the items. -/
inductive ItemScope (items : List (Item L NodeId)) (t : Table) (owner : Option SymbolId)
    (symbols : List SymbolId) : Prop where
  /-- The scope of a function holds the parameters of the function, in the same order. -/
  | function {f : Function L NodeId} {g : FunctionSymbol} {x : SymbolId}
      (hitem : .function f ∈ items) (howner : owner = some x) (hx : x ∈ t.defined global)
      (hsymbol : t.symbol? x = some (.fn g)) (hname : g.name = f.name.text)
      (hsymbols : symbols = g.parameters)
  /-- The scope of the entry point belongs to no function and holds nothing. -/
  | main {e : EntryPoint L NodeId} (hitem : .main e ∈ items) (howner : owner = none)
      (hname : (t.localResolve global "main").isSome) (hsymbols : symbols = [])

/-- The scope of a block: it stands below the scope of an item. -/
def IsInner (t : Table) (s : ScopeId) : Prop :=
  ∃ p, t.parent? s = some p ∧ p ≠ global

theorem IsInner.lt_size {t : Table} {s : ScopeId} (h : t.IsInner s) : s.index < t.scopes.size := by
  obtain ⟨p, hp, -⟩ := h
  exact lt_size_of_parent? hp

/-- The scope of a block is not that of an item. -/
theorem IsInner.ne_of_parent? {t : Table} {s c : ScopeId} (h : t.IsInner s)
    (hc : t.parent? c = some global) : s ≠ c := by
  rintro rfl
  obtain ⟨p, hp, hne⟩ := h
  exact hne (Option.some.inj (hp.symm.trans hc))

/-- The shape of a table, scope by scope. -/
structure Arranged (items : List (Item L NodeId)) (t : Table) : Prop where
  consistent : t.Consistent
  closed : t.Closed
  functions : ∀ x ∈ t.defined global, ∃ f, t.symbol? x = some (.fn f)
  others : ∀ s, s ≠ global → ∀ x ∈ t.defined s, ∃ name type, t.symbol? x = some (.var name type)
  parameters : ∀ x f, t.symbol? x = some (.fn f) → ∀ z ∈ f.parameters,
    ∃ name type, t.symbol? z = some (.var name type)
  items : ∀ c, t.parent? c = some global → t.ItemScope items (t.owner? c) (t.defined c)
  single : ∀ c c', t.parent? c = some global → t.parent? c' = some global →
    t.owner? c = t.owner? c' → c = c'
  inherits : ∀ s p, t.parent? s = some p → p ≠ global → t.owner? s = t.owner? p
  apart : ∀ s, t.IsInner s → ∀ x f, t.owner? s = some x → t.symbol? x = some (.fn f) →
    ∀ y ∈ t.defined s, ∀ z ∈ f.parameters, t.nameOf y ≠ t.nameOf z

variable {items : List (Item L NodeId)} {t : Table}

theorem arranged_empty : Table.empty.Arranged items := by
  have hscope : ∀ s : ScopeId, Table.empty.parent? s = none ∧ Table.empty.defined s = [] := by
    rintro ⟨_ | n⟩ <;> simp [parent?, defined, scope?, Table.empty]
  refine ⟨consistent_empty, closed_empty, ?_, ?_, ?_, ?_, ?_, ?_, ?_⟩
  · simp [hscope]
  · simp [hscope]
  · simp [symbol?, Table.empty]
  · simp [hscope]
  · simp [hscope]
  · simp [hscope]
  · simp [IsInner, hscope]

/-- What belongs to an item goes on doing so while functions keep their symbols and the global
scope keeps what it holds. -/
theorem ItemScope.keep {t' : Table} {owner : Option SymbolId} {symbols : List SymbolId}
    (h : t.ItemScope items owner symbols) (hglobal : ∀ x ∈ t.defined global, x ∈ t'.defined global)
    (hsymbol : ∀ x, owner = some x → t'.symbol? x = t.symbol? x)
    (hbound : ∀ name, (t.localResolve global name).isSome → (t'.localResolve global name).isSome) :
    t'.ItemScope items owner symbols := by
  cases h with
  | function hitem howner hx hfunction hname hsymbols =>
    exact .function hitem howner (hglobal _ hx) ((hsymbol _ howner).trans hfunction) hname hsymbols
  | main hitem howner hname hsymbols => exact .main hitem howner (hbound _ hname) hsymbols

theorem symbol?_define_of_lt {s : ScopeId} {x : Symbol} (hs : s.index < t.scopes.size)
    (hfree : t.localResolve s x.name = none) {y : SymbolId} (hy : y.index < t.symbols.size) :
    (t.define s x).2.symbol? y = t.symbol? y := by
  rw [symbol?_define_of_free hs hfree, if_neg (Nat.ne_of_lt hy)]

/-- A symbol of a scope was there before or is the new one. -/
theorem mem_defined_define {s : ScopeId} {x : Symbol} (hs : s.index < t.scopes.size)
    (hfree : t.localResolve s x.name = none) {r : ScopeId} {y : SymbolId} :
    y ∈ (t.define s x).2.defined r ↔ y ∈ t.defined r ∨ s = r ∧ y = ⟨t.symbols.size⟩ := by
  rw [defined_define_of_free hs hfree]
  split_ifs with h <;> simp [h]

/-- What may be defined where: a function, at first without parameters, in the global scope, and a
variable in the scope of a block, unless it has the name of a parameter of the function around it.
-/
inductive Admits (t : Table) (s : ScopeId) : Symbol → Prop where
  | fn {g : FunctionSymbol} (hs : s = global) (hg : g.parameters = []) : Admits t s (.fn g)
  | var {name : String} {type : Ty} (hs : t.IsInner s)
      (hname : ∀ y f, t.owner? s = some y → t.symbol? y = some (.fn f) → ∀ z ∈ f.parameters,
        name ≠ t.nameOf z) : Admits t s (.var name type)

theorem Admits.parameters_eq_nil {s : ScopeId} {x : Symbol} (h : t.Admits s x)
    (f : FunctionSymbol) (hf : x.function? = some f) : f.parameters = [] := by
  cases h with
  | fn _ hg => exact Option.some.inj hf ▸ hg
  | var => cases hf

namespace Arranged

theorem ne_global_of_parent? (ht : t.Arranged items) {s p : ScopeId} (h : t.parent? s = some p) :
    s ≠ global := by
  rintro rfl
  rw [(ht.consistent.parent?_eq_none_iff global ht.consistent.global_lt).mpr rfl] at h
  cases h

theorem ne_global_of_isInner (ht : t.Arranged items) {s : ScopeId} (h : t.IsInner s) :
    s ≠ global := by
  obtain ⟨p, hp, -⟩ := h
  exact ht.ne_global_of_parent? hp

/-! ## Opening a scope -/

/-- Opening a scope. Below the global scope it is that of an item with an owner of its own, and
anywhere else it belongs to the function of its parent. -/
theorem openScope (ht : t.Arranged items) {parent : ScopeId} {owner : Option SymbolId}
    (hparent : parent.index < t.scopes.size)
    (howner : ∀ x, owner = some x → x.index < t.symbols.size)
    (hitem : parent = global → t.ItemScope items owner [])
    (hnew : parent = global → ∀ c, t.parent? c = some global → t.owner? c ≠ owner)
    (hinherits : parent ≠ global → owner = t.owner? parent) :
    (t.openScope parent owner).2.Arranged items where
  consistent := ht.consistent.openScope owner hparent
  closed := ht.closed.openScope hparent howner
  functions x hx := by
    rw [defined_openScope] at hx
    exact ht.functions x hx
  others s hs x hx := by
    rw [defined_openScope] at hx
    exact ht.others s hs x hx
  parameters := ht.parameters
  items c hc := by
    have hkeep : ∀ {owner' symbols}, t.ItemScope items owner' symbols →
        (t.openScope parent owner).2.ItemScope items owner' symbols :=
      fun h => h.keep (by simp) (by simp) (by simp)
    rw [parent?_openScope] at hc
    rw [owner?_openScope, defined_openScope]
    -- The new scope is empty, and the old ones keep their symbols.
    split_ifs at hc ⊢ with hc'
    · rw [defined_eq_nil_of_size_le (Nat.le_of_eq hc'.symm)]
      exact hkeep (hitem (Option.some.inj hc))
    · exact hkeep (ht.items c hc)
  single c c' hc hc' howners := by
    rw [parent?_openScope] at hc hc'
    rw [owner?_openScope, owner?_openScope] at howners
    -- A new scope of an item has an owner that no older one has.
    split_ifs at hc hc' howners with h h'
    · exact ScopeId.ext (h.trans h'.symm)
    · exact absurd howners.symm (hnew (Option.some.inj hc) c' hc')
    · exact absurd howners (hnew (Option.some.inj hc') c hc)
    · exact ht.single c c' hc hc' howners
  inherits s p hp hne := by
    rw [parent?_openScope] at hp
    rw [owner?_openScope, owner?_openScope]
    split_ifs at hp with hs
    · obtain rfl := Option.some.inj hp
      rw [if_pos hs, if_neg (Nat.ne_of_lt hparent)]
      exact hinherits hne
    -- An old scope has an old parent.
    · have hp' : p.index ≠ t.scopes.size := Nat.ne_of_lt (ht.closed.parent s p hp)
      rw [if_neg hs, if_neg hp']
      exact ht.inherits s p hp hne
  apart s hs x f hx hf y hy z hz := by
    rw [defined_openScope] at hy
    rw [owner?_openScope] at hx
    obtain ⟨p, hp, hne⟩ := hs
    rw [parent?_openScope] at hp
    split_ifs at hp hx with hs'
    · -- A scope that was just opened holds nothing.
      rw [defined_eq_nil_of_size_le (Nat.le_of_eq hs'.symm)] at hy
      exact absurd hy List.not_mem_nil
    · exact ht.apart s ⟨p, hp, hne⟩ x f hx hf y hy z hz

/-! ## Defining a symbol -/

section Define

variable {s : ScopeId} {x : Symbol}

/-- What belongs to an item is not touched by a definition in another scope. -/
theorem itemScope_define (ht : t.Arranged items) (hs : s.index < t.scopes.size)
    (hfree : t.localResolve s x.name = none) {c : ScopeId} (hc : t.parent? c = some global)
    (hne : s ≠ c) :
    (t.define s x).2.ItemScope items (t.owner? c) ((t.define s x).2.defined c) := by
  rw [defined_define_of_free hs hfree, if_neg hne]
  refine (ht.items c hc).keep ?_ ?_ ?_
  · exact fun y hy => (mem_defined_define hs hfree).mpr (Or.inl hy)
  · exact fun y hy => symbol?_define_of_lt hs hfree (ht.closed.owner c y hy)
  · intro name hbound
    rw [localResolve_define_of_free hs hfree]
    split_ifs
    · rfl
    · exact hbound

/-- The names below a function stay apart from those of its parameters. -/
theorem apart_define (ht : t.Arranged items) (hs : s.index < t.scopes.size)
    (hfree : t.localResolve s x.name = none) (hx : t.Admits s x) {r : ScopeId} (hr : t.IsInner r)
    {y : SymbolId} {f : FunctionSymbol} (hy : t.owner? r = some y)
    (hf : t.symbol? y = some (.fn f)) :
    ∀ w ∈ (t.define s x).2.defined r, ∀ z ∈ f.parameters,
      (t.define s x).2.nameOf w ≠ (t.define s x).2.nameOf z := by
  intro w hw z hz
  -- Parameters are symbols that were there before, so they keep their names.
  obtain ⟨name, type, hvar⟩ := ht.parameters y f hf z hz
  rw [nameOf_define_of_free hs hfree, nameOf_define_of_free hs hfree z,
    if_neg (Nat.ne_of_lt (lt_size_of_symbol? hvar))]
  rcases (mem_defined_define hs hfree).mp hw with hw | ⟨rfl, rfl⟩
  · rw [if_neg (Nat.ne_of_lt (ht.consistent.lt_size_of_mem_defined _ w hw))]
    exact ht.apart r hr y f hy hf w hw z hz
  · rw [if_pos rfl]
    cases hx with
    | fn hglobal => exact absurd hglobal (ht.ne_global_of_isInner hr)
    | var _ hname => exact hname y f hy hf z hz

theorem define (ht : t.Arranged items) (hs : s.index < t.scopes.size)
    (hfree : t.localResolve s x.name = none) (hx : t.Admits s x) :
    (t.define s x).2.Arranged items := by
  have hold : ∀ {y : SymbolId}, y.index < t.symbols.size →
      (t.define s x).2.symbol? y = t.symbol? y := symbol?_define_of_lt hs hfree
  have hnew : (t.define s x).2.symbol? ⟨t.symbols.size⟩ = some x := by
    rw [symbol?_define_of_free hs hfree, if_pos rfl]
  exact {
    consistent := ht.consistent.define s x
    closed := ht.closed.define s hx.parameters_eq_nil
    functions := by
      intro y hy
      rcases (mem_defined_define hs hfree).mp hy with hy | ⟨rfl, rfl⟩
      · rw [hold (ht.consistent.lt_size_of_mem_defined _ y hy)]
        exact ht.functions y hy
      · cases hx with
        | fn _ _ => exact ⟨_, hnew⟩
        | var hinner _ => exact absurd rfl (ht.ne_global_of_isInner hinner)
    others := by
      intro r hr y hy
      rcases (mem_defined_define hs hfree).mp hy with hy | ⟨rfl, rfl⟩
      · rw [hold (ht.consistent.lt_size_of_mem_defined _ y hy)]
        exact ht.others r hr y hy
      · cases hx with
        | fn hglobal _ => exact absurd hglobal hr
        | var _ _ => exact ⟨_, _, hnew⟩
    parameters := by
      intro y f hf z hz
      rw [symbol?_define_of_free hs hfree] at hf
      split_ifs at hf with hy
      · -- A function that is just defined has no parameters yet.
        rw [hx.parameters_eq_nil f (by rw [Option.some.inj hf]; rfl)] at hz
        exact absurd hz List.not_mem_nil
      · obtain ⟨name, type, hvar⟩ := ht.parameters y f hf z hz
        exact ⟨name, type, (hold (lt_size_of_symbol? hvar)).trans hvar⟩
    items := by
      intro c hc
      rw [parent?_define] at hc
      rw [owner?_define]
      apply ht.itemScope_define hs hfree hc
      -- Neither the global scope nor that of a block is the scope of an item.
      rintro rfl
      cases hx with
      | fn hglobal _ => exact ht.ne_global_of_parent? hc hglobal
      | var hinner _ => exact hinner.ne_of_parent? hc rfl
    single := by simpa using ht.single
    inherits := by simpa using ht.inherits
    apart := by
      intro r hr y f hy hf
      rw [owner?_define] at hy
      rw [hold (ht.closed.owner r y hy)] at hf
      have hr : t.IsInner r := by simpa [IsInner] using hr
      exact ht.apart_define hs hfree hx hr hy hf }

end Define

end Arranged

/-! ## Declaring a parameter -/

/-- Declares a parameter of the function `x` with the scope `c`: a variable of the scope, and an
entry in the list of the function. -/
def declareParameter (t : Table) (c : ScopeId) (x : SymbolId) (name : String) (type : Ty) : Table :=
  (t.define c (.var name type)).2.addParameter x ⟨t.symbols.size⟩

section Parameter

variable {c : ScopeId} {x : SymbolId} {name : String} {type : Ty}

@[simp]
theorem parent?_declareParameter (r : ScopeId) :
    (t.declareParameter c x name type).parent? r = t.parent? r := by
  simp [declareParameter]

@[simp]
theorem owner?_declareParameter (r : ScopeId) :
    (t.declareParameter c x name type).owner? r = t.owner? r := by
  simp [declareParameter]

variable (hs : c.index < t.scopes.size)
  (hfree : t.localResolve c (Symbol.var name type).name = none)
include hs hfree

theorem defined_declareParameter (r : ScopeId) :
    (t.declareParameter c x name type).defined r =
      if c = r then t.defined r ++ [⟨t.symbols.size⟩] else t.defined r :=
  defined_define_of_free hs hfree

/-- Functions other than `x` stay what they are, -/
theorem symbol?_declareParameter_of_ne {y : SymbolId} (hne : y ≠ x)
    (hy : y.index < t.symbols.size) :
    (t.declareParameter c x name type).symbol? y = t.symbol? y := by
  have hne : x.index ≠ y.index := fun he => hne (SymbolId.ext he.symm)
  rw [declareParameter, symbol?_addParameter, if_neg hne, symbol?_define_of_lt hs hfree hy]

/-- and there are no others. -/
theorem symbol?_of_declareParameter_of_ne {y : SymbolId} (hne : y ≠ x) {f : FunctionSymbol}
    (hf : (t.declareParameter c x name type).symbol? y = some (.fn f)) :
    t.symbol? y = some (.fn f) := by
  have hne : x.index ≠ y.index := fun he => hne (SymbolId.ext he.symm)
  rw [declareParameter, symbol?_addParameter, if_neg hne, symbol?_define_of_free hs hfree] at hf
  split_ifs at hf
  · cases hf
  · exact hf

/-- Variables stay what they are. -/
theorem symbol?_declareParameter_of_var {y : SymbolId} {name' : String} {type' : Ty}
    (hy : t.symbol? y = some (.var name' type')) :
    (t.declareParameter c x name type).symbol? y = some (.var name' type') := by
  rw [declareParameter, symbol?_addParameter,
    symbol?_define_of_lt hs hfree (lt_size_of_symbol? hy), hy]
  split_ifs <;> rfl

theorem symbol?_declareParameter_new :
    (t.declareParameter c x name type).symbol? ⟨t.symbols.size⟩ = some (.var name type) := by
  rw [declareParameter, symbol?_addParameter, symbol?_define_of_free hs hfree, if_pos rfl]
  split_ifs <;> rfl

theorem symbol?_declareParameter_self {g : FunctionSymbol} (hg : t.symbol? x = some (.fn g)) :
    (t.declareParameter c x name type).symbol? x =
      some (.fn { g with parameters := g.parameters ++ [⟨t.symbols.size⟩] }) := by
  rw [declareParameter, symbol?_addParameter, if_pos rfl,
    symbol?_define_of_lt hs hfree (lt_size_of_symbol? hg), hg]
  rfl

theorem localResolve_declareParameter_of_ne {r : ScopeId} (hne : c ≠ r) (other : String) :
    (t.declareParameter c x name type).localResolve r other = t.localResolve r other := by
  have hne : ¬(c = r ∧ other = (Symbol.var name type).name) := fun h => hne h.1
  rw [declareParameter, localResolve_addParameter, localResolve_define_of_free hs hfree,
    if_neg hne]

theorem nameOf_declareParameter_of_lt {y : SymbolId} (hy : y.index < t.symbols.size) :
    (t.declareParameter c x name type).nameOf y = t.nameOf y := by
  rw [declareParameter, nameOf_addParameter, nameOf_define_of_free hs hfree,
    if_neg (Nat.ne_of_lt hy)]

end Parameter

/-- While parameters are declared, `c` is the only scope of the function `x`. -/
structure DeclaresFor (t : Table) (c : ScopeId) (x : SymbolId) : Prop where
  parent : t.parent? c = some global
  owner : t.owner? c = some x
  only : ∀ s, t.owner? s = some x → s = c

namespace Arranged

section Parameter

variable {c : ScopeId} {x : SymbolId} {name : String} {type : Ty} (ht : t.Arranged items)
  (hc : t.DeclaresFor c x) (hfree : t.localResolve c (Symbol.var name type).name = none)
include ht hc

/-- The function whose parameters are declared, as its item was entered. -/
theorem exists_function : ∃ f g, .function f ∈ items ∧ t.symbol? x = some (.fn g) ∧
    x ∈ t.defined global ∧ g.name = f.name.text ∧ t.defined c = g.parameters := by
  cases ht.items c hc.parent with
  | function hitem howner hmem hg hname hdefined =>
    obtain rfl := Option.some.inj (hc.owner.symm.trans howner)
    exact ⟨_, _, hitem, hg, hmem, hname, hdefined⟩
  | main _ howner => exact absurd (hc.owner.symm.trans howner) (by simp)

include hfree

/-- The functions that other scopes belong to do not change. -/
theorem symbol?_declareParameter_of_owner {s : ScopeId} {y : SymbolId} (hne : s ≠ c)
    (hy : t.owner? s = some y) : (t.declareParameter c x name type).symbol? y = t.symbol? y := by
  have hyx : y ≠ x := fun he => hne (hc.only s (he ▸ hy))
  exact symbol?_declareParameter_of_ne (lt_size_of_parent? hc.parent) hfree hyx
    (ht.closed.owner s y hy)

theorem parameters_declareParameter {y : SymbolId} {f : FunctionSymbol}
    (hf : (t.declareParameter c x name type).symbol? y = some (.fn f)) :
    ∀ z ∈ f.parameters, ∃ name' type',
      (t.declareParameter c x name type).symbol? z = some (.var name' type') := by
  have hs := lt_size_of_parent? hc.parent
  intro z hz
  by_cases hyx : y = x
  · -- The new parameter is a variable, like the others.
    subst hyx
    obtain ⟨-, g, -, hg, -⟩ := ht.exists_function hc
    rw [symbol?_declareParameter_self hs hfree hg, Option.some.injEq, Symbol.fn.injEq] at hf
    subst hf
    rcases List.mem_append.mp hz with hz | hz
    · obtain ⟨name', type', hvar⟩ := ht.parameters y g hg z hz
      exact ⟨name', type', symbol?_declareParameter_of_var hs hfree hvar⟩
    · obtain rfl := List.mem_singleton.mp hz
      exact ⟨name, type, symbol?_declareParameter_new hs hfree⟩
  · have hold : t.symbol? y = some (.fn f) := symbol?_of_declareParameter_of_ne hs hfree hyx hf
    obtain ⟨name', type', hvar⟩ := ht.parameters y f hold z hz
    exact ⟨name', type', symbol?_declareParameter_of_var hs hfree hvar⟩

/-- The scope of the function and its list get the new parameter at the same time. -/
theorem itemScope_declareParameter {r : ScopeId} (hr : t.parent? r = some global) :
    (t.declareParameter c x name type).ItemScope items (t.owner? r)
      ((t.declareParameter c x name type).defined r) := by
  have hs := lt_size_of_parent? hc.parent
  -- A parameter is not bound globally.
  have hglobal : (t.declareParameter c x name type).defined global = t.defined global := by
    rw [defined_declareParameter hs hfree, if_neg (ht.ne_global_of_parent? hc.parent)]
  -- In the scope of the function its list of parameters grows along with the symbols.
  by_cases hrc : c = r
  · subst hrc
    obtain ⟨f, g, hitem, hg, hmem, hname, hdefined⟩ := ht.exists_function hc
    rw [defined_declareParameter hs hfree, if_pos rfl, hdefined]
    exact .function hitem hc.owner (hglobal ▸ hmem) (symbol?_declareParameter_self hs hfree hg)
      hname rfl
  · rw [defined_declareParameter hs hfree, if_neg hrc]
    apply (ht.items r hr).keep
    · exact fun y hy => hglobal ▸ hy
    · exact fun y hy => ht.symbol?_declareParameter_of_owner hc hfree (Ne.symm hrc) hy
    · intro other hbound
      rwa [localResolve_declareParameter_of_ne hs hfree (ht.ne_global_of_parent? hc.parent)]

/-- No block of the function is there yet whose names could be those of the parameter. -/
theorem apart_declareParameter {r : ScopeId} (hr : t.IsInner r) {y : SymbolId}
    {f : FunctionSymbol} (hy : t.owner? r = some y)
    (hf : (t.declareParameter c x name type).symbol? y = some (.fn f)) :
    ∀ w ∈ (t.declareParameter c x name type).defined r, ∀ z ∈ f.parameters,
      (t.declareParameter c x name type).nameOf w ≠
        (t.declareParameter c x name type).nameOf z := by
  have hs := lt_size_of_parent? hc.parent
  have hne : r ≠ c := hr.ne_of_parent? hc.parent
  intro w hw z hz
  rw [ht.symbol?_declareParameter_of_owner hc hfree hne hy] at hf
  rw [defined_declareParameter hs hfree, if_neg hne.symm] at hw
  obtain ⟨name', type', hvar⟩ := ht.parameters y f hf z hz
  rw [nameOf_declareParameter_of_lt hs hfree (ht.consistent.lt_size_of_mem_defined r w hw),
    nameOf_declareParameter_of_lt hs hfree (lt_size_of_symbol? hvar)]
  exact ht.apart r hr y f hy hf w hw z hz

theorem declareParameter : (t.declareParameter c x name type).Arranged items := by
  have hs := lt_size_of_parent? hc.parent
  exact {
    consistent := (ht.consistent.define c _).addParameter _ _
    closed := by
      apply Closed.addParameter (ht.closed.define c fun f hf => by cases hf) x
      rw [symbols_define_of_free hs hfree, Array.size_push]
      exact Nat.lt_succ_self _
    functions := by
      intro y hy
      rw [defined_declareParameter hs hfree, if_neg (ht.ne_global_of_parent? hc.parent)] at hy
      obtain ⟨f, hf⟩ := ht.functions y hy
      -- Of all functions only the one that is given the parameter changes.
      by_cases hyx : y = x
      · subst hyx
        exact ⟨_, symbol?_declareParameter_self hs hfree hf⟩
      · exact ⟨f, (symbol?_declareParameter_of_ne hs hfree hyx (lt_size_of_symbol? hf)).trans hf⟩
    others := by
      intro r hr y hy
      rcases (mem_defined_define hs hfree).mp hy with hy | ⟨rfl, rfl⟩
      · obtain ⟨name', type', hy⟩ := ht.others r hr y hy
        exact ⟨name', type', symbol?_declareParameter_of_var hs hfree hy⟩
      · exact ⟨name, type, symbol?_declareParameter_new hs hfree⟩
    parameters := fun y f hf => ht.parameters_declareParameter hc hfree hf
    items := by
      intro r hr
      rw [parent?_declareParameter] at hr
      rw [owner?_declareParameter]
      exact ht.itemScope_declareParameter hc hfree hr
    single := by simpa using ht.single
    inherits := by simpa using ht.inherits
    apart := by
      intro r hr y f hy hf
      rw [owner?_declareParameter] at hy
      have hr : t.IsInner r := by simpa [IsInner] using hr
      exact ht.apart_declareParameter hc hfree hr hy hf }

end Parameter

end Arranged

/-! ## The way outwards -/

namespace Arranged

/-- A scope below that of an item belongs to the function of the item, and every such scope is that
of a block. -/
theorem owner?_of_mem_chain (ht : t.Arranged items) {c s : ScopeId}
    (hc : t.parent? c = some global) (h : c ∈ t.chain s) :
    t.owner? s = t.owner? c ∧ (s ≠ c → t.IsInner s) := by
  -- Numbers fall along parents.
  induction hn : s.index using Nat.strongRecOn generalizing s with
  | ind n ih =>
    have hdescends := ht.consistent.descends
    rw [chain_eq hdescends] at h
    rcases List.mem_cons.mp h with rfl | h
    · exact ⟨rfl, fun hne => absurd rfl hne⟩
    · cases hp : t.parent? s with
      | none => simp [hp] at h
      | some p =>
        rw [hp, Option.map_some, Option.getD_some] at h
        -- The way goes on to `c` from the parent, which is not the global scope then.
        have hne : p ≠ global := by
          rintro rfl
          have hroot := (ht.consistent.parent?_eq_none_iff global ht.consistent.global_lt).mpr rfl
          rw [chain_eq hdescends, hroot] at h
          exact ht.ne_global_of_parent? hc (List.mem_singleton.mp h)
        have hparent := ih p.index (hn ▸ hdescends s p hp) h rfl
        exact ⟨(ht.inherits s p hp hne).trans hparent.1, fun _ => ⟨p, hp, hne⟩⟩

/-- A call reaches a function exactly if the global scope binds its name. -/
theorem isSome_callee?_iff (ht : t.Arranged items) (s : ScopeId) (name : String) :
    (t.callee? s name).isSome ↔ (t.localResolve global name).isSome := by
  unfold callee? resolveCallee
  cases hglobal : t.localResolve global name with
  | some x =>
    have hx := ((ht.consistent.localResolve_eq_some_iff _ _ _).mp hglobal).1
    obtain ⟨f, hf⟩ := ht.functions x hx
    simp [function?, hf, Symbol.function?]
  | none =>
    cases hx : t.resolve s name with
    | none => simp
    | some x =>
      -- What is found outside the global scope is a variable.
      obtain ⟨r, -, hr⟩ := List.exists_of_findSome?_eq_some hx
      have hne : r ≠ global := by
        rintro rfl
        rw [hglobal] at hr
        cases hr
      obtain ⟨n, type, hvar⟩ :=
        ht.others r hne x ((ht.consistent.localResolve_eq_some_iff _ _ _).mp hr).1
      simp [function?, hvar, Symbol.function?]

end Arranged

end Table

end Primer
