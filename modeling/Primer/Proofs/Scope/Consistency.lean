import Primer.Proofs.Scope.Operations
import Mathlib.Data.List.Chain
import Mathlib.Data.List.Nodup
import Mathlib.Logic.Relation

/-!
# The parts of a table agree

A table says several things twice. A scope knows its parent, and the parent lists its children. A
scope lists its symbols in the order of definition, and it finds them by name; the symbol itself has
the name again. The later passes rely on all of these at once.

`Table.Consistent` says in which way the parts agree. Opening a scope, defining a symbol and adding
a parameter keep it, whatever the order of the operations and whether or not a definition is
refused. So it holds for every table that is reached from the empty one
(`Table.consistent_of_steps`), as long as the operations are given scopes that the table has.
-/

namespace Primer.Table

/-! ## The lists of a scope -/

/-- The scopes opened directly inside a scope. -/
def children (t : Table) (s : ScopeId) : List ScopeId :=
  ((t.scope? s).map Scope.children).getD []

/-- The symbols defined in a scope. -/
def defined (t : Table) (s : ScopeId) : List SymbolId :=
  ((t.scope? s).map Scope.symbols).getD []

section Lists

variable {t : Table} {s r parent : ScopeId} {owner : Option SymbolId} {x : Symbol}

theorem defined_eq_nil_of_size_le (h : t.scopes.size ≤ s.index) : t.defined s = [] := by
  have hnone : t.scope? s = none := Array.getElem?_eq_none h
  simp [defined, hnone]

theorem children_openScope (hparent : parent.index < t.scopes.size) :
    (t.openScope parent owner).2.children r =
      if r = parent then t.children r ++ [⟨t.scopes.size⟩] else t.children r := by
  unfold children
  rw [scope?_openScope]
  by_cases hnew : r.index = t.scopes.size
  · -- The new scope has no children, and before it was opened there were none either.
    have hne : r ≠ parent := fun he => by subst he; omega
    have hnone : t.scope? r = none := Array.getElem?_eq_none (Nat.le_of_eq hnew.symm)
    simp [hnew, hne, hnone]
  · by_cases hp : r = parent
    · subst hp
      have hscope : t.scope? r = some t.scopes[r.index] := Array.getElem?_eq_getElem hparent
      simp [hnew, hscope]
    · have hne : ¬parent.index = r.index := fun he => hp (ScopeId.ext he.symm)
      simp [hnew, hp, hne]

@[simp]
theorem defined_openScope : (t.openScope parent owner).2.defined r = t.defined r := by
  by_cases hnew : r.index = t.scopes.size
  · rw [defined_eq_nil_of_size_le (Nat.le_of_eq hnew.symm)]
    simp [defined, scope?_openScope, hnew]
  · unfold defined
    rw [scope?_openScope, if_neg hnew]
    split_ifs
    · cases t.scope? r <;> rfl
    · rfl

@[simp]
theorem children_define : (t.define s x).2.children r = t.children r := by
  rcases define_cases t s x with ⟨hs, hx⟩ | h
  · unfold children
    rw [scope?_define_of_free hs hx]
    split_ifs
    · cases t.scope? r <;> rfl
    · rfl
  · rw [h]

theorem defined_define_of_free (hs : s.index < t.scopes.size)
    (hx : t.localResolve s x.name = none) :
    (t.define s x).2.defined r =
      if s = r then t.defined r ++ [⟨t.symbols.size⟩] else t.defined r := by
  unfold defined
  rw [scope?_define_of_free hs hx]
  by_cases h : s = r
  · subst h
    have hscope : t.scope? s = some t.scopes[s.index] := Array.getElem?_eq_getElem hs
    simp [hscope, Scope.bind]
  · simp [h]

theorem nameOf_define_of_free (hs : s.index < t.scopes.size)
    (hx : t.localResolve s x.name = none) (y : SymbolId) :
    (t.define s x).2.nameOf y = if y.index = t.symbols.size then x.name else t.nameOf y := by
  unfold nameOf
  rw [symbol?_define_of_free hs hx]
  split_ifs <;> rfl

@[simp]
theorem children_addParameter (f y : SymbolId) : (t.addParameter f y).children r = t.children r :=
  rfl

@[simp]
theorem defined_addParameter (f y : SymbolId) : (t.addParameter f y).defined r = t.defined r :=
  rfl

/-- A function keeps its name when it gets another parameter. -/
@[simp]
theorem nameOf_addParameter (f y z : SymbolId) : (t.addParameter f y).nameOf z = t.nameOf z := by
  unfold nameOf
  rw [symbol?_addParameter]
  split_ifs
  · cases t.symbol? z with
    | none => rfl
    | some symbol => cases symbol <;> rfl
  · rfl

end Lists

/-! ## Steps -/

/-- One operation, on scopes that the table has. -/
inductive Step (t : Table) : Table → Prop where
  | openScope (parent : ScopeId) (owner : Option SymbolId)
      (hparent : parent.index < t.scopes.size) : Step t (t.openScope parent owner).2
  | openBlock (parent : ScopeId) (hparent : parent.index < t.scopes.size) :
      Step t (t.openBlock parent).2
  /-- The definition may be refused. -/
  | define (s : ScopeId) (x : Symbol) (hs : s.index < t.scopes.size) : Step t (t.define s x).2
  | addParameter (f x : SymbolId) : Step t (t.addParameter f x)

/-- Operations in sequence. -/
abbrev Steps : Table → Table → Prop :=
  Relation.ReflTransGen Step

variable {t t' : Table}

theorem Step.size_le (h : Step t t') : t.scopes.size ≤ t'.scopes.size := by
  cases h with
  | openScope parent owner hparent => simp
  | openBlock parent hparent => simp [Table.openBlock]
  | define s x hs => simp
  | addParameter f x => exact Nat.le_refl _

/-- A scope belongs to the same function for ever. -/
theorem Step.owner?_eq (h : Step t t') {s : ScopeId} (hs : s.index < t.scopes.size) :
    t'.owner? s = t.owner? s := by
  cases h with
  | openScope parent owner hparent => simp [owner?_openScope, Nat.ne_of_lt hs]
  | openBlock parent hparent => simp [Table.openBlock, owner?_openScope, Nat.ne_of_lt hs]
  | define r x _ => simp
  | addParameter f x => rfl

theorem Steps.owner?_eq (h : Steps t t') {s : ScopeId} (hs : s.index < t.scopes.size) :
    t'.owner? s = t.owner? s := by
  induction h using Relation.ReflTransGen.head_induction_on with
  | refl => rfl
  | head hstep _ ih =>
    exact (ih (Nat.lt_of_lt_of_le hs hstep.size_le)).trans (hstep.owner?_eq hs)

/-! ## Consistency -/

/-- The parts of a table agree. -/
structure Consistent (t : Table) : Prop where
  global_lt : global.index < t.scopes.size
  /-- Only the global scope has no parent. -/
  parent?_eq_none_iff : ∀ s : ScopeId, s.index < t.scopes.size →
    (t.parent? s = none ↔ s = global)
  /-- Parents have smaller numbers. -/
  descends : t.Descends
  /-- A scope lists the scopes whose parent it is, -/
  mem_children_iff : ∀ p c, c ∈ t.children p ↔ t.parent? c = some p
  /-- each of them once, in the order of opening. -/
  increasing : ∀ s, (t.children s).Pairwise (·.index < ·.index)
  /-- A scope finds by name what it lists, under the name that the symbol has. -/
  localResolve_eq_some_iff : ∀ s name x,
    t.localResolve s name = some x ↔ x ∈ t.defined s ∧ t.nameOf x = name
  /-- No two symbols of a scope have the same name. -/
  nodup_names : ∀ s, ((t.defined s).map t.nameOf).Nodup
  /-- What is listed is in the table, -/
  lt_size_of_mem_defined : ∀ s, ∀ x ∈ t.defined s, x.index < t.symbols.size
  /-- and every symbol of the table is listed in one scope, once. -/
  listed : ∀ x : SymbolId, x.index < t.symbols.size →
    ∃ s, ∀ r, (t.defined r).count x = if r = s then 1 else 0

theorem consistent_empty : Table.empty.Consistent := by
  -- There is one scope, and nothing is in it.
  have hscope : ∀ s : ScopeId, Table.empty.scope? s = if s = global then some {} else none := by
    rintro ⟨_ | n⟩
    · rfl
    · simp [scope?, Table.empty, global]
  have hparent : ∀ s, Table.empty.parent? s = none := by
    intro s
    unfold parent?
    rw [hscope]
    split_ifs <;> rfl
  have hchildren : ∀ s, Table.empty.children s = [] := by
    intro s
    unfold children
    rw [hscope]
    split_ifs <;> rfl
  have hdefined : ∀ s, Table.empty.defined s = [] := by
    intro s
    unfold defined
    rw [hscope]
    split_ifs <;> rfl
  have hresolve : ∀ s name, Table.empty.localResolve s name = none := by
    intro s name
    unfold localResolve
    rw [hscope]
    split_ifs <;> rfl
  refine ⟨Nat.zero_lt_one, ?_, ?_, ?_, ?_, ?_, ?_, ?_, ?_⟩
  · intro s hs
    have hs : s = global := ScopeId.ext (Nat.lt_one_iff.mp hs)
    simp [hs, hparent]
  · intro s p h
    simp [hparent] at h
  · simp [hchildren, hparent]
  · simp [hchildren]
  · simp [hdefined, hresolve]
  · simp [hdefined]
  · simp [hdefined]
  · intro x hx
    exact absurd hx (Nat.not_lt_zero _)

namespace Consistent

theorem lt_size_of_mem_children (ht : t.Consistent) {p c : ScopeId} (h : c ∈ t.children p) :
    c.index < t.scopes.size :=
  lt_size_of_parent? ((ht.mem_children_iff p c).mp h)

theorem openScope (ht : t.Consistent) {parent : ScopeId} (owner : Option SymbolId)
    (hparent : parent.index < t.scopes.size) : (t.openScope parent owner).2.Consistent where
  global_lt := by
    rw [size_openScope]
    exact Nat.lt_succ_of_lt ht.global_lt
  parent?_eq_none_iff s hs := by
    rw [parent?_openScope]
    rw [size_openScope] at hs
    split_ifs with hnew
    -- The new scope is not the global one, which existed before.
    · have hne : s ≠ global := fun he => by
        have := ht.global_lt
        subst he
        omega
      simp [hne]
    · exact ht.parent?_eq_none_iff s (by omega)
  descends s p h := by
    rw [parent?_openScope] at h
    split_ifs at h with hnew
    · obtain rfl := Option.some.inj h
      omega
    · exact ht.descends s p h
  mem_children_iff p c := by
    have hold := ht.mem_children_iff p c
    rw [children_openScope hparent, parent?_openScope]
    by_cases hnew : c.index = t.scopes.size
    · -- The new scope is listed by its parent only.
      have hnone : c ∉ t.children p := fun hc => by
        have := ht.lt_size_of_mem_children hc
        omega
      have hc : c = ⟨t.scopes.size⟩ := ScopeId.ext hnew
      by_cases hp : p = parent
      · simp [hp, hc]
      · have hne : parent ≠ p := fun he => hp he.symm
        simp [hp, hne, hnone, hnew]
    · have hne : c ≠ ⟨t.scopes.size⟩ := fun he => hnew (congrArg ScopeId.index he)
      split_ifs with hp
      · simp [hold, hne]
      · exact hold
  increasing s := by
    rw [children_openScope hparent]
    split_ifs
    -- The new scope has the largest index, so it comes last among the children.
    · refine List.pairwise_append.mpr ⟨ht.increasing s, List.pairwise_singleton _ _, ?_⟩
      intro c hc d hd
      obtain rfl := List.mem_singleton.mp hd
      exact ht.lt_size_of_mem_children hc
    · exact ht.increasing s
  localResolve_eq_some_iff s name x := by
    rw [localResolve_openScope, defined_openScope]
    exact ht.localResolve_eq_some_iff s name x
  nodup_names s := by
    rw [defined_openScope]
    exact ht.nodup_names s
  lt_size_of_mem_defined s x hx := by
    rw [defined_openScope] at hx
    exact ht.lt_size_of_mem_defined s x hx
  listed x hx := by
    obtain ⟨s, hs⟩ := ht.listed x hx
    refine ⟨s, fun r => ?_⟩
    rw [defined_openScope]
    exact hs r

section Define

variable {s : ScopeId} {x : Symbol}

/-- The number that the next symbol gets is listed nowhere. -/
theorem next_notMem_defined (ht : t.Consistent) (r : ScopeId) :
    ⟨t.symbols.size⟩ ∉ t.defined r :=
  fun hr => Nat.lt_irrefl _ (ht.lt_size_of_mem_defined r _ hr)

/-- The symbols that are there keep their names. -/
theorem nameOf_define_of_mem (ht : t.Consistent) (hs : s.index < t.scopes.size)
    (hfree : t.localResolve s x.name = none) {r : ScopeId} {y : SymbolId} (hy : y ∈ t.defined r) :
    (t.define s x).2.nameOf y = t.nameOf y := by
  rw [nameOf_define_of_free hs hfree, if_neg]
  exact Nat.ne_of_lt (ht.lt_size_of_mem_defined r y hy)

/-- A name that the scope does not find is that of none of its symbols. -/
theorem nameOf_ne_of_free (ht : t.Consistent) {name : String}
    (hfree : t.localResolve s name = none) {y : SymbolId} (hy : y ∈ t.defined s) :
    t.nameOf y ≠ name := by
  intro he
  have hbound := (ht.localResolve_eq_some_iff s name y).mpr ⟨hy, he⟩
  rw [hfree] at hbound
  cases hbound

theorem localResolve_define_iff (ht : t.Consistent) (hs : s.index < t.scopes.size)
    (hfree : t.localResolve s x.name = none) (r : ScopeId) (name : String) (y : SymbolId) :
    (t.define s x).2.localResolve r name = some y ↔
      y ∈ (t.define s x).2.defined r ∧ (t.define s x).2.nameOf y = name := by
  have hold := ht.localResolve_eq_some_iff r name y
  rw [localResolve_define_of_free hs hfree, defined_define_of_free hs hfree]
  by_cases hr : s = r
  · subst hr
    by_cases hy : y ∈ t.defined s
    · -- A symbol that was there has another name than the new one.
      have hne : (⟨t.symbols.size⟩ : SymbolId) ≠ y := fun he => ht.next_notMem_defined s (he ▸ hy)
      have hx : t.nameOf y ≠ x.name := ht.nameOf_ne_of_free hfree hy
      simp only [true_and, if_true, List.mem_append, hy, true_or,
        ht.nameOf_define_of_mem hs hfree hy]
      grind
    · have hlookup : t.localResolve s name ≠ some y := fun h => hy (hold.mp h).1
      have hname := nameOf_define_of_free hs hfree y
      simp only [true_and, if_true, List.mem_append, hy, false_or, List.mem_singleton]
      grind
  · have hr' : ¬(s = r ∧ name = x.name) := fun h => hr h.1
    rw [if_neg hr', if_neg hr, hold]
    exact and_congr_right fun hy => by rw [ht.nameOf_define_of_mem hs hfree hy]

theorem nodup_names_define (ht : t.Consistent) (hs : s.index < t.scopes.size)
    (hfree : t.localResolve s x.name = none) (r : ScopeId) :
    (((t.define s x).2.defined r).map (t.define s x).2.nameOf).Nodup := by
  have hold : (t.defined r).map (t.define s x).2.nameOf = (t.defined r).map t.nameOf :=
    List.map_congr_left fun y hy => ht.nameOf_define_of_mem hs hfree hy
  rw [defined_define_of_free hs hfree]
  split_ifs with hr
  · subst hr
    rw [List.map_append, hold, List.map_singleton, nameOf_define_of_free hs hfree, if_pos rfl]
    refine (ht.nodup_names s).append (List.nodup_singleton _) ?_
    intro name hname hsingle
    obtain rfl := List.mem_singleton.mp hsingle
    obtain ⟨y, hy, he⟩ := List.mem_map.mp hname
    exact ht.nameOf_ne_of_free hfree hy he
  · rw [hold]
    exact ht.nodup_names r

/-- The new symbol is listed where it was defined, and the others where they were. -/
theorem listed_define (ht : t.Consistent) (hs : s.index < t.scopes.size)
    (hfree : t.localResolve s x.name = none) (y : SymbolId) (hy : y.index < t.symbols.size + 1) :
    ∃ q, ∀ r, ((t.define s x).2.defined r).count y = if r = q then 1 else 0 := by
  by_cases hold : y.index < t.symbols.size
  · obtain ⟨q, hq⟩ := ht.listed y hold
    -- An old symbol is not the new one, so it is counted as before.
    have hne : (⟨t.symbols.size⟩ : SymbolId) ≠ y := fun he =>
      Nat.ne_of_gt hold (congrArg SymbolId.index he)
    refine ⟨q, fun r => ?_⟩
    rw [defined_define_of_free hs hfree, ← hq r]
    split_ifs
    · simp [List.count_append, hne]
    · rfl
  · obtain rfl : y = ⟨t.symbols.size⟩ :=
      SymbolId.ext (Nat.le_antisymm (Nat.lt_succ_iff.mp hy) (Nat.not_lt.mp hold))
    refine ⟨s, fun r => ?_⟩
    -- The new symbol was listed nowhere before, and now it is in one place.
    have hzero := List.count_eq_zero_of_not_mem (ht.next_notMem_defined r)
    rw [defined_define_of_free hs hfree]
    by_cases hr : s = r
    · simp [hr, List.count_append, hzero]
    · have hr' : r ≠ s := fun he => hr he.symm
      simp [hr, hr', hzero]

theorem define (ht : t.Consistent) (s : ScopeId) (x : Symbol) : (t.define s x).2.Consistent := by
  rcases define_cases t s x with ⟨hs, hfree⟩ | hnothing
  -- A definition that is refused leaves the table alone; this one adds a symbol.
  · have hsize : (t.define s x).2.symbols.size = t.symbols.size + 1 := by
      rw [symbols_define_of_free hs hfree, Array.size_push]
    exact {
      global_lt := by simpa using ht.global_lt
      parent?_eq_none_iff := by simpa using ht.parent?_eq_none_iff
      descends := fun r p h => ht.descends r p (by simpa using h)
      mem_children_iff := by simpa using ht.mem_children_iff
      increasing := by simpa using ht.increasing
      localResolve_eq_some_iff := ht.localResolve_define_iff hs hfree
      nodup_names := ht.nodup_names_define hs hfree
      lt_size_of_mem_defined := fun r y hy => by
        rw [defined_define_of_free hs hfree] at hy
        rw [hsize]
        split_ifs at hy with hr
        · rcases List.mem_append.mp hy with hy | hy
          · exact Nat.lt_succ_of_lt (ht.lt_size_of_mem_defined r y hy)
          · obtain rfl := List.mem_singleton.mp hy
            exact Nat.lt_succ_self _
        · exact Nat.lt_succ_of_lt (ht.lt_size_of_mem_defined r y hy)
      listed := fun y hy => ht.listed_define hs hfree y (hsize ▸ hy) }
  · rw [hnothing]
    exact ht

end Define

theorem addParameter (ht : t.Consistent) (f x : SymbolId) : (t.addParameter f x).Consistent where
  global_lt := ht.global_lt
  parent?_eq_none_iff := ht.parent?_eq_none_iff
  descends := ht.descends
  mem_children_iff := ht.mem_children_iff
  increasing := ht.increasing
  localResolve_eq_some_iff s name y := by
    -- Only the parameters of a symbol change, and none of these facts looks at them.
    rw [nameOf_addParameter]
    exact ht.localResolve_eq_some_iff s name y
  nodup_names s := by
    have hnames : (t.addParameter f x).nameOf = t.nameOf := funext (nameOf_addParameter f x)
    rw [hnames]
    exact ht.nodup_names s
  lt_size_of_mem_defined s y hy := by
    rw [size_symbols_addParameter]
    exact ht.lt_size_of_mem_defined s y hy
  listed y hy := by
    rw [size_symbols_addParameter] at hy
    exact ht.listed y hy

end Consistent

theorem Step.consistent (h : Step t t') (ht : t.Consistent) : t'.Consistent := by
  cases h with
  | openScope parent owner hparent => exact ht.openScope owner hparent
  | openBlock parent hparent => exact ht.openScope _ hparent
  | define s x hs => exact ht.define s x
  | addParameter f x => exact ht.addParameter f x

theorem Steps.consistent (h : Steps t t') (ht : t.Consistent) : t'.Consistent := by
  induction h with
  | refl => exact ht
  | tail _ hstep ih => exact hstep.consistent ih

/-! ## The way outwards -/

/-- The chain of scopes from `s` goes from parent to parent and ends at the global scope. -/
structure LeadsOut (t : Table) (s : ScopeId) : Prop where
  head : (t.chain s).head? = some s
  parents : (t.chain s).IsChain fun c p => t.parent? c = some p
  last : (t.chain s).getLast? = some global

theorem Consistent.leadsOut (ht : t.Consistent) {s : ScopeId} (hs : s.index < t.scopes.size) :
    t.LeadsOut s := by
  -- Numbers fall along parents, so the way is shorter from the parent.
  induction hn : s.index using Nat.strongRecOn generalizing s with
  | ind n ih =>
    have hchain := chain_eq ht.descends s
    cases hp : t.parent? s with
    | none =>
      have hroot : s = global := (ht.parent?_eq_none_iff s hs).mp hp
      rw [hp, Option.map_none, Option.getD_none, hroot] at hchain
      rw [hroot]
      exact ⟨by simp [hchain], by simp [hchain], by simp [hchain]⟩
    | some p =>
      have hlt := ht.descends s p hp
      have hrest := ih p.index (hn ▸ hlt) (Nat.lt_trans hlt hs) rfl
      rw [hp, Option.map_some, Option.getD_some] at hchain
      refine ⟨by simp [hchain], ?_, ?_⟩
      · rw [hchain, List.isChain_cons]
        refine ⟨fun q hq => ?_, hrest.parents⟩
        rw [hrest.head] at hq
        exact Option.some.inj hq ▸ hp
      · rw [hchain, List.getLast?_cons, hrest.last]
        rfl

/-! ## Every table -/

/-- The parts of every table agree, and the way outwards from every scope ends at the global scope.
The scope of a block belongs to the function of its parent, for ever. -/
theorem consistent_of_steps {t : Table} (h : Steps empty t) :
    t.Consistent ∧ (∀ s : ScopeId, s.index < t.scopes.size → t.LeadsOut s) ∧
      ∀ parent : ScopeId, parent.index < t.scopes.size → ∀ t', Steps (t.openBlock parent).2 t' →
        t'.owner? (t.openBlock parent).1 = t'.owner? parent := by
  have ht := h.consistent consistent_empty
  refine ⟨ht, fun s hs => ht.leadsOut hs, ?_⟩
  intro parent hparent t' hlater
  have hsize : (t.openBlock parent).2.scopes.size = t.scopes.size + 1 := size_openScope _ _ _
  calc t'.owner? (t.openBlock parent).1
      = (t.openBlock parent).2.owner? (t.openBlock parent).1 :=
        hlater.owner?_eq (by rw [hsize]; exact Nat.lt_succ_self _)
    _ = t.owner? parent := by simp [openBlock, owner?_openScope]
    _ = (t.openBlock parent).2.owner? parent :=
        ((Step.openBlock parent hparent).owner?_eq hparent).symm
    _ = t'.owner? parent :=
        (hlater.owner?_eq (by rw [hsize]; exact Nat.lt_succ_of_lt hparent)).symm

/-- A function with one parameter and two nested blocks that both bind `x`, and an entry point. The
second definition of `x` in the outer block is refused. -/
def shadowed : Table :=
  let t := (empty.define global (.fn ⟨"f", .int, []⟩)).2
  let t := (t.openScope global (some ⟨0⟩)).2
  let t := (t.define ⟨1⟩ (.var "n" .int)).2.addParameter ⟨0⟩ ⟨1⟩
  let t := (t.openBlock ⟨1⟩).2
  let t := (t.define ⟨2⟩ (.var "x" .int)).2
  let t := (t.define ⟨2⟩ (.var "x" .float)).2
  let t := (t.openBlock ⟨2⟩).2
  let t := (t.define ⟨3⟩ (.var "x" .char)).2
  (t.openScope global none).2

theorem steps_shadowed : Steps empty shadowed := by
  have h := (Relation.ReflTransGen.refl (a := empty)).tail
    (Step.define global (.fn ⟨"f", .int, []⟩) (by decide))
  have h := h.tail (.openScope global (some ⟨0⟩) (by decide))
  have h := h.tail (.define ⟨1⟩ (.var "n" .int) (by decide))
  have h := h.tail (.addParameter ⟨0⟩ ⟨1⟩)
  have h := h.tail (.openBlock ⟨1⟩ (by decide))
  have h := h.tail (.define ⟨2⟩ (.var "x" .int) (by decide))
  have h := h.tail (.define ⟨2⟩ (.var "x" .float) (by decide))
  have h := h.tail (.openBlock ⟨2⟩ (by decide))
  have h := h.tail (.define ⟨3⟩ (.var "x" .char) (by decide))
  exact h.tail (.openScope global none (by decide))

/-- A block that is opened in the inner one leads out through four scopes and belongs to the
function. -/
theorem consistent_of_steps_shadowed :
    Steps empty shadowed ∧ shadowed.Consistent ∧ shadowed.chain ⟨3⟩ = [⟨3⟩, ⟨2⟩, ⟨1⟩, ⟨0⟩] ∧
      shadowed.LeadsOut ⟨3⟩ ∧ (shadowed.openBlock ⟨3⟩).2.owner? ⟨5⟩ = some ⟨0⟩ := by
  obtain ⟨hconsistent, hout, howner⟩ := consistent_of_steps steps_shadowed
  refine ⟨steps_shadowed, hconsistent, by decide, hout ⟨3⟩ (by decide), ?_⟩
  exact (howner ⟨3⟩ (by decide) _ .refl).trans (by decide)

end Primer.Table
