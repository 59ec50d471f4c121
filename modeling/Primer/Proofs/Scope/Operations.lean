import Primer.Scope.Table
import Mathlib.Tactic.SplitIfs

/-!
# What the operations of a table change

A table is read through five questions: the parent of a scope, its owner, the symbol that it binds
to a name, the symbol with a number, and the sizes. For each operation that extends a table there is
one lemma per question, so that later proofs never look at the arrays.

Numbers fall along the chain of scopes (`Table.Descends`) in every table that the declarations of a
program build. Then looking up a name is a recursion along parents, `Table.resolve_eq`.
-/

namespace Primer.Table

variable (t : Table) (s r parent : ScopeId) (owner : Option SymbolId) (name : String)

/-- A scope with an answer to one of the questions is in the table. -/
theorem lt_size_of_parent? {t : Table} {s p : ScopeId} (h : t.parent? s = some p) :
    s.index < t.scopes.size := by
  obtain ⟨scope, hscope, -⟩ := Option.bind_eq_some_iff.mp h
  exact (Array.getElem?_eq_some_iff.mp hscope).1

theorem lt_size_of_symbol? {t : Table} {x : SymbolId} {y : Symbol} (h : t.symbol? x = some y) :
    x.index < t.symbols.size :=
  (Array.getElem?_eq_some_iff.mp h).1

theorem localResolve_eq_none_of_size_le {t : Table} {s : ScopeId} (h : t.scopes.size ≤ s.index) :
    t.localResolve s name = none := by
  have hnone : t.scope? s = none := Array.getElem?_eq_none h
  simp [localResolve, hnone]

/-! ## Opening a scope -/

@[simp]
theorem openScope_fst : (t.openScope parent owner).1 = ⟨t.scopes.size⟩ := rfl

@[simp]
theorem size_openScope : (t.openScope parent owner).2.scopes.size = t.scopes.size + 1 := by
  simp [openScope]

@[simp]
theorem symbols_openScope : (t.openScope parent owner).2.symbols = t.symbols := rfl

@[simp]
theorem symbol?_openScope (x : SymbolId) : (t.openScope parent owner).2.symbol? x = t.symbol? x :=
  rfl

/-- Only the new scope and the list of children of its parent differ. -/
theorem scope?_openScope :
    (t.openScope parent owner).2.scope? r =
      if r.index = t.scopes.size then some { parent := some parent, function := owner }
      else if parent.index = r.index then
        (t.scope? r).map fun p => { p with children := p.children ++ [⟨t.scopes.size⟩] }
      else t.scope? r := by
  simp only [openScope, scope?, Array.getElem?_push, Array.getElem?_modify, Array.size_modify]

theorem parent?_openScope :
    (t.openScope parent owner).2.parent? r =
      if r.index = t.scopes.size then some parent else t.parent? r := by
  unfold parent?
  rw [scope?_openScope]
  split_ifs with h₁ h₂
  · rfl
  · cases t.scope? r <;> rfl
  · rfl

theorem owner?_openScope :
    (t.openScope parent owner).2.owner? r =
      if r.index = t.scopes.size then owner else t.owner? r := by
  unfold owner?
  rw [scope?_openScope]
  split_ifs with h₁ h₂
  · rfl
  · cases t.scope? r <;> rfl
  · rfl

/-- A new scope binds no name, so opening one changes no answer. -/
@[simp]
theorem localResolve_openScope :
    (t.openScope parent owner).2.localResolve r name = t.localResolve r name := by
  by_cases h₁ : r.index = t.scopes.size
  · rw [localResolve_eq_none_of_size_le name (Nat.le_of_eq h₁.symm)]
    unfold localResolve
    rw [scope?_openScope, if_pos h₁]
    rfl
  · unfold localResolve
    rw [scope?_openScope, if_neg h₁]
    split_ifs
    · cases t.scope? r <;> rfl
    · rfl

/-! ## Defining a symbol -/

variable (x : Symbol)

/-- A name that the scope binds already is refused. -/
theorem define_of_bound {t : Table} {s : ScopeId} {x : Symbol} {y : SymbolId}
    (h : t.localResolve s x.name = some y) : t.define s x = (none, t) := by
  obtain ⟨scope, hscope, hlookup⟩ := Option.bind_eq_some_iff.mp h
  simp [define, hscope, hlookup]

/-- A scope that is not in the table takes no symbol. -/
theorem define_of_size_le {t : Table} {s : ScopeId} {x : Symbol} (h : t.scopes.size ≤ s.index) :
    t.define s x = (none, t) := by
  have hnone : t.scope? s = none := Array.getElem?_eq_none h
  simp [define, hnone]

/-- A free name gets the next number. -/
theorem define_of_free {t : Table} {s : ScopeId} {x : Symbol} (hs : s.index < t.scopes.size)
    (hx : t.localResolve s x.name = none) :
    ∃ scope, t.scope? s = some scope ∧ scope.lookup x.name = none ∧
      t.define s x = (some ⟨t.symbols.size⟩,
        ⟨t.scopes.setIfInBounds s.index (scope.bind x.name ⟨t.symbols.size⟩),
        t.symbols.push x⟩) := by
  have hscope : t.scope? s = some t.scopes[s.index] := Array.getElem?_eq_getElem hs
  have hlookup : t.scopes[s.index].lookup x.name = none := by
    simpa [localResolve, hscope] using hx
  refine ⟨t.scopes[s.index], hscope, hlookup, ?_⟩
  simp [define, hscope, hlookup]

/-- What becomes of the scopes when a free name is defined. -/
theorem scope?_define_of_free {t : Table} {s : ScopeId} {x : Symbol} (hs : s.index < t.scopes.size)
    (hx : t.localResolve s x.name = none) (r : ScopeId) :
    (t.define s x).2.scope? r =
      if s = r then
        (t.scope? r).map fun p => p.bind x.name ⟨t.symbols.size⟩
      else t.scope? r := by
  obtain ⟨scope, hscope, -, hdefine⟩ := define_of_free hs hx
  rw [hdefine]
  change (t.scopes.setIfInBounds s.index _)[r.index]? = _
  rw [Array.getElem?_setIfInBounds]
  by_cases h : s = r
  · subst h
    simp [hs, hscope]
  · have hne : s.index ≠ r.index := fun he => h (by cases s; cases r; simp_all)
    simp [h, hne, scope?]

/-- Every definition either adds a symbol under a free name or does nothing. -/
theorem define_cases :
    (s.index < t.scopes.size ∧ t.localResolve s x.name = none) ∨ t.define s x = (none, t) := by
  rcases Nat.lt_or_ge s.index t.scopes.size with hs | hs
  · cases hx : t.localResolve s x.name with
    | none => exact Or.inl ⟨hs, rfl⟩
    | some y => exact Or.inr (define_of_bound hx)
  · exact Or.inr (define_of_size_le hs)

@[simp]
theorem size_define : (t.define s x).2.scopes.size = t.scopes.size := by
  rcases define_cases t s x with ⟨hs, hx⟩ | h
  · obtain ⟨scope, -, -, hdefine⟩ := define_of_free hs hx
    simp [hdefine]
  · rw [h]

@[simp]
theorem parent?_define : (t.define s x).2.parent? r = t.parent? r := by
  rcases define_cases t s x with ⟨hs, hx⟩ | h
  · unfold parent?
    rw [scope?_define_of_free hs hx]
    split_ifs
    · cases t.scope? r <;> rfl
    · rfl
  · rw [h]

@[simp]
theorem owner?_define : (t.define s x).2.owner? r = t.owner? r := by
  rcases define_cases t s x with ⟨hs, hx⟩ | h
  · unfold owner?
    rw [scope?_define_of_free hs hx]
    split_ifs
    · cases t.scope? r <;> rfl
    · rfl
  · rw [h]

theorem define_fst_of_free {t : Table} {s : ScopeId} {x : Symbol} (hs : s.index < t.scopes.size)
    (hx : t.localResolve s x.name = none) : (t.define s x).1 = some ⟨t.symbols.size⟩ := by
  obtain ⟨scope, -, -, hdefine⟩ := define_of_free hs hx
  rw [hdefine]

theorem symbols_define_of_free {t : Table} {s : ScopeId} {x : Symbol}
    (hs : s.index < t.scopes.size) (hx : t.localResolve s x.name = none) :
    (t.define s x).2.symbols = t.symbols.push x := by
  obtain ⟨scope, -, -, hdefine⟩ := define_of_free hs hx
  rw [hdefine]

theorem symbol?_define_of_free {t : Table} {s : ScopeId} {x : Symbol}
    (hs : s.index < t.scopes.size) (hx : t.localResolve s x.name = none) (y : SymbolId) :
    (t.define s x).2.symbol? y = if y.index = t.symbols.size then some x else t.symbol? y := by
  unfold symbol?
  rw [symbols_define_of_free hs hx, Array.getElem?_push]

/-- The new name is bound, and nothing else changes. -/
theorem localResolve_define_of_free {t : Table} {s : ScopeId} {x : Symbol}
    (hs : s.index < t.scopes.size) (hx : t.localResolve s x.name = none) (r : ScopeId)
    (name : String) :
    (t.define s x).2.localResolve r name =
      if s = r ∧ name = x.name then some ⟨t.symbols.size⟩ else t.localResolve r name := by
  unfold localResolve at hx ⊢
  rw [scope?_define_of_free hs hx]
  by_cases h : s = r
  · subst h
    have hscope : t.scope? s = some t.scopes[s.index] := Array.getElem?_eq_getElem hs
    rw [hscope] at hx ⊢
    simp only [Option.bind_some, Option.map_some, if_true, true_and, Scope.lookup_bind]
  · simp [h]

/-! ## Adding a parameter -/

variable (f y z : SymbolId)

@[simp]
theorem scopes_addParameter : (t.addParameter f y).scopes = t.scopes := rfl

@[simp]
theorem size_symbols_addParameter : (t.addParameter f y).symbols.size = t.symbols.size := by
  simp [addParameter]

@[simp]
theorem parent?_addParameter : (t.addParameter f y).parent? r = t.parent? r := rfl

@[simp]
theorem owner?_addParameter : (t.addParameter f y).owner? r = t.owner? r := rfl

@[simp]
theorem localResolve_addParameter :
    (t.addParameter f y).localResolve r name = t.localResolve r name :=
  rfl

/-- Only the symbol of the function changes. -/
theorem symbol?_addParameter :
    (t.addParameter f y).symbol? z =
      if f.index = z.index then (t.symbol? z).map (Symbol.addParameter y) else t.symbol? z := by
  simp only [addParameter, symbol?, Array.getElem?_modify]

/-! ## Chains of scopes -/

/-- Parents have smaller numbers than their children. -/
def Descends : Prop :=
  ∀ s p, t.parent? s = some p → p.index < s.index

/-- With enough steps the chain no longer depends on their number. -/
theorem chainWithin_congr {t : Table} (ht : t.Descends) {a b : Nat} {s : ScopeId}
    (ha : s.index < a) (hb : s.index < b) : t.chainWithin a s = t.chainWithin b s := by
  induction a generalizing b s with
  | zero => exact absurd ha (Nat.not_lt_zero _)
  | succ a ih =>
    obtain ⟨b, rfl⟩ : ∃ c, b = c + 1 := ⟨b - 1, by omega⟩
    simp only [chainWithin]
    cases hp : t.parent? s with
    | none => rfl
    | some p =>
      -- Each step leads to a smaller number, so there are at most as many steps as the number says.
      have hlt : p.index < s.index := ht s p hp
      have hrest : t.chainWithin a p = t.chainWithin b p := ih (by omega) (by omega)
      simp [hrest]

/-- The way outwards goes on with the way from the parent. -/
theorem chain_eq {t : Table} (ht : t.Descends) (s : ScopeId) :
    t.chain s = s :: ((t.parent? s).map t.chain).getD [] := by
  -- The chain of the parent has one step less to go, and that is still enough for it.
  change s :: ((t.parent? s).map (t.chainWithin s.index)).getD [] = _
  cases hp : t.parent? s with
  | none => rfl
  | some p =>
    have hrest : t.chainWithin s.index p = t.chain p :=
      chainWithin_congr ht (ht s p hp) (Nat.lt_succ_self _)
    simp [hrest]

/-- Looking a name up is a recursion along parents. -/
theorem resolve_eq {t : Table} (ht : t.Descends) (s : ScopeId) (name : String) :
    t.resolve s name = (t.localResolve s name).or ((t.parent? s).bind (t.resolve · name)) := by
  unfold resolve
  rw [chain_eq ht]
  cases hl : t.localResolve s name with
  | some x => simp [hl]
  | none =>
    cases t.parent? s with
    | none => simp [hl]
    | some p => simp [hl]

/-- Nothing is around the global scope. -/
theorem resolve_global {t : Table} (ht : t.Descends) (name : String) :
    t.resolve global name = t.localResolve global name := by
  -- Numbers fall along parents, so the scope with number zero has none.
  have hroot : t.parent? global = none := by
    cases hparent : t.parent? global with
    | none => rfl
    | some r => exact absurd (ht _ r hparent) (Nat.not_lt_zero _)
  rw [resolve_eq ht, hroot, Option.bind_none, Option.or_none]

end Primer.Table
