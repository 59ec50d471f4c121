import Primer.Proofs.Scope.Consistency

/-!
# What an operation changes for looking names up

A new symbol is found from the scope it is defined in and from every scope further in, up to those
that lie behind another binding of its name (`Table.Exposed`). From everywhere else, and under every
other name, the same is found as before. A new scope binds nothing: it finds what its parent finds,
and nothing changes for the scopes that are there.

Both follow the way outwards, one scope at a time. `Table.resolve_of_steps` says it for every table
that is reached from the empty one.
-/

namespace Primer.Table

variable {t : Table} {s r parent : ScopeId} {name : String}

/-! ## The way to a scope -/

/-- The scopes on the way from a scope outwards to `s`, where `s` itself is left out. -/
inductive Way (t : Table) (s : ScopeId) : ScopeId → List ScopeId → Prop where
  | here : Way t s s []
  | outwards {r p : ScopeId} {way : List ScopeId} (hparent : t.parent? r = some p)
      (h : Way t s p way) : Way t s r (r :: way)

/-- A name bound in `s` can be seen from `r`: the way outwards from `r` comes to `s`, and no scope
before `s` binds the name. -/
def Exposed (t : Table) (name : String) (s r : ScopeId) : Prop :=
  ∃ way, t.Way s r way ∧ ∀ q ∈ way, t.localResolve q name = none

theorem exposed_self (t : Table) (name : String) (s : ScopeId) : t.Exposed name s s :=
  ⟨[], .here, fun _ hq => absurd hq List.not_mem_nil⟩

theorem Exposed.inwards {p : ScopeId} (h : t.Exposed name s p) (hparent : t.parent? r = some p)
    (hfree : t.localResolve r name = none) : t.Exposed name s r := by
  obtain ⟨way, hway, hnone⟩ := h
  exact ⟨r :: way, .outwards hparent hway, List.forall_mem_cons.mpr ⟨hfree, hnone⟩⟩

/-! ## Defining a symbol -/

section Define

variable {x : Symbol}

theorem descends_define (ht : t.Descends) (s : ScopeId) (x : Symbol) :
    (t.define s x).2.Descends := by
  intro r p h
  rw [parent?_define] at h
  exact ht r p h

/-- The name is refused exactly if the scope binds it already. -/
theorem define_fst_eq_none_iff (hs : s.index < t.scopes.size) (x : Symbol) :
    (t.define s x).1 = none ↔ (t.localResolve s x.name).isSome = true := by
  cases hx : t.localResolve s x.name with
  | some y => simp [define_of_bound hx]
  | none => simp [define_fst_of_free hs hx]

theorem define_snd_of_fst_eq_none (h : (t.define s x).1 = none) : (t.define s x).2 = t := by
  rcases define_cases t s x with ⟨hs, hx⟩ | hnothing
  · rw [define_fst_of_free hs hx] at h
    cases h
  · rw [hnothing]

/-- The new symbol is found from every scope that it is exposed to. -/
theorem Exposed.resolve_define (ht : t.Descends) (hs : s.index < t.scopes.size)
    (hx : t.localResolve s x.name = none) (h : t.Exposed x.name s r) :
    (t.define s x).2.resolve r x.name = some ⟨t.symbols.size⟩ := by
  obtain ⟨way, hway, hnone⟩ := h
  -- Along the way there is no binding, so looking up goes on until it comes to the new one.
  induction hway with
  | here =>
    rw [resolve_eq (descends_define ht s x), localResolve_define_of_free hs hx, if_pos ⟨rfl, rfl⟩]
    rfl
  | @outwards r p way hparent _ ih =>
    obtain ⟨hfree, hrest⟩ := List.forall_mem_cons.mp hnone
    have hlocal : (t.define s x).2.localResolve r x.name = if s = r then some ⟨t.symbols.size⟩
        else none := by
      simp [localResolve_define_of_free hs hx, hfree]
    rw [resolve_eq (descends_define ht s x), hlocal, parent?_define, hparent, Option.bind_some,
      ih hrest]
    split_ifs <;> rfl

/-- Where the new symbol is not exposed, the same is found as before. -/
theorem resolve_define_of_not_exposed (ht : t.Descends) (hs : s.index < t.scopes.size)
    (hx : t.localResolve s x.name = none) (h : ¬(name = x.name ∧ t.Exposed x.name s r)) :
    (t.define s x).2.resolve r name = t.resolve r name := by
  -- Numbers fall along parents, so the claim for the parent comes first.
  induction hn : r.index using Nat.strongRecOn generalizing r with
  | ind n ih =>
    have hlocal : (t.define s x).2.localResolve r name = t.localResolve r name := by
      rw [localResolve_define_of_free hs hx, if_neg]
      rintro ⟨rfl, hname⟩
      exact h ⟨hname, exposed_self t x.name s⟩
    rw [resolve_eq (descends_define ht s x), resolve_eq ht, hlocal, parent?_define]
    cases hfree : t.localResolve r name with
    | some y => rfl
    | none =>
      cases hparent : t.parent? r with
      | none => rfl
      | some p =>
        refine congrArg _ (ih p.index (hn ▸ ht r p hparent) (fun hp => h ⟨hp.1, ?_⟩) rfl)
        exact hp.2.inwards hparent (hp.1 ▸ hfree)

/-- What becomes of a table in which `x` is defined in the scope `s` under the number `id`. -/
structure Inserted (t : Table) (s : ScopeId) (x : Symbol) (id : SymbolId) (t' : Table) : Prop where
  symbol : t'.symbol? id = some x
  /-- Every scope that the new symbol is exposed to finds it under its name. -/
  found : ∀ r, t.Exposed x.name s r → t'.resolve r x.name = some id
  /-- All else is found as before. -/
  unchanged : ∀ r name, ¬(name = x.name ∧ t.Exposed x.name s r) →
    t'.resolve r name = t.resolve r name

theorem inserted_of_define (ht : t.Descends) {id : SymbolId} (h : (t.define s x).1 = some id) :
    t.Inserted s x id (t.define s x).2 := by
  rcases define_cases t s x with ⟨hs, hx⟩ | hnothing
  · obtain rfl : ⟨t.symbols.size⟩ = id :=
      Option.some.inj ((define_fst_of_free hs hx).symm.trans h)
    exact {
      symbol := by rw [symbol?_define_of_free hs hx, if_pos rfl]
      found := fun r hr => hr.resolve_define ht hs hx
      unchanged := fun r name hr => resolve_define_of_not_exposed ht hs hx hr }
  · rw [hnothing] at h
    cases h

end Define

/-! ## Opening a scope -/

section Open

variable {owner : Option SymbolId}

/-- What becomes of a table in which a scope is opened inside `parent`. -/
structure Opened (t : Table) (parent : ScopeId) (opened : ScopeId × Table) : Prop where
  /-- The scope is a new one, and the only one. -/
  fresh : opened.1.index = t.scopes.size
  size : opened.2.scopes.size = t.scopes.size + 1
  unchanged : ∀ r : ScopeId, r.index < t.scopes.size →
    ∀ name, opened.2.resolve r name = t.resolve r name
  inherited : ∀ name, opened.2.resolve opened.1 name = opened.2.resolve parent name

theorem resolve_openScope_of_lt (ht : t.Descends) (ht' : (t.openScope parent owner).2.Descends)
    (hr : r.index < t.scopes.size) (name : String) :
    (t.openScope parent owner).2.resolve r name = t.resolve r name := by
  induction hn : r.index using Nat.strongRecOn generalizing r with
  | ind n ih =>
    have hparent : (t.openScope parent owner).2.parent? r = t.parent? r := by
      rw [parent?_openScope, if_neg (Nat.ne_of_lt hr)]
    rw [resolve_eq ht', resolve_eq ht, localResolve_openScope, hparent]
    cases hp : t.parent? r with
    | none => rfl
    | some p =>
      -- The parent of a scope that was there was there too.
      have hlt : p.index < r.index := ht r p hp
      exact congrArg _ (ih p.index (hn ▸ hlt) (Nat.lt_trans hlt hr) rfl)

theorem opened_openScope (ht : t.Consistent) (hparent : parent.index < t.scopes.size)
    (owner : Option SymbolId) : t.Opened parent (t.openScope parent owner) := by
  have ht' := (ht.openScope owner hparent).descends
  refine ⟨rfl, size_openScope t parent owner,
    fun r hr name => resolve_openScope_of_lt ht.descends ht' hr name, fun name => ?_⟩
  have hnew : (t.openScope parent owner).2.parent? ⟨t.scopes.size⟩ = some parent := by
    rw [parent?_openScope, if_pos rfl]
  have hfree : t.localResolve ⟨t.scopes.size⟩ name = none :=
    localResolve_eq_none_of_size_le name (Nat.le_refl _)
  rw [openScope_fst, resolve_eq ht', localResolve_openScope, hfree, hnew]
  rfl

end Open

/-! ## Every table -/

/-- What can be found after an operation, in every table. A definition is refused exactly if the
scope binds the name, and then nothing changes. If it is not refused, the new symbol is found where
it is exposed, and all else as before. A new scope finds what its parent finds, and nothing changes
for the others. -/
theorem resolve_of_steps {t : Table} (h : Steps empty t) :
    (∀ s : ScopeId, s.index < t.scopes.size → ∀ x : Symbol,
      ((t.define s x).1 = none ↔ (t.localResolve s x.name).isSome = true) ∧
      ((t.define s x).1 = none → (t.define s x).2 = t) ∧
      ∀ id, (t.define s x).1 = some id → t.Inserted s x id (t.define s x).2) ∧
    ∀ parent : ScopeId, parent.index < t.scopes.size →
      (∀ owner, t.Opened parent (t.openScope parent owner)) ∧
        t.Opened parent (t.openBlock parent) := by
  have ht := h.consistent consistent_empty
  constructor
  · intro s hs x
    exact ⟨define_fst_eq_none_iff hs x, define_snd_of_fst_eq_none,
      fun id hid => inserted_of_define ht.descends hid⟩
  · intro parent hparent
    exact ⟨opened_openScope ht hparent, opened_openScope ht hparent (t.owner? parent)⟩

/-- A parameter `x` of the function is seen from its own scope, but not from the blocks that bind
`x` again. A parameter `y` is seen from the innermost block, but not from outside. A block that is
opened in the innermost one sees the `x` of that block. -/
theorem resolve_of_steps_shadowed :
    Steps empty shadowed ∧
      (shadowed.define ⟨1⟩ (.var "x" .bool)).2.resolve ⟨1⟩ "x" = some ⟨4⟩ ∧
      (shadowed.define ⟨1⟩ (.var "x" .bool)).2.resolve ⟨3⟩ "x" = some ⟨3⟩ ∧
      (shadowed.define ⟨1⟩ (.var "y" .bool)).2.resolve ⟨3⟩ "y" = some ⟨4⟩ ∧
      (shadowed.define ⟨1⟩ (.var "y" .bool)).2.resolve ⟨0⟩ "y" = none ∧
      (shadowed.openBlock ⟨3⟩).2.resolve (shadowed.openBlock ⟨3⟩).1 "x" = some ⟨3⟩ := by
  obtain ⟨hdefine, hopen⟩ := resolve_of_steps steps_shadowed
  have hx := (hdefine ⟨1⟩ (by decide) (.var "x" .bool)).2.2 ⟨4⟩ (by decide)
  have hy := (hdefine ⟨1⟩ (by decide) (.var "y" .bool)).2.2 ⟨4⟩ (by decide)
  have hblock := (hopen ⟨3⟩ (by decide)).2
  refine ⟨steps_shadowed, hx.found ⟨1⟩ (exposed_self _ _ _), ?_, ?_, ?_, ?_⟩
  · refine (hx.unchanged ⟨3⟩ "x" ?_).trans (by decide)
    -- The innermost block is on every way from it, and it binds the name.
    rintro ⟨-, way, hway, hnone⟩
    cases hway with
    | outwards _ _ => exact absurd (hnone ⟨3⟩ List.mem_cons_self) (by decide)
  · exact hy.found ⟨3⟩ ⟨[⟨3⟩, ⟨2⟩], .outwards (by decide) (.outwards (by decide) .here), by decide⟩
  · refine (hy.unchanged ⟨0⟩ "y" ?_).trans (by decide)
    rintro ⟨-, way, hway, -⟩
    have hroot : shadowed.parent? ⟨0⟩ = none := by decide
    cases hway with
    | outwards hparent _ => exact absurd (hroot.symm.trans hparent) (by simp)
  · exact (hblock.inherited "x").trans ((hblock.unchanged ⟨3⟩ (by decide) "x").trans (by decide))

end Primer.Table
