import Primer.Proofs.Analysis.UseOrder
import Primer.Proofs.Machine.Routine

/-!
# Which variables get slots

In a tree that was analyzed itself and accepted, the variables that have a slot at the end of a body
are exactly those that the body declares, at any depth: a declaration gives its variable a slot
(`Stmt.Emits.declared`), and what a name in the body can mean is a parameter or one of these
variables (`Stmt.Emits.within`). So the number of slots can be read off the declarations
(`Block.Emits.nextSlot_eq`).
-/

namespace Primer

open Machine

variable {L I : Type}

/-! ## The widths of all variables -/

namespace Machine

theorem slotsOf_perm {types types' : List Ty} (h : types.Perm types') :
    slotsOf types = slotsOf types' := by
  induction h with
  | nil => rfl
  | cons type _ ih => exact congrArg ((Kind.ofTy type).width + ·) ih
  | swap type type' types => exact Nat.add_left_comm _ _ _
  | trans _ _ ih ih' => exact ih.trans ih'

namespace Frame

variable {t : Table} {f g : Frame} {base : Nat}

/-- The variables that have slots, the newest first. -/
def owners (f : Frame) : List SymbolId :=
  f.locals.map Prod.fst

theorem mem_owners {x : SymbolId} : x ∈ f.owners ↔ ∃ n, f.locals.lookup x = some n := by
  constructor
  · intro hx
    cases hlookup : f.locals.lookup x with
    | some n => exact ⟨n, rfl⟩
    | none =>
      obtain ⟨entry, hentry, rfl⟩ := List.mem_map.mp hx
      have hne := List.lookup_eq_none_iff.mp hlookup entry hentry
      simp at hne
  · rintro ⟨n, hn⟩
    obtain ⟨before, after, hsplit, -⟩ := List.lookup_eq_some_iff.mp hn
    simp [owners, hsplit]

/-- No variable has slots twice, and the slots that are in use are those of the variables and the
first `base`. -/
structure Tallied (t : Table) (base : Nat) (f : Frame) : Prop where
  nodup : f.owners.Nodup
  total : f.nextSlot = base + slotsOf (f.owners.map t.typeOf)

theorem tallied_start (t : Table) (base : Nat) : Tallied t base (.start base) :=
  ⟨List.nodup_nil, rfl⟩

theorem Tallied.slot (h : Tallied t base f) (x : SymbolId) :
    Tallied t base (f.slot x (t.typeOf x)).2 := by
  cases hx : f.locals.lookup x with
  | some n => simpa [Frame.slot, hx] using h
  | none =>
    -- A variable without a slot is not among the owners, so the list stays free of duplicates.
    have hnew : x ∉ f.owners := by
      intro hmem
      obtain ⟨n, hn⟩ := mem_owners.mp hmem
      rw [hx] at hn
      cases hn
    have howners : (f.slot x (t.typeOf x)).2.owners = x :: f.owners := by
      simp [Frame.slot, hx, owners]
    have hnext : (f.slot x (t.typeOf x)).2.nextSlot = f.nextSlot + width t x := by
      simp [Frame.slot, hx, width]
    -- The new owner is put in front, and its width is added to the total.
    refine ⟨howners ▸ List.nodup_cons.mpr ⟨hnew, h.nodup⟩, ?_⟩
    rw [hnext, howners, h.total, Nat.add_assoc, Nat.add_comm (slotsOf _)]
    rfl

theorem Grows.tallied (hg : Grows t f g) (h : Tallied t base f) : Tallied t base g := by
  induction hg with
  | refl => exact h
  | slot f x => exact h.slot x
  | labels f n => exact ⟨h.nodup, h.total⟩
  | trans _ _ ihfg ihgh => exact ihgh (ihfg h)

end Frame

end Machine

/-! ## Declarations give slots -/

theorem SymbolId.block_add (k n n' : Nat) :
    SymbolId.block k (n + n') = SymbolId.block k n ++ SymbolId.block (k + n) n' := by
  simp [SymbolId.block, ← List.range'_append_1]

theorem SymbolId.mem_block {k n : Nat} {x : SymbolId} :
    x ∈ SymbolId.block k n ↔ k ≤ x.index ∧ x.index < k + n := by
  constructor
  · intro h
    obtain ⟨j, hj, rfl⟩ := List.mem_map.mp h
    simpa using hj
  · intro h
    exact List.mem_map.mpr ⟨x.index, by simpa using h, rfl⟩

mutual

/-- The types that the declarations in a statement name, at any depth. -/
def Stmt.declaredTypes : Stmt L I → List Ty
  | .declare _ type _ _ => [(Ty.named? type.text).getD .error]
  | .assign .. | .assignAt .. | .ret .. | .print .. | .call .. => []
  | .ifThen _ _ yes => yes.declaredTypes
  | .ifElse _ _ yes no => yes.declaredTypes ++ no.declaredTypes
  | .loop _ _ body => body.declaredTypes

/-- The types that the declarations in a block name, at any depth. -/
def Block.declaredTypes : Block L I → List Ty
  | .mk _ statements => Block.declaredTypesAll statements

/-- The types that the declarations in the statements of a block name, at any depth. -/
def Block.declaredTypesAll : List (Stmt L I) → List Ty
  | [] => []
  | st :: sts => st.declaredTypes ++ Block.declaredTypesAll sts

end

section Own

variable {t : Table} {m : ScopeMap}

mutual

/-- The symbols of a statement have the types that its declarations name. -/
theorem Stmt.Bound.map_typeOf {s : ScopeId} {k : Nat} : {st : Stmt L NodeId} → st.Bound t m s k →
    (SymbolId.block k st.variableCount).map t.typeOf = st.declaredTypes
  | .declare .., .declare htype hsymbol _ => by
    simp [Stmt.variableCount, Stmt.declaredTypes, SymbolId.block, htype, Table.typeOf, hsymbol,
      Symbol.type]
  | .ifThen _ _ yes, .ifThen hyes => hyes.map_typeOf
  | .ifElse _ _ yes no, .ifElse hyes hno => by
    rw [Stmt.variableCount, Stmt.declaredTypes, SymbolId.block_add, List.map_append,
      hyes.map_typeOf, hno.map_typeOf]
  | .loop _ _ body, .loop hbody => hbody.map_typeOf
  | .assign .., .assign | .assignAt .., .assignAt | .ret .., .ret | .print .., .print
  | .call .., .call => rfl

theorem Block.Bound.map_typeOf {s : ScopeId} {k : Nat} : {b : Block L NodeId} → b.Bound t m s k →
    (SymbolId.block k b.variableCount).map t.typeOf = b.declaredTypes
  | .mk .., .mk _ _ _ _ hsts => Block.map_typeOf_all hsts

theorem Block.map_typeOf_all {s : ScopeId} {k : Nat} : {sts : List (Stmt L NodeId)} →
    (∀ k' st, (k', st) ∈ Block.numbered k sts → Stmt.Bound t m s k' st) →
    (SymbolId.block k (Block.variableCountAll sts)).map t.typeOf = Block.declaredTypesAll sts
  | [], _ => rfl
  | st :: sts, hsts => by
    have hst := hsts k st List.mem_cons_self
    rw [Block.variableCountAll, Block.declaredTypesAll, SymbolId.block_add, List.map_append,
      hst.map_typeOf,
      Block.map_typeOf_all fun k' st' hmem => hsts k' st' (List.mem_cons_of_mem _ hmem)]

end

end Own

section Statements

open Machine.Frame

variable {c : Context} {m : ScopeMap}

mutual

/-- Every variable that a statement declares has a slot afterwards. -/
theorem Stmt.Emits.declared {s : ScopeId} {k : Nat} {f f' : Frame} {code : Code} :
    {st : Stmt L NodeId} → st.Emits c m s f code f' → st.Bound c.table m s k →
      ∀ x ∈ SymbolId.block k st.variableCount, x ∈ f'.owners
  | _, .undeclared hnone, .declare _ _ hlocal, _, _ => by
    rw [hnone] at hlocal
    cases hlocal
  | _, .declare hsome, .declare _ _ hlocal, x, hx => by
    obtain rfl := Option.some.inj (hsome.symm.trans hlocal)
    obtain rfl : x = ⟨k⟩ := by simpa [SymbolId.block, Stmt.variableCount] using hx
    exact mem_owners.mpr ⟨_, lookup_slot _ _⟩
  | _, .declareWith hsome, .declare _ _ hlocal, x, hx => by
    obtain rfl := Option.some.inj (hsome.symm.trans hlocal)
    obtain rfl : x = ⟨k⟩ := by simpa [SymbolId.block, Stmt.variableCount] using hx
    -- The value is emitted after the slot is given, and takes no slot away.
    exact mem_owners.mpr ⟨_, (Expr.grows_emit _ _).lookup (lookup_slot _ _)⟩
  | _, .ifThen _ hyes, .ifThen hbound, x, hx => hyes.declared hbound x hx
  | _, .ifElse _ hyes hno, .ifElse hbyes hbno, x, hx => by
    rw [Stmt.variableCount, SymbolId.block_add] at hx
    rcases List.mem_append.mp hx with hx | hx
    · obtain ⟨n, hn⟩ := mem_owners.mp (hyes.declared hbyes x hx)
      exact mem_owners.mpr ⟨n, ((Grows.labels _ 1).trans hno.grows).lookup hn⟩
    · exact hno.declared hbno x hx
  | _, .loop _ hbody, .loop hbound, x, hx => hbody.declared hbound x hx
  | _, .assign, _, _, hx | _, .assignAt _ _, _, _, hx | _, .ret, _, _, hx | _, .retValue, _, _, hx
  | _, .newline, _, _, hx | _, .print, _, _, hx | _, .call _, _, _, hx =>
    absurd hx List.not_mem_nil

theorem Block.Emits.declared {s : ScopeId} {k : Nat} {f f' : Frame} {code : Code} :
    {b : Block L NodeId} → b.Emits c m f code f' → b.Bound c.table m s k →
      ∀ x ∈ SymbolId.block k b.variableCount, x ∈ f'.owners
  | _, .mk hnode hsts, .mk hnode' _ _ _ hbound, x, hx => by
    obtain rfl := Option.some.inj (hnode.symm.trans hnode')
    exact hsts.declared hbound x hx

theorem Block.EmitsAll.declared {s : ScopeId} {k : Nat} {f f' : Frame} {code : Code} :
    {sts : List (Stmt L NodeId)} → Block.EmitsAll c m s sts f code f' →
      (∀ k' st, (k', st) ∈ Block.numbered k sts → Stmt.Bound c.table m s k' st) →
      ∀ x ∈ SymbolId.block k (Block.variableCountAll sts), x ∈ f'.owners
  | _, .nil, _, _, hx => absurd hx List.not_mem_nil
  | _, .cons hst hsts, hbound, x, hx => by
    rw [Block.variableCountAll, SymbolId.block_add] at hx
    rcases List.mem_append.mp hx with hx | hx
    · obtain ⟨n, hn⟩ := mem_owners.mp (hst.declared (hbound _ _ List.mem_cons_self) x hx)
      exact mem_owners.mpr ⟨n, hsts.grows.lookup hn⟩
    · exact hsts.declared (fun k' st hmem => hbound k' st (List.mem_cons_of_mem _ hmem)) x hx

end

end Statements

/-! ## Nothing else gets a slot -/

/-- The variables that names can mean in the scope are among the given ones. -/
def Table.Offers (t : Table) (S : SymbolId → Prop) (s : ScopeId) : Prop :=
  ∀ name x τ, t.varType? s name = some τ → t.resolve s name = some x → S x

/-- A scope offers what it binds itself and what the scope around it offers. -/
theorem Table.Offers.enter {t : Table} (ht : t.Descends) {S : SymbolId → Prop} {s r : ScopeId}
    (h : t.Offers S s) (hparent : t.parent? r = some s)
    (hlocal : ∀ name x, t.localResolve r name = some x → S x) : t.Offers S r := by
  intro name x τ hτ hx
  cases hbound : t.localResolve r name with
  | some y =>
    have hy : t.resolve r name = some y := by simp [resolve_eq ht r name, hbound]
    obtain rfl := Option.some.inj (hx.symm.trans hy)
    exact hlocal name x hbound
  | none =>
    -- The name means what it means outside.
    have houter : t.resolve r name = t.resolve s name := by
      simp [resolve_eq ht r name, hbound, hparent]
    rw [varType?, houter, ← varType?] at hτ
    exact h name x τ hτ (houter ▸ hx)

section Within

open Machine.Frame

variable {c : Context} {m : ScopeMap} {S : SymbolId → Prop}

/-- All variables that have slots are among the given ones. -/
def Machine.Frame.Within (S : SymbolId → Prop) (f : Frame) : Prop :=
  ∀ x ∈ f.owners, S x

theorem Machine.Frame.Within.slot {f : Frame} (hf : f.Within S) {x : SymbolId} (hx : S x)
    (type : Ty) : (f.slot x type).2.Within S := by
  intro y hy
  by_cases hne : y = x
  · exact hne ▸ hx
  · rw [mem_owners, lookup_slot_of_ne hne, ← mem_owners] at hy
    exact hf y hy

variable {s : ScopeId} (hs : c.table.Offers (fun x => x ∈ c.arguments ∨ S x) s)

include hs

theorem Machine.Context.within_storage? {name : String} {τ : Ty}
    (hvar : c.table.varType? s name = some τ) {f : Frame} (hf : f.Within S) :
    (c.storage? s name f).2.Within S := by
  unfold storage?
  cases hx : c.table.resolve s name with
  | none => exact hf
  | some x =>
    cases hposition : c.arguments.idxOf? x with
    | some position => simpa [hposition] using hf
    | none =>
      have hargument : x ∉ c.arguments := List.idxOf?_eq_none_iff.mp hposition
      simpa [hposition] using hf.slot ((hs name x τ hvar hx).resolve_left hargument) _

theorem Machine.Context.within_load {name : String} {τ : Ty}
    (hvar : c.table.varType? s name = some τ) {f : Frame} (hf : f.Within S) :
    (c.load s name f).frame.Within S := by
  have h := within_storage? hs hvar hf
  unfold load
  split
  next hstorage => rwa [hstorage] at h
  next hstorage => rwa [hstorage] at h

theorem Machine.Context.within_store {name : String} {τ : Ty}
    (hvar : c.table.varType? s name = some τ) {f : Frame} (hf : f.Within S) :
    (c.store s name f).2.Within S := by
  have h := within_storage? hs hvar hf
  unfold store
  split
  next hstorage => rwa [hstorage] at h
  next hstorage => rwa [hstorage] at h

omit hs in
private theorem Expr.within_emitAll_of {es : List (Expr L)}
    (ih : ∀ e ∈ es, ∀ f : Frame, f.Within S → (e.emit c s f).frame.Within S) {f : Frame}
    (hf : f.Within S) : (Expr.emitAll c s es f).2.Within S := by
  induction es generalizing f with
  | nil => exact hf
  | cons e es ihs =>
    exact ihs (fun e he => ih e (List.mem_cons_of_mem _ he)) (ih e List.mem_cons_self f hf)

omit hs in
private theorem Expr.within_emitElements_of {es : List (Expr L)}
    (ih : ∀ e ∈ es, ∀ f : Frame, f.Within S → (e.emit c s f).frame.Within S) (element : Element)
    (n : Nat) {f : Frame} (hf : f.Within S) :
    (Expr.emitElements c s element n es f).2.Within S := by
  induction es generalizing f n with
  | nil => exact hf
  | cons e es ihs =>
    exact ihs (fun e he => ih e (List.mem_cons_of_mem _ he)) _ (ih e List.mem_cons_self f hf)

/-- An expression that has a type loads only variables that its scope offers. -/
theorem Expr.within_emit {e : Expr L} (h : ∃ τ, e.HasType c.table s τ) {f : Frame}
    (hf : f.Within S) : (e.emit c s f).frame.Within S := by
  obtain ⟨τ, hτ⟩ := h
  induction e using Expr.inductionOn generalizing τ f with
  | int | float | bool | char | str => exact hf
  | read p name =>
    cases hτ with | read hvar _ => exact Context.within_load hs hvar hf
  | call p callee arguments ih =>
    refine within_emitAll_of (fun e he f hf => ?_) hf
    obtain ⟨σ, hσ⟩ := hτ.part he
    exact ih e he hf σ hσ
  | index p base position ih =>
    cases hτ with
    | index hvar _ hposition => exact ih (Context.within_load hs hvar hf) _ hposition
  | length p operand ih =>
    cases hτ with | length hoperand _ => exact ih hf _ hoperand
  | paren p operand ih =>
    cases hτ with | paren hoperand => exact ih hf _ hoperand
  | negate p operand ih =>
    cases hτ with | negate hoperand _ => exact ih hf _ hoperand
  | binary p op lhs rhs ihl ihr =>
    have hleft : lhs ∈ (Expr.binary p op lhs rhs).parts := List.mem_cons_self
    have hright : rhs ∈ (Expr.binary p op lhs rhs).parts :=
      List.mem_cons_of_mem _ (List.mem_singleton_self _)
    obtain ⟨σ, hl⟩ := hτ.part hleft
    obtain ⟨σ', hr⟩ := hτ.part hright
    have hoperands := ihr (ihl hf σ hl) σ' hr
    -- The operator itself takes at most labels.
    simp only [emit, operator]
    split <;> exact hoperands
  | array p elements ih =>
    simp only [emit]
    split
    · exact hf
    · refine within_emitElements_of (fun e he f hf => ?_) _ 0 hf
      obtain ⟨σ, hσ⟩ := hτ.part he
      exact ih e he hf σ hσ
  | newArray p element size ih =>
    cases hτ with | newArray _ _ hsize => exact ih hf _ hsize

theorem Expr.within_emitAll {es : List (Expr L)} (h : ∀ e ∈ es, ∃ τ, e.HasType c.table s τ)
    {f : Frame} (hf : f.Within S) : (Expr.emitAll c s es f).2.Within S :=
  within_emitAll_of (fun e he _ hf => within_emit hs (h e he) hf) hf

omit hs

variable {owner : Option SymbolId} {returns : Option Ty}

mutual

/-- A well-typed statement gives slots only to variables that its scope offers and to those that it
declares. -/
theorem Stmt.Emits.within (ht : c.table.Descends) {s : ScopeId} {k : Nat} {f f' : Frame}
    {code : Code} :
    {st : Stmt L NodeId} → st.Emits c m s f code f' → st.Placed c.table m owner s →
      st.Bound c.table m s k → st.WellTyped c.table m c.arguments returns s →
      c.table.Offers (fun x => x ∈ c.arguments ∨ S x) s →
      (∀ x ∈ SymbolId.block k st.variableCount, S x) → f.Within S → f'.Within S
  | _, .undeclared _, _, _, _, _, _, hf => hf
  | _, .declare hsome, _, .declare _ _ hlocal, _, _, hown, hf => by
    -- The variable that gets the slot is the symbol with the index of this declaration.
    obtain rfl := Option.some.inj (hsome.symm.trans hlocal)
    exact hf.slot (hown _ (by simp [SymbolId.block, Stmt.variableCount])) _
  | _, .declareWith hsome, _, .declare _ _ hlocal, .declare _ _ hvalue, hs, hown, hf => by
    obtain rfl := Option.some.inj (hsome.symm.trans hlocal)
    exact Expr.within_emit hs (hvalue _ rfl).hasType
      (hf.slot (hown _ (by simp [SymbolId.block, Stmt.variableCount])) _)
  | _, .assign, _, _, .assign htarget hvalue, hs, _, hf =>
    Context.within_store hs htarget (Expr.within_emit hs hvalue.hasType hf)
  | _, .assignAt h₁ h₂, _, _, .assignAt htarget _ _ hposition hvalue, hs, _, hf => by
    subst h₁ h₂
    exact Expr.within_emit hs ⟨_, hvalue⟩
      (Expr.within_emit hs ⟨_, hposition⟩ (Context.within_load hs htarget hf))
  | _, .ifThen h₁ hyes, .ifThen hplaced, .ifThen hbound, .ifThen hcondition hwell, hs, hown,
      hf => by
    subst h₁
    exact hyes.within ht hplaced hbound hwell hs hown (Expr.within_emit hs ⟨_, hcondition⟩ hf)
  | _, .ifElse h₁ hyes hno, .ifElse hpyes hpno, .ifElse hbyes hbno, .ifElse hcondition hwyes hwno,
      hs, hown, hf => by
    subst h₁
    -- The indices of the two branches follow each other.
    rw [Stmt.variableCount, SymbolId.block_add] at hown
    have hfirst := hyes.within ht hpyes hbyes hwyes hs
      (fun x hx => hown x (List.mem_append_left _ hx)) (Expr.within_emit hs ⟨_, hcondition⟩ hf)
    exact hno.within ht hpno hbno hwno hs (fun x hx => hown x (List.mem_append_right _ hx)) hfirst
  | _, .loop h₁ hbody, .loop hplaced, .loop hbound, .loop hcondition hwell, hs, hown, hf => by
    subst h₁
    exact hbody.within ht hplaced hbound hwell hs hown (Expr.within_emit hs ⟨_, hcondition⟩ hf)
  | _, .ret, _, _, _, _, _, hf => hf
  | _, .newline, _, _, _, _, _, hf => hf
  | _, .retValue, _, _, .retValue _ _ hvalue, hs, _, hf => Expr.within_emit hs hvalue.hasType hf
  | _, .print, _, _, .print hvalue _ _, hs, _, hf => Expr.within_emit hs ⟨_, hvalue⟩ hf
  | _, .call _, _, _, .call _ hvalues _ _, hs, _, hf =>
    Expr.within_emitAll hs (fun _ he => Expr.exists_hasType_of_mem hvalues he) hf

theorem Block.Emits.within (ht : c.table.Descends) {s : ScopeId} {k : Nat} {f f' : Frame}
    {code : Code} :
    {b : Block L NodeId} → b.Emits c m f code f' → b.Placed c.table m owner s →
      b.Bound c.table m s k → b.WellTyped c.table m c.arguments returns →
      c.table.Offers (fun x => x ∈ c.arguments ∨ S x) s →
      (∀ x ∈ SymbolId.block k b.variableCount, S x) → f.Within S → f'.Within S
  | _, .mk hnode hsts, .mk hnode₁ hparent _ hplaced, .mk hnode₂ _ _ hbinds hbound,
      .mk hnode₃ hwell, hs, hown, hf => by
    -- All of them speak of the scope that is recorded for the block.
    obtain rfl := Option.some.inj (hnode.symm.trans hnode₁)
    obtain rfl := Option.some.inj (hnode.symm.trans hnode₂)
    obtain rfl := Option.some.inj (hnode.symm.trans hnode₃)
    refine hsts.within ht hplaced hbound hwell (hs.enter ht hparent ?_) hown hf
    intro name x hx
    rw [hbinds] at hx
    obtain ⟨declared, hdeclared, rfl⟩ := Option.map_eq_some_iff.mp hx
    obtain ⟨before, after, hlayer, -⟩ := List.lookup_eq_some_iff.mp hdeclared
    have hrange := Block.index_of_mem_layer
      (show (name, declared) ∈ Block.layer k _ by rw [hlayer]; simp)
    exact .inr (hown _ (SymbolId.mem_block.mpr hrange))

theorem Block.EmitsAll.within (ht : c.table.Descends) {s : ScopeId} {k : Nat} {f f' : Frame}
    {code : Code} :
    {sts : List (Stmt L NodeId)} → Block.EmitsAll c m s sts f code f' →
      (∀ st ∈ sts, Stmt.Placed c.table m owner s st) →
      (∀ k' st, (k', st) ∈ Block.numbered k sts → Stmt.Bound c.table m s k' st) →
      (∀ st ∈ sts, Stmt.WellTyped c.table m c.arguments returns s st) →
      c.table.Offers (fun x => x ∈ c.arguments ∨ S x) s →
      (∀ x ∈ SymbolId.block k (Block.variableCountAll sts), S x) → f.Within S → f'.Within S
  | _, .nil, _, _, _, _, _, hf => hf
  | _, .cons hst hsts, hplaced, hbound, hwell, hs, hown, hf => by
    -- The first statement has the first indices of the block, the others have the rest.
    rw [Block.variableCountAll, SymbolId.block_add] at hown
    have hfirst := hst.within ht (hplaced _ List.mem_cons_self) (hbound _ _ List.mem_cons_self)
      (hwell _ List.mem_cons_self) hs (fun x hx => hown x (List.mem_append_left _ hx)) hf
    exact hsts.within ht (fun st hm => hplaced st (List.mem_cons_of_mem _ hm))
      (fun k' st hm => hbound k' st (List.mem_cons_of_mem _ hm))
      (fun st hm => hwell st (List.mem_cons_of_mem _ hm)) hs
      (fun x hx => hown x (List.mem_append_right _ hx)) hfirst

end

/-- The slots of a body that is emitted on its own are those of its declarations. -/
theorem Block.Emits.nextSlot_eq (ht : c.table.Descends) {s : ScopeId} {k base : Nat} {f : Frame}
    {code : Code} {b : Block L NodeId} (h : b.Emits c m (.start base) code f)
    (hplaced : b.Placed c.table m owner s) (hbound : b.Bound c.table m s k)
    (hwell : b.WellTyped c.table m c.arguments returns)
    (hs : c.table.Offers (· ∈ c.arguments) s) :
    f.nextSlot = base + slotsOf b.declaredTypes := by
  -- Around the body only the arguments can be read, and they have no slot in the frame.
  have hoffers : c.table.Offers
      (fun x => x ∈ c.arguments ∨ x ∈ SymbolId.block k b.variableCount) s :=
    fun name x τ hτ hx => .inl (hs name x τ hτ hx)
  have hwithin := h.within ht hplaced hbound hwell hoffers (fun x hx => hx)
    fun x hx => absurd hx List.not_mem_nil
  have htallied := h.grows.tallied (tallied_start c.table base)
  have hnodup : (SymbolId.block k b.variableCount).Nodup :=
    List.Nodup.map (fun x y hxy => SymbolId.mk.inj hxy) List.nodup_range'
  -- Every owner is declared in the body and every declaration has a slot, each of them once.
  have hperm : f.owners.Perm (SymbolId.block k b.variableCount) :=
    (List.perm_ext_iff_of_nodup htallied.nodup hnodup).mpr fun x =>
      ⟨hwithin x, h.declared hbound x⟩
  rw [htallied.total, slotsOf_perm (hperm.map c.table.typeOf), hbound.map_typeOf]

end Within

/-! ## Items of an accepted program -/

/-- The types that the declarations in an item name, at any depth. -/
def Item.declaredTypes : Item L I → List Ty
  | .function f => (f.body.map Block.declaredTypes).getD []
  | .main e => e.body.declaredTypes

section Accepted

variable {p : Program Location} {a : Analysis}

/-- Outside of every function there are no variables. -/
theorem Program.offers_global (hp : p.Distinct) (hclean : (Declarations.ofProgram p).findings = [])
    (S : SymbolId → Prop) : (Declarations.ofProgram p).table.Offers S Table.global := by
  intro name x τ hτ _
  rw [(Program.matches_global hp hclean).varType] at hτ
  cases hτ

/-- The slots of an item that was analyzed and accepted. -/
theorem Item.slots_of_isAccepted (hp : p.Distinct) (ha : p.analyze = .ok a)
    (haccepted : a.isAccepted = true) {i : Item Location NodeId} (hi : i ∈ p.items)
    {o : Outline Location} (ho : i.outline? a.table a.scopes = some o) {r : Routine} {code : Code}
    {f : Frame} (hr : o.Yields a.table a.scopes r code f) :
    r.slots = r.signature.argumentSlots + slotsOf i.declaredTypes := by
  obtain ⟨htable, -, hclean, -⟩ := Program.of_isAccepted ha haccepted
  have hglobal := fun S => Program.offers_global hp hclean S
  have ht := Declarations.descends_ofProgram p
  rw [← htable] at hglobal ht
  obtain ⟨k, hk⟩ := Item.exists_mem_numbered (k := 0) hi
  cases i with
  | function g =>
    obtain ⟨body, s, returns, types, hf, hwell⟩ :=
      Program.wellTyped_function hp ha haccepted hk
    obtain rfl := Option.some.inj (ho.symm.trans hf.outline?_eq)
    have hbody : (Item.function g).declaredTypes = body.declaredTypes := by
      simp [Item.declaredTypes, hf.body_eq]
    -- The scope of a function binds its parameters, which are its arguments.
    have hs : a.table.Offers (· ∈ SymbolId.block (k + 1) g.parameters.length) s := by
      refine (hglobal _).enter ht hf.parent fun name x hx => ?_
      rw [hf.bindings] at hx
      obtain ⟨declared, hdeclared, rfl⟩ := Option.map_eq_some_iff.mp hx
      obtain ⟨before, after, hlayer, -⟩ := List.lookup_eq_some_iff.mp hdeclared
      obtain ⟨j, q, hq, -, rfl⟩ := Parameter.mem_layer
        (show (name, declared) ∈ Parameter.layer (k + 1) g.parameters by rw [hlayer]; simp)
      have hj : j < g.parameters.length := (List.getElem?_eq_some_iff.mp hq).1
      exact SymbolId.mem_block.mpr ⟨Nat.le_add_right _ _, Nat.add_lt_add_left hj _⟩
    rw [hr.slots, hr.signature, hbody]
    exact hr.emits.nextSlot_eq ht hf.placed hf.bound hwell hs
  | main e =>
    obtain ⟨s, he, hwell⟩ := Program.wellTyped_main hp ha haccepted hk
    obtain rfl := Option.some.inj (ho.symm.trans he.outline?_eq)
    have hs : a.table.Offers (· ∈ ([] : List SymbolId)) s := by
      refine (hglobal _).enter ht he.parent fun name x hx => ?_
      rw [he.bindings] at hx
      cases hx
    rw [hr.slots, hr.signature]
    exact hr.emits.nextSlot_eq ht he.placed he.bound hwell hs

end Accepted

end Primer
