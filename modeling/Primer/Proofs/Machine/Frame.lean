import Primer.Proofs.Machine.Composition
import Primer.Proofs.Machine.Emission

/-!
# Frames grow

Emission changes a frame in two ways only: a variable that is met for the first time gets a slot,
and labels are handed out. `Frame.Grows` is generated by these two, and every invariant of frames is
proved for them alone: slots that were given stay (`Grows.lookup`), and the slots of a function
overlap neither one another nor the arguments (`Grows.laid`).
-/

namespace Primer

open Machine

variable {L : Type}

namespace Machine

theorem slotsOf_append (types types' : List Ty) :
    slotsOf (types ++ types') = slotsOf types + slotsOf types' := by
  induction types with
  | nil => exact (Nat.zero_add _).symm
  | cons type types ih =>
    change (Kind.ofTy type).width + slotsOf (types ++ types') = _
    rw [ih, ← Nat.add_assoc]
    rfl

namespace Frame

/-- One frame comes from another by giving slots to variables and handing out labels. -/
inductive Grows (t : Table) : Frame → Frame → Prop where
  | refl (f : Frame) : Grows t f f
  | slot (f : Frame) (x : SymbolId) : Grows t f (f.slot x (t.typeOf x)).2
  | labels (f : Frame) (n : Nat) : Grows t f (f.skipLabels n)
  | trans {f g h : Frame} (hfg : Grows t f g) (hgh : Grows t g h) : Grows t f h

variable {t : Table} {f g : Frame}

/-! ## The slot of a variable -/

theorem lookup_slot (x : SymbolId) (type : Ty) :
    (f.slot x type).2.locals.lookup x = some (f.slot x type).1 := by
  unfold slot
  cases h : f.locals.lookup x with
  | some n => exact h
  | none => simp

/-- Giving a variable a slot does not touch the slots of others. -/
theorem lookup_slot_of_ne {x y : SymbolId} (hne : y ≠ x) (type : Ty) :
    (f.slot x type).2.locals.lookup y = f.locals.lookup y := by
  unfold slot
  cases h : f.locals.lookup x with
  | some n => rfl
  | none =>
    have hbeq : (y == x) = false := beq_eq_false_iff_ne.mpr hne
    simp [List.lookup_cons, hbeq]

/-- A slot that was given stays. -/
theorem Grows.lookup (h : Grows t f g) {x : SymbolId} {n : Nat}
    (hx : f.locals.lookup x = some n) : g.locals.lookup x = some n := by
  induction h with
  | refl => exact hx
  | slot f y =>
    by_cases hne : x = y
    · subst hne
      -- A variable that has a slot does not get another one.
      simp [Frame.slot, hx]
    · rw [lookup_slot_of_ne hne]
      exact hx
  | labels => exact hx
  | trans _ _ ihfg ihgh => exact ihgh (ihfg hx)

/-! ## Slots do not overlap -/

/-- How many slots a variable takes. -/
def width (t : Table) (x : SymbolId) : Nat :=
  (Kind.ofTy (t.typeOf x)).width

/-- The variables of a frame have slots from `base` on that do not overlap. -/
structure Laid (t : Table) (base : Nat) (f : Frame) : Prop where
  base_le : base ≤ f.nextSlot
  lower : ∀ x n, f.locals.lookup x = some n → base ≤ n
  upper : ∀ x n, f.locals.lookup x = some n → n + width t x ≤ f.nextSlot
  apart : ∀ x y n m, f.locals.lookup x = some n → f.locals.lookup y = some m → x ≠ y →
    n + width t x ≤ m ∨ m + width t y ≤ n

theorem laid_start (t : Table) (base : Nat) : Laid t base (.start base) where
  base_le := Nat.le_refl _
  lower x n h := by cases h
  upper x n h := by cases h
  apart x y n m h := by cases h

/-- A new variable takes the slots behind all others. -/
theorem Laid.slot {base : Nat} (h : Laid t base f) (x : SymbolId) :
    Laid t base (f.slot x (t.typeOf x)).2 := by
  cases hx : f.locals.lookup x with
  -- A variable that is met again changes nothing.
  | some n => simpa [Frame.slot, hx] using h
  | none =>
    have hnew : (f.slot x (t.typeOf x)).2.locals.lookup x = some f.nextSlot := by
      simp [Frame.slot, hx]
    have hnext : (f.slot x (t.typeOf x)).2.nextSlot = f.nextSlot + width t x := by
      simp [Frame.slot, hx, width]
    have hold : ∀ y, y ≠ x →
        (f.slot x (t.typeOf x)).2.locals.lookup y = f.locals.lookup y :=
      fun y hne => lookup_slot_of_ne hne _
    refine ⟨hnext ▸ Nat.le_trans h.base_le (Nat.le_add_right _ _), ?_, ?_, ?_⟩
    · intro y n hy
      by_cases hne : y = x
      · rw [hne, hnew] at hy
        exact Option.some.inj hy ▸ h.base_le
      · exact h.lower y n (hold y hne ▸ hy)
    · intro y n hy
      rw [hnext]
      by_cases hne : y = x
      · rw [hne, hnew] at hy
        obtain rfl := Option.some.inj hy
        exact hne ▸ Nat.le_refl _
      · exact Nat.le_trans (h.upper y n (hold y hne ▸ hy)) (Nat.le_add_right _ _)
    · intro y z n m hy hz hyz
      by_cases hyx : y = x
      -- If one of the two is new, it starts where all the others have ended.
      · have hzx : z ≠ x := fun he => hyz (hyx.trans he.symm)
        rw [hyx, hnew] at hy
        rw [← Option.some.inj hy]
        exact Or.inr (h.upper z m (hold z hzx ▸ hz))
      · by_cases hzx : z = x
        · rw [hzx, hnew] at hz
          rw [← Option.some.inj hz]
          exact Or.inl (h.upper y n (hold y hyx ▸ hy))
        · exact h.apart y z n m (hold y hyx ▸ hy) (hold z hzx ▸ hz) hyz

theorem Grows.laid {base : Nat} (hg : Grows t f g) (h : Laid t base f) : Laid t base g := by
  induction hg with
  | refl => exact h
  | slot f x => exact h.slot x
  | labels f n => exact ⟨h.base_le, h.lower, h.upper, h.apart⟩
  | trans _ _ ihfg ihgh => exact ihgh (ihfg h)

end Frame

end Machine

/-! ## Emission only grows frames -/

section Emission

open Machine.Frame

variable {c : Context} {m : ScopeMap} {s : ScopeId}

theorem Machine.Context.grows_storage? (name : String) (f : Frame) :
    Grows c.table f (c.storage? s name f).2 := by
  unfold storage?
  cases c.table.resolve s name with
  | none => exact .refl f
  | some x =>
    cases hx : c.arguments.idxOf? x with
    | some position => simpa [hx] using .refl f
    | none => simpa [hx] using .slot f x

theorem Machine.Context.grows_load (name : String) (f : Frame) :
    Grows c.table f (c.load s name f).frame := by
  have h := grows_storage? (c := c) (s := s) name f
  unfold load
  split
  next hstorage => rwa [hstorage] at h
  next hstorage => rwa [hstorage] at h

theorem Machine.Context.grows_store (name : String) (f : Frame) :
    Grows c.table f (c.store s name f).2 := by
  have h := grows_storage? (c := c) (s := s) name f
  unfold store
  split
  next hstorage => rwa [hstorage] at h
  next hstorage => rwa [hstorage] at h

theorem Machine.grows_operator (t : Table) (op : BinOp) (type : Ty) (f : Frame) :
    Grows t f (operator op type f).frame := by
  unfold operator
  cases operation op with
  | inl => exact .refl f
  | inr => exact .labels f 2

theorem Machine.Composed.grows {f g : Frame} {code : Code} (h : Composed c s f code g) :
    Grows c.table f g := by
  induction h with
  | nil f => exact .refl f
  | plain f _ => exact .refl f
  | load f name => exact Context.grows_load name f
  | compare f _ _ => exact .labels f 2
  | append _ _ iha ihb => exact .trans iha ihb

namespace Expr

theorem grows_emit (e : Expr L) (f : Frame) : Grows c.table f (e.emit c s f).frame :=
  (e.composed_emit f).grows

theorem grows_emitAll (es : List (Expr L)) (f : Frame) : Grows c.table f (emitAll c s es f).2 :=
  (composed_emitAll es f).grows

theorem grows_emitElements (element : Element) (n : Nat) (es : List (Expr L)) (f : Frame) :
    Grows c.table f (emitElements c s element n es f).2 :=
  (composed_emitElements element n es f).grows

end Expr

mutual

theorem Stmt.Emits.grows {s : ScopeId} {f f' : Frame} {code : Code} :
    {st : Stmt L NodeId} → st.Emits c m s f code f' → Grows c.table f f'
  | _, .undeclared _ => .refl f
  | _, .declare _ => .slot f _
  | _, .declareWith _ => .trans (.slot f _) (Expr.grows_emit _ _)
  | _, .assign => .trans (Expr.grows_emit _ f) (Context.grows_store _ _)
  | _, .assignAt h₁ h₂ => by
    subst h₁ h₂
    exact .trans (.trans (Context.grows_load _ f) (Expr.grows_emit _ _)) (Expr.grows_emit _ _)
  | _, .ifThen h₁ hyes => by
    subst h₁
    exact .trans (.trans (.labels f 1) (Expr.grows_emit _ _)) hyes.grows
  | _, .ifElse h₁ hyes hno => by
    subst h₁
    -- The second label is handed out only after the first block.
    exact .trans (.trans (.trans (.labels f 1) (Expr.grows_emit _ _)) hyes.grows)
      (.trans (.labels _ 1) hno.grows)
  | _, .loop h₁ hbody => by
    subst h₁
    exact .trans (.trans (.labels f 2) (Expr.grows_emit _ _)) hbody.grows
  | _, .ret | _, .newline => .refl f
  | _, .retValue | _, .print => Expr.grows_emit _ f
  | _, .call _ => Expr.grows_emitAll _ f

theorem Block.Emits.grows {f f' : Frame} {code : Code} :
    {b : Block L NodeId} → b.Emits c m f code f' → Grows c.table f f'
  | _, .mk _ hsts => hsts.grows

theorem Block.EmitsAll.grows {s : ScopeId} {f f' : Frame} {code : Code} :
    {sts : List (Stmt L NodeId)} → Block.EmitsAll c m s sts f code f' → Grows c.table f f'
  | _, .nil => .refl f
  | _, .cons hst hsts => .trans hst.grows hsts.grows

end

end Emission

end Primer
