import Primer.Proofs.Machine.Slots
import Primer.Proofs.Machine.Typed
import Primer.Proofs.Semantics.Execution

/-!
# Variables in slots

A variable keeps its place while a function is emitted, so its place in the last frame is the one
that all of its loads and stores use (`Context.home?`). Arguments come first and the other variables
behind them, and no two of them overlap (`Context.apart_of_laid`). Hence the slots can stand for an
environment (`Env.Agrees`): storing a variable gives it its value and leaves the others as they are.
-/

namespace Primer

open Machine Machine.Frame

variable {V W : Type}

namespace Machine

/-! ## Places -/

namespace Signature

variable {s : Signature} {i j : Nat} {type : Ty}

theorem offset_succ (h : s.parameters[i]? = some type) :
    s.offset (i + 1) = s.offset i + (Kind.ofTy type).width := by
  unfold offset
  rw [List.take_add_one, h, slotsOf_append]
  rfl

theorem offset_le_offset (h : i ≤ j) : s.offset i ≤ s.offset j := by
  induction h with
  | refl => exact Nat.le_refl _
  | @step j _ ih =>
    cases hj : s.parameters[j]? with
    | some type => exact Nat.le_trans ih (offset_succ hj ▸ Nat.le_add_right _ _)
    -- Behind the last parameter the offset stays the same.
    | none =>
      have hlength : s.parameters.length ≤ j := List.getElem?_eq_none_iff.mp hj
      have hsame : s.offset (j + 1) = s.offset j := by
        simp [offset, List.take_of_length_le, hlength, Nat.le_succ_of_le hlength]
      exact hsame ▸ ih

theorem offset_length : s.offset s.parameters.length = s.argumentSlots := by
  unfold offset
  rw [List.take_length]
  rfl

/-- An argument ends before the next one starts. -/
theorem offset_add_width_le (h : s.parameters[i]? = some type) (hij : i < j) :
    s.offset i + (Kind.ofTy type).width ≤ s.offset j :=
  offset_succ h ▸ offset_le_offset hij

/-- An argument ends before the other variables start. -/
theorem offset_add_width_le_argumentSlots (h : s.parameters[i]? = some type) :
    s.offset i + (Kind.ofTy type).width ≤ s.argumentSlots :=
  offset_length (s := s) ▸ offset_add_width_le h (List.getElem?_eq_some_iff.mp h).1

end Signature

/-- The slot at which a variable starts. -/
def Storage.address (signature : Signature) : Storage → Nat
  | .argument position => signature.offset position
  | .slot n => n

namespace Context

/-- Where a variable is kept, by the frame in which all variables have their slots. -/
def home? (c : Context) (g : Frame) (x : SymbolId) : Option Storage :=
  match c.arguments.idxOf? x with
  | some position => some (.argument position)
  | none => (g.locals.lookup x).map .slot

/-- No two variables overlap. -/
def Apart (c : Context) (signature : Signature) (g : Frame) : Prop :=
  ∀ x y m n, x ≠ y → c.home? g x = some m → c.home? g y = some n →
    m.address signature + width c.table x ≤ n.address signature ∨
      n.address signature + width c.table y ≤ m.address signature

variable {c : Context} {f g : Frame} {x : SymbolId}

/-- A variable that is no argument has slots of its own. -/
theorem place_of_notMem (h : x ∉ c.arguments) :
    c.place x f = (.slot (f.slot x (c.table.typeOf x)).1, (f.slot x (c.table.typeOf x)).2) := by
  unfold place
  rw [List.idxOf?_eq_none_iff.mpr h]

/-- The place that a variable has at any time is the one it keeps. -/
theorem home?_eq_place (h : Grows c.table (c.place x f).2 g) :
    c.home? g x = some (c.place x f).1 := by
  unfold home? place at *
  cases hx : c.arguments.idxOf? x with
  -- The list of arguments never changes, and a slot that was given stays in the frame.
  | some position => rfl
  | none =>
    rw [hx] at h
    rw [h.lookup (lookup_slot x _)]
    rfl

variable {signature : Signature}

/-- Arguments lie before all other variables, which do not overlap. -/
theorem apart_of_laid (h : signature.parameters = c.arguments.map c.table.typeOf ∨
    c.arguments = []) (hlaid : Laid c.table signature.argumentSlots g) :
    c.Apart signature g := by
  intro x y m n hne hm hn
  unfold home? at hm hn
  cases hx : c.arguments.idxOf? x with
  | some i =>
    rw [hx] at hm
    obtain rfl := Option.some.inj hm
    have hxi := parameter_of_idxOf? h hx
    cases hy : c.arguments.idxOf? y with
    | some j =>
      rw [hy] at hn
      obtain rfl := Option.some.inj hn
      have hyj := parameter_of_idxOf? h hy
      -- Two arguments: the earlier one ends where the next one starts, or before.
      rcases Nat.lt_trichotomy i j with hij | rfl | hij
      · exact .inl (Signature.offset_add_width_le hxi hij)
      -- At one position there is only one variable.
      · have hsame := (getElem?_of_idxOf? hx).symm.trans (getElem?_of_idxOf? hy)
        exact absurd (Option.some.inj hsame) hne
      · exact .inr (Signature.offset_add_width_le hyj hij)
    | none =>
      rw [hy] at hn
      obtain ⟨j, hj, rfl⟩ := Option.map_eq_some_iff.mp hn
      -- An argument and another variable, which starts behind all arguments.
      exact .inl (Nat.le_trans (Signature.offset_add_width_le_argumentSlots hxi)
        (hlaid.lower y j hj))
  | none =>
    rw [hx] at hm
    obtain ⟨i, hi, rfl⟩ := Option.map_eq_some_iff.mp hm
    cases hy : c.arguments.idxOf? y with
    | some j =>
      rw [hy] at hn
      obtain rfl := Option.some.inj hn
      have hyj := parameter_of_idxOf? h hy
      exact .inr (Nat.le_trans (Signature.offset_add_width_le_argumentSlots hyj)
        (hlaid.lower x i hi))
    | none =>
      rw [hy] at hn
      obtain ⟨j, hj, rfl⟩ := Option.map_eq_some_iff.mp hn
      exact hlaid.apart x y i j hi hj hne

end Context

end Machine

/-! ## Environments in slots -/

/-- Every variable that has a value is kept in its slots. -/
def Env.Agrees (c : Context) (signature : Signature) (g : Frame) (env : Env V)
    (cells : Cells V) : Prop :=
  ∀ x v, env x = some v → ∃ storage, c.home? g x = some storage ∧
    cells.read (Kind.ofTy (c.table.typeOf x)) (storage.address signature) = some v

/-- A parameter has the value at its position. -/
theorem Env.ofArguments_eq_some {arguments : List SymbolId} {values : List V} {x : SymbolId} {v : V}
    (h : Env.ofArguments arguments values x = some v) :
    ∃ i, arguments.idxOf? x = some i ∧ values[i]? = some v := by
  unfold Env.ofArguments at h
  induction arguments generalizing values with
  | nil => simp at h
  | cons y arguments ih =>
    cases values with
    | nil => simp at h
    | cons u values =>
      rw [List.zip_cons_cons, List.lookup_cons] at h
      by_cases hyx : x = y
      · subst hyx
        simp only [beq_self_eq_true, Option.some.injEq] at h
        exact ⟨0, by simp [List.idxOf?_cons], by simp [h]⟩
      -- A later parameter has the value one position further on.
      · simp only [beq_eq_false_iff_ne.mpr hyx] at h
        obtain ⟨i, hi, hv⟩ := ih h
        exact ⟨i + 1, by simp [List.idxOf?_cons, Ne.symm hyx, hi], hv⟩

namespace Env.Agrees

variable {c : Context} {signature : Signature} {g : Frame} {env : Env V} {cells : Cells V}

/-- Storing a variable sets it. -/
theorem set (h : env.Agrees c signature g cells) (hapart : c.Apart signature g) {x : SymbolId}
    {storage : Storage} (hx : c.home? g x = some storage) (v : V) :
    (env.set x v).Agrees c signature g
      (cells.write (Kind.ofTy (c.table.typeOf x)) (storage.address signature) v) := by
  intro y u hy
  unfold Env.set at hy
  by_cases hyx : y = x
  · subst hyx
    rw [if_pos rfl] at hy
    obtain rfl := Option.some.inj hy
    exact ⟨storage, hx, Cells.read_write_self _ _ _ _⟩
  · rw [if_neg hyx] at hy
    obtain ⟨storage', hy', hread⟩ := h y u hy
    refine ⟨storage', hy', ?_⟩
    -- The other variables are apart from the one that is stored.
    rw [Cells.read_write_of_apart cells v (hapart x y _ _ (Ne.symm hyx) hx hy')]
    exact hread

/-- The parameters of a function that is entered. -/
theorem enter (hparameters : signature.parameters = c.arguments.map c.table.typeOf ∨
    c.arguments = []) (values : List V) (cells : Cells V) :
    (Env.ofArguments c.arguments values).Agrees c signature g
      (cells.enter 0 signature.parameters values) := by
  intro x v hx
  obtain ⟨i, hi, hv⟩ := ofArguments_eq_some hx
  refine ⟨.argument i, by simp [Context.home?, hi], ?_⟩
  have hread := cells.read_enter 0 (Context.parameter_of_idxOf? hparameters hi) hv
  rw [Nat.zero_add] at hread
  exact hread

end Env.Agrees

end Primer
