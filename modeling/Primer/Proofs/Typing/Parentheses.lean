import Primer.Proofs.Tree.Exchange
import Primer.Proofs.Typing.System

/-!
# Types of expressions in parentheses

Parentheses around an expression, or around a part of it, keep its type and the number of mistakes
in it (`Expr.Wraps.check_alike`). Directly under `length` the mistakes can be others: there the
operands of a comparison need not share a type, and in parentheses they need to. But a comparison
has no length, so there is one mistake either way.

Where a value is stored or returned, it counts whether it is directly a fresh array. In parentheses
it is none (`Expr.StoreShifts.of_fresh`).
-/

namespace Primer

variable {L : Type}

/-! ## Typed pieces -/

namespace Typed

/-- Two typed pieces with the same type and as many findings. -/
structure Alike (x x' : Typed L) : Prop where
  type : x'.type = x.type
  count : x'.findings.length = x.findings.length

namespace Alike

variable {x x' : Typed L}

theorem refl (x : Typed L) : x.Alike x := ⟨rfl, rfl⟩

theorem trans {x x' x'' : Typed L} (h : x.Alike x') (h' : x'.Alike x'') : x.Alike x'' :=
  ⟨h'.type.trans h.type, h'.count.trans h.count⟩

theorem symm (h : x.Alike x') : x'.Alike x :=
  ⟨h.type.symm, h.count.symm⟩

/-- As many findings in front. -/
theorem after {xs xs' : List (Located L TypeError)} (h : xs'.length = xs.length) (x : Typed L) :
    (x.after xs).Alike (x.after xs') :=
  ⟨rfl, by simp [Typed.after, h]⟩

end Alike

section Lists

variable {α : Type} {f : α → Typed L} {xs xs' : List α}

theorem map_type_eq (h : List.Forall₂ (fun x x' => (f x).Alike (f x')) xs xs') :
    xs'.map (fun x => (f x).type) = xs.map fun x => (f x).type := by
  induction h with
  | nil => rfl
  | cons hx _ ih => simp only [List.map_cons, hx.type, ih]

theorem length_findings_eq (h : List.Forall₂ (fun x x' => (f x).Alike (f x')) xs xs') :
    (xs'.flatMap fun x => (f x).findings).length = (xs.flatMap fun x => (f x).findings).length := by
  induction h with
  | nil => rfl
  | cons hx _ ih => simp only [List.flatMap_cons, List.length_append, hx.count, ih]

end Lists

/-- Typed pieces at the same places, one by one alike. -/
def AlikeAll : List (L × Typed L) → List (L × Typed L) → Prop :=
  List.Forall₂ fun x x' => x'.1 = x.1 ∧ x.2.Alike x'.2

namespace AlikeAll

variable {xs xs' : List (L × Typed L)}

theorem exchange {x x' : L × Typed L} (hx : x'.1 = x.1 ∧ x.2.Alike x'.2)
    (front rest : List (L × Typed L)) : AlikeAll (front ++ x :: rest) (front ++ x' :: rest) := by
  induction front with
  | nil => exact .cons hx (List.forall₂_same.mpr fun y _ => ⟨rfl, .refl y.2⟩)
  | cons y front ih => exact .cons ⟨rfl, .refl y.2⟩ ih

theorem snd (h : AlikeAll xs xs') : List.Forall₂ (fun x x' => x.2.Alike x'.2) xs xs' :=
  h.imp fun _ _ hx => hx.2

theorem arguments (h : AlikeAll xs xs') (function : String) (position : Nat) (types : List Ty) :
    List.Forall₂ Alike (Typed.arguments function position types xs)
      (Typed.arguments function position types xs') := by
  induction h generalizing position types with
  | nil => cases types <;> exact .nil
  | cons hx _ ih =>
    cases types with
    | nil => exact .nil
    | cons τ types =>
      simp only [Typed.arguments, hx.1, hx.2.type]
      exact .cons (.after hx.2.count _) (ih _ _)

theorem call (h : AlikeAll xs xs') (t : Table) (s : ScopeId) (callee : Name L) :
    (Typed.call t s callee xs).Alike (Typed.call t s callee xs') := by
  unfold Typed.call
  cases t.callee? s callee.text with
  | none => exact ⟨rfl, length_findings_eq h.snd⟩
  | some f =>
    -- The two calls make the same decisions: the number of arguments, and then their types.
    have hlength : xs'.length = xs.length := h.length_eq.symm
    have harguments := h.arguments callee.text 1 (f.parameters.map t.typeOf)
    have htypes : (Typed.arguments callee.text 1 (f.parameters.map t.typeOf) xs').map Typed.type =
        (Typed.arguments callee.text 1 (f.parameters.map t.typeOf) xs).map Typed.type :=
      map_type_eq harguments
    simp only [hlength, htypes]
    by_cases hnumber : f.parameters.length ≠ xs.length
    · rw [if_pos hnumber, if_pos hnumber]
      exact ⟨rfl, length_findings_eq h.snd⟩
    · rw [if_neg hnumber, if_neg hnumber]
      exact ⟨rfl, length_findings_eq harguments⟩

end AlikeAll

/-- Operands that are well typed lead to one mistake or to a type. -/
theorem length_findings_binary {lhs rhs : Ty} (hlhs : lhs ≠ .error) (hrhs : rhs ≠ .error)
    (place : L) (op : BinOp) (flag : Bool) :
    (binary place op lhs rhs flag).findings.length =
      if (binary place op lhs rhs flag).type = .error then 1 else 0 := by
  unfold binary
  split_ifs <;> simp_all [pure, fail]

/-- What an operator yields has no length, so there is a mistake either way. -/
theorem length_of_binary {lhs rhs : Ty} (hlhs : lhs ≠ .error) (hrhs : rhs ≠ .error)
    (place operand : L) (op : BinOp) (flag : Bool) :
    (length operand (binary place op lhs rhs flag).type).type = .error ∧
      (binary place op lhs rhs flag).findings.length +
        (length operand (binary place op lhs rhs flag).type).findings.length = 1 := by
  rw [length_findings_binary hlhs hrhs]
  obtain ⟨τ, hτ⟩ : ∃ τ, (binary place op lhs rhs flag).type = τ := ⟨_, rfl⟩
  rw [hτ]
  rcases binary_type_cases flag hτ with rfl | hnumeric | rfl
  · exact ⟨rfl, rfl⟩
  · cases τ with
    | int | float => exact ⟨rfl, rfl⟩
    | _ => cases hnumeric
  · exact ⟨rfl, rfl⟩

end Typed

namespace Expr

variable {t : Table} {s : ScopeId}

/-- Directly under `length` a comparison is checked otherwise, and has a mistake all the same. -/
theorem length_check_alike (e : Expr L) (place : L) :
    ((Typed.length place (e.check t s false).type).after (e.check t s false).findings).Alike
      ((Typed.length place (e.check t s true).type).after (e.check t s true).findings) := by
  cases e with
  | binary p op lhs rhs =>
    simp only [check, Typed.after]
    by_cases herror : (lhs.check t s false).type = .error ∨ (rhs.check t s false).type = .error
    · simp only [Typed.binary, if_pos herror]
      exact .refl _
    · rw [not_or] at herror
      obtain ⟨htype, hcount⟩ := Typed.length_of_binary herror.1 herror.2 p place op false
      obtain ⟨htype', hcount'⟩ := Typed.length_of_binary herror.1 herror.2 p place op true
      refine ⟨htype'.trans htype.symm, ?_⟩
      simp only [List.length_append, Nat.add_assoc]
      omega
  | _ => exact .refl _

theorem Wraps.checkAll_alike {e x x' : Expr L} (h : e.Wraps x x')
    (hx : (x.check t s false).Alike (x'.check t s false)) (front rest : List (Expr L)) :
    Typed.AlikeAll (checkAll t s (front ++ x :: rest)) (checkAll t s (front ++ x' :: rest)) := by
  simp only [checkAll_eq_map, List.map_append, List.map_cons]
  exact .exchange ⟨h.place_eq, hx⟩ _ _

/-- Parentheses change neither the type nor the number of mistakes. -/
theorem Wraps.check_alike {e x x' : Expr L} (h : e.Wraps x x') :
    (x.check t s false).Alike (x'.check t s false) := by
  induction h with
  | here => exact .refl _
  | @call p callee front x x' rest h ih =>
    exact (h.checkAll_alike ih front rest).call t s callee
  | @array p front x x' rest h ih =>
    have helements := (h.checkAll_alike ih front rest).snd
    simp only [check, Typed.map_type_eq helements]
    exact .after (Typed.length_findings_eq helements) _
  | index h ih | negate h ih | newArray h ih =>
    -- Places and types are the same on both sides, so the expression itself finds the same.
    simp only [check, h.place_eq, ih.type]
    exact .after ih.count _
  | @length p x x' h ih =>
    -- Under `length` the flag is set, which parentheses clear; it makes no difference here.
    have hfalse : ((Typed.length x.place (x.check t s false).type).after
        (x.check t s false).findings).Alike
        ((Typed.length x.place (x'.check t s false).type).after (x'.check t s false).findings) := by
      rw [ih.type]
      exact .after ih.count _
    simp only [check, h.place_eq]
    exact ((x.length_check_alike x.place).symm.trans hfalse).trans (x'.length_check_alike x.place)
  | paren h ih => exact ih
  | lhs h ih | rhs h ih =>
    simp only [check, ih.type]
    exact .after (by simp [ih.count]) _

end Expr

/-! ## Stored values -/

theorem Ty.arrayOf?_ne_some_self (τ : Ty) : τ.arrayOf? ≠ some τ := by
  cases τ <;> simp [Ty.arrayOf?]

theorem Expr.HasType.ne_void_of_isNewArray {t : Table} {s : ScopeId} {e : Expr L} {τ : Ty}
    (h : e.HasType t s τ) (hnew : e.isNewArray = true) : τ ≠ .void := by
  cases e with
  | newArray p element size =>
    cases h with
    | newArray _ hτ _ =>
      rintro rfl
      cases hτ
  | _ => cases hnew

/-- A well-typed value that is stored is right or has one mistake. -/
theorem Expr.length_checkStore {e : Expr L} {name : String} {asked found : Ty}
    (herror : found ≠ .error) (hvoid : found ≠ .void) :
    (e.checkStore name asked found).length = if e.storableAs asked found then 0 else 1 := by
  rw [Expr.checkStore, if_neg herror, if_neg hvoid]
  split_ifs <;> rfl

theorem FunctionSymbol.length_checkReturn {f : FunctionSymbol} {place : L} {e : Expr L} {found : Ty}
    (herror : found ≠ .error) (hvoid : found ≠ .void) :
    (f.checkReturn place (some (e, found))).length =
      if e.storableAs f.returns found then 0 else 1 := by
  by_cases hreturns : f.returns = .void
  · -- No value can be stored as nothing.
    have hstorable : e.storableAs .void found = false := by
      simp [Expr.storableAs, Ty.isArray, hvoid.symm]
    simp [FunctionSymbol.checkReturn, hreturns, hstorable]
  · simp only [FunctionSymbol.checkReturn, if_neg hreturns, herror, false_or]
    split_ifs <;> rfl

namespace Expr

/-- Where `asked` is asked for, a value of type `found` has lost some findings and gained others. -/
structure StoreShifts (lost gained : Nat) (x x' : Expr L) (asked found : Ty) : Prop where
  store : ∀ name, (x'.checkStore name asked found).length + lost =
    (x.checkStore name asked found).length + gained
  ret : ∀ (f : FunctionSymbol) place, f.returns = asked →
    (f.checkReturn place (some (x', found))).length + lost =
      (f.checkReturn place (some (x, found))).length + gained

namespace StoreShifts

variable {x x' : Expr L}

/-- Where a value is stored, it only counts whether it is directly a fresh array. -/
theorem of_isNewArray_eq (h : x'.isNewArray = x.isNewArray) (asked found : Ty) :
    StoreShifts 0 0 x x' asked found where
  store name := by
    simp only [checkStore, storableAs, h]
    split_ifs <;> rfl
  ret f place _ := by
    simp only [FunctionSymbol.checkReturn, storableAs, h]
    split_ifs <;> rfl

/-- A value that is ill typed passes. -/
theorem of_error (x x' : Expr L) (asked : Ty) : StoreShifts 0 0 x x' asked .error where
  store name := by simp [checkStore]
  ret f place _ := by
    simp only [FunctionSymbol.checkReturn, true_or, if_true]
    split_ifs <;> rfl

/-- A fresh array is stored as an array, and something else as what it is. -/
theorem of_fresh (hx : x.isNewArray = true) (hx' : x'.isNewArray = false) (asked : Ty) {found : Ty}
    (herror : found ≠ .error) (hvoid : found ≠ .void) :
    StoreShifts (if found.arrayOf? = some asked then 0 else 1) (if asked = found then 0 else 1)
      x x' asked found := by
  have hfresh : x.storableAs asked found = true ↔ found.arrayOf? = some asked := by
    simp [storableAs, hx, Ty.arrayOf?_eq_some_iff]
  have hplain : x'.storableAs asked found = true ↔ asked = found := by
    simp [storableAs, hx']
  constructor
  · intro name
    simp only [length_checkStore herror hvoid, hfresh, hplain]
    exact Nat.add_comm _ _
  · rintro f place rfl
    simp only [FunctionSymbol.length_checkReturn herror hvoid, hfresh, hplain]
    exact Nat.add_comm _ _

end StoreShifts

end Expr

end Primer
