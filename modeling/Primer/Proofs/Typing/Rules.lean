import Primer.Analysis.Typing
import Mathlib.Tactic.SplitIfs

/-!
# The rules of the checker

Each rule gives a construct its type from the types of its parts. Two facts are kept of every rule:
when it gives a type other than `error`, and that a rule which reports nothing passes no `error` on
that was not there before.
-/

namespace Primer

variable {L : Type}

theorem Ty.element?_ne_error {τ σ : Ty} (h : τ.element? = some σ) : τ ≠ .error ∧ σ ≠ .error := by
  cases τ <;> simp_all [Ty.element?] <;> subst h <;> decide

theorem Ty.arrayOf?_ne_error {τ σ : Ty} (h : τ.arrayOf? = some σ) : τ ≠ .error ∧ σ ≠ .error := by
  cases τ <;> simp_all [Ty.arrayOf?] <;> subst h <;> decide

theorem Ty.ne_error_of_isScalar {τ : Ty} (h : τ.isScalar = true) : τ ≠ .error := by
  rintro rfl
  cases h

namespace Typed

variable {place : L} {τ found : Ty}

/-- A demand that reports nothing is met. -/
theorem eq_of_expect_clean {expected : Ty} (hfound : found ≠ .error)
    (hclean : (expect expected found place).findings = []) : found = expected := by
  unfold expect at hclean
  split_ifs at hclean with h
  · exact h.resolve_left hfound
  · simp [fail] at hclean

theorem providedInt_type_eq_iff (hτ : τ ≠ .error) :
    (providedInt τ found place).type = τ ↔ found = .int := by
  unfold providedInt expect
  constructor
  · intro h
    split_ifs at h with hfound
    · rcases hfound with rfl | rfl
      · simp [pure] at h
        exact absurd h.symm hτ
      · rfl
    · simp [fail] at h
      exact absurd h.symm hτ
  · rintro rfl
    simp [pure]

theorem providedInt_type_cases (τ found : Ty) (place : L) :
    (providedInt τ found place).type = τ ∨ (providedInt τ found place).type = .error := by
  simp only [providedInt]
  split_ifs
  · exact .inl rfl
  · exact .inr rfl

theorem providedInt_of_clean (hfound : found ≠ .error)
    (hclean : (providedInt τ found place).findings = []) : found = .int :=
  eq_of_expect_clean hfound hclean

variable {op : BinOp} {lhs rhs : Ty}

/-- An operator whose operands agree in type. -/
def Operands (op : BinOp) (lhs rhs τ : Ty) : Prop :=
  lhs ≠ .error ∧ lhs = rhs ∧
    ((op.isArithmetic = true ∧ lhs.isNumeric = true ∧ τ = lhs) ∨
      (op.isArithmetic = false ∧ comparable op lhs = true ∧ τ = .bool))

theorem binary_type_eq_iff (hτ : τ ≠ .error) :
    (binary place op lhs rhs false).type = τ ↔ Operands op lhs rhs τ := by
  constructor
  · intro h
    unfold binary at h
    -- Seven of the nine ways through the rule end in `error`.
    split_ifs at h with herror hvoid hop hne hnumeric hne hlhs hrhs
    · exact absurd h.symm hτ
    · exact absurd h.symm hτ
    · exact absurd h.symm hτ
    · exact absurd h.symm hτ
    · have hsame : lhs = rhs := Decidable.not_not.mp hne
      exact ⟨fun he => herror (.inl he), hsame, .inl ⟨hop, by simpa using hnumeric, h.symm⟩⟩
    · exact absurd h.symm hτ
    · exact absurd h.symm hτ
    · exact absurd h.symm hτ
    · have hsame : lhs = rhs := by simpa using hne
      exact ⟨fun he => herror (.inl he), hsame,
        .inr ⟨by simpa using hop, by simpa using hlhs, h.symm⟩⟩
  · rintro ⟨herror, rfl, ⟨hop, hnumeric, rfl⟩ | ⟨hop, hcomparable, rfl⟩⟩
    -- The rule rejects `void` before it looks at the operator, so that has to be excluded first.
    · have hvoid : τ ≠ .void := by rintro rfl; cases hnumeric
      simp [binary, herror, hvoid, hop, hnumeric, pure]
    · have hvoid : lhs ≠ .void := by rintro rfl; simp [comparable, Ty.isScalar] at hcomparable
      simp [binary, herror, hvoid, hop, hcomparable, pure]

theorem binary_type_cases (underLength : Bool)
    (h : (binary place op lhs rhs underLength).type = τ) :
    τ = .error ∨ τ.isNumeric = true ∨ τ = .bool := by
  unfold binary at h
  split_ifs at h <;> simp_all [pure, fail]

theorem binary_of_clean {underLength : Bool} (hlhs : lhs ≠ .error) (hrhs : rhs ≠ .error)
    (hclean : (binary place op lhs rhs underLength).findings = []) :
    (binary place op lhs rhs underLength).type ≠ .error := by
  unfold binary at hclean ⊢
  split_ifs at hclean ⊢ <;> simp_all [pure, fail]

theorem index_type_eq_iff {base : Name L} {type : Ty} (hτ : τ ≠ .error) :
    (index base type place found).type = τ ↔ type.element? = some τ ∧ found = .int := by
  unfold index
  split_ifs with herror
  · subst herror
    simp [pure, Ty.element?, hτ.symm]
  · cases helement : type.element? with
    | none => simp [fail, hτ.symm]
    | some element =>
      -- What is left is the demand that the position is an `int`.
      have hne := (Ty.element?_ne_error helement).2
      constructor
      · intro h
        rcases providedInt_type_cases element found place with h' | h'
        · obtain rfl : element = τ := h'.symm.trans h
          exact ⟨rfl, (providedInt_type_eq_iff hne).mp h'⟩
        · exact absurd (h.symm.trans h') hτ
      · rintro ⟨heq, hfound⟩
        obtain rfl := Option.some.inj heq
        exact (providedInt_type_eq_iff hne).mpr hfound

theorem index_of_clean {base : Name L} {type : Ty} (htype : type ≠ .error)
    (hfound : found ≠ .error) (hclean : (index base type place found).findings = []) :
    (index base type place found).type ≠ .error := by
  unfold index at hclean ⊢
  rw [if_neg htype] at hclean ⊢
  cases helement : type.element? with
  | none => simp [helement, fail] at hclean
  | some element =>
    have hne := (Ty.element?_ne_error helement).2
    simp only [helement] at hclean ⊢
    rw [(providedInt_type_eq_iff hne).mpr (providedInt_of_clean hfound hclean)]
    exact hne

theorem length_type_eq_iff (hτ : τ ≠ .error) :
    (length place found).type = τ ↔ τ = .int ∧ (found = .string ∨ found.isArray = true) := by
  unfold length
  split_ifs with herror hlength
  · subst herror
    simp [pure, hτ.symm, Ty.isArray]
  · constructor
    · rintro rfl
      exact ⟨rfl, hlength⟩
    · rintro ⟨rfl, -⟩
      rfl
  · simp [fail, hlength, hτ.symm]

theorem length_of_clean (hfound : found ≠ .error) (hclean : (length place found).findings = []) :
    (length place found).type ≠ .error := by
  unfold length at hclean ⊢
  split_ifs at hclean ⊢ <;> simp_all [pure, fail]

theorem negate_type_eq_iff (hτ : τ ≠ .error) :
    (negate place found).type = τ ↔ found = τ ∧ τ.isNumeric = true := by
  unfold negate
  split_ifs with herror hnumeric
  · simp [pure, herror, hτ.symm]
  · constructor
    · rintro rfl
      exact ⟨rfl, hnumeric⟩
    · exact And.left
  · constructor
    · intro h
      exact absurd h.symm hτ
    · rintro ⟨rfl, h⟩
      exact absurd h hnumeric

theorem negate_of_clean (hfound : found ≠ .error) (hclean : (negate place found).findings = []) :
    (negate place found).type ≠ .error := by
  unfold negate at hclean ⊢
  split_ifs at hclean ⊢ <;> simp_all [pure, fail]

theorem array_type_eq_iff {types : List Ty} (hτ : τ ≠ .error) :
    (array place types).type = τ ↔
      ∃ σ, types ≠ [] ∧ (∀ type ∈ types, type = σ) ∧ σ.arrayOf? = some τ := by
  cases types with
  | nil => simp [array, fail, hτ.symm]
  | cons first rest =>
    rw [array]
    constructor
    · intro h
      split_ifs at h with herror hmixed
      · exact absurd h.symm hτ
      · exact absurd h.symm hτ
      · cases harray : first.arrayOf? with
        | none => simp [harray, fail, hτ.symm] at h
        | some σ =>
          simp only [harray, pure] at h
          refine ⟨first, List.cons_ne_nil _ _, ?_, by rw [harray, h]⟩
          intro type hm
          rcases List.mem_cons.mp hm with rfl | hm
          · rfl
          -- An element of another type than the first would have been found.
          · exact Decidable.not_not.mp fun hne => hmixed ⟨type, hm, hne⟩
    · rintro ⟨σ, -, hall, harray⟩
      obtain rfl : first = σ := hall first List.mem_cons_self
      have herror : ¬Ty.error ∈ first :: rest := fun hm =>
        (Ty.arrayOf?_ne_error harray).1 (hall _ hm).symm
      have hmixed : ¬∃ type ∈ rest, type ≠ first := by
        rintro ⟨type, hm, hne⟩
        exact hne (hall type (List.mem_cons_of_mem _ hm))
      rw [if_neg herror, if_neg hmixed, harray]
      rfl

theorem array_of_clean {types : List Ty} (htypes : .error ∉ types)
    (hclean : (array place types).findings = []) : (array place types).type ≠ .error := by
  cases types with
  | nil => simp [array, fail] at hclean
  | cons first rest =>
    rw [array] at hclean ⊢
    rw [if_neg htypes] at hclean ⊢
    split_ifs at hclean ⊢ with hmixed
    · simp [fail] at hclean
    · cases harray : first.arrayOf? with
      | none => simp [harray, fail] at hclean
      | some σ => exact (Ty.arrayOf?_ne_error harray).2

theorem newArray_type_eq_iff {element : Name L} (hτ : τ ≠ .error) :
    (newArray element place found).type = τ ↔
      Ty.named? element.text = some τ ∧ τ.isScalar = true ∧ found = .int := by
  unfold newArray
  cases hnamed : Ty.named? element.text with
  | none => simp [fail, hτ.symm]
  | some type =>
    simp only
    split_ifs with hscalar
    · have hne := Ty.ne_error_of_isScalar hscalar
      constructor
      · intro h
        -- A provided type comes out as it is or as an error.
        rcases providedInt_type_cases type found place with h' | h'
        · obtain rfl : type = τ := h'.symm.trans h
          exact ⟨rfl, hscalar, (providedInt_type_eq_iff hne).mp h'⟩
        · exact absurd (h.symm.trans h') hτ
      · rintro ⟨heq, -, hfound⟩
        obtain rfl := Option.some.inj heq
        exact (providedInt_type_eq_iff hne).mpr hfound
    · constructor
      -- An array of arrays is refused.
      · intro h
        exact absurd h.symm hτ
      · rintro ⟨heq, hscalar', -⟩
        obtain rfl := Option.some.inj heq
        exact absurd hscalar' hscalar

theorem newArray_of_clean {element : Name L} (hfound : found ≠ .error)
    (hclean : (newArray element place found).findings = []) :
    (newArray element place found).type ≠ .error := by
  unfold newArray at hclean ⊢
  cases hnamed : Ty.named? element.text with
  | none => simp [hnamed, fail] at hclean
  | some type =>
    simp only [hnamed] at hclean ⊢
    split_ifs at hclean ⊢ with hscalar
    · have hne := Ty.ne_error_of_isScalar hscalar
      rw [(providedInt_type_eq_iff hne).mpr (providedInt_of_clean hfound hclean)]
      exact hne
    · simp [fail] at hclean

theorem argument_type_ne_error_iff {function : String} {position : Nat} {expected : Ty} :
    (argument function position expected place found).type ≠ .error ↔
      found = expected ∧ found ≠ .error ∧ found ≠ .void := by
  unfold argument
  split_ifs with herror hvoid hne <;> simp_all [pure, fail]

theorem argument_of_clean {function : String} {position : Nat} {expected : Ty}
    (hfound : found ≠ .error)
    (hclean : (argument function position expected place found).findings = []) :
    (argument function position expected place found).type ≠ .error := by
  unfold argument at hclean ⊢
  split_ifs at hclean ⊢ <;> simp_all [pure, fail]

/-- Arguments pass exactly if they have the types of the parameters. -/
theorem error_notMem_arguments_iff {function : String} {position : Nat} {types : List Ty}
    {given : List (L × Typed L)} (hlength : types.length = given.length) :
    .error ∉ (arguments function position types given).map Typed.type ↔
      given.map (·.2.type) = types ∧ .error ∉ types ∧ .void ∉ types := by
  induction given generalizing types position with
  | nil =>
    obtain rfl : types = [] := List.length_eq_zero_iff.mp hlength
    simp [arguments]
  | cons first given ih =>
    obtain ⟨expected, types, rfl⟩ : ∃ expected rest, types = expected :: rest := by
      cases types with
      | nil => simp at hlength
      | cons expected rest => exact ⟨expected, rest, rfl⟩
    obtain ⟨place, found⟩ := first
    -- Findings of the argument itself are put in front and leave its type alone.
    have hfirst : Ty.error ≠ ((argument function position expected place found.type).after
        found.findings).type ↔ _ := ne_comm.trans argument_type_ne_error_iff
    simp only [arguments, List.map_cons, List.mem_cons, not_or,
      ih (Nat.succ.inj hlength), hfirst, List.cons.injEq]
    constructor
    · rintro ⟨⟨rfl, herror, hvoid⟩, rfl, herrors, hvoids⟩
      exact ⟨⟨rfl, rfl⟩, ⟨herror.symm, herrors⟩, hvoid.symm, hvoids⟩
    · rintro ⟨⟨rfl, rfl⟩, ⟨herror, herrors⟩, hvoid, hvoids⟩
      exact ⟨⟨rfl, Ne.symm herror, Ne.symm hvoid⟩, rfl, herrors, hvoids⟩

theorem arguments_of_clean {function : String} {position : Nat} {types : List Ty}
    {given : List (L × Typed L)} (hgiven : .error ∉ given.map (·.2.type))
    (hclean : (arguments function position types given).flatMap Typed.findings = []) :
    .error ∉ (arguments function position types given).map Typed.type := by
  -- A surplus on either side is reported elsewhere; here the lists are walked in step.
  induction given generalizing types position with
  | nil => cases types <;> simp [arguments]
  | cons first given ih =>
    obtain ⟨place, found⟩ := first
    cases types with
    | nil => simp [arguments]
    | cons expected types =>
      simp only [List.map_cons, List.mem_cons, not_or] at hgiven
      simp only [arguments, List.flatMap_cons, List.append_eq_nil_iff] at hclean
      obtain ⟨hfirst, hrest⟩ := hclean
      -- What the argument itself reports comes after what was found inside it.
      have hown := (List.append_eq_nil_iff.mp hfirst).2
      simp only [arguments, List.map_cons, List.mem_cons, not_or]
      exact ⟨(argument_of_clean (Ne.symm hgiven.1) hown).symm, ih hgiven.2 hrest⟩

theorem call_type_eq_iff {t : Table} {s : ScopeId} {callee : Name L} {given : List (L × Typed L)}
    (hτ : τ ≠ .error) :
    (call t s callee given).type = τ ↔ ∃ f, t.callee? s callee.text = some f ∧
      given.map (·.2.type) = f.parameters.map t.typeOf ∧ .error ∉ f.parameters.map t.typeOf ∧
      .void ∉ f.parameters.map t.typeOf ∧ f.returns = τ := by
  unfold call
  cases hcallee : t.callee? s callee.text with
  | none => simp [hτ.symm]
  | some f =>
    simp only [Option.some.injEq, exists_eq_left']
    by_cases hlength : f.parameters.length = given.length
    -- Only if the numbers agree are the arguments looked at one by one.
    · have hsame : (f.parameters.map t.typeOf).length = given.length := by
        simpa using hlength
      have hiff : .error ∉
          (arguments callee.text 1 (f.parameters.map t.typeOf) given).map Typed.type ↔ _ :=
        error_notMem_arguments_iff hsame
      simp only [hlength, ne_eq, not_true_eq_false, if_false]
      split_ifs with herror
      · constructor
        · intro h
          exact absurd h.symm hτ
        · rintro ⟨hmap, herrors, hvoids, -⟩
          exact absurd herror (hiff.mpr ⟨hmap, herrors, hvoids⟩)
      · obtain ⟨hmap, herrors, hvoids⟩ := hiff.mp herror
        exact ⟨fun h => ⟨hmap, herrors, hvoids, h⟩, fun h => h.2.2.2⟩
    · rw [if_pos hlength]
      constructor
      · intro h
        exact absurd h.symm hτ
      · rintro ⟨hmap, -⟩
        exact absurd (by simpa using congrArg List.length hmap.symm) hlength

theorem call_of_clean {t : Table} {s : ScopeId} {callee : Name L} {given : List (L × Typed L)}
    {f : FunctionSymbol} (hcallee : t.callee? s callee.text = some f)
    (hlength : f.parameters.length = given.length) (hreturns : f.returns ≠ .error)
    (hgiven : .error ∉ given.map (·.2.type)) (hclean : (call t s callee given).findings = []) :
    (call t s callee given).type ≠ .error := by
  unfold call at hclean ⊢
  simp only [hcallee, hlength, ne_eq, not_true_eq_false, if_false] at hclean ⊢
  rw [if_neg (arguments_of_clean hgiven hclean)]
  exact hreturns

/-- What is wrong with an argument is kept among what is wrong with all of them. -/
theorem findings_of_arguments_clean {function : String} {position : Nat} {types : List Ty}
    {given : List (L × Typed L)} (hlength : types.length = given.length)
    (hclean : (arguments function position types given).flatMap Typed.findings = []) :
    ∀ x ∈ given, x.2.findings = [] := by
  induction given generalizing types position with
  | nil => exact fun x hx => absurd hx List.not_mem_nil
  | cons first given ih =>
    cases types with
    | nil => simp at hlength
    | cons expected types =>
      simp only [arguments, List.flatMap_cons, List.append_eq_nil_iff] at hclean
      obtain ⟨hfirst, hrest⟩ := hclean
      intro x hx
      rcases List.mem_cons.mp hx with rfl | hx
      · exact (List.append_eq_nil_iff.mp hfirst).1
      · exact ih (Nat.succ.inj hlength) hrest x hx

/-- What is wrong with the arguments is wrong with the call. -/
theorem findings_of_call_clean {t : Table} {s : ScopeId} {callee : Name L}
    {given : List (L × Typed L)} {f : FunctionSymbol} (hcallee : t.callee? s callee.text = some f)
    (hlength : f.parameters.length = given.length)
    (hclean : (call t s callee given).findings = []) : ∀ x ∈ given, x.2.findings = [] := by
  unfold call at hclean
  simp only [hcallee, hlength, ne_eq, not_true_eq_false, if_false] at hclean
  exact findings_of_arguments_clean (by simpa using hlength) hclean

end Typed

end Primer
