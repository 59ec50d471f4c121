import Primer.Analysis.Reference
import Primer.Proofs.Declaration.Extension
import Primer.Proofs.Tree.Induction
import Primer.Proofs.Typing.Rules

/-!
# The typing judgement

`Expr.HasType` gives the rules by which expressions are typed, one for each form, without the error
type and without the order in which mistakes are found. The checker agrees with it:
`Expr.hasType_iff` says that an expression has a type exactly if the checker gives it that type and
the type is not `error`. `Expr.hasType_of_clean` is the other half of the checker's contract: if
neither the names nor the types of an expression are reported, it has a type.
-/

namespace Primer

variable {L : Type}

/-- The typing rules. `new T[n]` has the type `T` of its elements. -/
inductive Expr.HasType (t : Table) (s : ScopeId) : Expr L → Ty → Prop where
  | int {p value} : HasType t s (.int p value) .int
  | float {p bits} : HasType t s (.float p bits) .float
  | bool {p value} : HasType t s (.bool p value) .bool
  | char {p value} : HasType t s (.char p value) .char
  | str {p value} : HasType t s (.str p value) .string
  | read {p name τ} (hvar : t.varType? s name.text = some τ) (hτ : τ ≠ .error) :
      HasType t s (.read p name) τ
  | call {p callee arguments f} (hcallee : t.callee? s callee.text = some f)
      (harguments : List.Forall₂ (HasType t s) arguments (f.parameters.map t.typeOf))
      (hvoid : .void ∉ f.parameters.map t.typeOf) (hreturns : f.returns ≠ .error) :
      HasType t s (.call p callee arguments) f.returns
  | index {p base position type element} (hvar : t.varType? s base.text = some type)
      (helement : type.element? = some element) (hposition : HasType t s position .int) :
      HasType t s (.index p base position) element
  | length {p operand τ} (hoperand : HasType t s operand τ)
      (hτ : τ = .string ∨ τ.isArray = true) : HasType t s (.length p operand) .int
  | paren {p operand τ} (hoperand : HasType t s operand τ) : HasType t s (.paren p operand) τ
  | negate {p operand τ} (hoperand : HasType t s operand τ) (hτ : τ.isNumeric = true) :
      HasType t s (.negate p operand) τ
  | arithmetic {p op lhs rhs τ} (hop : op.isArithmetic = true) (hlhs : HasType t s lhs τ)
      (hrhs : HasType t s rhs τ) (hτ : τ.isNumeric = true) : HasType t s (.binary p op lhs rhs) τ
  | comparison {p op lhs rhs τ} (hop : op.isArithmetic = false) (hlhs : HasType t s lhs τ)
      (hrhs : HasType t s rhs τ) (hτ : Typed.comparable op τ = true) :
      HasType t s (.binary p op lhs rhs) .bool
  | array {p elements τ σ} (hne : elements ≠ []) (helements : ∀ e ∈ elements, HasType t s e τ)
      (hτ : τ.arrayOf? = some σ) : HasType t s (.array p elements) σ
  | newArray {p element size τ} (hnamed : Ty.named? element.text = some τ)
      (hτ : τ.isScalar = true) (hsize : HasType t s size .int) :
      HasType t s (.newArray p element size) τ

namespace Expr

variable {t : Table} {s : ScopeId}

theorem HasType.ne_error {e : Expr L} {τ : Ty} (h : e.HasType t s τ) : τ ≠ .error := by
  induction e using Expr.inductionOn generalizing τ with
  | int | float | bool | char | str => cases h; decide
  | read p name => cases h with | read _ hτ => exact hτ
  | call p callee arguments => cases h with | call _ _ _ hreturns => exact hreturns
  | index p base position =>
    cases h with | index _ helement _ => exact (Ty.element?_ne_error helement).2
  | length p operand => cases h; decide
  | paren p operand ih => cases h with | paren hoperand => exact ih hoperand
  | negate p operand ih => cases h with | negate hoperand _ => exact ih hoperand
  | binary p op lhs rhs ih _ =>
    cases h with
    | arithmetic _ hlhs _ _ => exact ih hlhs
    | comparison => decide
  | array p elements => cases h with | array _ _ hτ => exact (Ty.arrayOf?_ne_error hτ).2
  | newArray p element size => cases h with | newArray _ hτ _ => exact Ty.ne_error_of_isScalar hτ

/-- Only operators look at the flag, and the types that have a length do not come from them. -/
theorem check_underLength_type_eq_iff {e : Expr L} {τ : Ty}
    (hτ : τ = .string ∨ τ.isArray = true) :
    (e.check t s true).type = τ ↔ e.typeIn t s = τ := by
  cases e with
  | binary p op lhs rhs =>
    -- An operator gives `error`, a number or `bool`, and none of these has a length.
    have hno : ∀ flag, ((Expr.binary p op lhs rhs).check t s flag).type ≠ τ := by
      intro flag h
      rcases Typed.binary_type_cases flag h with rfl | hnumeric | rfl
      · rcases hτ with hτ | hτ <;> cases hτ
      · rcases hτ with rfl | hτ
        · cases hnumeric
        · cases τ <;> simp_all [Ty.isArray, Ty.isNumeric]
      · rcases hτ with hτ | hτ <;> cases hτ
    exact ⟨fun h => absurd h (hno true), fun h => absurd h (hno false)⟩
  | _ => rfl

/-- The arguments of a call have types if the checker gives each of them that type. -/
private theorem forall₂_hasType_iff {es : List (Expr L)} {types : List Ty}
    (ih : ∀ e ∈ es, ∀ τ, e.HasType t s τ ↔ e.typeIn t s = τ ∧ τ ≠ .error) :
    List.Forall₂ (HasType t s) es types ↔
      es.map (·.typeIn t s) = types ∧ .error ∉ types := by
  induction es generalizing types with
  | nil => cases types <;> simp
  -- Arguments and types are compared pairwise, so the lists are taken apart together.
  | cons e es ihs =>
    have hrest : ∀ {rest}, List.Forall₂ (HasType t s) es rest ↔ _ :=
      ihs fun e he => ih e (List.mem_cons_of_mem _ he)
    cases types with
    | nil => simp
    | cons τ types =>
      rw [List.forall₂_cons, ih e List.mem_cons_self, hrest]
      simp only [List.map_cons, List.cons.injEq, List.mem_cons, not_or, ne_comm (a := Ty.error)]
      tauto

/-- The checker gives an expression a type exactly if the expression has that type. -/
theorem hasType_iff {e : Expr L} {τ : Ty} :
    e.HasType t s τ ↔ e.typeIn t s = τ ∧ τ ≠ .error := by
  -- Both sides fail at `error`, so the rules can be used for all other types.
  by_cases hτ : τ = .error
  · simp only [hτ, ne_eq, not_true_eq_false, and_false, iff_false]
    exact fun h => h.ne_error rfl
  simp only [ne_eq, hτ, not_false_eq_true, and_true]
  induction e using Expr.inductionOn generalizing τ with
  | int | float | bool | char | str =>
    constructor
    · intro h
      cases h
      rfl
    · rintro rfl
      constructor
  | read p name =>
    constructor
    · intro h
      cases h with | read hvar _ => simp [typeIn, check, hvar, Typed.pure]
    · intro h
      cases hvar : t.varType? s name.text with
      | none => simp [typeIn, check, hvar, Typed.pure, Ne.symm hτ] at h
      | some σ =>
        obtain rfl : σ = τ := by simpa [typeIn, check, hvar, Typed.pure] using h
        exact .read hvar hτ
  | call p callee arguments ih =>
    -- The induction hypothesis is about types other than `error`; at `error` both sides fail.
    have ih' : ∀ e ∈ arguments, ∀ σ, e.HasType t s σ ↔ e.typeIn t s = σ ∧ σ ≠ .error := by
      intro e he σ
      by_cases hσ : σ = .error
      · simp only [hσ, ne_eq, not_true_eq_false, and_false, iff_false]
        exact fun h => h.ne_error rfl
      · simp [ih e he hσ, hσ]
    have hmap : (checkAll t s arguments).map (·.2.type) = arguments.map (·.typeIn t s) := by
      simp [checkAll_eq_map, typeIn, Function.comp_def]
    -- The types of the arguments are all that a call looks at.
    change _ ↔ (Typed.call t s callee (checkAll t s arguments)).type = τ
    rw [Typed.call_type_eq_iff hτ, hmap]
    constructor
    · intro h
      cases h with
      | @call _ _ _ f hcallee harguments hvoid hreturns =>
        obtain ⟨hsame, herror⟩ := (forall₂_hasType_iff ih').mp harguments
        exact ⟨f, hcallee, hsame, herror, hvoid, rfl⟩
    · rintro ⟨f, hcallee, hsame, herror, hvoid, rfl⟩
      exact .call hcallee ((forall₂_hasType_iff ih').mpr ⟨hsame, herror⟩) hvoid hτ
  | index p base position ih =>
    change _ ↔ (Typed.index base _ _ (position.typeIn t s)).type = τ
    rw [Typed.index_type_eq_iff hτ]
    constructor
    · intro h
      cases h with
      | index hvar helement hposition =>
        exact ⟨by rw [hvar]; exact helement, (ih (by decide)).mp hposition⟩
    · rintro ⟨helement, hposition⟩
      -- An unknown base has no elements, so the check gives `error` on it.
      cases hvar : t.varType? s base.text with
      | none => simp [hvar, Ty.element?] at helement
      | some type =>
        rw [hvar] at helement
        exact .index hvar helement ((ih (by decide)).mpr hposition)
  | length p operand ih =>
    change _ ↔ (Typed.length _ (operand.check t s true).type).type = τ
    rw [Typed.length_type_eq_iff hτ]
    constructor
    · intro h
      cases h with
      | length hoperand hlength =>
        have hflag := (check_underLength_type_eq_iff hlength).mpr
          ((ih hoperand.ne_error).mp hoperand)
        exact ⟨rfl, hflag.symm ▸ hlength⟩
    · rintro ⟨rfl, hlength⟩
      -- The operand is checked with the flag, but a type that has a length is not affected by it.
      have hne : (operand.check t s true).type ≠ .error := by
        rintro he
        rw [he] at hlength
        rcases hlength with h | h <;> cases h
      exact .length ((ih hne).mpr ((check_underLength_type_eq_iff hlength).mp rfl)) hlength
  | paren p operand ih =>
    change _ ↔ operand.typeIn t s = τ
    rw [← ih hτ]
    constructor
    · intro h
      cases h with | paren hoperand => exact hoperand
    · exact .paren
  | negate p operand ih =>
    change _ ↔ (Typed.negate _ (operand.typeIn t s)).type = τ
    rw [Typed.negate_type_eq_iff hτ, ← ih hτ]
    constructor
    · intro h
      cases h with | negate hoperand hnumeric => exact ⟨hoperand, hnumeric⟩
    · rintro ⟨hoperand, hnumeric⟩
      exact .negate hoperand hnumeric
  | binary p op lhs rhs ihl ihr =>
    change _ ↔ (Typed.binary p op (lhs.typeIn t s) (rhs.typeIn t s) false).type = τ
    rw [Typed.binary_type_eq_iff hτ]
    constructor
    · intro h
      cases h with
      | arithmetic hop hlhs hrhs hnumeric =>
        -- Both operands of arithmetic have the type of the whole.
        have hl := (ihl hτ).mp hlhs
        have hr := (ihr hτ).mp hrhs
        exact ⟨hl ▸ hτ, hl.trans hr.symm, .inl ⟨hop, hl.symm ▸ hnumeric, hl.symm⟩⟩
      | comparison hop hlhs hrhs hcomparable =>
        -- A comparison is `bool`, whatever its operands are.
        have hl := (ihl hlhs.ne_error).mp hlhs
        have hr := (ihr hrhs.ne_error).mp hrhs
        exact ⟨hl ▸ hlhs.ne_error, hl.trans hr.symm, .inr ⟨hop, hl.symm ▸ hcomparable, rfl⟩⟩
    · rintro ⟨herror, hsame, ⟨hop, hnumeric, rfl⟩ | ⟨hop, hcomparable, rfl⟩⟩
      · exact .arithmetic hop ((ihl herror).mpr rfl) ((ihr herror).mpr hsame.symm) hnumeric
      · exact .comparison hop ((ihl herror).mpr rfl) ((ihr herror).mpr hsame.symm) hcomparable
  | array p elements ih =>
    have hmap : (checkAll t s elements).map (·.2.type) = elements.map (·.typeIn t s) := by
      simp [checkAll_eq_map, typeIn, Function.comp_def]
    change _ ↔ (Typed.array p ((checkAll t s elements).map (·.2.type))).type = τ
    rw [Typed.array_type_eq_iff hτ, hmap]
    constructor
    · intro h
      cases h with
      | @array _ _ σ _ hne helements harray =>
        refine ⟨σ, by simpa using hne, ?_, harray⟩
        intro type hm
        obtain ⟨e, he, rfl⟩ := List.mem_map.mp hm
        exact (ih e he (helements e he).ne_error).mp (helements e he)
    · rintro ⟨σ, hne, hall, harray⟩
      -- The element type is not `error`, for no array of it exists.
      refine .array (by simpa using hne) (fun e he => ?_) harray
      exact (ih e he (Ty.arrayOf?_ne_error harray).1).mpr (hall _ (List.mem_map_of_mem he))
  | newArray p element size ih =>
    change _ ↔ (Typed.newArray element _ (size.typeIn t s)).type = τ
    rw [Typed.newArray_type_eq_iff hτ]
    constructor
    · intro h
      cases h with
      | newArray hnamed hscalar hsize => exact ⟨hnamed, hscalar, (ih (by decide)).mp hsize⟩
    · rintro ⟨hnamed, hscalar, hsize⟩
      exact .newArray hnamed hscalar ((ih (by decide)).mpr hsize)

end Expr

/-! ## Expressions without mistakes -/

theorem Table.Populated.resolve {t : Table} (ht : t.Populated) {s : ScopeId} {name : String}
    {x : SymbolId} (h : t.resolve s name = some x) : ∃ y, t.symbol? x = some y := by
  obtain ⟨r, -, hr⟩ := List.exists_of_findSome?_eq_some h
  exact ⟨_, Array.getElem?_eq_getElem (ht r name x hr)⟩

theorem Ty.ne_error_of_mem_nameable {τ : Ty} (h : τ ∈ Ty.nameable) : τ ≠ .error := by
  rintro rfl
  simp [Ty.nameable] at h

theorem Table.Nameable.varType {t : Table} (ht : t.Nameable) {s : ScopeId} {name : String} {τ : Ty}
    (h : t.varType? s name = some τ) : τ ∈ Ty.nameable := by
  obtain ⟨y, hy, hτ⟩ := Option.bind_eq_some_iff.mp h
  obtain ⟨x, -, hx⟩ := Option.bind_eq_some_iff.mp hy
  cases y with
  | fn f => cases hτ
  | var name type =>
    obtain rfl := Option.some.inj hτ
    exact ht x _ hx

theorem Table.Nameable.returns {t : Table} (ht : t.Nameable) {s : ScopeId} {name : String}
    {f : FunctionSymbol} (h : t.callee? s name = some f) : f.returns ∈ Ty.nameable := by
  obtain ⟨x, -, hx⟩ := Option.bind_eq_some_iff.mp h
  obtain ⟨y, hy, hf⟩ := Option.bind_eq_some_iff.mp hx
  cases y with
  | var name type => cases hf
  | fn g =>
    obtain rfl := Option.some.inj hf
    exact ht x _ hy

theorem Name.varType?_of_clean {t : Table} (hpop : t.Populated) {s : ScopeId} {n : Name L}
    (hclean : n.variableReference t s = []) : ∃ τ, t.varType? s n.text = some τ := by
  unfold Name.variableReference at hclean
  cases hresolve : t.resolve s n.text with
  | none => simp [hresolve] at hclean
  | some x =>
    simp only [hresolve] at hclean
    obtain ⟨y, hy⟩ := hpop.resolve hresolve
    cases y with
    -- A function that is used as a variable is reported.
    | fn f => simp [Table.function?, hy, Symbol.function?] at hclean
    | var name type => exact ⟨type, by simp [Table.varType?, hresolve, hy]⟩

theorem Name.callee?_of_clean {t : Table} {s : ScopeId} {n : Name L} {arguments : Nat}
    (hclean : n.calleeReference t s arguments = []) :
    ∃ f, t.callee? s n.text = some f ∧ f.parameters.length = arguments := by
  unfold Name.calleeReference at hclean
  cases hcallee : t.callee? s n.text with
  | none => simp [hcallee] at hclean
  | some f =>
    simp only [hcallee] at hclean
    split_ifs at hclean with hlength
    exact ⟨f, rfl, hlength⟩

namespace Expr

variable {t : Table} {s : ScopeId}

/-- No argument has type `error` if none is reported. -/
private theorem error_notMem_checkAll {es : List (Expr L)}
    (ih : ∀ e ∈ es, ∀ flag, e.references t s = [] → (e.check t s flag).findings = [] →
      (e.check t s flag).type ≠ .error)
    (hreferences : referencesAll t s es = [])
    (hclean : ∀ x ∈ checkAll t s es, x.2.findings = []) :
    .error ∉ (checkAll t s es).map (·.2.type) := by
  rw [referencesAll_eq_flatMap, List.flatMap_eq_nil_iff] at hreferences
  rw [checkAll_eq_map] at hclean ⊢
  intro hm
  obtain ⟨x, hx, herror⟩ := List.mem_map.mp hm
  have hown := hclean x hx
  obtain ⟨e, he, rfl⟩ := List.mem_map.mp hx
  exact ih e he false (hreferences e he) hown herror

theorem type_ne_error_of_clean (ht : t.Nameable) (hpop : t.Populated) {e : Expr L} {flag : Bool}
    (hreferences : e.references t s = []) (hclean : (e.check t s flag).findings = []) :
    (e.check t s flag).type ≠ .error := by
  induction e using Expr.inductionOn generalizing flag with
  | int | float | bool | char | str => simp [check, Typed.pure]
  | read p name =>
    -- A name without a finding is declared, and what is declared has a type with a name.
    obtain ⟨τ, hτ⟩ := Name.varType?_of_clean hpop hreferences
    simpa [check, hτ, Typed.pure] using Ty.ne_error_of_mem_nameable (ht.varType hτ)
  | call p callee arguments ih =>
    obtain ⟨hcallee, harguments⟩ := List.append_eq_nil_iff.mp hreferences
    obtain ⟨f, hf, hlength⟩ := Name.callee?_of_clean hcallee
    have hlength' : f.parameters.length = (checkAll t s arguments).length := by
      simp [checkAll_eq_map, hlength]
    -- Findings of the arguments are among those of the call, so each argument is clean by itself.
    have hgiven := error_notMem_checkAll (fun e he flag => ih e he) harguments
      (Typed.findings_of_call_clean hf hlength' hclean)
    exact Typed.call_of_clean hf hlength' (Ty.ne_error_of_mem_nameable (ht.returns hf)) hgiven
      hclean
  | index p base position ih =>
    obtain ⟨hbase, hposition⟩ := List.append_eq_nil_iff.mp hreferences
    obtain ⟨hfindings, hown⟩ := List.append_eq_nil_iff.mp hclean
    -- The base is declared, so its type is known before the position is looked at.
    obtain ⟨τ, hτ⟩ := Name.varType?_of_clean hpop hbase
    refine Typed.index_of_clean ?_ (ih hposition hfindings) hown
    rw [hτ]
    exact Ty.ne_error_of_mem_nameable (ht.varType hτ)
  | length p operand ih =>
    -- The operand is checked with the flag set, hence for any flag in the induction.
    obtain ⟨hfindings, hown⟩ := List.append_eq_nil_iff.mp hclean
    exact Typed.length_of_clean (ih hreferences hfindings) hown
  | paren p operand ih => exact ih hreferences hclean
  | negate p operand ih =>
    obtain ⟨hfindings, hown⟩ := List.append_eq_nil_iff.mp hclean
    exact Typed.negate_of_clean (ih hreferences hfindings) hown
  | binary p op lhs rhs ihl ihr =>
    obtain ⟨hl, hr⟩ := List.append_eq_nil_iff.mp hreferences
    obtain ⟨hfindings, hown⟩ := List.append_eq_nil_iff.mp hclean
    obtain ⟨hfl, hfr⟩ := List.append_eq_nil_iff.mp hfindings
    exact Typed.binary_of_clean (ihl hl hfl) (ihr hr hfr) hown
  | array p elements ih =>
    obtain ⟨hfindings, hown⟩ := List.append_eq_nil_iff.mp hclean
    exact Typed.array_of_clean (error_notMem_checkAll (fun e he flag => ih e he) hreferences
      (List.flatMap_eq_nil_iff.mp hfindings)) hown
  | newArray p element size ih =>
    obtain ⟨hfindings, hown⟩ := List.append_eq_nil_iff.mp hclean
    exact Typed.newArray_of_clean (ih hreferences hfindings) hown

/-- An expression in which nothing is reported has the type that the checker gives it. -/
theorem hasType_of_clean (ht : t.Nameable) (hpop : t.Populated) {e : Expr L}
    (hreferences : e.references t s = []) (hclean : (e.check t s false).findings = []) :
    e.HasType t s (e.typeIn t s) :=
  hasType_iff.mpr ⟨rfl, type_ne_error_of_clean ht hpop hreferences hclean⟩

/-- The arguments of a call in which nothing is reported have the types of the parameters. -/
theorem forall₂_hasType_of_clean (ht : t.Nameable) (hpop : t.Populated) {callee : Name L}
    {arguments : List (Expr L)}
    (hcallee : callee.calleeReference t s arguments.length = [])
    (harguments : referencesAll t s arguments = [])
    (hclean : (Typed.call t s callee (checkAll t s arguments)).findings = []) :
    ∃ f, t.callee? s callee.text = some f ∧
      List.Forall₂ (HasType t s) arguments (f.parameters.map t.typeOf) ∧
      .void ∉ f.parameters.map t.typeOf ∧ f.returns ≠ .error := by
  have hcall : (Expr.call callee.place callee arguments).HasType t s _ :=
    hasType_of_clean ht hpop (List.append_eq_nil_iff.mpr ⟨hcallee, harguments⟩) hclean
  -- The rules for a call are inverted here, whatever the type of the whole is.
  generalize (Expr.call callee.place callee arguments).typeIn t s = τ at hcall
  cases hcall with
  | @call _ _ _ g hg hforall hvoid hreturns => exact ⟨g, hg, hforall, hvoid, hreturns⟩

end Expr

end Primer
