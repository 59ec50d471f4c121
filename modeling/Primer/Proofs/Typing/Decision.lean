import Primer.Proofs.Declaration.Coverage
import Primer.Proofs.Typing.Acceptance
import Primer.Proofs.Typing.Environment

/-!
# The checker decides the lenient type system

For a program without mistakes in declarations and references, the checker gives an expression a
type other than `error` exactly if the rules give it that type, and it reports nothing exactly if
every statement keeps to the lenient rules (`Program.types_decide`). These let a fresh array be
assigned to an element, which the rules themselves do not (`Program.fill_fresh_accepted`).

An expression is reported exactly if it has type `error`. One half of this is known: names that were
not reported have types, so `error` comes from a rule that reports it. The other half is that a rule
which gives a type reports nothing and has parts with types (`Expr.findings_eq_nil`).
-/

namespace Primer

variable {L : Type}

/-! ## Rules that give a type are silent -/

namespace Typed

variable {place : L} {found : Ty}

theorem expect_silent {expected : Ty} (h : (expect expected found place).type ≠ .error) :
    (expect expected found place).findings = [] ∧ found ≠ .error := by
  unfold expect at h ⊢
  split_ifs at h ⊢ <;> simp_all [pure, fail]

theorem providedInt_silent {τ : Ty} (h : (providedInt τ found place).type ≠ .error) :
    (providedInt τ found place).findings = [] ∧ found ≠ .error := by
  simp only [providedInt] at h ⊢
  split_ifs at h with hint
  · exact expect_silent (by rw [hint]; decide)
  · exact absurd rfl h

theorem binary_silent {op : BinOp} {lhs rhs : Ty} {underLength : Bool}
    (h : (binary place op lhs rhs underLength).type ≠ .error) :
    (binary place op lhs rhs underLength).findings = [] ∧ lhs ≠ .error ∧ rhs ≠ .error := by
  unfold binary at h ⊢
  split_ifs at h ⊢ <;> simp_all [pure, fail]

theorem index_silent {base : Name L} {type : Ty} (h : (index base type place found).type ≠ .error) :
    (index base type place found).findings = [] ∧ found ≠ .error := by
  unfold index at h ⊢
  split_ifs at h ⊢ with htype
  · exact absurd rfl h
  · cases helement : type.element? with
    | none => simp [helement, fail] at h
    | some element =>
      simp only [helement] at h ⊢
      exact providedInt_silent h

theorem length_silent (h : (length place found).type ≠ .error) :
    (length place found).findings = [] ∧ found ≠ .error := by
  unfold length at h ⊢
  split_ifs at h ⊢ <;> simp_all [pure, fail]

theorem negate_silent (h : (negate place found).type ≠ .error) :
    (negate place found).findings = [] ∧ found ≠ .error := by
  unfold negate at h ⊢
  split_ifs at h ⊢ <;> simp_all [pure, fail]

theorem array_silent {types : List Ty} (h : (array place types).type ≠ .error) :
    (array place types).findings = [] ∧ .error ∉ types := by
  cases types with
  | nil => simp [array, fail] at h
  | cons first rest =>
    rw [array] at h ⊢
    split_ifs at h ⊢ with herror hmixed
    · exact absurd rfl h
    · exact absurd rfl h
    · cases harray : first.arrayOf? with
      | none => simp [harray, fail] at h
      | some σ => exact ⟨rfl, herror⟩

theorem newArray_silent {element : Name L} (h : (newArray element place found).type ≠ .error) :
    (newArray element place found).findings = [] ∧ found ≠ .error := by
  unfold newArray at h ⊢
  cases hnamed : Ty.named? element.text with
  | none => simp [hnamed, fail] at h
  | some type =>
    simp only [hnamed] at h ⊢
    split_ifs at h ⊢ with hscalar
    · exact providedInt_silent h
    · exact absurd rfl h

theorem argument_silent {function : String} {position : Nat} {expected : Ty}
    (h : (argument function position expected place found).type ≠ .error) :
    (argument function position expected place found).findings = [] ∧ found ≠ .error := by
  unfold argument at h ⊢
  split_ifs at h ⊢ <;> simp_all [pure, fail]

/-- Arguments that pass are silent if what was given is. -/
theorem arguments_silent {function : String} {position : Nat} {types : List Ty}
    {given : List (L × Typed L)}
    (hgiven : ∀ x ∈ given, x.2.type ≠ .error → x.2.findings = [])
    (h : .error ∉ (arguments function position types given).map Typed.type) :
    (arguments function position types given).flatMap Typed.findings = [] := by
  -- A missing argument is not looked at here: both lists are walked to the end of the shorter one.
  induction given generalizing types position with
  | nil => cases types <;> rfl
  | cons first given ih =>
    obtain ⟨place, found⟩ := first
    cases types with
    | nil => rfl
    | cons expected types =>
      simp only [arguments, List.map_cons, List.mem_cons, not_or] at h
      -- An argument of type error would be in the list, so this one is neither wrong nor unknown.
      obtain ⟨hown, hfound⟩ := argument_silent (Ne.symm h.1)
      simp only [arguments, List.flatMap_cons, List.append_eq_nil_iff]
      refine ⟨List.append_eq_nil_iff.mpr ⟨hgiven _ List.mem_cons_self hfound, hown⟩, ?_⟩
      exact ih (fun x hx => hgiven x (List.mem_cons_of_mem _ hx)) h.2

theorem call_silent {t : Table} {s : ScopeId} {callee : Name L} {given : List (L × Typed L)}
    (hgiven : ∀ x ∈ given, x.2.type ≠ .error → x.2.findings = [])
    (h : (call t s callee given).type ≠ .error) : (call t s callee given).findings = [] := by
  unfold call at h ⊢
  cases hcallee : t.callee? s callee.text with
  | none => simp [hcallee] at h
  | some f =>
    simp only [hcallee] at h ⊢
    split_ifs at h ⊢ with hlength herror
    · exact absurd rfl h
    · exact absurd rfl h
    · exact arguments_silent hgiven herror

end Typed

namespace Expr

variable {t : Table} {s : ScopeId}

private theorem silent_of_mem_checkAll {es : List (Expr L)}
    (ih : ∀ e ∈ es, ∀ flag, (e.check t s flag).type ≠ .error → (e.check t s flag).findings = []) :
    ∀ x ∈ checkAll t s es, x.2.type ≠ .error → x.2.findings = [] := by
  intro x hx
  rw [checkAll_eq_map] at hx
  obtain ⟨e, he, rfl⟩ := List.mem_map.mp hx
  exact ih e he false

/-- Nothing is reported about an expression that has a type. -/
theorem findings_eq_nil {e : Expr L} {flag : Bool} (h : (e.check t s flag).type ≠ .error) :
    (e.check t s flag).findings = [] := by
  induction e using Expr.inductionOn generalizing flag with
  | int | float | bool | char | str | read => rfl
  | call p callee arguments ih =>
    exact Typed.call_silent (silent_of_mem_checkAll fun e he flag => ih e he) h
  | index p base position ih =>
    obtain ⟨hown, hposition⟩ := Typed.index_silent h
    exact List.append_eq_nil_iff.mpr ⟨ih hposition, hown⟩
  | length p operand ih =>
    obtain ⟨hown, hoperand⟩ := Typed.length_silent h
    exact List.append_eq_nil_iff.mpr ⟨ih hoperand, hown⟩
  | paren p operand ih => exact ih h
  | negate p operand ih =>
    obtain ⟨hown, hoperand⟩ := Typed.negate_silent h
    exact List.append_eq_nil_iff.mpr ⟨ih hoperand, hown⟩
  | binary p op lhs rhs ihl ihr =>
    obtain ⟨hown, hlhs, hrhs⟩ := Typed.binary_silent h
    exact List.append_eq_nil_iff.mpr ⟨List.append_eq_nil_iff.mpr ⟨ihl hlhs, ihr hrhs⟩, hown⟩
  | array p elements ih =>
    obtain ⟨hown, helements⟩ := Typed.array_silent h
    refine List.append_eq_nil_iff.mpr ⟨List.flatMap_eq_nil_iff.mpr fun x hx => ?_, hown⟩
    -- No element has type `error`, or the array would have it too.
    refine silent_of_mem_checkAll (fun e he flag => ih e he) x hx fun herror => helements ?_
    exact List.mem_map.mpr ⟨x, hx, herror⟩
  | newArray p element size ih =>
    obtain ⟨hown, hsize⟩ := Typed.newArray_silent h
    exact List.append_eq_nil_iff.mpr ⟨ih hsize, hown⟩

/-- Types come from names and from rules, and neither gives the type of command-line arguments. -/
theorem HasType.mem_nameable (ht : t.Nameable) {e : Expr L} {τ : Ty} (h : e.HasType t s τ) :
    τ ∈ Ty.nameable := by
  induction e using Expr.inductionOn generalizing τ with
  | int | float | bool | char | str => cases h; decide
  | read p name => cases h with | read hvar _ => exact ht.varType hvar
  | call p callee arguments => cases h with | call hcallee _ _ _ => exact ht.returns hcallee
  | index p base position =>
    cases h with
    | index hvar helement _ =>
      have hbase := ht.varType hvar
      -- An array has the type of its elements, a string has characters.
      rcases (Ty.element?_eq_some_iff hbase).mp helement with harray | ⟨-, rfl⟩
      · cases τ <;> simp_all [Ty.arrayOf?, Ty.nameable]
      · decide
  | length p operand => cases h; decide
  | paren p operand ih => cases h with | paren hoperand => exact ih hoperand
  | negate p operand ih => cases h with | negate hoperand _ => exact ih hoperand
  | binary p op lhs rhs ih _ =>
    cases h with
    | arithmetic _ hlhs _ _ => exact ih hlhs
    | comparison => decide
  | array p elements =>
    -- Only the scalar types are elements of a literal, and their arrays all have names.
    cases h with
    | @array _ _ σ _ _ _ hτ => cases σ <;> simp_all [Ty.arrayOf?] <;> subst hτ <;> decide
  | newArray p element size => cases h with | newArray hnamed _ _ => exact Ty.named?_mem hnamed

/-! ## Checks of values -/

variable {Γ : Typing.Env}

theorem TypedAs.typeIn_eq (ht : t.Nameable) (hΓ : t.Matches s Γ) {e : Expr L} {τ : Ty}
    (h : e.TypedAs Γ false τ) :
    e.typeIn t s = τ ∧ τ ≠ .error ∧ (e.check t s false).findings = [] := by
  obtain ⟨htype, hne⟩ := (typedAs_iff ht hΓ).mp h
  have hcheck : (e.check t s false).type ≠ .error := by
    change e.typeIn t s ≠ .error
    rw [htype]
    exact hne
  exact ⟨htype, hne, findings_eq_nil hcheck⟩

theorem typedAs_of_clean (ht : t.Nameable) (hpop : t.Populated) (hΓ : t.Matches s Γ) {e : Expr L}
    (hreferences : e.references t s = []) (hclean : (e.check t s false).findings = []) :
    e.TypedAs Γ false (e.typeIn t s) :=
  (hasType_iff_typedAs ht hΓ).mp (hasType_of_clean ht hpop hreferences hclean)

/-- What can be stored, in the words of the checker. -/
theorem stored_iff {e : Expr L} {declared found : Ty} (he : e.TypedAs Γ false found)
    (hunique : ∀ τ, e.TypedAs Γ false τ → τ = found) :
    e.Stored Γ declared ↔ found ≠ .void ∧ e.storableAs declared found = true := by
  constructor
  · intro h
    cases h with
    -- The type of the expression is unique, so it is the one that was found.
    | value hnew he' hvoid =>
      obtain rfl := hunique _ he'
      exact ⟨hvoid, by simp [storableAs, hnew]⟩
    | fresh he' hσ =>
      obtain rfl := hunique _ he'
      refine ⟨?_, ?_⟩
      · rintro rfl
        cases hσ
      · simpa [storableAs, isNewArray] using Ty.arrayOf?_eq_some_iff.mp hσ
  · rintro ⟨hvoid, hstorable⟩
    -- Whether the value is a fresh array decides which of the two rules applies.
    cases hnew : e.isNewArray with
    | false =>
      obtain rfl : declared = found := by simpa [storableAs, hnew] using hstorable
      exact .value hnew he hvoid
    | true =>
      cases e with
      | newArray p element size =>
        refine .fresh he (Ty.arrayOf?_eq_some_iff.mpr ?_)
        simpa [storableAs, isNewArray] using hstorable
      | _ => cases hnew

section Checks

variable (ht : t.Nameable) (hpop : t.Populated) (hΓ : t.Matches s Γ)

include ht hpop hΓ

theorem checkStore_eq_nil_iff {e : Expr L} {name : String} {declared : Ty}
    (hreferences : e.references t s = []) :
    (e.check t s false).findings ++ e.checkStore name declared (e.check t s false).type = [] ↔
      e.Stored Γ declared := by
  constructor
  · intro hclean
    obtain ⟨hfindings, hstore⟩ := List.append_eq_nil_iff.mp hclean
    have he := typedAs_of_clean ht hpop hΓ hreferences hfindings
    refine (stored_iff he fun τ hτ => ((typedAs_iff ht hΓ).mp hτ).1.symm).mpr ?_
    have hne := ((typedAs_iff ht hΓ).mp he).2
    -- The error type is accepted without a word, but a typed expression does not have it.
    unfold checkStore at hstore
    split_ifs at hstore with herror hvoid hstorable
    · exact absurd herror hne
    · exact ⟨hvoid, hstorable⟩
  · intro h
    have hfound : ∃ found, e.TypedAs Γ false found := by
      cases h with
      | value _ he _ => exact ⟨_, he⟩
      | fresh he _ => exact ⟨_, he⟩
    obtain ⟨found, he⟩ := hfound
    obtain ⟨htype, hne, hfindings⟩ := he.typeIn_eq ht hΓ
    obtain ⟨hvoid, hstorable⟩ := (stored_iff he fun τ hτ =>
      ((typedAs_iff ht hΓ).mp hτ).1.symm.trans htype).mp h
    have htype' : (e.check t s false).type = found := htype
    simp [hfindings, htype', checkStore, hne, hvoid, hstorable]

theorem checkCondition_eq_nil_iff {e : Expr L} {statement : String}
    (hreferences : e.references t s = []) :
    e.checkCondition t s statement = [] ↔ e.TypedAs Γ false .bool := by
  constructor
  · intro hclean
    exact (hasType_iff_typedAs ht hΓ).mp (hasType_bool_of_clean ht hpop hreferences hclean)
  · intro h
    obtain ⟨htype, -, hfindings⟩ := h.typeIn_eq ht hΓ
    have htype' : (e.check t s false).type = .bool := htype
    simp [checkCondition, Typed.conditionMistakes, hfindings, htype']

theorem checkPrint_eq_nil_iff {e : Expr L} (hreferences : e.references t s = []) :
    e.checkPrint t s = [] ↔ ∃ τ, e.TypedAs Γ false τ ∧ τ ≠ .void ∧ τ.isArray = false := by
  constructor
  · intro hclean
    obtain ⟨τ, hτ, hprint⟩ := hasType_of_checkPrint ht hpop hreferences hclean
    exact ⟨τ, (hasType_iff_typedAs ht hΓ).mp hτ, hprint⟩
  · rintro ⟨τ, h, hvoid, harray⟩
    obtain ⟨htype, -, hfindings⟩ := h.typeIn_eq ht hΓ
    have htype' : (e.check t s false).type = τ := htype
    have hargs : τ ≠ .args := by
      rintro rfl
      have := ((hasType_iff_typedAs ht hΓ).mpr h).mem_nameable ht
      simp [Ty.nameable] at this
    simp [checkPrint, Typed.printMistakes, hfindings, htype', hvoid, harray, hargs]

theorem checkElement_eq_nil_iff {target : Name L} {position value : Expr L}
    (htarget : target.variableReference t s = []) (hposition : position.references t s = [])
    (hvalue : value.references t s = []) :
    checkElement t s target position value = [] ↔
      ∃ τ σ, Γ.varType? target.text = some σ ∧ τ.arrayOf? = some σ ∧
        position.TypedAs Γ false .int ∧ value.TypedAs Γ false τ := by
  constructor
  · intro hclean
    obtain ⟨σ, τ, hσ, harray, helement, hp, hv⟩ :=
      hasType_of_checkElement ht hpop htarget hposition hvalue hclean
    exact ⟨τ, σ, hΓ.varType _ ▸ hσ, Ty.arrayOf?_eq_some_iff.mpr ⟨harray, helement⟩,
      (hasType_iff_typedAs ht hΓ).mp hp, (hasType_iff_typedAs ht hΓ).mp hv⟩
  · rintro ⟨τ, σ, hσ, harray, hp, hv⟩
    -- The parts are silent and have the expected types, so every check is passed.
    obtain ⟨hptype, -, hpfindings⟩ := hp.typeIn_eq ht hΓ
    obtain ⟨hvtype, -, hvfindings⟩ := hv.typeIn_eq ht hΓ
    have hptype' : (position.check t s false).type = .int := hptype
    have hvtype' : (value.check t s false).type = τ := hvtype
    obtain ⟨hisArray, helement⟩ := Ty.arrayOf?_eq_some_iff.mp harray
    have hstring : σ ≠ .string := by
      rintro rfl
      cases hisArray
    rw [← hΓ.varType] at hσ
    simp [checkElement, Typed.elementMistakes, hpfindings, hvfindings, hσ, hptype', hvtype',
      hstring, hisArray, helement, Typed.expect, Typed.pure]

/-- What a function with a given result returns. -/
theorem checkReturn_eq_nil_iff {f : FunctionSymbol} {place : L} {e : Expr L}
    (hreferences : e.references t s = []) :
    (e.check t s false).findings = [] ∧
        f.checkReturn place (some (e, (e.check t s false).type)) = [] ↔
      f.returns ≠ .void ∧ e.Stored Γ f.returns := by
  constructor
  · rintro ⟨hfindings, hreturn⟩
    have he := hasType_of_clean ht hpop hreferences hfindings
    obtain ⟨hvoid, found, hfound, hstored⟩ := FunctionSymbol.of_checkReturn_some he hreturn
    have he' := (hasType_iff_typedAs ht hΓ).mp hfound
    -- A derivation gives the type that is computed, so two derivations agree.
    refine ⟨hvoid, (stored_iff he' fun τ hτ => ?_).mpr hstored⟩
    exact ((typedAs_iff ht hΓ).mp hτ).1.symm.trans ((typedAs_iff ht hΓ).mp he').1
  · rintro ⟨hvoid, hstored⟩
    -- The name only stands in the message, so any name will do.
    have hclean : (e.check t s false).findings ++
        e.checkStore "" f.returns (e.check t s false).type = [] :=
      (checkStore_eq_nil_iff ht hpop hΓ hreferences).mpr hstored
    obtain ⟨hfindings, hstore⟩ := List.append_eq_nil_iff.mp hclean
    refine ⟨hfindings, ?_⟩
    have hne := ((typedAs_iff ht hΓ).mp (typedAs_of_clean ht hpop hΓ hreferences hfindings)).2
    have hne' : (e.check t s false).type ≠ .error := hne
    unfold checkStore at hstore
    rw [if_neg hne'] at hstore
    split_ifs at hstore with _ hstorable
    simp [FunctionSymbol.checkReturn, hvoid, hstorable]

theorem call_eq_nil_iff {p : L} {callee : Name L} {arguments : List (Expr L)}
    (hcallee : callee.calleeReference t s arguments.length = [])
    (harguments : referencesAll t s arguments = []) :
    (Typed.call t s callee (checkAll t s arguments)).findings = [] ↔
      ∃ τ, (Expr.call p callee arguments).TypedAs Γ false τ := by
  constructor
  · intro hclean
    exact ⟨_, typedAs_of_clean ht hpop hΓ (e := .call p callee arguments)
      (List.append_eq_nil_iff.mpr ⟨hcallee, harguments⟩) hclean⟩
  · rintro ⟨τ, h⟩
    exact (h.typeIn_eq ht hΓ).2.2

end Checks

end Expr

/-! ## Statements -/

section Statements

variable {t : Table} {m : ScopeMap} {owner : Option SymbolId} {returns : Option Ty}

/-- A block keeps to the rules exactly if nothing is reported, if its statements do. -/
private theorem Block.types_eq_empty_iff_block (hdescends : t.Descends) {b : Block L NodeId}
    (ih : ∀ st ∈ b.statements, ∀ s k Γ, t.owner? s = owner → t.Matches s Γ →
      st.Placed t m owner s → st.Bound t m s k → st.references t m s = .empty →
      (st.types t m s = .empty ↔ st.Ok true returns Γ))
    {s : ScopeId} {k : Nat} {Γ : Typing.Env} (hΓ : t.Matches s Γ) (hplaced : b.Placed t m owner s)
    (hbound : b.Bound t m s k) (hreferences : b.references t m = .empty) :
    b.types t m = .empty ↔ b.Ok true returns Γ := by
  obtain ⟨r, hmark, howner, hΓ', hsts, hbound'⟩ := b.exists_matches hdescends hΓ hplaced hbound
  obtain ⟨node, sts⟩ := b
  -- The statements are checked in the scope of the block, in the environment that it extends.
  change m.get? node = some r at hmark
  rw [Block.references, Report.inScopeOf_of_get? hmark,
    Block.referencesAll_eq_empty_iff] at hreferences
  rw [Block.types, Report.inScopeOf_of_get? hmark, Block.typesAll_eq_empty_iff]
  have hst : ∀ st ∈ sts, (st.types t m r = .empty ↔
      st.Ok true returns (Γ.enter (Block.mk node sts).declaredNames)) := by
    intro st hst
    obtain ⟨k', -, hmem⟩ := Block.exists_mem_numbered (k := k) hst
    exact ih st hst r k' _ howner hΓ' (hsts st hst) (hbound' k' st hmem) (hreferences st hst)
  constructor
  · intro h
    exact .mk fun st hm => (hst st hm).mp (h st hm)
  · intro h st hm
    cases h with
    | mk hsts => exact (hst st hm).mpr (hsts st hm)

/-- Nothing is reported about a return exactly if it keeps to the rules. -/
theorem Stmt.types_ret_eq_empty_iff (ht : t.Nameable) (hpop : t.Populated)
    (hfunction : ∀ x, owner = some x → ∃ f, t.function? x = some f ∧ returns = some f.returns)
    {p : L} {node : NodeId} {value : Option (Expr L)} {s : ScopeId} {Γ : Typing.Env}
    (hs : t.owner? s = owner) (hΓ : t.Matches s Γ) (hnode : m.get? node = some s)
    (hreferences : (Stmt.ret p node value).references t m s = .empty) :
    (Stmt.ret p node value).types t m s = .empty ↔
      (Stmt.ret p node value).Ok true returns Γ := by
  rw [Stmt.references, Report.inScopeOf_of_get? hnode] at hreferences
  obtain ⟨hinside, hvalue⟩ :=
    List.append_eq_nil_iff.mp (Report.ofFindings_eq_empty_iff.mp hreferences)
  -- A return outside of every function was reported.
  cases howner : owner with
  | none => simp [hs, howner] at hinside
  | some x =>
    obtain ⟨f, hf, rfl⟩ := hfunction x howner
    have hfunctionOf : t.functionOf s = some (x, f) := by
      simp [Table.functionOf, hs, howner, hf]
    rw [Stmt.types, Report.inScopeOf_of_get? hnode, Report.append_eq_empty_iff]
    simp only [hfunctionOf, Report.ofFindings_eq_empty_iff]
    cases value with
    | none =>
      simp only [Option.map_none, Option.getD_none, true_and]
      constructor
      · intro h
        exact .ret (congrArg some (FunctionSymbol.of_checkReturn_none h))
      · intro h
        cases h with
        | ret hvoid => simp [FunctionSymbol.checkReturn, Option.some.inj hvoid]
    | some e =>
      simp only [Option.map_some, Option.getD_some]
      rw [Expr.checkReturn_eq_nil_iff ht hpop hΓ hvalue]
      constructor
      · rintro ⟨hvoid, hstored⟩
        exact .retValue rfl hvoid hstored
      · intro h
        cases h with
        | retValue hreturns hvoid hstored =>
          obtain rfl := Option.some.inj hreturns
          exact ⟨hvoid, hstored⟩

/-- Nothing is reported about a statement exactly if it keeps to the rules. -/
theorem Stmt.types_eq_empty_iff (hdescends : t.Descends) (ht : t.Nameable) (hpop : t.Populated)
    (hfunction : ∀ x, owner = some x → ∃ f, t.function? x = some f ∧ returns = some f.returns)
    {st : Stmt L NodeId} {s : ScopeId} {k : Nat} {Γ : Typing.Env} (hs : t.owner? s = owner)
    (hΓ : t.Matches s Γ) (hplaced : st.Placed t m owner s) (hbound : st.Bound t m s k)
    (hreferences : st.references t m s = .empty) :
    st.types t m s = .empty ↔ st.Ok true returns Γ := by
  induction st using Stmt.inductionOn generalizing s k Γ with
  | declare p type name value =>
    cases value with
    | none => exact ⟨fun _ => .declare, fun _ => rfl⟩
    | some e =>
      cases hbound with
      | @declare _ _ _ _ _ _ τ htype hsymbol hlocal =>
        have hvalue := Report.ofFindings_eq_empty_iff.mp hreferences
        -- The type name was declared, so the check knows the type that the rule asks for.
        simp only [Stmt.types, htype, Report.ofFindings_eq_empty_iff]
        rw [Expr.checkStore_eq_nil_iff ht hpop hΓ hvalue]
        constructor
        · exact .declareWith htype
        · intro h
          cases h with
          | declareWith htype' hstored =>
            obtain rfl := Option.some.inj (htype.symm.trans htype')
            exact hstored
  | assign p target value =>
    obtain ⟨htarget, hvalue⟩ :=
      List.append_eq_nil_iff.mp (Report.ofFindings_eq_empty_iff.mp hreferences)
    obtain ⟨τ, hτ⟩ := Name.varType?_of_clean hpop (List.append_eq_nil_iff.mp htarget).1
    simp only [Stmt.types, hτ, Report.ofFindings_eq_empty_iff]
    rw [Expr.checkStore_eq_nil_iff ht hpop hΓ hvalue]
    rw [hΓ.varType] at hτ
    constructor
    · exact .assign hτ
    · intro h
      cases h with
      | assign hτ' hstored =>
        obtain rfl := Option.some.inj (hτ.symm.trans hτ')
        exact hstored
  | assignAt p target position value =>
    obtain ⟨hothers, hvalue⟩ :=
      List.append_eq_nil_iff.mp (Report.ofFindings_eq_empty_iff.mp hreferences)
    obtain ⟨htarget, hposition⟩ := List.append_eq_nil_iff.mp hothers
    rw [Stmt.types, Report.ofFindings_eq_empty_iff, Expr.checkElement_eq_nil_iff ht hpop hΓ
      (List.append_eq_nil_iff.mp htarget).1 hposition hvalue]
    constructor
    · rintro ⟨τ, σ, hσ, harray, hp, hv⟩
      -- The lenient rules take any element, so the side condition on fresh arrays is void.
      exact .assignAt hσ harray hp hv (.inr rfl)
    · intro h
      cases h with
      | assignAt hσ harray hp hv => exact ⟨_, _, hσ, harray, hp, hv⟩
  | ifThen p condition yes ih =>
    cases hplaced with
    | ifThen hpyes =>
      cases hbound with
      | ifThen hbyes =>
        obtain ⟨hrc, hryes⟩ := Report.append_eq_empty_iff.mp hreferences
        rw [Stmt.types, Report.append_eq_empty_iff, Report.ofFindings_eq_empty_iff,
          Expr.checkCondition_eq_nil_iff ht hpop hΓ (Report.ofFindings_eq_empty_iff.mp hrc),
          Block.types_eq_empty_iff_block hdescends (fun st hm s k Γ => ih st hm) hΓ hpyes hbyes
            hryes]
        constructor
        · rintro ⟨hcondition, hyes⟩
          exact .ifThen hcondition hyes
        · intro h
          cases h with | ifThen hcondition hyes => exact ⟨hcondition, hyes⟩
  | ifElse p condition yes no ihy ihn =>
    cases hplaced with
    | ifElse hpyes hpno =>
      cases hbound with
      | ifElse hbyes hbno =>
        obtain ⟨hrc, hrblocks⟩ := Report.append_eq_empty_iff.mp hreferences
        obtain ⟨hryes, hrno⟩ := Report.append_eq_empty_iff.mp hrblocks
        rw [Stmt.types, Report.append_eq_empty_iff, Report.append_eq_empty_iff,
          Report.ofFindings_eq_empty_iff,
          Expr.checkCondition_eq_nil_iff ht hpop hΓ (Report.ofFindings_eq_empty_iff.mp hrc),
          Block.types_eq_empty_iff_block hdescends (fun st hm s k Γ => ihy st hm) hΓ hpyes hbyes
            hryes,
          Block.types_eq_empty_iff_block hdescends (fun st hm s k Γ => ihn st hm) hΓ hpno hbno
            hrno]
        constructor
        · rintro ⟨hcondition, hyes, hno⟩
          exact .ifElse hcondition hyes hno
        · intro h
          cases h with | ifElse hcondition hyes hno => exact ⟨hcondition, hyes, hno⟩
  | loop p condition body ih =>
    cases hplaced with
    | loop hpbody =>
      cases hbound with
      | loop hbbody =>
        obtain ⟨hrc, hrbody⟩ := Report.append_eq_empty_iff.mp hreferences
        rw [Stmt.types, Report.append_eq_empty_iff, Report.ofFindings_eq_empty_iff,
          Expr.checkCondition_eq_nil_iff ht hpop hΓ (Report.ofFindings_eq_empty_iff.mp hrc),
          Block.types_eq_empty_iff_block hdescends (fun st hm s k Γ => ih st hm) hΓ hpbody hbbody
            hrbody]
        constructor
        · rintro ⟨hcondition, hbody⟩
          exact .loop hcondition hbody
        · intro h
          cases h with | loop hcondition hbody => exact ⟨hcondition, hbody⟩
  | ret p node value =>
    -- Only a return looks at the function around it.
    cases hplaced with
    | ret hnode => exact Stmt.types_ret_eq_empty_iff ht hpop hfunction hs hΓ hnode hreferences
  | print p newline value =>
    cases value with
    | none => exact ⟨fun _ => .newline, fun _ => rfl⟩
    | some e =>
      have hvalue := Report.ofFindings_eq_empty_iff.mp hreferences
      rw [Stmt.types, Report.ofFindings_eq_empty_iff, Expr.checkPrint_eq_nil_iff ht hpop hΓ hvalue]
      constructor
      · rintro ⟨τ, hτ, hvoid, harray⟩
        exact .print hτ hvoid harray
      · intro h
        cases h with | print hτ hvoid harray => exact ⟨_, hτ, hvoid, harray⟩
  | call p callee arguments =>
    obtain ⟨hcallee, harguments⟩ :=
      List.append_eq_nil_iff.mp (Report.ofFindings_eq_empty_iff.mp hreferences)
    rw [Stmt.types, Report.ofFindings_eq_empty_iff,
      Expr.call_eq_nil_iff (p := p) ht hpop hΓ hcallee harguments]
    constructor
    · rintro ⟨τ, hτ⟩
      exact .call hτ
    · intro h
      cases h with | call hτ => exact ⟨_, hτ⟩

/-- Nothing is reported about a block exactly if it keeps to the rules. -/
theorem Block.types_eq_empty_iff (hdescends : t.Descends) (ht : t.Nameable) (hpop : t.Populated)
    (hfunction : ∀ x, owner = some x → ∃ f, t.function? x = some f ∧ returns = some f.returns)
    {b : Block L NodeId} {s : ScopeId} {k : Nat} {Γ : Typing.Env} (hΓ : t.Matches s Γ)
    (hplaced : b.Placed t m owner s) (hbound : b.Bound t m s k)
    (hreferences : b.references t m = .empty) : b.types t m = .empty ↔ b.Ok true returns Γ :=
  Block.types_eq_empty_iff_block hdescends
    (fun _ _ _ _ _ => Stmt.types_eq_empty_iff hdescends ht hpop hfunction) hΓ hplaced hbound
    hreferences

end Statements

/-! ## Programs -/

namespace Program

variable {p : Program L}

section Clean

variable (hp : p.Distinct) (hclean : (Declarations.ofProgram p).findings = [])

include hp hclean

/-- In the scope of a block names mean what they mean in its environment. -/
theorem BlockIn.exists_matches {Γ : Typing.Env} {b : Block L NodeId} (hb : p.BlockIn Γ b) :
    ∃ s k, (Declarations.ofProgram p).scopes.get? b.mark = some s ∧
      (Declarations.ofProgram p).table.Matches s Γ ∧
      (∃ owner, ∀ st ∈ b.statements, st.Placed (Declarations.ofProgram p).table
        (Declarations.ofProgram p).scopes owner s) ∧
      ∀ k' st, (k', st) ∈ Block.numbered k b.statements →
        st.Bound (Declarations.ofProgram p).table (Declarations.ofProgram p).scopes s k' := by
  have hdescends := Declarations.descends_ofProgram p
  induction hb with
  | @function f body hitem hbody =>
    obtain ⟨k, hk⟩ := Item.exists_mem_numbered (k := 0) hitem
    obtain ⟨body', s, returns, types, hf⟩ := Program.entered_item hp hclean hk
    -- The body that was entered is the one of the function.
    obtain rfl : body' = body := Option.some.inj (hf.body_eq.symm.trans hbody)
    obtain ⟨r, hmark, -, hmatches, hplaced, hbound⟩ := body'.exists_matches hdescends
      (matches_function hp hclean hf) hf.placed hf.bound
    exact ⟨r, _, hmark, hmatches, ⟨_, hplaced⟩, hbound⟩
  | @main e hitem =>
    obtain ⟨k, hk⟩ := Item.exists_mem_numbered (k := 0) hitem
    obtain ⟨s, he⟩ := Program.entered_item hp hclean hk
    obtain ⟨r, hmark, -, hmatches, hplaced, hbound⟩ := e.body.exists_matches hdescends
      (matches_main hp hclean he) he.placed he.bound
    exact ⟨r, _, hmark, hmatches, ⟨_, hplaced⟩, hbound⟩
  | @nested Γ b st b' hb hst hb' ih =>
    obtain ⟨s, k, hmark, hmatches, ⟨owner, hplaced⟩, hbound⟩ := ih
    -- The index of the nested block is found in two steps: its statement, then the block in it.
    obtain ⟨k₁, -, hmem⟩ := Block.exists_mem_numbered (k := k) hst
    obtain ⟨k₂, hmem'⟩ := Stmt.exists_mem_numberedBlocks (k := k₁) hb'
    obtain ⟨hplaced', hbound'⟩ :=
      Stmt.placed_bound_blocks (hplaced st hst) (hbound k₁ st hmem) hmem'
    obtain ⟨r, hmark', -, hmatches', hplaced'', hbound''⟩ :=
      b'.exists_matches hdescends hmatches hplaced' hbound'
    exact ⟨r, k₂, hmark', hmatches', ⟨owner, hplaced''⟩, hbound''⟩

/-- Nothing is reported about the types of an item exactly if it keeps to the rules. -/
theorem types_item_eq_empty_iff
    (hreferences : p.references (Declarations.ofProgram p).table (Declarations.ofProgram p).scopes =
      .empty) {i : Item L NodeId} (hi : i ∈ p.items) :
    (∀ body, i.acceptedBody? (Declarations.ofProgram p).scopes = some body →
      body.types (Declarations.ofProgram p).table (Declarations.ofProgram p).scopes = .empty) ↔
      i.Ok true p := by
  have hdescends := Declarations.descends_ofProgram p
  have ht := Declarations.nameable_ofProgram p
  have hpop := Declarations.populated_ofProgram p
  -- The references are clean in each body, since they are in the whole program.
  have hbodies : ∀ body, i.acceptedBody? (Declarations.ofProgram p).scopes = some body →
      body.references (Declarations.ofProgram p).table (Declarations.ofProgram p).scopes =
        .empty :=
    Program.references_eq_empty_iff.mp hreferences i hi
  obtain ⟨k, hk⟩ := Item.exists_mem_numbered (k := 0) hi
  cases i with
  | function f =>
    obtain ⟨body, s, returns, types, hf⟩ := Program.entered_item hp hclean hk
    have haccepted : (Item.function f).acceptedBody? (Declarations.ofProgram p).scopes =
        some body := by
      simp [Item.acceptedBody?, hf.mark, hf.body_eq]
    -- The function that owns the scope is the one whose body is checked.
    have howner : ∀ x, some (SymbolId.mk k) = some x →
        ∃ g, (Declarations.ofProgram p).table.function? x = some g ∧
          some returns = some g.returns := by
      intro x hx
      obtain rfl := Option.some.inj hx
      refine ⟨⟨f.name.text, returns, SymbolId.block (k + 1) f.parameters.length⟩, ?_, rfl⟩
      simp [Table.function?, hf.symbol, Symbol.function?]
    have hiff := Block.types_eq_empty_iff hdescends ht hpop howner
      (matches_function hp hclean hf) hf.placed hf.bound (hbodies body haccepted)
    simp only [haccepted, Option.some.injEq, forall_eq', Item.Ok, hf.body_eq, hf.returns_named,
      hiff]
  | main e =>
    obtain ⟨s, he⟩ := Program.entered_item hp hclean hk
    have haccepted : (Item.main e).acceptedBody? (Declarations.ofProgram p).scopes =
        some e.body := by
      simp [Item.acceptedBody?, he.mark]
    -- The entry point has no owner, hence no type to return.
    have howner : ∀ x, none = some x →
        ∃ g, (Declarations.ofProgram p).table.function? x = some g ∧ none = some g.returns := by
      intro x hx
      cases hx
    have hiff := Block.types_eq_empty_iff hdescends ht hpop howner (matches_main hp hclean he)
      he.placed he.bound (hbodies e.body haccepted)
    simp only [haccepted, Option.some.injEq, forall_eq', Item.Ok, hiff]

/-- Nothing is reported about types exactly if every statement keeps to the lenient rules. -/
theorem findings_types_eq_nil_iff
    (hreferences : (p.references (Declarations.ofProgram p).table
      (Declarations.ofProgram p).scopes).findings = []) :
    (p.types (Declarations.ofProgram p).table (Declarations.ofProgram p).scopes).findings = [] ↔
      p.Ok true := by
  -- No fault stops a pass, so a report without findings is an empty one.
  have hrefs : p.references (Declarations.ofProgram p).table (Declarations.ofProgram p).scopes =
      .empty :=
    Report.eq_empty_iff.mpr ⟨hreferences, Program.fault_references hp⟩
  have hempty : (p.types (Declarations.ofProgram p).table
      (Declarations.ofProgram p).scopes).findings = [] ↔
      p.types (Declarations.ofProgram p).table (Declarations.ofProgram p).scopes = .empty := by
    rw [Report.eq_empty_iff]
    exact (and_iff_left (Program.fault_types hp)).symm
  rw [hempty, Program.types_eq_empty_iff]
  exact forall₂_congr fun i hi => types_item_eq_empty_iff hp hclean hrefs hi

end Clean

/-- The checker decides the lenient rules. In a program without mistakes in declarations and
references, the type of an expression in the scope of its block is the one that the rules give, and
nothing is reported about types exactly if every statement keeps to the lenient rules. The program
keeps to the rules themselves exactly if moreover no fresh array is assigned to an element. -/
theorem types_decide (hp : p.Distinct) (hclean : (Declarations.ofProgram p).findings = [])
    (hreferences : (p.references (Declarations.ofProgram p).table
      (Declarations.ofProgram p).scopes).findings = []) :
    (∀ Γ b, p.BlockIn Γ b → ∃ s, (Declarations.ofProgram p).scopes.get? b.mark = some s ∧
      ∀ (e : Expr L) (τ : Ty), e.typeIn (Declarations.ofProgram p).table s = τ ∧ τ ≠ .error ↔
        e.TypedAs Γ false τ) ∧
    ((p.types (Declarations.ofProgram p).table (Declarations.ofProgram p).scopes).findings = [] ↔
      p.Ok true) ∧
    (p.Ok false ↔
      (p.types (Declarations.ofProgram p).table (Declarations.ofProgram p).scopes).findings = [] ∧
        ∀ Γ b, p.BlockIn Γ b → ∀ st ∈ b.statements, st.storesFreshElement = false) := by
  refine ⟨fun Γ b hb => ?_, findings_types_eq_nil_iff hp hclean hreferences, ?_⟩
  · obtain ⟨s, -, hmark, hmatches, -⟩ := hb.exists_matches hp hclean
    exact ⟨s, hmark, fun e τ =>
      (Expr.typedAs_iff (Declarations.nameable_ofProgram p) hmatches).symm⟩
  · rw [findings_types_eq_nil_iff hp hclean hreferences]
    exact ok_iff_lenient

/-- An entry point that assigns a value to an element:
`int[] a = new int[3]; a[0] = value; print(length(a));` -/
def fill (value : Expr (Option Location)) : Program Location :=
  let written (text : String) : Name (Option Location) := ⟨text, none⟩
  Program.ofDraft [.main ⟨none, none, .mk none
    [.declare none (written "int[]") (written "a") (some (.newArray none (written "int")
        (.int none 3))),
      .assignAt none (written "a") (.int none 0) value,
      .print none false (some (.length none (.read none (written "a"))))]⟩]

/-- A number can be assigned to an element, a truth value cannot. -/
theorem types_decide_fill :
    (fill (.int none 1)).Ok false ∧ ¬ (fill (.bool none true)).Ok true := by
  constructor
  · refine (types_decide (Program.distinct_ofDraft _ (by decide)) (by decide +kernel)
      (by decide +kernel)).2.2.mpr ⟨by decide +kernel, fun Γ b hb => ?_⟩
    -- The entry point has no other block than its body.
    have hbody : ∀ i ∈ (fill (.int none 1)).items, ∃ e, i = .main e ∧
        ∀ st ∈ e.body.statements, st.blocks.length = 0 ∧ st.storesFreshElement = false :=
      fun i hi => ⟨_, List.mem_singleton.mp hi, by decide⟩
    have honly : ∀ st ∈ b.statements, st.blocks.length = 0 ∧ st.storesFreshElement = false := by
      induction hb with
      | function hitem =>
        obtain ⟨e, hmain, -⟩ := hbody _ hitem
        cases hmain
      | main hitem =>
        obtain ⟨e, hmain, hsts⟩ := hbody _ hitem
        obtain rfl := Item.main.inj hmain
        exact hsts
      | nested _ hst hb' ih =>
        have hempty := List.length_eq_zero_iff.mp (ih _ hst).1
        exact absurd (hempty ▸ hb') List.not_mem_nil
    exact fun st hst => (honly st hst).2
  · intro hok
    have hsilent := (types_decide (Program.distinct_ofDraft _ (by decide)) (by decide +kernel)
      (by decide +kernel)).2.1.mpr hok
    exact absurd hsilent (by decide +kernel)

/-- A fresh array assigned to an element is accepted by the checker, but not by the rules. -/
theorem fill_fresh_accepted :
    let p := fill (.newArray none ⟨"int", none⟩ (.int none 3))
    (p.types (Declarations.ofProgram p).table (Declarations.ofProgram p).scopes).findings = [] ∧
      ¬ p.Ok false := by
  refine ⟨by decide +kernel, fun hok => ?_⟩
  obtain ⟨returns, hsts⟩ := hok.statements (.main List.mem_cons_self)
  exact absurd (hsts _ (List.mem_cons_of_mem _ List.mem_cons_self)).not_storesFreshElement
    (by decide)

end Program

end Primer
