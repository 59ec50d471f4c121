import Primer.Proofs.Typing.Decision

/-!
# The error type

The checker of types is silent about names that do not resolve and about calls with a wrong number
of arguments: the checker of references has reported them. It gives such an expression the type
`error`, and everything built from it too. The two checkers are separate recursions over
expressions, and this module says that they agree on what is a mistake: in the table of any program,
an expression has type `error` exactly if one of them reports something about it
(`Program.type_eq_error_iff_reported`).

If neither reports anything there is a type (`Expr.type_ne_error_of_clean`), and if there is a type
the checker of types reports nothing (`Expr.findings_eq_nil`). What is left is that a type is only
given if every name below resolves and every call has the right number of arguments
(`Expr.references_eq_nil`).
-/

namespace Primer

variable {L L' : Type} {t : Table} {s : ScopeId}

/-! ## Names that have types -/

/-- A name that stands for a variable is not reported. -/
theorem Name.variableReference_eq_nil {n : Name L} {τ : Ty} (h : t.varType? s n.text = some τ) :
    n.variableReference t s = [] := by
  obtain ⟨y, hy, hvar⟩ := Option.bind_eq_some_iff.mp h
  obtain ⟨x, hresolve, hx⟩ := Option.bind_eq_some_iff.mp hy
  cases y with
  | fn f => cases hvar
  | var name type => simp [Name.variableReference, hresolve, Table.function?, hx, Symbol.function?]

theorem Name.calleeReference_eq_nil {n : Name L} {f : FunctionSymbol} {arguments : Nat}
    (hcallee : t.callee? s n.text = some f) (hlength : f.parameters.length = arguments) :
    n.calleeReference t s arguments = [] := by
  simp [Name.calleeReference, hcallee, hlength]

/-- The type of a name that was looked up is only `error` if the look-up failed. -/
theorem Table.varType?_of_getD_ne_error {name : String}
    (h : (t.varType? s name).getD .error ≠ .error) : ∃ τ, t.varType? s name = some τ := by
  cases hvar : t.varType? s name with
  | none => simp [hvar] at h
  | some τ => exact ⟨τ, rfl⟩

/-- An indexed name has a type if the element has. -/
theorem Typed.base_ne_error_of_index {base : Name L} {type found : Ty} {place : L}
    (h : (Typed.index base type place found).type ≠ .error) : type ≠ .error := by
  rintro rfl
  simp [Typed.index, Typed.pure] at h

/-! ## Expressions that have types -/

namespace Expr

/-- Nothing is reported about the names of expressions that have types. -/
private theorem referencesAll_eq_nil {es : List (Expr L)}
    (ih : ∀ e ∈ es, ∀ flag, (e.check t s flag).type ≠ .error → e.references t s = [])
    (h : .error ∉ (checkAll t s es).map (·.2.type)) : referencesAll t s es = [] := by
  rw [referencesAll_eq_flatMap, List.flatMap_eq_nil_iff]
  intro e he
  refine ih e he false fun herror => h ?_
  rw [checkAll_eq_map]
  exact List.mem_map.mpr ⟨_, List.mem_map.mpr ⟨e, he, rfl⟩, herror⟩

/-- Every name of an expression that has a type resolves, and every call of it has the right number
of arguments. -/
theorem references_eq_nil {e : Expr L} {flag : Bool} (h : (e.check t s flag).type ≠ .error) :
    e.references t s = [] := by
  induction e using Expr.inductionOn generalizing flag with
  | int | float | bool | char | str => rfl
  | read p name =>
    obtain ⟨τ, hτ⟩ := Table.varType?_of_getD_ne_error h
    exact Name.variableReference_eq_nil hτ
  | call p callee arguments ih =>
    -- A call has a type only if its arguments have the types of the parameters, one by one.
    obtain ⟨f, hf, hmap, herror, -, -⟩ := (Typed.call_type_eq_iff h).mp rfl
    have hlength : f.parameters.length = arguments.length := by
      simpa [checkAll_eq_map] using congrArg List.length hmap.symm
    refine List.append_eq_nil_iff.mpr ⟨Name.calleeReference_eq_nil hf hlength, ?_⟩
    exact referencesAll_eq_nil (fun e he flag => ih e he) (hmap ▸ herror)
  | index p base position ih =>
    obtain ⟨τ, hτ⟩ := Table.varType?_of_getD_ne_error (Typed.base_ne_error_of_index h)
    exact List.append_eq_nil_iff.mpr
      ⟨Name.variableReference_eq_nil hτ, ih (Typed.index_silent h).2⟩
  | length p operand ih => exact ih (Typed.length_silent h).2
  | paren p operand ih => exact ih h
  | negate p operand ih => exact ih (Typed.negate_silent h).2
  | binary p op lhs rhs ihl ihr =>
    obtain ⟨-, hlhs, hrhs⟩ := Typed.binary_silent h
    exact List.append_eq_nil_iff.mpr ⟨ihl hlhs, ihr hrhs⟩
  | array p elements ih =>
    exact referencesAll_eq_nil (fun e he flag => ih e he) (Typed.array_silent h).2
  | newArray p element size ih => exact ih (Typed.newArray_silent h).2

end Expr

/-! ## The table of a program -/

/-- In the table of any program, also of one with mistakes, and in any scope of it, an expression
has type `error` exactly if the checker of references or the checker of types reports something
about it. The expression need not occur in the program. -/
theorem Program.type_eq_error_iff_reported (p : Program L) (s : ScopeId) (e : Expr L')
    (underLength : Bool) :
    (e.check (Declarations.ofProgram p).table s underLength).type = .error ↔
      e.references (Declarations.ofProgram p).table s ≠ [] ∨
        (e.check (Declarations.ofProgram p).table s underLength).findings ≠ [] := by
  constructor
  · intro herror
    by_contra hsilent
    simp only [ne_eq, not_or, not_not] at hsilent
    exact Expr.type_ne_error_of_clean (Declarations.nameable_ofProgram p)
      (Declarations.populated_ofProgram p) hsilent.1 hsilent.2 herror
  · intro hreported
    by_contra htype
    rcases hreported with hreferences | hfindings
    · exact hreferences (Expr.references_eq_nil htype)
    · exact hfindings (Expr.findings_eq_nil htype)

end Primer
