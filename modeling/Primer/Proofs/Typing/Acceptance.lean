import Primer.Generation
import Primer.Proofs.Declaration.Resolution
import Primer.Proofs.Typing.Judgement

/-!
# Accepted programs are well typed

`Stmt.WellTyped` and `Block.WellTyped` say what the checks leave of a statement when none of them
finds anything: every expression has a type, that type fits where the value goes, and names stand
for what they are used as. `Program.wellTyped_function` and `Program.wellTyped_main` give this for
the bodies of a program that is accepted.
-/

namespace Primer

variable {L : Type}

/-! ## Empty reports -/

namespace Report

variable {ε : Type} {a b : Report L ε}

theorem eq_empty_iff : a = .empty ↔ a.findings = [] ∧ a.fault = none := by
  cases a
  simp [empty]

theorem ofFindings_eq_empty_iff {findings : List (Located L ε)} :
    ofFindings findings = .empty ↔ findings = [] := by
  simp [ofFindings, empty]

theorem append_eq_empty_iff : a ++ b = .empty ↔ a = .empty ∧ b = .empty := by
  -- Whatever is behind a fault is dropped, so then the first report decides.
  cases h : a.fault with
  | none =>
    rw [append_of_no_fault h]
    constructor
    · intro heq
      obtain ⟨hfindings, hfault⟩ := eq_empty_iff.mp heq
      obtain ⟨ha, hb⟩ := List.append_eq_nil_iff.mp hfindings
      exact ⟨eq_empty_iff.mpr ⟨ha, h⟩, eq_empty_iff.mpr ⟨hb, hfault⟩⟩
    · rintro ⟨rfl, rfl⟩
      rfl
  | some fault =>
    rw [append_of_fault h]
    constructor
    · rintro rfl
      cases h
    · exact And.left

theorem concat_eq_empty_iff {reports : List (Report L ε)} :
    concat reports = .empty ↔ ∀ r ∈ reports, r = .empty := by
  induction reports with
  | nil => simp [concat]
  | cons r reports ih => simp [concat, append_eq_empty_iff, ih]

theorem inScopeOf_eq_empty_iff {m : ScopeMap} {node : NodeId} {go : ScopeId → Report L ε} :
    inScopeOf m node go = .empty ↔ ∃ s, m.get? node = some s ∧ go s = .empty := by
  unfold inScopeOf ScopeMap.scopeOf
  cases m.get? node <;> simp [stop, empty]

end Report

/-! ## Checks that find nothing -/

namespace Expr

variable {t : Table} {s : ScopeId}

/-- The value of the expression can be stored where `declared` is expected. -/
def StoredAs (t : Table) (s : ScopeId) (e : Expr L) (declared : Ty) : Prop :=
  ∃ found, e.HasType t s found ∧ found ≠ .void ∧ e.storableAs declared found = true

theorem storedAs_of_clean {e : Expr L} {name : String} {declared found : Ty}
    (he : e.HasType t s found) (hclean : e.checkStore name declared found = []) :
    e.StoredAs t s declared := by
  unfold checkStore at hclean
  split_ifs at hclean with herror hvoid hstorable
  · exact absurd herror he.ne_error
  · exact ⟨found, he, hvoid, hstorable⟩

theorem hasType_bool_of_clean {e : Expr L} (ht : t.Nameable) (hpop : t.Populated)
    {statement : String} (hreferences : e.references t s = [])
    (hclean : e.checkCondition t s statement = []) : e.HasType t s .bool := by
  obtain ⟨hfindings, hown⟩ := List.append_eq_nil_iff.mp hclean
  have he := hasType_of_clean ht hpop hreferences hfindings
  rw [Typed.conditionMistakes] at hown
  split_ifs at hown with hbool
  have htype : e.typeIn t s = .bool := hbool.resolve_right he.ne_error
  exact htype ▸ he

theorem hasType_of_checkPrint {e : Expr L} (ht : t.Nameable) (hpop : t.Populated)
    (hreferences : e.references t s = []) (hclean : e.checkPrint t s = []) :
    ∃ τ, e.HasType t s τ ∧ τ ≠ .void ∧ τ.isArray = false := by
  obtain ⟨hfindings, hown⟩ := List.append_eq_nil_iff.mp hclean
  have he := hasType_of_clean ht hpop hreferences hfindings
  rw [Typed.printMistakes] at hown
  split_ifs at hown with hprint
  rw [not_or, not_or] at hprint
  exact ⟨_, he, hprint.1, Bool.eq_false_iff.mpr hprint.2.2⟩

/-- What is assigned to an element, and where. -/
theorem hasType_of_checkElement {target : Name L} {position value : Expr L} (ht : t.Nameable)
    (hpop : t.Populated) (htarget : target.variableReference t s = [])
    (hposition : position.references t s = []) (hvalue : value.references t s = [])
    (hclean : checkElement t s target position value = []) :
    ∃ declared element, t.varType? s target.text = some declared ∧ declared.isArray = true ∧
      declared.element? = some element ∧ position.HasType t s .int ∧
      value.HasType t s element := by
  -- The references are clean, so the target is a variable and has a type.
  obtain ⟨declared, hdeclared⟩ := Name.varType?_of_clean hpop htarget
  obtain ⟨hfindings, hown⟩ := List.append_eq_nil_iff.mp hclean
  obtain ⟨hindex, hfound⟩ := List.append_eq_nil_iff.mp hfindings
  have hp := hasType_of_clean ht hpop hposition hindex
  have hv := hasType_of_clean ht hpop hvalue hfound
  -- With the parts typed, only the mistakes of the assignment itself are left to look at.
  simp only [Typed.elementMistakes, hdeclared] at hown
  obtain ⟨hint, hstore⟩ := List.append_eq_nil_iff.mp hown
  have hpint : position.typeIn t s = .int := Typed.eq_of_expect_clean hp.ne_error hint
  -- A string has elements too, but they cannot be assigned.
  split_ifs at hstore with hstring harray
  cases helement : declared.element? with
  | none => cases declared <;> simp_all [Ty.isArray, Ty.element?]
  | some element =>
    simp only [helement] at hstore
    have hvelement : value.typeIn t s = element := Typed.eq_of_expect_clean hv.ne_error hstore
    exact ⟨declared, element, hdeclared, harray, helement, hpint ▸ hp, hvelement ▸ hv⟩

end Expr

theorem FunctionSymbol.of_checkReturn_none {f : FunctionSymbol} {place : L}
    (hclean : f.checkReturn place none = []) : f.returns = .void := by
  rw [checkReturn] at hclean
  split_ifs at hclean with hvoid
  exact hvoid

theorem FunctionSymbol.of_checkReturn_some {t : Table} {s : ScopeId} {f : FunctionSymbol}
    {place : L} {e : Expr L} {found : Ty} (he : e.HasType t s found)
    (hclean : f.checkReturn place (some (e, found)) = []) :
    f.returns ≠ .void ∧ e.StoredAs t s f.returns := by
  rw [checkReturn] at hclean
  split_ifs at hclean with hvoid hok
  have hstorable := hok.resolve_left he.ne_error
  refine ⟨hvoid, found, he, ?_, hstorable⟩
  rintro rfl
  -- Nothing of type `void` is a fresh array, and the function does not return `void`.
  unfold Expr.storableAs at hstorable
  split_ifs at hstorable with hnew
  · cases e <;> simp [Expr.isNewArray] at hnew
    cases he with | newArray _ hscalar _ => cases hscalar
  · exact hvoid (by simpa using hstorable)

/-! ## Well-typed statements -/

mutual

/-- The statement is well typed, in a function with the given parameters that returns values of the
given type. An entry point has no type to return. -/
inductive Stmt.WellTyped (t : Table) (m : ScopeMap) (arguments : List SymbolId)
    (returns : Option Ty) : ScopeId → Stmt L NodeId → Prop where
  | declare {s p type name value x} (hlocal : t.localResolve s name.text = some x)
      (hargument : x ∉ arguments) (hvalue : ∀ e ∈ value, e.StoredAs t s (t.typeOf x)) :
      Stmt.WellTyped t m arguments returns s (.declare p type name value)
  | assign {s p target value τ} (htarget : t.varType? s target.text = some τ)
      (hvalue : value.StoredAs t s τ) :
      Stmt.WellTyped t m arguments returns s (.assign p target value)
  | assignAt {s p target position value τ element} (htarget : t.varType? s target.text = some τ)
      (harray : τ.isArray = true) (helement : τ.element? = some element)
      (hposition : position.HasType t s .int) (hvalue : value.HasType t s element) :
      Stmt.WellTyped t m arguments returns s (.assignAt p target position value)
  | ifThen {s p condition yes} (hcondition : condition.HasType t s .bool)
      (hyes : Block.WellTyped t m arguments returns yes) :
      Stmt.WellTyped t m arguments returns s (.ifThen p condition yes)
  | ifElse {s p condition yes no} (hcondition : condition.HasType t s .bool)
      (hyes : Block.WellTyped t m arguments returns yes)
      (hno : Block.WellTyped t m arguments returns no) :
      Stmt.WellTyped t m arguments returns s (.ifElse p condition yes no)
  | loop {s p condition body} (hcondition : condition.HasType t s .bool)
      (hbody : Block.WellTyped t m arguments returns body) :
      Stmt.WellTyped t m arguments returns s (.loop p condition body)
  | ret {s p node} (hreturns : returns = some .void) :
      Stmt.WellTyped t m arguments returns s (.ret p node none)
  | retValue {s p node value τ} (hreturns : returns = some τ) (hvoid : τ ≠ .void)
      (hvalue : value.StoredAs t s τ) :
      Stmt.WellTyped t m arguments returns s (.ret p node (some value))
  | newline {s p newline} : Stmt.WellTyped t m arguments returns s (.print p newline none)
  | print {s p newline value τ} (hvalue : value.HasType t s τ) (hvoid : τ ≠ .void)
      (harray : τ.isArray = false) :
      Stmt.WellTyped t m arguments returns s (.print p newline (some value))
  | call {s p callee values f} (hcallee : t.callee? s callee.text = some f)
      (hvalues : List.Forall₂ (Expr.HasType t s) values (f.parameters.map t.typeOf))
      (hvoid : .void ∉ f.parameters.map t.typeOf) (hreturns : f.returns ≠ .error) :
      Stmt.WellTyped t m arguments returns s (.call p callee values)

/-- The statements of the block are well typed in the scope recorded for it. -/
inductive Block.WellTyped (t : Table) (m : ScopeMap) (arguments : List SymbolId)
    (returns : Option Ty) : Block L NodeId → Prop where
  | mk {node s sts} (hnode : m.get? node = some s)
      (hsts : ∀ st ∈ sts, Stmt.WellTyped t m arguments returns s st) :
      Block.WellTyped t m arguments returns (.mk node sts)

end

/-! ## Bodies without mistakes -/

theorem Block.referencesAll_eq_empty_iff {t : Table} {m : ScopeMap} {s : ScopeId}
    {sts : List (Stmt L NodeId)} :
    Block.referencesAll t m s sts = .empty ↔ ∀ st ∈ sts, st.references t m s = .empty := by
  induction sts with
  | nil => simp [Block.referencesAll]
  | cons st sts ih => simp [Block.referencesAll, Report.append_eq_empty_iff, ih]

theorem Block.typesAll_eq_empty_iff {t : Table} {m : ScopeMap} {s : ScopeId}
    {sts : List (Stmt L NodeId)} :
    Block.typesAll t m s sts = .empty ↔ ∀ st ∈ sts, st.types t m s = .empty := by
  induction sts with
  | nil => simp [Block.typesAll]
  | cons st sts ih => simp [Block.typesAll, Report.append_eq_empty_iff, ih]

theorem Block.exists_mem_numbered {k : Nat} {st : Stmt L NodeId} {sts : List (Stmt L NodeId)}
    (h : st ∈ sts) : ∃ k', k ≤ k' ∧ (k', st) ∈ Block.numbered k sts := by
  induction sts generalizing k with
  | nil => exact absurd h List.not_mem_nil
  | cons first rest ih =>
    rcases List.mem_cons.mp h with rfl | h
    · exact ⟨k, Nat.le_refl _, List.mem_cons_self⟩
    · obtain ⟨k', hk', hmem⟩ := ih (k := k + first.variableCount) h
      exact ⟨k', by omega, List.mem_cons_of_mem _ hmem⟩

section Clean

variable {t : Table} {m : ScopeMap} {owner : Option SymbolId} {arguments : List SymbolId}
  {returns : Option Ty} {n : Nat}

/-- A block is well typed if its statements are whenever nothing is reported about them. -/
private theorem Block.wellTyped_block {b : Block L NodeId}
    (ih : ∀ st ∈ b.statements, ∀ s k, t.owner? s = owner → n ≤ k →
      Stmt.Placed t m owner s st → Stmt.Bound t m s k st → st.references t m s = .empty →
      st.types t m s = .empty → st.WellTyped t m arguments returns s)
    {s : ScopeId} {k : Nat} (hk : n ≤ k) (hplaced : Block.Placed t m owner s b)
    (hbound : Block.Bound t m s k b) (hreferences : b.references t m = .empty)
    (htypes : b.types t m = .empty) : b.WellTyped t m arguments returns := by
  cases hplaced with
  | @mk _ r node sts hnode hparent howner hsts =>
    cases hbound with
    | @mk _ r' _ _ _ hnode' _ _ _ hbound =>
      -- All four look the scope of the block up at the same node.
      obtain rfl : r = r' := Option.some.inj (hnode.symm.trans hnode')
      obtain ⟨r₁, hr₁, hreferences⟩ := Report.inScopeOf_eq_empty_iff.mp hreferences
      obtain ⟨r₂, hr₂, htypes⟩ := Report.inScopeOf_eq_empty_iff.mp htypes
      obtain rfl : r = r₁ := Option.some.inj (hnode.symm.trans hr₁)
      obtain rfl : r = r₂ := Option.some.inj (hnode.symm.trans hr₂)
      refine .mk hnode fun st hst => ?_
      obtain ⟨k', hk', hmem⟩ := Block.exists_mem_numbered (k := k) hst
      exact ih st hst r k' howner (Nat.le_trans hk hk') (hsts st hst) (hbound k' st hmem)
        (Block.referencesAll_eq_empty_iff.mp hreferences st hst)
        (Block.typesAll_eq_empty_iff.mp htypes st hst)

/-- A statement about which nothing is reported is well typed. -/
theorem Stmt.wellTyped_of_clean (ht : t.Nameable) (hpop : t.Populated)
    (hfunction : ∀ x, owner = some x → ∃ f, t.function? x = some f ∧ returns = some f.returns)
    (harguments : ∀ x ∈ arguments, x.index < n) {st : Stmt L NodeId} {s : ScopeId} {k : Nat}
    (hs : t.owner? s = owner) (hk : n ≤ k) (hplaced : Stmt.Placed t m owner s st)
    (hbound : Stmt.Bound t m s k st) (hreferences : st.references t m s = .empty)
    (htypes : st.types t m s = .empty) : st.WellTyped t m arguments returns s := by
  induction st using Stmt.inductionOn generalizing s k with
  | declare p type name value =>
    cases hbound with
    | @declare _ _ _ _ _ _ τ htype hsymbol hlocal =>
      -- The symbols of parameters come before those of the variables in the body.
      refine .declare hlocal
        (fun hm => Nat.lt_irrefl _ (Nat.lt_of_lt_of_le (harguments _ hm) hk)) ?_
      intro e he
      obtain rfl : value = some e := he
      obtain ⟨hfindings, hstore⟩ :=
        List.append_eq_nil_iff.mp (Report.ofFindings_eq_empty_iff.mp htypes)
      have htyped := Expr.hasType_of_clean ht hpop (Report.ofFindings_eq_empty_iff.mp hreferences)
        hfindings
      simp only [htype] at hstore
      have hdeclared : t.typeOf ⟨k⟩ = τ := by simp [Table.typeOf, hsymbol, Symbol.type]
      rw [hdeclared]
      exact Expr.storedAs_of_clean htyped hstore
  | assign p target value =>
    obtain ⟨htarget, hvalue⟩ :=
      List.append_eq_nil_iff.mp (Report.ofFindings_eq_empty_iff.mp hreferences)
    obtain ⟨hfindings, hstore⟩ :=
      List.append_eq_nil_iff.mp (Report.ofFindings_eq_empty_iff.mp htypes)
    obtain ⟨τ, hτ⟩ := Name.varType?_of_clean hpop (List.append_eq_nil_iff.mp htarget).1
    -- A target that is no variable was reported, so the check compares with its type.
    simp only [hτ] at hstore
    exact .assign hτ
      (Expr.storedAs_of_clean (Expr.hasType_of_clean ht hpop hvalue hfindings) hstore)
  | assignAt p target position value =>
    obtain ⟨hothers, hvalue⟩ :=
      List.append_eq_nil_iff.mp (Report.ofFindings_eq_empty_iff.mp hreferences)
    obtain ⟨htarget, hposition⟩ := List.append_eq_nil_iff.mp hothers
    obtain ⟨τ, element, hτ, harray, helement, hp, hv⟩ := Expr.hasType_of_checkElement ht hpop
      (List.append_eq_nil_iff.mp htarget).1 hposition hvalue
      (Report.ofFindings_eq_empty_iff.mp htypes)
    exact .assignAt hτ harray helement hp hv
  | ifThen p condition yes ih =>
    cases hplaced with
    | ifThen hpyes =>
      cases hbound with
      | ifThen hbyes =>
        obtain ⟨hrc, hryes⟩ := Report.append_eq_empty_iff.mp hreferences
        obtain ⟨htc, htyes⟩ := Report.append_eq_empty_iff.mp htypes
        exact .ifThen
          (Expr.hasType_bool_of_clean ht hpop (Report.ofFindings_eq_empty_iff.mp hrc)
            (Report.ofFindings_eq_empty_iff.mp htc))
          (Block.wellTyped_block (fun st hm s k => ih st hm) hk hpyes hbyes hryes htyes)
  | ifElse p condition yes no ihy ihn =>
    cases hplaced with
    | ifElse hpyes hpno =>
      cases hbound with
      | ifElse hbyes hbno =>
        obtain ⟨hrc, hrblocks⟩ := Report.append_eq_empty_iff.mp hreferences
        obtain ⟨hryes, hrno⟩ := Report.append_eq_empty_iff.mp hrblocks
        obtain ⟨htc, htblocks⟩ := Report.append_eq_empty_iff.mp htypes
        obtain ⟨htyes, htno⟩ := Report.append_eq_empty_iff.mp htblocks
        exact .ifElse
          (Expr.hasType_bool_of_clean ht hpop (Report.ofFindings_eq_empty_iff.mp hrc)
            (Report.ofFindings_eq_empty_iff.mp htc))
          (Block.wellTyped_block (fun st hm s k => ihy st hm) hk hpyes hbyes hryes htyes)
          (Block.wellTyped_block (fun st hm s k => ihn st hm)
            (Nat.le_trans hk (Nat.le_add_right _ _)) hpno hbno hrno htno)
  | loop p condition body ih =>
    cases hplaced with
    | loop hpbody =>
      cases hbound with
      | loop hbbody =>
        obtain ⟨hrc, hrbody⟩ := Report.append_eq_empty_iff.mp hreferences
        obtain ⟨htc, htbody⟩ := Report.append_eq_empty_iff.mp htypes
        exact .loop
          (Expr.hasType_bool_of_clean ht hpop (Report.ofFindings_eq_empty_iff.mp hrc)
            (Report.ofFindings_eq_empty_iff.mp htc))
          (Block.wellTyped_block (fun st hm s k => ih st hm) hk hpbody hbbody hrbody htbody)
  | ret p node value =>
    cases hplaced with
    | ret hnode =>
      obtain ⟨r, hr, hreport⟩ := Report.inScopeOf_eq_empty_iff.mp hreferences
      obtain rfl : s = r := Option.some.inj (hnode.symm.trans hr)
      obtain ⟨hinside, hvalue⟩ :=
        List.append_eq_nil_iff.mp (Report.ofFindings_eq_empty_iff.mp hreport)
      obtain ⟨hfindings, hscope⟩ := Report.append_eq_empty_iff.mp htypes
      obtain ⟨r, hr, hcheck⟩ := Report.inScopeOf_eq_empty_iff.mp hscope
      obtain rfl : s = r := Option.some.inj (hnode.symm.trans hr)
      -- A return outside of every function was reported.
      cases howner : owner with
      | none => simp [hs, howner] at hinside
      | some x =>
        obtain ⟨f, hf, hreturns⟩ := hfunction x howner
        have hfunctionOf : t.functionOf s = some (x, f) := by
          simp [Table.functionOf, hs, howner, hf]
        simp only [hfunctionOf] at hcheck
        have hreturn := Report.ofFindings_eq_empty_iff.mp hcheck
        cases value with
        | none => exact .ret (by rw [hreturns, FunctionSymbol.of_checkReturn_none hreturn])
        | some e =>
          have htyped := Expr.hasType_of_clean ht hpop hvalue
            (Report.ofFindings_eq_empty_iff.mp hfindings)
          obtain ⟨hvoid, hstored⟩ := FunctionSymbol.of_checkReturn_some htyped hreturn
          exact .retValue hreturns hvoid hstored
  | print p newline value =>
    cases value with
    | none => exact .newline
    | some e =>
      obtain ⟨τ, hτ, hvoid, harray⟩ := Expr.hasType_of_checkPrint ht hpop
        (Report.ofFindings_eq_empty_iff.mp hreferences) (Report.ofFindings_eq_empty_iff.mp htypes)
      exact .print hτ hvoid harray
  | call p callee values =>
    obtain ⟨hcallee, hvalues⟩ :=
      List.append_eq_nil_iff.mp (Report.ofFindings_eq_empty_iff.mp hreferences)
    obtain ⟨f, hf, hforall, hvoid, hreturns⟩ :=
      Expr.forall₂_hasType_of_clean ht hpop hcallee hvalues
        (Report.ofFindings_eq_empty_iff.mp htypes)
    exact .call hf hforall hvoid hreturns

/-- A block about which nothing is reported is well typed. -/
theorem Block.wellTyped_of_clean (ht : t.Nameable) (hpop : t.Populated)
    (hfunction : ∀ x, owner = some x → ∃ f, t.function? x = some f ∧ returns = some f.returns)
    (harguments : ∀ x ∈ arguments, x.index < n) {b : Block L NodeId} {s : ScopeId} {k : Nat}
    (hk : n ≤ k) (hplaced : Block.Placed t m owner s b) (hbound : Block.Bound t m s k b)
    (hreferences : b.references t m = .empty) (htypes : b.types t m = .empty) :
    b.WellTyped t m arguments returns :=
  Block.wellTyped_block (fun _ _ _ _ hs hk hplaced hbound hreferences htypes =>
    Stmt.wellTyped_of_clean ht hpop hfunction harguments hs hk hplaced hbound hreferences htypes)
    hk hplaced hbound hreferences htypes

end Clean

/-! ## Accepted programs -/

/-- What the analysis of a program holds: the table of its declarations and the findings of the
three passes, none of which was stopped. -/
theorem Program.passes_of_analyze {p : Program Location} {a : Analysis} (ha : p.analyze = .ok a) :
    let d := Declarations.ofProgram p
    (p.references d.table d.scopes).fault = none ∧ (p.types d.table d.scopes).fault = none ∧
      a = {
        table := d.table
        scopes := d.scopes
        declarations := ⟨DeclarationError.label, d.findings⟩
        references := ⟨ReferenceError.label, (p.references d.table d.scopes).findings⟩
        types := ⟨TypeError.label, (p.types d.table d.scopes).findings⟩ } := by
  -- The passes run in this order, so a fault of the first one hides the second.
  unfold Program.analyze Report.diagnostics at ha
  cases hr : (p.references (Declarations.ofProgram p).table
      (Declarations.ofProgram p).scopes).fault with
  | some fault => simp [hr, bind, Except.bind] at ha
  | none =>
    cases ht : (p.types (Declarations.ofProgram p).table
        (Declarations.ofProgram p).scopes).fault with
    | some fault => simp [hr, ht, bind, Except.bind] at ha
    | none =>
      simp only [hr, ht, bind, Except.bind, pure, Except.pure, Except.ok.injEq] at ha
      exact ⟨hr, ht, ha.symm⟩

/-- What acceptance means for the three passes. -/
theorem Program.of_analyze {p : Program Location} {a : Analysis} (ha : p.analyze = .ok a) :
    a.table = (Declarations.ofProgram p).table ∧ a.scopes = (Declarations.ofProgram p).scopes ∧
      (a.isAccepted = true ↔ (Declarations.ofProgram p).findings = [] ∧
        p.references a.table a.scopes = .empty ∧ p.types a.table a.scopes = .empty) := by
  obtain ⟨hr, ht, rfl⟩ := Program.passes_of_analyze ha
  refine ⟨rfl, rfl, ?_⟩
  -- Without a fault, a report is empty if it has no findings.
  simp only [Analysis.isAccepted, Analysis.errorCount, Diagnostics.count, decide_eq_true_eq,
    Nat.add_eq_zero_iff, List.length_eq_zero_iff, Report.eq_empty_iff, hr, ht, and_true,
    and_assoc]

theorem Program.of_isAccepted {p : Program Location} {a : Analysis} (ha : p.analyze = .ok a)
    (haccepted : a.isAccepted = true) :
    a.table = (Declarations.ofProgram p).table ∧ a.scopes = (Declarations.ofProgram p).scopes ∧
      (Declarations.ofProgram p).findings = [] ∧ p.references a.table a.scopes = .empty ∧
      p.types a.table a.scopes = .empty := by
  obtain ⟨htable, hscopes, hiff⟩ := Program.of_analyze ha
  exact ⟨htable, hscopes, hiff.mp haccepted⟩

theorem Item.mem_of_mem_numbered {k k' : Nat} {i : Item L NodeId} {items : List (Item L NodeId)}
    (h : (k', i) ∈ Item.numbered k items) : i ∈ items := by
  induction items generalizing k with
  | nil => exact absurd h List.not_mem_nil
  | cons first rest ih =>
    rcases List.mem_cons.mp h with heq | h
    · obtain ⟨-, rfl⟩ := Prod.mk.inj heq
      exact List.mem_cons_self
    · exact List.mem_cons_of_mem _ (ih h)

theorem Item.exists_mem_numbered {k : Nat} {i : Item L NodeId} {items : List (Item L NodeId)}
    (h : i ∈ items) : ∃ k', (k', i) ∈ Item.numbered k items := by
  induction items generalizing k with
  | nil => exact absurd h List.not_mem_nil
  | cons first rest ih =>
    rcases List.mem_cons.mp h with rfl | h
    · exact ⟨k, List.mem_cons_self⟩
    · obtain ⟨k', hmem⟩ := ih h
      exact ⟨k', List.mem_cons_of_mem _ hmem⟩

/-- The later passes find nothing if they find nothing in the bodies of accepted items. -/
theorem Program.references_eq_empty_iff {p : Program L} {t : Table} {m : ScopeMap} :
    p.references t m = .empty ↔
      ∀ i ∈ p.items, ∀ body, i.acceptedBody? m = some body → body.references t m = .empty := by
  rw [Program.references, Report.concat_eq_empty_iff, List.forall_mem_map]
  simp only [Program.acceptedBodies, List.mem_filterMap, forall_exists_index, and_imp]
  exact ⟨fun h i hi body hbody => h body i hi hbody, fun h body i hi hbody => h i hi body hbody⟩

theorem Program.types_eq_empty_iff {p : Program L} {t : Table} {m : ScopeMap} :
    p.types t m = .empty ↔
      ∀ i ∈ p.items, ∀ body, i.acceptedBody? m = some body → body.types t m = .empty := by
  rw [Program.types, Report.concat_eq_empty_iff, List.forall_mem_map]
  simp only [Program.acceptedBodies, List.mem_filterMap, forall_exists_index, and_imp]
  exact ⟨fun h i hi body hbody => h body i hi hbody, fun h body i hi hbody => h i hi body hbody⟩

section Accepted

variable {p : Program Location} {a : Analysis}

/-- Nothing is reported about the body of an item of an accepted program. -/
theorem Program.clean_of_isAccepted (ha : p.analyze = .ok a) (haccepted : a.isAccepted = true)
    {k : Nat} {i : Item Location NodeId} {body : Block Location NodeId}
    (hi : (k, i) ∈ p.numberedItems) (hbody : i.acceptedBody? a.scopes = some body) :
    body.references a.table a.scopes = .empty ∧ body.types a.table a.scopes = .empty := by
  obtain ⟨-, -, -, hreferences, htypes⟩ := Program.of_isAccepted ha haccepted
  have hmem := Item.mem_of_mem_numbered hi
  exact ⟨Program.references_eq_empty_iff.mp hreferences i hmem body hbody,
    Program.types_eq_empty_iff.mp htypes i hmem body hbody⟩

/-- The functions of an accepted program are well typed. -/
theorem Program.wellTyped_function (hp : p.Distinct) (ha : p.analyze = .ok a)
    (haccepted : a.isAccepted = true) {k : Nat} {f : Function Location NodeId}
    (hi : (k, .function f) ∈ p.numberedItems) :
    ∃ body s returns types, f.Entered a.table a.scopes k body s returns types ∧
      body.WellTyped a.table a.scopes (SymbolId.block (k + 1) f.parameters.length)
        (some returns) := by
  obtain ⟨htable, hscopes, hclean, -, -⟩ := Program.of_isAccepted ha haccepted
  obtain ⟨body, s, returns, types, hf⟩ := Program.entered_item hp hclean hi
  rw [← htable, ← hscopes] at hf
  have haccept : (Item.function f).acceptedBody? a.scopes = some body := by
    simp [Item.acceptedBody?, hf.mark, hf.body_eq]
  obtain ⟨hreferences, htypes⟩ := Program.clean_of_isAccepted ha haccepted hi haccept
  refine ⟨body, s, returns, types, hf, ?_⟩
  refine Block.wellTyped_of_clean (n := k + 1 + f.parameters.length) ?_ ?_ ?_ ?_ (Nat.le_refl _)
    hf.placed hf.bound hreferences htypes
  · exact htable ▸ Declarations.nameable_ofProgram p
  · exact htable ▸ Declarations.populated_ofProgram p
  · intro x hx
    -- The owner of the body is the function, whose symbol has the declared result type.
    obtain rfl := Option.some.inj hx
    refine ⟨⟨f.name.text, returns, SymbolId.block (k + 1) f.parameters.length⟩, ?_, rfl⟩
    simp [Table.function?, hf.symbol, Symbol.function?]
  · intro x hx
    obtain ⟨j, hj, rfl⟩ := List.mem_map.mp hx
    have hrange := List.mem_range'_1.mp hj
    exact hrange.2

/-- The entry points of an accepted program are well typed. -/
theorem Program.wellTyped_main (hp : p.Distinct) (ha : p.analyze = .ok a)
    (haccepted : a.isAccepted = true) {k : Nat} {e : EntryPoint Location NodeId}
    (hi : (k, .main e) ∈ p.numberedItems) :
    ∃ s, e.Entered a.table a.scopes k s ∧ e.body.WellTyped a.table a.scopes [] none := by
  obtain ⟨htable, hscopes, hclean, -, -⟩ := Program.of_isAccepted ha haccepted
  obtain ⟨s, he⟩ := Program.entered_item hp hclean hi
  rw [← htable, ← hscopes] at he
  have haccept : (Item.main e).acceptedBody? a.scopes = some e.body := by
    simp [Item.acceptedBody?, he.mark]
  obtain ⟨hreferences, htypes⟩ := Program.clean_of_isAccepted ha haccepted hi haccept
  refine ⟨s, he, ?_⟩
  refine Block.wellTyped_of_clean (n := 0) ?_ ?_ ?_ ?_ (Nat.zero_le _) he.placed he.bound
    hreferences htypes
  · exact htable ▸ Declarations.nameable_ofProgram p
  · exact htable ▸ Declarations.populated_ofProgram p
  -- An entry point is owned by no function and has no parameters with symbols.
  · exact fun x hx => by cases hx
  · exact fun x hx => absurd hx List.not_mem_nil

end Accepted

end Primer
