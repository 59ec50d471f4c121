import Primer.Proofs.Typing.Acceptance

/-!
# Checker and emitter agree on types

Emission infers types anew, from the symbols and without the checker. For an expression that has a
type, the two agree unless the value that the type comes from is a fresh array: the checker gives
`new T[n]` the type `T` of its elements, which only a store at that very place turns into an array,
while the emitter gives it the type of the array it leaves on the stack (`Expr.emit_type`).
-/

namespace Primer

open Machine

variable {L : Type}

/-! ## Types of emitted code -/

/-- Whether the type of an expression is that of a fresh array inside it: below parentheses and
signs, and in the left operand of arithmetic. -/
def Expr.leadsToNew : Expr L → Bool
  | .newArray .. => true
  | .paren _ operand | .negate _ operand => operand.leadsToNew
  | .binary _ op lhs _ => op.isArithmetic && lhs.leadsToNew
  | _ => false

/-- The emitter's type of a value that the checker gives the type `τ`. -/
def Expr.emittedType (e : Expr L) (τ : Ty) : Ty :=
  if e.leadsToNew then τ.arrayOf?.getD .error else τ

theorem Expr.emittedType_eq_iff {e : Expr L} {τ : Ty} (hτ : τ ≠ .error) :
    e.emittedType τ = τ ↔ e.leadsToNew = false := by
  unfold emittedType
  cases e.leadsToNew with
  | false => simp
  | true => cases τ <;> simp_all [Ty.arrayOf?]

theorem Table.varType?_eq_some_iff {t : Table} {s : ScopeId} {name : String} {τ : Ty} :
    t.varType? s name = some τ ↔
      ∃ x n, t.resolve s name = some x ∧ t.symbol? x = some (.var n τ) := by
  unfold varType?
  constructor
  · intro h
    obtain ⟨y, hy, hτ⟩ := Option.bind_eq_some_iff.mp h
    obtain ⟨x, hx, hsymbol⟩ := Option.bind_eq_some_iff.mp hy
    cases y with
    | fn f => cases hτ
    | var n σ =>
      obtain rfl := Option.some.inj hτ
      exact ⟨x, n, hx, hsymbol⟩
  · rintro ⟨x, n, hx, hsymbol⟩
    simp [hx, hsymbol]

theorem Table.typeOf_var {t : Table} {x : SymbolId} {n : String} {τ : Ty}
    (h : t.symbol? x = some (.var n τ)) : t.typeOf x = τ := by
  simp [typeOf, h, Symbol.type]

theorem Machine.Context.load_type {c : Context} {s : ScopeId} {name : String} {τ : Ty}
    (h : c.table.varType? s name = some τ) (f : Frame) : (c.load s name f).type = τ := by
  obtain ⟨x, n, hx, hsymbol⟩ := Table.varType?_eq_some_iff.mp h
  unfold load storage?
  simp only [hx]
  cases c.arguments.idxOf? x with
  | some position => exact Table.typeOf_var hsymbol
  | none => exact Table.typeOf_var hsymbol

theorem Machine.elementOf_type {base element : Ty} (h : base.element? = some element) :
    (elementOf base).1 = element := by
  unfold elementOf
  split_ifs with hstring
  · subst hstring
    exact Option.some.inj h
  · simp [h]

theorem Machine.operation_of_arithmetic {op : BinOp} (h : op.isArithmetic = true) :
    ∃ arithmetic, operation op = .inl arithmetic := by
  cases op <;> simp_all [BinOp.isArithmetic, operation]

theorem Machine.operation_of_comparison {op : BinOp} (h : op.isArithmetic = false) :
    ∃ condition, operation op = .inr condition := by
  cases op <;> simp_all [BinOp.isArithmetic, operation]

theorem Ty.exists_element_of_arrayOf? {τ σ : Ty} (h : τ.arrayOf? = some σ) :
    ∃ element, Element.ofTy? τ = some element := by
  cases τ <;> simp_all [Ty.arrayOf?, Element.ofTy?]

/-- The type that the emitter gives an expression, from the one that the expression has. -/
theorem Expr.emit_type {c : Context} {s : ScopeId} {e : Expr L} {τ : Ty}
    (h : e.HasType c.table s τ) (f : Frame) : (e.emit c s f).type = e.emittedType τ := by
  induction e using Expr.inductionOn generalizing τ f with
  | int | float | bool | char | str => cases h; rfl
  | read p name => cases h with | read hvar _ => exact Context.load_type hvar f
  | call p callee arguments =>
    cases h with
    | @call _ _ _ g hcallee harguments _ _ =>
      have hlength : g.parameters.length = arguments.length := by
        simpa using harguments.length_eq.symm
      simp [emit, callOf, hcallee, hlength, emittedType, leadsToNew]
  | index p base position =>
    cases h with
    | index hvar helement _ =>
      have hbase := Context.load_type hvar f
      simp [emit, hbase, elementOf_type helement, emittedType, leadsToNew]
  | length p operand => cases h; rfl
  | paren p operand ih => cases h with | paren hoperand => exact ih hoperand f
  | negate p operand ih => cases h with | negate hoperand _ => exact ih hoperand f
  | binary p op lhs rhs ihl =>
    cases h with
    -- Both take the type of the left operand, so a fresh array there decides for the whole.
    | arithmetic hop hlhs _ _ =>
      obtain ⟨arithmetic, harithmetic⟩ := operation_of_arithmetic hop
      simpa [emit, operator, harithmetic, emittedType, leadsToNew, hop] using ihl hlhs f
    | comparison hop _ _ _ =>
      obtain ⟨condition, hcondition⟩ := operation_of_comparison hop
      simp [emit, operator, hcondition, emittedType, leadsToNew, hop]
  | array p elements =>
    cases h with
    | @array _ _ σ _ hne helements harray =>
      -- The emitter looks at the first element, as the checker does, and uses the checker's type.
      obtain ⟨first, rest, rfl⟩ := List.exists_cons_of_ne_nil hne
      have hfirst : first.typeIn c.table s = σ :=
        (hasType_iff.mp (helements first List.mem_cons_self)).1
      obtain ⟨element, helement⟩ := Ty.exists_element_of_arrayOf? harray
      simp [emit, hfirst, helement, harray, emittedType, leadsToNew]
  | newArray p element size =>
    cases h with
    | newArray hnamed _ _ => simp [emit, hnamed, emittedType, leadsToNew]

/-! ## Occurrences of expressions -/

/-- The expressions directly inside an expression. -/
def Expr.parts : Expr L → List (Expr L)
  | .int .. | .float .. | .bool .. | .char .. | .str .. | .read .. => []
  | .call _ _ arguments => arguments
  | .index _ _ position => [position]
  | .length _ operand | .paren _ operand | .negate _ operand => [operand]
  | .binary _ _ lhs rhs => [lhs, rhs]
  | .array _ elements => elements
  | .newArray _ _ size => [size]

/-- An expression occurs in another one, at any depth. -/
inductive Expr.OccursIn (e : Expr L) : Expr L → Prop where
  | here : OccursIn e e
  | inside {part whole} (hpart : part ∈ whole.parts) (h : OccursIn e part) : OccursIn e whole

/-- The expressions directly inside a statement, those of nested blocks left out. -/
def Stmt.expressions : Stmt L NodeId → List (Expr L)
  | .declare _ _ _ value | .ret _ _ value | .print _ _ value => value.toList
  | .assign _ _ value => [value]
  | .assignAt _ _ position value => [position, value]
  | .ifThen _ condition _ | .ifElse _ condition _ _ | .loop _ condition _ => [condition]
  | .call _ _ arguments => arguments

theorem Expr.exists_hasType_of_mem {t : Table} {s : ScopeId} {es : List (Expr L)} {types : List Ty}
    (h : List.Forall₂ (Expr.HasType t s) es types) {e : Expr L} (he : e ∈ es) :
    ∃ τ, e.HasType t s τ := by
  induction h with
  | nil => exact absurd he List.not_mem_nil
  | cons hfirst _ ih =>
    rcases List.mem_cons.mp he with rfl | he
    · exact ⟨_, hfirst⟩
    · exact ih he

/-- The parts of an expression that has a type have types. -/
theorem Expr.HasType.part {t : Table} {s : ScopeId} {whole part : Expr L} {τ : Ty}
    (h : whole.HasType t s τ) (hpart : part ∈ whole.parts) : ∃ σ, part.HasType t s σ := by
  cases h with
  | int | float | bool | char | str | read => exact absurd hpart List.not_mem_nil
  | call _ harguments _ _ => exact exists_hasType_of_mem harguments hpart
  | index _ _ hposition => exact ⟨_, List.mem_singleton.mp hpart ▸ hposition⟩
  | length hoperand _ => exact ⟨_, List.mem_singleton.mp hpart ▸ hoperand⟩
  | paren hoperand => exact ⟨_, List.mem_singleton.mp hpart ▸ hoperand⟩
  | negate hoperand _ => exact ⟨_, List.mem_singleton.mp hpart ▸ hoperand⟩
  | arithmetic _ hlhs hrhs _ | comparison _ hlhs hrhs _ =>
    rcases List.mem_cons.mp hpart with rfl | hpart
    · exact ⟨_, hlhs⟩
    · exact ⟨_, List.mem_singleton.mp hpart ▸ hrhs⟩
  | array _ helements _ => exact ⟨_, helements part hpart⟩
  | newArray _ _ hsize => exact ⟨_, List.mem_singleton.mp hpart ▸ hsize⟩

/-- Whatever occurs in an expression that has a type has a type. -/
theorem Expr.OccursIn.hasType {t : Table} {s : ScopeId} {e whole : Expr L}
    (h : e.OccursIn whole) {τ : Ty} (hwhole : whole.HasType t s τ) : ∃ σ, e.HasType t s σ := by
  induction h generalizing τ with
  | here => exact ⟨τ, hwhole⟩
  -- From the outside in: the part has a type, and the expression occurs in the part.
  | inside hpart _ ih =>
    obtain ⟨σ, hσ⟩ := hwhole.part hpart
    exact ih hσ

theorem Expr.StoredAs.hasType {t : Table} {s : ScopeId} {e : Expr L} {declared : Ty}
    (h : e.StoredAs t s declared) : ∃ τ, e.HasType t s τ := by
  obtain ⟨found, hfound, -, -⟩ := h
  exact ⟨found, hfound⟩

/-- The expressions of a well-typed statement have types. -/
theorem Stmt.WellTyped.hasType {t : Table} {m : ScopeMap} {arguments : List SymbolId}
    {returns : Option Ty} {s : ScopeId} {st : Stmt L NodeId}
    (h : st.WellTyped t m arguments returns s) {e : Expr L} (he : e ∈ st.expressions) :
    ∃ τ, e.HasType t s τ := by
  cases h with
  | declare _ _ hvalue => exact (hvalue e (Option.mem_toList.mp he)).hasType
  | assign _ hvalue => exact List.mem_singleton.mp he ▸ hvalue.hasType
  -- The position comes first among the expressions of the statement.
  | assignAt _ _ _ hposition hvalue =>
    rcases List.mem_cons.mp he with rfl | he
    · exact ⟨_, hposition⟩
    · exact ⟨_, List.mem_singleton.mp he ▸ hvalue⟩
  | ifThen hcondition _ | ifElse hcondition _ _ | loop hcondition _ =>
    exact ⟨_, List.mem_singleton.mp he ▸ hcondition⟩
  | ret | newline => exact absurd he List.not_mem_nil
  | retValue _ _ hvalue => exact List.mem_singleton.mp he ▸ hvalue.hasType
  | print hvalue _ _ => exact ⟨_, List.mem_singleton.mp he ▸ hvalue⟩
  | call _ hvalues _ _ => exact Expr.exists_hasType_of_mem hvalues he

/-! ## Accepted programs -/

/-- The blocks of a well-typed statement are well typed. -/
theorem Stmt.WellTyped.block {t : Table} {m : ScopeMap} {arguments : List SymbolId}
    {returns : Option Ty} {s : ScopeId} {st : Stmt L NodeId}
    (h : st.WellTyped t m arguments returns s) {k k' : Nat} {b : Block L NodeId}
    (hb : (k', b) ∈ st.numberedBlocks k) : b.WellTyped t m arguments returns := by
  cases h with
  | declare | assign | assignAt | ret | retValue | newline | print | call =>
    exact absurd hb List.not_mem_nil
  | ifThen _ hyes => exact (Prod.mk.inj (List.mem_singleton.mp hb)).2 ▸ hyes
  | loop _ hbody => exact (Prod.mk.inj (List.mem_singleton.mp hb)).2 ▸ hbody
  | ifElse _ hyes hno =>
    rcases List.mem_cons.mp hb with heq | hb
    · exact (Prod.mk.inj heq).2 ▸ hyes
    · exact (Prod.mk.inj (List.mem_singleton.mp hb)).2 ▸ hno

/-- Every block of an accepted program is well typed. -/
theorem Program.HasBlock.wellTyped {p : Program Location} {a : Analysis} (hp : p.Distinct)
    (ha : p.analyze = .ok a) (haccepted : a.isAccepted = true) {layers : List Layer} {k : Nat}
    {b : Block Location NodeId} (hb : p.HasBlock layers k b) :
    ∃ arguments returns, b.WellTyped a.table a.scopes arguments returns := by
  induction hb with
  | function hitem hbody =>
    obtain ⟨body, s, returns, types, hf, hwell⟩ := Program.wellTyped_function hp ha haccepted hitem
    -- The body for which acceptance gives the typing is the one of this item.
    obtain rfl := Option.some.inj (hf.body_eq.symm.trans hbody)
    exact ⟨_, _, hwell⟩
  | main hitem =>
    obtain ⟨s, -, hwell⟩ := Program.wellTyped_main hp ha haccepted hitem
    exact ⟨_, _, hwell⟩
  | nested _ hst hb' ih =>
    obtain ⟨arguments, returns, hwell⟩ := ih
    cases hwell with
    | mk _ hsts => exact ⟨_, _, (hsts _ (Block.mem_of_mem_numbered hst)).block hb'⟩

/-- In an accepted program the emitter gives an expression the checker's type exactly if that type
does not come from a fresh array. If no two nodes share a number, every expression has a type. -/
theorem Program.emit_type_eq_typeIn_iff {p : Program Location} {a : Analysis}
    (ha : p.analyze = .ok a) (haccepted : a.isAccepted = true) {layers : List Layer} {k : Nat}
    {b : Block Location NodeId} (hb : p.HasBlock layers k b) :
    (p.Distinct → ∃ s, a.scopes.get? b.mark = some s) ∧
      ∀ s, a.scopes.get? b.mark = some s → ∀ st ∈ b.statements, ∀ whole ∈ st.expressions,
        ∀ e : Expr Location, e.OccursIn whole →
          (p.Distinct → e.typeIn a.table s ≠ .error) ∧
          (e.typeIn a.table s ≠ .error → ∀ c : Context, c.table = a.table → ∀ f : Frame,
            ((e.emit c s f).type = e.typeIn a.table s ↔ e.leadsToNew = false)) := by
  constructor
  · intro hp
    obtain ⟨arguments, returns, hwell⟩ := hb.wellTyped hp ha haccepted
    cases hwell with | mk hnode _ => exact ⟨_, hnode⟩
  · intro s hs st hst whole hwhole e he
    constructor
    · intro hp
      obtain ⟨arguments, returns, hwell⟩ := hb.wellTyped hp ha haccepted
      cases hwell with
      | mk hnode hsts =>
        obtain rfl := Option.some.inj (hnode.symm.trans hs)
        obtain ⟨τ, hτ⟩ := (hsts st hst).hasType hwhole
        obtain ⟨σ, hσ⟩ := he.hasType hτ
        rw [(Expr.hasType_iff.mp hσ).1]
        exact hσ.ne_error
    · intro herror c hc f
      -- A type other than the sentinel is one that the judgement gives.
      have htyped : e.HasType c.table s (e.typeIn a.table s) :=
        Expr.hasType_iff.mpr ⟨by rw [hc], herror⟩
      rw [Expr.emit_type htyped f]
      exact Expr.emittedType_eq_iff herror

/-- `main { int[] a = new int[2]; print(a[0] + 1); print(new int[3]); }` -/
def Program.freshArrays : Program Location :=
  let written (text : String) : Name (Option Location) := ⟨text, none⟩
  let fresh (size : Int) : Expr (Option Location) := .newArray none (written "int") (.int none size)
  let first : Expr (Option Location) := .index none (written "a") (.int none 0)
  Program.ofDraft [.main ⟨none, none, .mk none
    [.declare none (written "int[]") (written "a") (some (fresh 2)),
      .print none false (some (.binary none .add first (.int none 1))),
      .print none false (some (fresh 3))]⟩]

/-- `a[0] + 1` -/
def Program.freshArrays.sum : Expr Location :=
  .binary .unknown .add (.index .unknown ⟨"a", .unknown⟩ (.int .unknown 0)) (.int .unknown 1)

/-- `new int[3]` -/
def Program.freshArrays.fresh : Expr Location :=
  .newArray .unknown ⟨"int", .unknown⟩ (.int .unknown 3)

/-- Both directions: the emitter agrees on the sum, and it does not on the fresh array. -/
theorem Program.emit_type_eq_typeIn_iff_freshArrays :
    ∃ a s, Program.freshArrays.analyze = .ok a ∧ a.isAccepted = true ∧
      a.scopes.get? ⟨1⟩ = some s ∧
      ∀ f : Frame,
        (freshArrays.sum.emit ⟨a.table, []⟩ s f).type = freshArrays.sum.typeIn a.table s ∧
          (freshArrays.fresh.emit ⟨a.table, []⟩ s f).type ≠ freshArrays.fresh.typeIn a.table s := by
  obtain ⟨a, ha, haccepted, hscope, hsum, hfresh⟩ : ∃ a, Program.freshArrays.analyze = .ok a ∧
      a.isAccepted = true ∧ a.scopes.get? ⟨1⟩ = some ⟨2⟩ ∧
      freshArrays.sum.typeIn a.table ⟨2⟩ ≠ .error ∧
      freshArrays.fresh.typeIn a.table ⟨2⟩ ≠ .error :=
    ⟨_, rfl, rfl, rfl, by decide, by decide⟩
  have htypes := (Program.emit_type_eq_typeIn_iff ha haccepted
    (.main (List.mem_singleton_self _))).2 ⟨2⟩ hscope
  refine ⟨a, ⟨2⟩, ha, haccepted, hscope, fun f => ⟨?_, ?_⟩⟩
  -- The sum stands in the second statement and the fresh array in the third.
  · have hagree := (htypes _ (List.mem_cons_of_mem _ List.mem_cons_self) freshArrays.sum
      (List.mem_singleton_self _) _ .here).2 hsum ⟨a.table, []⟩ rfl f
    exact hagree.mpr rfl
  · have hagree := (htypes _ (List.mem_cons_of_mem _ (List.mem_cons_of_mem _ List.mem_cons_self))
      freshArrays.fresh (List.mem_singleton_self _) _ .here).2 hfresh ⟨a.table, []⟩ rfl f
    exact fun h => absurd (hagree.mp h) (by decide)

/-- `main { print(new int[3]); }` -/
def Program.printedFresh : Program Location :=
  Program.ofDraft [.main ⟨none, none, .mk none
    [.print none false (some (.newArray none ⟨"int", none⟩ (.int none 3)))]⟩]

/-- A fresh array that is printed is accepted as an `int` and printed as an array. -/
theorem Program.type_of_printed_fresh_array_differs :
    ∃ a s, Program.printedFresh.analyze = .ok a ∧ a.isAccepted = true ∧
      a.scopes.get? ⟨1⟩ = some s ∧ freshArrays.fresh.typeIn a.table s = .int ∧
      (∀ f : Frame, (freshArrays.fresh.emit ⟨a.table, []⟩ s f).type = .intArray) ∧
      a.codeUnit Program.printedFresh "Unit" = .ok ⟨"Unit",
        [⟨"main", .ofMain, .ofMain, 1,
          [.push (.int 3), .newArray .int, .print (some .intArray) false, .ret none]⟩]⟩ :=
  ⟨_, ⟨2⟩, rfl, rfl, rfl, rfl, fun _ => rfl, rfl⟩

end Primer
