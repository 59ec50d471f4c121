import Primer.Proofs.Declaration.Shape
import Primer.Proofs.Typing.Decision

/-!
# Types in messages

A message about mistaken types mentions types: what was expected, what was found, what an operand
or an element is. None of them is `error`, which stands for a mistake that was reported before, and
none is the type of command-line arguments, which no program can name
(`Program.types_shown_nameable`). This holds for every program that is analyzed, whatever its
numbers are and whatever else is wrong with it.

Types reach messages in two ways. Types of symbols can be named, and those of the parameters of a
function are types of symbols. Types of expressions are `error` or can be named, and each rule looks
for `error` before it reports anything.
-/

namespace Primer

variable {L : Type} {t : Table} {s : ScopeId}

/-! ## What messages mention -/

/-- The types that a mistake mentions. -/
def TypeError.types : TypeError → List Ty
  | .expectedType expected found => [expected, found]
  | .argumentMismatch _ _ expected found => [expected, found]
  | .returnMismatch _ expected found => [expected, found]
  | .notIndexable type => [type]
  | .noLength type => [type]
  | .notNumeric type => [type]
  | .operandMismatch _ lhs rhs => [lhs, rhs]
  | .invalidOperands _ type => [type]
  | .invalidElement type => [type]
  | .condition _ type => [type]
  | .notPrintable type => [type]
  | .voidArgument _ | .voidReturnValue _ | .missingReturnValue _ | .voidAssignment _
  | .immutableString _ | .voidOperand _ | .mixedArray | .emptyArray | .unknownType _ => []

theorem Ty.mem_nameable_iff {τ : Ty} : τ ∈ Ty.nameable ↔ τ ≠ .error ∧ τ ≠ .args := by
  cases τ <;> decide

/-- All types that the findings mention can be named. -/
def ShowNameable (findings : List (Located L TypeError)) : Prop :=
  ∀ finding ∈ findings, ∀ τ ∈ finding.value.types, τ ∈ Ty.nameable

namespace ShowNameable

variable {as bs : List (Located L TypeError)} {place : L} {error : TypeError}

theorem nil : ShowNameable ([] : List (Located L TypeError)) :=
  List.forall_mem_nil _

theorem append (ha : ShowNameable as) (hb : ShowNameable bs) : ShowNameable (as ++ bs) :=
  List.forall_mem_append.mpr ⟨ha, hb⟩

theorem single (h : ∀ τ ∈ error.types, τ ∈ Ty.nameable) : ShowNameable [⟨place, error⟩] :=
  List.forall_mem_singleton.mpr h

/-- A message that mentions no type. -/
theorem wordless (herror : error.types = []) : ShowNameable [⟨place, error⟩] :=
  single (herror ▸ List.forall_mem_nil _)

/-- A message that mentions one type. -/
theorem one {τ : Ty} (herror : error.types = [τ]) (hτ : τ ∈ Ty.nameable) :
    ShowNameable [⟨place, error⟩] :=
  single (herror ▸ List.forall_mem_singleton.mpr hτ)

/-- A message that mentions two types. -/
theorem two {τ σ : Ty} (herror : error.types = [τ, σ]) (hτ : τ ∈ Ty.nameable)
    (hσ : σ ∈ Ty.nameable) : ShowNameable [⟨place, error⟩] :=
  single (herror ▸ List.forall_mem_cons.mpr ⟨hτ, List.forall_mem_singleton.mpr hσ⟩)

theorem flatMap {α : Type} {xs : List α} {f : α → List (Located L TypeError)}
    (h : ∀ x ∈ xs, ShowNameable (f x)) : ShowNameable (xs.flatMap f) := by
  intro finding hfinding
  obtain ⟨x, hx, hf⟩ := List.mem_flatMap.mp hfinding
  exact h x hx finding hf

end ShowNameable

/-! ## Rules

The types of parts are taken to differ from the type of command-line arguments. They may be `error`.
-/

namespace Typed

open ShowNameable

variable {place : L} {found : Ty}

theorem showNameable_expect {expected : Ty} (hexpected : expected ∈ Ty.nameable)
    (hfound : found ≠ .args) : ShowNameable (expect expected found place).findings := by
  unfold expect
  split_ifs with h
  · exact nil
  · exact two rfl hexpected (Ty.mem_nameable_iff.mpr ⟨(not_or.mp h).1, hfound⟩)

theorem showNameable_providedInt (τ : Ty) (hfound : found ≠ .args) :
    ShowNameable (providedInt τ found place).findings :=
  showNameable_expect (by decide) hfound

theorem showNameable_binary {op : BinOp} {lhs rhs : Ty} {underLength : Bool} (hlhs : lhs ≠ .args)
    (hrhs : rhs ≠ .args) : ShowNameable (binary place op lhs rhs underLength).findings := by
  -- Nothing is reported about an operand that has been reported already.
  by_cases herror : lhs = .error ∨ rhs = .error
  · rw [binary, if_pos herror]
    exact nil
  have hl : lhs ∈ Ty.nameable := Ty.mem_nameable_iff.mpr ⟨(not_or.mp herror).1, hlhs⟩
  have hr : rhs ∈ Ty.nameable := Ty.mem_nameable_iff.mpr ⟨(not_or.mp herror).2, hrhs⟩
  rw [binary, if_neg herror]
  -- In the order of the check: no value at all, then arithmetic, then comparisons.
  split_ifs
  · exact wordless rfl
  · exact two rfl hl hr
  · exact one rfl hl
  · exact nil
  · exact two rfl hl hr
  · exact one rfl hl
  · exact one rfl hr
  · exact nil

theorem showNameable_index {base : Name L} {type : Ty} (htype : type ≠ .args)
    (hfound : found ≠ .args) : ShowNameable (index base type place found).findings := by
  unfold index
  split_ifs with herror
  · exact nil
  · split
    · exact one rfl (Ty.mem_nameable_iff.mpr ⟨herror, htype⟩)
    · exact showNameable_providedInt _ hfound

theorem showNameable_length (hfound : found ≠ .args) :
    ShowNameable (length place found).findings := by
  unfold length
  split_ifs with herror
  · exact nil
  · exact nil
  · exact one rfl (Ty.mem_nameable_iff.mpr ⟨herror, hfound⟩)

theorem showNameable_negate (hfound : found ≠ .args) :
    ShowNameable (negate place found).findings := by
  unfold negate
  split_ifs with herror
  · exact nil
  · exact nil
  · exact one rfl (Ty.mem_nameable_iff.mpr ⟨herror, hfound⟩)

theorem showNameable_array {types : List Ty} (htypes : .args ∉ types) :
    ShowNameable (array place types).findings := by
  cases types with
  | nil => exact wordless rfl
  | cons first rest =>
    rw [array]
    split_ifs with herror
    · exact nil
    · exact wordless rfl
    · split
      · exact nil
      · refine one rfl (Ty.mem_nameable_iff.mpr ⟨?_, ?_⟩)
        · rintro rfl
          exact herror List.mem_cons_self
        · rintro rfl
          exact htypes List.mem_cons_self

theorem showNameable_newArray {element : Name L} (hfound : found ≠ .args) :
    ShowNameable (newArray element place found).findings := by
  unfold newArray
  split
  · exact wordless rfl
  · next type htype =>
    split_ifs
    · exact showNameable_providedInt _ hfound
    · exact one rfl (Ty.named?_mem htype)

theorem showNameable_argument {function : String} {position : Nat} {expected : Ty}
    (hexpected : expected ∈ Ty.nameable) (hfound : found ≠ .args) :
    ShowNameable (argument function position expected place found).findings := by
  unfold argument
  split_ifs with herror
  · exact nil
  · exact wordless rfl
  · exact two rfl hexpected (Ty.mem_nameable_iff.mpr ⟨herror, hfound⟩)
  · exact nil

/-- What was found out about the parts of a call or an array. -/
def Presentable (x : Typed L) : Prop :=
  x.type ≠ .args ∧ ShowNameable x.findings

theorem showNameable_arguments {function : String} {position : Nat} {types : List Ty}
    {given : List (L × Typed L)} (htypes : ∀ τ ∈ types, τ ∈ Ty.nameable)
    (hgiven : ∀ x ∈ given, x.2.Presentable) :
    ShowNameable ((arguments function position types given).flatMap Typed.findings) := by
  induction given generalizing types position with
  | nil => cases types <;> exact nil
  | cons first given ih =>
    obtain ⟨place, found⟩ := first
    cases types with
    | nil => exact nil
    | cons expected types =>
      -- The findings inside the argument are shown as they are; its own follow.
      obtain ⟨htype, hfindings⟩ : found.Presentable := hgiven _ List.mem_cons_self
      have hfirst : ShowNameable (argument function position expected place found.type).findings :=
        showNameable_argument (htypes expected List.mem_cons_self) htype
      exact (hfindings.append hfirst).append (ih
        (fun τ hτ => htypes τ (List.mem_cons_of_mem _ hτ))
        (fun x hx => hgiven x (List.mem_cons_of_mem _ hx)))

theorem showNameable_call {callee : Name L} {given : List (L × Typed L)}
    (hparameters : ∀ f, t.callee? s callee.text = some f →
      ∀ z ∈ f.parameters, t.typeOf z ∈ Ty.nameable)
    (hgiven : ∀ x ∈ given, x.2.Presentable) : ShowNameable (call t s callee given).findings := by
  have hunchecked : ShowNameable (given.flatMap (·.2.findings)) :=
    flatMap fun x hx => (hgiven x hx).2
  unfold call
  split
  · exact hunchecked
  · next f hf =>
    split_ifs
    · exact hunchecked
    · refine showNameable_arguments (fun τ hτ => ?_) hgiven
      obtain ⟨z, hz, rfl⟩ := List.mem_map.mp hτ
      exact hparameters f hf z hz

end Typed

/-! ## Expressions -/

/-- The types in a table can be named: those of symbols, and with them those of parameters. -/
structure Table.Presentable (t : Table) : Prop where
  nameable : t.Nameable
  parameters : ∀ x f, t.function? x = some f → ∀ z ∈ f.parameters, t.typeOf z ∈ Ty.nameable

namespace Table.Presentable

theorem callee (ht : t.Presentable) {name : String} (f : FunctionSymbol)
    (hf : t.callee? s name = some f) : ∀ z ∈ f.parameters, t.typeOf z ∈ Ty.nameable := by
  obtain ⟨x, -, hx⟩ := Option.bind_eq_some_iff.mp hf
  exact ht.parameters x f hx

theorem functionOf (ht : t.Presentable) {x : SymbolId} {f : FunctionSymbol}
    (h : t.functionOf s = some (x, f)) : f.returns ∈ Ty.nameable := by
  obtain ⟨y, -, hy⟩ := Option.bind_eq_some_iff.mp h
  obtain ⟨g, hg, heq⟩ := Option.map_eq_some_iff.mp hy
  obtain ⟨symbol, hsymbol, hfunction⟩ := Option.bind_eq_some_iff.mp hg
  obtain ⟨rfl, rfl⟩ := Prod.mk.inj heq
  cases symbol with
  | var name type => cases hfunction
  | fn f =>
    obtain rfl := Option.some.inj hfunction
    exact ht.nameable _ _ hsymbol

theorem varType_ne_args (ht : t.Presentable) (name : String) :
    (t.varType? s name).getD .error ≠ .args := by
  cases hvar : t.varType? s name with
  | none => decide
  | some τ => exact (Ty.mem_nameable_iff.mp (ht.nameable.varType hvar)).2

end Table.Presentable

namespace Expr

/-- The checker does not give out the type of command-line arguments. -/
theorem type_ne_args (ht : t.Nameable) (e : Expr L) (flag : Bool) :
    (e.check t s flag).type ≠ .args := by
  have hfalse : (e.check t s false).type ≠ .args := by
    intro hargs
    have htype : e.HasType t s .args := hasType_iff.mpr ⟨hargs, by decide⟩
    exact absurd (htype.mem_nameable ht) (by decide)
  cases e with
  | binary p op lhs rhs =>
    intro hargs
    rcases Typed.binary_type_cases flag hargs with h | h | h <;> cases h
  | _ => exact hfalse

/-- What the checker finds out about several expressions, if this holds for each of them. -/
private theorem presentable_checkAll (ht : t.Nameable) {es : List (Expr L)}
    (ih : ∀ e ∈ es, ∀ flag, ShowNameable (e.check t s flag).findings) :
    ∀ x ∈ checkAll t s es, x.2.Presentable := by
  intro x hx
  rw [checkAll_eq_map] at hx
  obtain ⟨e, he, rfl⟩ := List.mem_map.mp hx
  exact ⟨e.type_ne_args ht false, ih e he false⟩

theorem showNameable_check (ht : t.Presentable) (e : Expr L) (flag : Bool) :
    ShowNameable (e.check t s flag).findings := by
  induction e using Expr.inductionOn generalizing flag with
  | int | float | bool | char | str | read => exact .nil
  | call p callee arguments ih =>
    exact Typed.showNameable_call ht.callee (presentable_checkAll ht.nameable ih)
  | index p base position ih =>
    -- Each case puts the findings inside the parts before those of the expression itself.
    exact (ih false).append (Typed.showNameable_index (ht.varType_ne_args base.text)
      (position.type_ne_args ht.nameable _))
  | length p operand ih =>
    exact (ih true).append (Typed.showNameable_length (operand.type_ne_args ht.nameable _))
  | paren p operand ih => exact ih false
  | negate p operand ih =>
    exact (ih false).append (Typed.showNameable_negate (operand.type_ne_args ht.nameable _))
  | binary p op lhs rhs ihl ihr =>
    exact ((ihl false).append (ihr false)).append (Typed.showNameable_binary
      (lhs.type_ne_args ht.nameable _) (rhs.type_ne_args ht.nameable _))
  | array p elements ih =>
    have helements := presentable_checkAll ht.nameable ih
    refine (ShowNameable.flatMap fun x hx => (helements x hx).2).append
      (Typed.showNameable_array fun hargs => ?_)
    obtain ⟨x, hx, htype⟩ := List.mem_map.mp hargs
    exact (helements x hx).1 htype
  | newArray p element size ih =>
    exact (ih false).append (Typed.showNameable_newArray (size.type_ne_args ht.nameable _))

/-! ## Uses of values -/

variable {e : Expr L} {declared found : Ty}

/-- The type of a stored value is shown as it is, or as that of an array with such elements. -/
theorem shownType_mem_nameable (hfound : found ∈ Ty.nameable) :
    e.shownType found ∈ Ty.nameable := by
  unfold shownType
  split_ifs
  · cases harray : found.arrayOf? with
    | none => exact hfound
    | some τ => cases found <;> cases harray <;> decide
  · exact hfound

theorem showNameable_checkStore {name : String} (hdeclared : declared ∈ Ty.nameable)
    (hfound : found ≠ .args) : ShowNameable (e.checkStore name declared found) := by
  unfold checkStore
  split_ifs with herror
  · exact .nil
  · exact .wordless rfl
  · exact .nil
  · exact .two rfl hdeclared (shownType_mem_nameable (Ty.mem_nameable_iff.mpr ⟨herror, hfound⟩))

theorem showNameable_checkCondition (ht : t.Presentable) {statement : String} :
    ShowNameable (e.checkCondition t s statement) := by
  refine (e.showNameable_check ht false).append ?_
  unfold Typed.conditionMistakes
  split_ifs with h
  · exact .nil
  · exact .one rfl (Ty.mem_nameable_iff.mpr ⟨(not_or.mp h).2, e.type_ne_args ht.nameable false⟩)

/-- Of the types that cannot be printed, the one of command-line arguments does not come up. -/
theorem showNameable_checkPrint (ht : t.Presentable) : ShowNameable (e.checkPrint t s) := by
  refine (e.showNameable_check ht false).append ?_
  have hargs := e.type_ne_args (s := s) ht.nameable false
  unfold Typed.printMistakes
  split_ifs with h
  · refine .one rfl (Ty.mem_nameable_iff.mpr ⟨fun herror => ?_, hargs⟩)
    rw [herror] at h
    exact absurd h (by decide)
  · exact .nil

theorem showNameable_checkElement (ht : t.Presentable) (target : Name L) (position value : Expr L) :
    ShowNameable (checkElement t s target position value) := by
  refine ((position.showNameable_check ht false).append (value.showNameable_check ht false)).append
    ?_
  unfold Typed.elementMistakes
  split
  · exact .nil
  · next declared hdeclared =>
    -- A declared type has a name, so it can be shown.
    have hname := ht.nameable.varType hdeclared
    refine (Typed.showNameable_expect (by decide) (position.type_ne_args ht.nameable _)).append ?_
    split_ifs with hstring harray
    · exact .wordless rfl
    · split
      · next element helement =>
        refine Typed.showNameable_expect ?_ (value.type_ne_args ht.nameable _)
        -- The elements of an array are scalars.
        cases declared <;> cases harray <;> cases helement <;> decide
      · exact .nil
    · exact .one rfl hname

end Expr

theorem FunctionSymbol.showNameable_checkReturn {f : FunctionSymbol} {place : L}
    {found : Option (Expr L × Ty)} (hreturns : f.returns ∈ Ty.nameable)
    (hfound : ∀ x, found = some x → x.2 ≠ .args) : ShowNameable (f.checkReturn place found) := by
  cases found with
  | none =>
    rw [checkReturn]
    split_ifs
    · exact .nil
    · exact .wordless rfl
  | some x =>
    obtain ⟨e, found⟩ := x
    rw [checkReturn]
    split_ifs with hvoid h
    · exact .wordless rfl
    · exact .nil
    · exact .two rfl hreturns (Expr.shownType_mem_nameable
        (Ty.mem_nameable_iff.mpr ⟨(not_or.mp h).1, hfound _ rfl⟩))

/-! ## Statements -/

namespace Report

variable {a b : Report L TypeError}

/-- All types that a report mentions can be named. -/
def Presentable (r : Report L TypeError) : Prop :=
  ShowNameable r.findings

theorem Presentable.append (ha : a.Presentable) (hb : b.Presentable) : (a ++ b).Presentable := by
  cases hfault : a.fault with
  | some fault =>
    rw [append_of_fault hfault]
    exact ha
  | none =>
    rw [append_of_no_fault hfault]
    exact ShowNameable.append ha hb

theorem Presentable.concat {reports : List (Report L TypeError)}
    (h : ∀ r ∈ reports, r.Presentable) : (Report.concat reports).Presentable := by
  induction reports with
  | nil => exact .nil
  | cons r reports ih =>
    exact (h r List.mem_cons_self).append (ih fun r hr => h r (List.mem_cons_of_mem _ hr))

theorem Presentable.inScopeOf {m : ScopeMap} {node : NodeId} {go : ScopeId → Report L TypeError}
    (h : ∀ s, (go s).Presentable) : (Report.inScopeOf m node go).Presentable := by
  unfold Report.inScopeOf
  split
  · exact h _
  · exact ShowNameable.nil

end Report

section Statements

variable {m : ScopeMap}

private theorem Block.presentable_typesAll {sts : List (Stmt L NodeId)}
    (ih : ∀ st ∈ sts, ∀ s, (st.types t m s).Presentable) (s : ScopeId) :
    (Block.typesAll t m s sts).Presentable := by
  induction sts with
  | nil => exact .nil
  | cons st sts ihs =>
    exact (ih st List.mem_cons_self s).append
      (ihs fun st hst => ih st (List.mem_cons_of_mem _ hst))

private theorem Block.presentable_block {b : Block L NodeId}
    (ih : ∀ st ∈ b.statements, ∀ s, (st.types t m s).Presentable) : (b.types t m).Presentable := by
  obtain ⟨node, sts⟩ := b
  exact .inScopeOf (Block.presentable_typesAll ih)

theorem Stmt.presentable_types (ht : t.Presentable) (st : Stmt L NodeId) (s : ScopeId) :
    (st.types t m s).Presentable := by
  induction st using Stmt.inductionOn generalizing s with
  | declare p type name value =>
    cases value with
    | none => exact .nil
    | some value =>
      refine (value.showNameable_check ht false).append ?_
      split
      -- An unknown type name has been reported as a declaration, and the store is not checked.
      · next declared hdeclared =>
        exact Expr.showNameable_checkStore (Ty.named?_mem hdeclared)
          (value.type_ne_args ht.nameable _)
      · exact .nil
  | assign p target value =>
    refine (value.showNameable_check ht false).append ?_
    split
    · next declared hdeclared =>
      exact Expr.showNameable_checkStore (ht.nameable.varType hdeclared)
        (value.type_ne_args ht.nameable _)
    · exact .nil
  | assignAt p target position value =>
    exact Expr.showNameable_checkElement ht target position value
  | ifThen p condition yes ih =>
    exact .append (Expr.showNameable_checkCondition ht) (Block.presentable_block ih)
  | ifElse p condition yes no ihy ihn =>
    exact .append (Expr.showNameable_checkCondition ht)
      (.append (Block.presentable_block ihy) (Block.presentable_block ihn))
  | loop p condition body ih =>
    exact .append (Expr.showNameable_checkCondition ht) (Block.presentable_block ih)
  | ret p node value =>
    -- The value is checked first, and then against the function that owns the scope.
    refine .append ?_ (.inScopeOf fun s => ?_)
    · cases value with
      | none => exact .nil
      | some e => exact e.showNameable_check ht false
    · split
      · exact .nil
      · next x f hf =>
        refine FunctionSymbol.showNameable_checkReturn (ht.functionOf hf) fun x hx => ?_
        obtain ⟨y, hy, rfl⟩ := Option.map_eq_some_iff.mp hx
        obtain ⟨e, -, rfl⟩ := Option.map_eq_some_iff.mp hy
        exact e.type_ne_args ht.nameable false
  | print p newline value =>
    cases value with
    | none => exact .nil
    | some e => exact Expr.showNameable_checkPrint ht
  | call p callee arguments =>
    exact (Expr.call p callee arguments).showNameable_check ht false

end Statements

/-! ## Programs -/

/-- The table of every program, with or without mistakes in it. -/
theorem Declarations.presentable_ofProgram (p : Program L) :
    (ofProgram p).table.Presentable := by
  have hnameable := nameable_ofProgram p
  refine ⟨hnameable, fun x f hf z hz => ?_⟩
  obtain ⟨y, hy, hfunction⟩ := Option.bind_eq_some_iff.mp hf
  cases y with
  | var name type => cases hfunction
  | fn g =>
    obtain rfl := Option.some.inj hfunction
    obtain ⟨name, type, hvar⟩ := (arranged_ofProgram p).parameters x g hy z hz
    simpa [Table.typeOf, hvar, Symbol.type] using hnameable z _ hvar

theorem Program.presentable_types {t : Table} (ht : t.Presentable) (m : ScopeMap) (p : Program L) :
    (p.types t m).Presentable := by
  refine .concat fun r hr => ?_
  obtain ⟨b, -, rfl⟩ := List.mem_map.mp hr
  exact Block.presentable_block fun st _ s => st.presentable_types ht s

/-- No message about types mentions `error` or the type of command-line arguments, whatever is wrong
with the program and whatever its numbers are. -/
theorem Program.types_shown_nameable {p : Program Location} {a : Analysis}
    (ha : p.analyze = .ok a) :
    ∀ finding ∈ a.types.entries, ∀ τ ∈ finding.value.types, τ ≠ .error ∧ τ ≠ .args := by
  intro finding hfinding τ hτ
  obtain ⟨-, -, rfl⟩ := Program.passes_of_analyze ha
  have hpresentable := p.presentable_types (Declarations.presentable_ofProgram p)
    (Declarations.ofProgram p).scopes
  exact Ty.mem_nameable_iff.mp (hpresentable finding hfinding τ hτ)

/-- A program with mistakes of all three sorts, some of them below others, and with numbers that
repeat and leave gaps. -/
def Program.muddled : Program Location :=
  let here : Location := .unknown
  let name (text : String) : Name Location := ⟨text, here⟩
  { root := ⟨5⟩
    items := [
      .function {
        place := here
        mark := ⟨5⟩
        returns := name "int"
        name := name "f"
        parameters := [⟨name "int", name "x"⟩, ⟨name "int", name "x"⟩]
        body := some (.mk ⟨40⟩ [
          .declare here (name "int") (name "n")
            (some (.binary here .add (.int here 1) (.str here "a"))),
          .assign here (name "n") (.negate here (.paren here (.read here (name "y")))),
          .ifThen here
            (.call here (name "f") [.length here (.call here (name "f") [.bool here true])])
            (.mk ⟨9⟩ [.print here false (some (.array here [.read here (name "x")]))]),
          .ret here ⟨40⟩ (some (.newArray here (name "float") (.read here (name "x"))))]) },
      .main { place := here, mark := ⟨5⟩, body := .mk ⟨2⟩ [.call here (name "f") []] }]
    nodeCount := 3 }

theorem Program.types_shown_nameable_muddled :
    ∃ a, muddled.analyze = .ok a ∧ a.declarations.count = 1 ∧ a.references.count = 2 ∧
      a.types.entries.map Located.value = [.operandMismatch .add .int .string,
        .argumentMismatch "f" 1 .int .bool, .notPrintable .intArray,
        .returnMismatch "f" .int .floatArray] ∧
      ∀ finding ∈ a.types.entries, ∀ τ ∈ finding.value.types, τ ≠ .error ∧ τ ≠ .args := by
  have h : muddled.analyze.toOption.map (fun a =>
      (a.declarations.count, a.references.count, a.types.entries.map Located.value)) =
      some (1, 2, [.operandMismatch .add .int .string, .argumentMismatch "f" 1 .int .bool,
        .notPrintable .intArray, .returnMismatch "f" .int .floatArray]) := by
    decide +kernel
  obtain ⟨a, ha, hresults⟩ := Option.map_eq_some_iff.mp h
  -- The evaluation above has seen an analysis, so this is its outcome.
  have hanalyze : muddled.analyze = .ok a := by
    cases hanalysis : muddled.analyze with
    | error fault =>
      rw [hanalysis] at ha
      cases ha
    | ok b =>
      rw [hanalysis] at ha
      exact congrArg Except.ok (Option.some.inj ha)
  obtain ⟨hdeclarations, hrest⟩ := Prod.mk.inj hresults
  obtain ⟨hreferences, htypes⟩ := Prod.mk.inj hrest
  exact ⟨a, hanalyze, hdeclarations, hreferences, htypes, types_shown_nameable hanalyze⟩

end Primer
