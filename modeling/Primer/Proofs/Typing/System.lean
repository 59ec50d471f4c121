import Primer.Proofs.Tree.Names
import Primer.Proofs.Typing.Judgement

/-!
# The type system on trees

The typing rules as the language gives them, on the tree alone: no table, no scopes, no error type
and no order of checks.

* There are no conversions: a rule that asks for a type asks for that very type.
* `new T[n]` has type `T`, for `T` one of `int`, `float` and `char`. Written directly, it can be
  stored only where an array of `T` is expected (`Expr.Stored.fresh`).
* The operands of a comparison have the same type, except directly under `length`.
* `print` takes neither `void` nor arrays, and the characters of a string cannot be assigned.

The checker departs from these rules at one place: it takes `new T[n]` as a value of type `T` when
it is assigned to an element. The *lenient* rules allow this and nothing else (`Stmt.Ok.assignAt`).

`Typing.Env` says what names mean. A block sees all variables that it declares directly, and these
hide what is declared around it; calls mean the functions of the program.
-/

namespace Primer

variable {L I : Type}

/-! ## What names mean -/

/-- What names mean at a place in a program. -/
structure Typing.Env where
  /-- The type of the variable that a name stands for. -/
  varType? : String → Option Ty
  /-- The types of the parameters and of the result of the function that a call by this name means.
  -/
  signature? : String → Option (List Ty × Ty)

/-- Declares variables, each given with the name of its type. They hide earlier ones. -/
def Typing.Env.enter (Γ : Typing.Env) (names : List (String × String)) : Typing.Env where
  varType? name :=
    match names.lookup name with
    | some type => Ty.named? type
    | none => Γ.varType? name
  signature? := Γ.signature?

theorem Typing.Env.varType?_enter (Γ : Typing.Env) (names : List (String × String))
    (name : String) :
    (Γ.enter names).varType? name =
      match names.lookup name with
      | some type => Ty.named? type
      | none => Γ.varType? name :=
  rfl

/-- The variable that a statement declares in its block, with the name of its type. -/
def Stmt.declaredName? : Stmt L I → Option (String × String)
  | .declare _ type name _ => some (name.text, type.text)
  | _ => none

/-- The variables that a block declares directly. -/
def Block.declaredNames (b : Block L I) : List (String × String) :=
  b.statements.filterMap Stmt.declaredName?

/-- The parameters of a function. -/
def Function.declaredNames (f : Function L I) : List (String × String) :=
  f.parameters.map fun p => (p.name.text, p.type.text)

/-- The signature that an item gives a name. The entry point is called `main`. -/
def Item.signature : Item L I → String × Option (List Ty × Ty)
  | .function f =>
    (f.name.text, do
      let parameters ← f.parameters.mapM fun p => Ty.named? p.type.text
      let returns ← Ty.named? f.returns.text
      return (parameters, returns))
  | .main _ => ("main", some ([], .void))

/-- What names mean outside of all items: nothing but the functions of the program. -/
def Program.env (p : Program L) : Typing.Env where
  varType? _ := none
  signature? name := ((p.items.map Item.signature).lookup name).join

/-! ## Expressions -/

/-- An operator compares values of a type. -/
def BinOp.Compares (op : BinOp) (τ : Ty) : Prop :=
  τ.isScalar = true ∨ τ = .string ∧ (op = .equal ∨ op = .notEqual)

/-- The typing rules for expressions. The flag says whether the expression stands directly under
`length`. -/
inductive Expr.TypedAs (Γ : Typing.Env) : Bool → Expr L → Ty → Prop where
  | int {l p value} : TypedAs Γ l (.int p value) .int
  | float {l p bits} : TypedAs Γ l (.float p bits) .float
  | bool {l p value} : TypedAs Γ l (.bool p value) .bool
  | char {l p value} : TypedAs Γ l (.char p value) .char
  | str {l p value} : TypedAs Γ l (.str p value) .string
  | read {l p name τ} (hvar : Γ.varType? name.text = some τ) : TypedAs Γ l (.read p name) τ
  /-- Arguments have the types of the parameters, and none of them is `void`. -/
  | call {l p callee arguments types τ} (hcallee : Γ.signature? callee.text = some (types, τ))
      (harguments : List.Forall₂ (TypedAs Γ false) arguments types) (hvoid : .void ∉ types) :
      TypedAs Γ l (.call p callee arguments) τ
  | element {l p base position τ σ} (hvar : Γ.varType? base.text = some σ)
      (harray : τ.arrayOf? = some σ) (hposition : TypedAs Γ false position .int) :
      TypedAs Γ l (.index p base position) τ
  | charAt {l p base position} (hvar : Γ.varType? base.text = some .string)
      (hposition : TypedAs Γ false position .int) : TypedAs Γ l (.index p base position) .char
  | length {l p operand τ} (hoperand : TypedAs Γ true operand τ)
      (hτ : τ = .string ∨ τ.isArray = true) : TypedAs Γ l (.length p operand) .int
  | paren {l p operand τ} (hoperand : TypedAs Γ false operand τ) :
      TypedAs Γ l (.paren p operand) τ
  | negate {l p operand τ} (hoperand : TypedAs Γ false operand τ) (hτ : τ.isNumeric = true) :
      TypedAs Γ l (.negate p operand) τ
  | arithmetic {l p op lhs rhs τ} (hop : op.isArithmetic = true) (hlhs : TypedAs Γ false lhs τ)
      (hrhs : TypedAs Γ false rhs τ) (hτ : τ.isNumeric = true) :
      TypedAs Γ l (.binary p op lhs rhs) τ
  | comparison {l p op lhs rhs τ σ} (hop : op.isArithmetic = false)
      (hlhs : TypedAs Γ false lhs τ) (hrhs : TypedAs Γ false rhs σ) (hsame : τ = σ ∨ l = true)
      (hτ : op.Compares τ) (hσ : op.Compares σ) : TypedAs Γ l (.binary p op lhs rhs) .bool
  | array {l p elements τ σ} (hne : elements ≠ [])
      (helements : ∀ e ∈ elements, TypedAs Γ false e τ) (hτ : τ.arrayOf? = some σ) :
      TypedAs Γ l (.array p elements) σ
  /-- A fresh array has the type of its elements. -/
  | newArray {l p element size τ} (hnamed : Ty.named? element.text = some τ)
      (hτ : τ.isScalar = true) (hsize : TypedAs Γ false size .int) :
      TypedAs Γ l (.newArray p element size) τ

/-- The expression can be stored where a type is expected. -/
inductive Expr.Stored (Γ : Typing.Env) : Expr L → Ty → Prop where
  | value {e τ} (hnew : e.isNewArray = false) (he : e.TypedAs Γ false τ) (hvoid : τ ≠ .void) :
      Stored Γ e τ
  /-- A fresh array that is written directly is stored as an array of its elements. -/
  | fresh {p element size τ σ} (he : (Expr.newArray p element size).TypedAs Γ false τ)
      (hσ : τ.arrayOf? = some σ) : Stored Γ (.newArray p element size) σ

/-! ## Statements -/

mutual

/-- The rules for statements, in a function that returns values of a given type. An entry point has
no type to return. -/
inductive Stmt.Ok (lenient : Bool) (returns : Option Ty) : Typing.Env → Stmt L I → Prop where
  | declare {Γ p type name} : Stmt.Ok lenient returns Γ (.declare p type name none)
  | declareWith {Γ p type name value τ} (htype : Ty.named? type.text = some τ)
      (hvalue : value.Stored Γ τ) : Stmt.Ok lenient returns Γ (.declare p type name (some value))
  | assign {Γ p target value τ} (htarget : Γ.varType? target.text = some τ)
      (hvalue : value.Stored Γ τ) : Stmt.Ok lenient returns Γ (.assign p target value)
  /-- Only arrays have elements that can be assigned. A fresh array is not an element. -/
  | assignAt {Γ p target position value τ σ} (htarget : Γ.varType? target.text = some σ)
      (harray : τ.arrayOf? = some σ) (hposition : position.TypedAs Γ false .int)
      (hvalue : value.TypedAs Γ false τ) (hfresh : value.isNewArray = false ∨ lenient = true) :
      Stmt.Ok lenient returns Γ (.assignAt p target position value)
  | ifThen {Γ p condition yes} (hcondition : condition.TypedAs Γ false .bool)
      (hyes : Block.Ok lenient returns Γ yes) : Stmt.Ok lenient returns Γ (.ifThen p condition yes)
  | ifElse {Γ p condition yes no} (hcondition : condition.TypedAs Γ false .bool)
      (hyes : Block.Ok lenient returns Γ yes) (hno : Block.Ok lenient returns Γ no) :
      Stmt.Ok lenient returns Γ (.ifElse p condition yes no)
  | loop {Γ p condition body} (hcondition : condition.TypedAs Γ false .bool)
      (hbody : Block.Ok lenient returns Γ body) : Stmt.Ok lenient returns Γ (.loop p condition body)
  | ret {Γ p node} (hreturns : returns = some .void) : Stmt.Ok lenient returns Γ (.ret p node none)
  | retValue {Γ p node value τ} (hreturns : returns = some τ) (hvoid : τ ≠ .void)
      (hvalue : value.Stored Γ τ) : Stmt.Ok lenient returns Γ (.ret p node (some value))
  | newline {Γ p newline} : Stmt.Ok lenient returns Γ (.print p newline none)
  | print {Γ p newline value τ} (hvalue : value.TypedAs Γ false τ) (hvoid : τ ≠ .void)
      (harray : τ.isArray = false) : Stmt.Ok lenient returns Γ (.print p newline (some value))
  | call {Γ p callee arguments τ} (hcall : (Expr.call p callee arguments).TypedAs Γ false τ) :
      Stmt.Ok lenient returns Γ (.call p callee arguments)

/-- The statements of a block see what the block declares. -/
inductive Block.Ok (lenient : Bool) (returns : Option Ty) : Typing.Env → Block L I → Prop where
  | mk {Γ b} (hsts : ∀ st ∈ b.statements, Stmt.Ok lenient returns (Γ.enter b.declaredNames) st) :
      Block.Ok lenient returns Γ b

end

/-! ## Programs -/

/-- The rule for an item of a program. -/
def Item.Ok (lenient : Bool) (p : Program L) : Item L NodeId → Prop
  | .function f => ∀ body, f.body = some body →
    body.Ok lenient (Ty.named? f.returns.text) (p.env.enter f.declaredNames)
  | .main e => e.body.Ok lenient none p.env

/-- Every statement of every function and entry point keeps to the rules. -/
def Program.Ok (lenient : Bool) (p : Program L) : Prop :=
  ∀ i ∈ p.items, i.Ok lenient p

/-- The blocks of a program with what names mean inside. -/
inductive Program.BlockIn (p : Program L) : Typing.Env → Block L NodeId → Prop where
  | function {f body} (hitem : .function f ∈ p.items) (hbody : f.body = some body) :
      BlockIn p ((p.env.enter f.declaredNames).enter body.declaredNames) body
  | main {e} (hitem : .main e ∈ p.items) : BlockIn p (p.env.enter e.body.declaredNames) e.body
  | nested {Γ b st b'} (hb : BlockIn p Γ b) (hst : st ∈ b.statements) (hb' : b' ∈ st.blocks) :
      BlockIn p (Γ.enter b'.declaredNames) b'

/-! ## Strict and lenient rules -/

/-- The statement assigns a fresh array to an element. -/
def Stmt.storesFreshElement : Stmt L I → Bool
  | .assignAt _ _ _ value => value.isNewArray
  | _ => false

section Strict

variable {p : Program L}

/-- The statements of all blocks of a program keep to the rules. -/
theorem Program.Ok.statements {lenient : Bool} (hok : p.Ok lenient) {Γ : Typing.Env}
    {b : Block L NodeId} (hb : p.BlockIn Γ b) :
    ∃ returns, ∀ st ∈ b.statements, st.Ok lenient returns Γ := by
  induction hb with
  | @function f body hitem hbody =>
    cases hok _ hitem body hbody with
    | mk hsts => exact ⟨_, hsts⟩
  | main hitem =>
    cases hok _ hitem with
    | mk hsts => exact ⟨_, hsts⟩
  | @nested Γ b st b' hb hst hb' ih =>
    obtain ⟨returns, hsts⟩ := ih
    -- The block stands in a statement that keeps to the rules of its own environment.
    have hblock : b'.Ok lenient returns Γ := by
      cases hsts st hst with
      | ifThen _ hyes | loop _ hyes => exact List.mem_singleton.mp hb' ▸ hyes
      | ifElse _ hyes hno =>
        rcases List.mem_pair.mp hb' with rfl | rfl
        · exact hyes
        · exact hno
      | _ => exact absurd hb' List.not_mem_nil
    cases hblock with
    | mk hsts => exact ⟨returns, hsts⟩

theorem Stmt.Ok.not_storesFreshElement {returns : Option Ty} {Γ : Typing.Env} {st : Stmt L I}
    (hst : st.Ok false returns Γ) : st.storesFreshElement = false := by
  cases hst with
  | assignAt _ _ _ _ hfresh => exact hfresh.resolve_right Bool.false_ne_true
  | _ => rfl

section Transfer

-- Fresh arrays are assigned to elements only if the rules to reach allow it.
variable {l l' : Bool} {returns : Option Ty}
  (hfresh : ∀ Γ b, p.BlockIn Γ b → ∀ st ∈ b.statements,
    st.storesFreshElement = false ∨ l' = true)

include hfresh

/-- The step from the statements of a block to the block. -/
private theorem Block.Ok.transfer_block {Γ : Typing.Env} {b : Block L NodeId}
    (ih : ∀ st ∈ b.statements, ∀ Γ : Typing.Env, st.Ok l returns Γ →
      st.storesFreshElement = false ∨ l' = true →
      (∀ b' ∈ st.blocks, p.BlockIn (Γ.enter b'.declaredNames) b') → st.Ok l' returns Γ)
    (hb : b.Ok l returns Γ) (hin : p.BlockIn (Γ.enter b.declaredNames) b) :
    b.Ok l' returns Γ := by
  cases hb with
  | mk hsts =>
    refine .mk fun st hst => ih st hst _ (hsts st hst) (hfresh _ b hin st hst) fun b' hb' => ?_
    exact hin.nested hst hb'

/-- The two sets of rules differ in stores of fresh arrays to elements only. -/
theorem Stmt.Ok.transfer {Γ : Typing.Env} {st : Stmt L NodeId} (hst : st.Ok l returns Γ)
    (hvalue : st.storesFreshElement = false ∨ l' = true)
    (hin : ∀ b ∈ st.blocks, p.BlockIn (Γ.enter b.declaredNames) b) : st.Ok l' returns Γ := by
  induction st using Stmt.inductionOn generalizing Γ with
  | ifThen q condition yes ih =>
    cases hst with
    | ifThen hcondition hyes =>
      exact .ifThen hcondition (Block.Ok.transfer_block hfresh (fun st hm Γ => ih st hm) hyes
        (hin yes (List.mem_singleton_self _)))
  | loop q condition body ih =>
    cases hst with
    | loop hcondition hbody =>
      exact .loop hcondition (Block.Ok.transfer_block hfresh (fun st hm Γ => ih st hm) hbody
        (hin body (List.mem_singleton_self _)))
  | ifElse q condition yes no ihy ihn =>
    cases hst with
    | ifElse hcondition hyes hno =>
      exact .ifElse hcondition
        (Block.Ok.transfer_block hfresh (fun st hm Γ => ihy st hm) hyes
          (hin yes (by simp [blocks])))
        (Block.Ok.transfer_block hfresh (fun st hm Γ => ihn st hm) hno (hin no (by simp [blocks])))
  -- The flag only matters where an element is assigned.
  | assignAt q target position value =>
    cases hst with
    | assignAt htarget harray hposition htyped =>
      exact .assignAt htarget harray hposition htyped hvalue
  | declare q type name value =>
    cases hst with
    | declare => exact .declare
    | declareWith htype hstored => exact .declareWith htype hstored
  | assign q target value =>
    cases hst with
    | assign htarget hstored => exact .assign htarget hstored
  | ret q node value =>
    cases hst with
    | ret hvoid => exact .ret hvoid
    | retValue hreturns hvoid hstored => exact .retValue hreturns hvoid hstored
  | print q newline value =>
    cases hst with
    | newline => exact .newline
    | print htyped hvoid harray => exact .print htyped hvoid harray
  | call q callee arguments =>
    cases hst with
    | call hcall => exact .call hcall

theorem Program.Ok.transfer (hok : p.Ok l) : p.Ok l' := by
  intro i hi
  cases i with
  | function f =>
    intro body hbody
    exact Block.Ok.transfer_block hfresh (fun st _ Γ => Stmt.Ok.transfer hfresh)
      (hok _ hi body hbody) (.function hi hbody)
  | main e =>
    exact Block.Ok.transfer_block hfresh (fun st _ Γ => Stmt.Ok.transfer hfresh)
      (hok _ hi) (.main hi)

end Transfer

/-- A program keeps to the rules exactly if it keeps to the lenient ones and no statement assigns a
fresh array to an element. -/
theorem Program.ok_iff_lenient : p.Ok false ↔ p.Ok true ∧
    ∀ Γ b, p.BlockIn Γ b → ∀ st ∈ b.statements, st.storesFreshElement = false := by
  constructor
  · intro hok
    refine ⟨hok.transfer fun _ _ _ _ _ => .inr rfl, fun Γ b hb st hst => ?_⟩
    obtain ⟨returns, hsts⟩ := hok.statements hb
    exact (hsts st hst).not_storesFreshElement
  · rintro ⟨hok, hfresh⟩
    exact hok.transfer fun Γ b hb st hst => .inl (hfresh Γ b hb st hst)

end Strict

/-! ## The rules and the judgement of the checker -/

/-- In the scope `s` of a table names mean what they mean in the environment. -/
structure Table.Matches (t : Table) (s : ScopeId) (Γ : Typing.Env) : Prop where
  varType : ∀ name, t.varType? s name = Γ.varType? name
  signature : ∀ name,
    (t.callee? s name).map (fun f => (f.parameters.map t.typeOf, f.returns)) = Γ.signature? name
  /-- Functions are bound in the global scope only. -/
  globally : ∀ name, t.localResolve Table.global name = none →
    (t.resolve s name).bind t.function? = none

/-- The element type of an array, or of a string, that a program can name. -/
theorem Ty.element?_eq_some_iff {σ τ : Ty} (hσ : σ ∈ Ty.nameable) :
    σ.element? = some τ ↔ τ.arrayOf? = some σ ∨ σ = .string ∧ τ = .char := by
  cases σ <;> cases τ <;> simp_all [Ty.element?, Ty.arrayOf?, Ty.nameable]

theorem Ty.arrayOf?_eq_some_iff {σ τ : Ty} :
    τ.arrayOf? = some σ ↔ σ.isArray = true ∧ σ.element? = some τ := by
  cases σ <;> cases τ <;> simp [Ty.element?, Ty.arrayOf?, Ty.isArray]

namespace Expr

variable {t : Table} {s : ScopeId} {Γ : Typing.Env}

theorem comparable_eq_true_iff {op : BinOp} {τ : Ty} (hop : op.isArithmetic = false) :
    Typed.comparable op τ = true ↔ op.Compares τ := by
  cases op <;> cases τ <;> simp_all [Typed.comparable, BinOp.Compares, BinOp.isArithmetic,
    BinOp.isRelational, Ty.isScalar]

/-- Only a comparison looks at the flag, and its type is `bool`. -/
theorem TypedAs.relax {l l' : Bool} {e : Expr L} {τ : Ty} (h : e.TypedAs Γ l τ)
    (hl : l = true → l' = true ∨ τ ≠ .bool) : e.TypedAs Γ l' τ := by
  cases h with
  | int => exact .int
  | float => exact .float
  | bool => exact .bool
  | char => exact .char
  | str => exact .str
  | read hvar => exact .read hvar
  | call hcallee harguments hvoid => exact .call hcallee harguments hvoid
  | element hvar harray hposition => exact .element hvar harray hposition
  | charAt hvar hposition => exact .charAt hvar hposition
  | length hoperand hτ => exact .length hoperand hτ
  | paren hoperand => exact .paren hoperand
  | negate hoperand hτ => exact .negate hoperand hτ
  | arithmetic hop hlhs hrhs hτ => exact .arithmetic hop hlhs hrhs hτ
  | comparison hop hlhs hrhs hsame hτ hσ =>
    -- Different types are compared only under the flag, and then the result is `bool`.
    refine .comparison hop hlhs hrhs ?_ hτ hσ
    rcases hsame with hsame | hflag
    · exact .inl hsame
    · exact .inr ((hl hflag).resolve_right fun hne => hne rfl)
  | array hne helements hτ => exact .array hne helements hτ
  | newArray hnamed hτ hsize => exact .newArray hnamed hτ hsize

theorem forall₂_congr_of_mem {P Q : Expr L → Ty → Prop} {es : List (Expr L)} {types : List Ty}
    (h : ∀ e ∈ es, ∀ τ, P e τ ↔ Q e τ) : List.Forall₂ P es types ↔ List.Forall₂ Q es types := by
  induction es generalizing types with
  | nil => simp
  | cons e es ih =>
    cases types with
    | nil => simp
    | cons τ types =>
      rw [List.forall₂_cons, List.forall₂_cons, h e List.mem_cons_self,
        ih fun e he => h e (List.mem_cons_of_mem _ he)]

/-- The judgement of the checker is that of the rules, where names mean the same. -/
theorem hasType_iff_typedAs (ht : t.Nameable) (hΓ : t.Matches s Γ) {e : Expr L} {τ : Ty} :
    e.HasType t s τ ↔ e.TypedAs Γ false τ := by
  induction e using Expr.inductionOn generalizing τ with
  | int | float | bool | char | str =>
    constructor <;> (intro h; cases h; constructor)
  | read p name =>
    constructor
    · intro h
      cases h with | read hvar _ => exact .read (hΓ.varType _ ▸ hvar)
    · intro h
      cases h with
      | read hvar =>
        -- A declared type has a name, so it is not `error`.
        rw [← hΓ.varType] at hvar
        exact .read hvar (Ty.ne_error_of_mem_nameable (ht.varType hvar))
  | call p callee arguments ih =>
    have hsignature := hΓ.signature callee.text
    constructor
    · intro h
      cases h with
      | @call _ _ _ f hcallee harguments hvoid _ =>
        rw [hcallee] at hsignature
        exact .call hsignature.symm
          ((forall₂_congr_of_mem fun e he τ => ih e he).mp harguments) hvoid
    · intro h
      cases h with
      | call hcallee harguments hvoid =>
        rw [hcallee] at hsignature
        obtain ⟨f, hf, heq⟩ := Option.map_eq_some_iff.mp hsignature
        obtain ⟨rfl, rfl⟩ := Prod.mk.inj heq
        exact .call hf ((forall₂_congr_of_mem fun e he τ => ih e he).mpr harguments) hvoid
          (Ty.ne_error_of_mem_nameable (ht.returns hf))
  | index p base position ih =>
    constructor
    · intro h
      cases h with
      | index hvar helement hposition =>
        -- The first judgement has one rule for arrays and strings, the second has two.
        rcases (Ty.element?_eq_some_iff (ht.varType hvar)).mp helement with harray | ⟨rfl, rfl⟩
        · exact .element (hΓ.varType _ ▸ hvar) harray (ih.mp hposition)
        · exact .charAt (hΓ.varType _ ▸ hvar) (ih.mp hposition)
    · intro h
      cases h with
      | element hvar harray hposition =>
        rw [← hΓ.varType] at hvar
        exact .index hvar ((Ty.element?_eq_some_iff (ht.varType hvar)).mpr (.inl harray))
          (ih.mpr hposition)
      | charAt hvar hposition =>
        rw [← hΓ.varType] at hvar
        exact .index hvar rfl (ih.mpr hposition)
  | length p operand ih =>
    constructor
    · intro h
      cases h with
      | length hoperand hτ =>
        exact .length ((ih.mp hoperand).relax fun hl => nomatch hl) hτ
    · intro h
      cases h with
      | length hoperand hτ =>
        -- A type that has a length is not `bool`, so the flag did not matter.
        refine .length (ih.mpr (hoperand.relax fun _ => .inr ?_)) hτ
        rintro rfl
        rcases hτ with hτ | hτ <;> cases hτ
  | paren p operand ih =>
    constructor
    · intro h
      cases h with | paren hoperand => exact .paren (ih.mp hoperand)
    · intro h
      cases h with | paren hoperand => exact .paren (ih.mpr hoperand)
  | negate p operand ih =>
    constructor
    · intro h
      cases h with | negate hoperand hτ => exact .negate (ih.mp hoperand) hτ
    · intro h
      cases h with | negate hoperand hτ => exact .negate (ih.mpr hoperand) hτ
  | binary p op lhs rhs ihl ihr =>
    constructor
    · intro h
      cases h with
      | arithmetic hop hlhs hrhs hτ => exact .arithmetic hop (ihl.mp hlhs) (ihr.mp hrhs) hτ
      | comparison hop hlhs hrhs hτ =>
        have hcompares := (comparable_eq_true_iff hop).mp hτ
        exact .comparison hop (ihl.mp hlhs) (ihr.mp hrhs) (.inl rfl) hcompares hcompares
    · intro h
      cases h with
      | arithmetic hop hlhs hrhs hτ => exact .arithmetic hop (ihl.mpr hlhs) (ihr.mpr hrhs) hτ
      | comparison hop hlhs hrhs hsame hτ _ =>
        -- Without the flag the two operands have the same type.
        obtain rfl := hsame.resolve_right Bool.false_ne_true
        exact .comparison hop (ihl.mpr hlhs) (ihr.mpr hrhs) ((comparable_eq_true_iff hop).mpr hτ)
  | array p elements ih =>
    constructor
    · intro h
      cases h with
      | array hne helements hτ =>
        exact .array hne (fun e he => (ih e he).mp (helements e he)) hτ
    · intro h
      cases h with
      | array hne helements hτ =>
        exact .array hne (fun e he => (ih e he).mpr (helements e he)) hτ
  | newArray p element size ih =>
    constructor
    · intro h
      cases h with | newArray hnamed hτ hsize => exact .newArray hnamed hτ (ih.mp hsize)
    · intro h
      cases h with | newArray hnamed hτ hsize => exact .newArray hnamed hτ (ih.mpr hsize)

/-- The checker gives an expression the type that the rules give it. -/
theorem typedAs_iff (ht : t.Nameable) (hΓ : t.Matches s Γ) {e : Expr L} {τ : Ty} :
    e.TypedAs Γ false τ ↔ e.typeIn t s = τ ∧ τ ≠ .error :=
  (hasType_iff_typedAs ht hΓ).symm.trans hasType_iff

end Expr

end Primer
