import Primer.Proofs.Machine.Emission
import Primer.Proofs.Typing.Agreement

/-!
# The code of well-typed expressions

If an expression has a type, emission leaves no instruction out, and the code of each form of
expression is known exactly. Fresh arrays are only stored directly (`Stmt.newsStored`), because
anywhere else checker and emitter disagree on their type.
-/

namespace Primer

open Machine

variable {L I : Type}

/-! ## Where fresh arrays stand -/

mutual

/-- Whether no fresh array occurs in an expression. -/
def Expr.isNewFree : Expr L → Bool
  | .int .. | .float .. | .bool .. | .char .. | .str .. | .read .. => true
  | .call _ _ arguments => Expr.areNewFree arguments
  | .index _ _ position => position.isNewFree
  | .length _ operand | .paren _ operand | .negate _ operand => operand.isNewFree
  | .binary _ _ lhs rhs => lhs.isNewFree && rhs.isNewFree
  | .array _ elements => Expr.areNewFree elements
  | .newArray .. => false

/-- Whether no fresh array occurs in any of the expressions. -/
def Expr.areNewFree : List (Expr L) → Bool
  | [] => true
  | e :: es => e.isNewFree && Expr.areNewFree es

end

/-- Whether a fresh array occurs in a stored expression only as the whole of it. -/
def Expr.isNewOnlyWhole : Expr L → Bool
  | .newArray _ _ size => size.isNewFree
  | e => e.isNewFree

mutual

/-- Whether fresh arrays occur only where they are stored: as the whole initializer, as the whole
value that is assigned to a variable, or as the whole value that is returned. -/
def Stmt.newsStored : Stmt L I → Bool
  | .declare _ _ _ value | .ret _ _ value => value.all Expr.isNewOnlyWhole
  | .assign _ _ value => value.isNewOnlyWhole
  | .assignAt _ _ position value => position.isNewFree && value.isNewFree
  | .ifThen _ condition yes => condition.isNewFree && yes.newsStored
  | .ifElse _ condition yes no => condition.isNewFree && (yes.newsStored && no.newsStored)
  | .loop _ condition body => condition.isNewFree && body.newsStored
  | .print _ _ value => value.all Expr.isNewFree
  | .call _ _ arguments => Expr.areNewFree arguments

/-- Whether fresh arrays occur in a block only where they are stored. -/
def Block.newsStored : Block L I → Bool
  | .mk _ statements => Block.newsStoredAll statements

/-- Whether fresh arrays occur in statements only where they are stored. -/
def Block.newsStoredAll : List (Stmt L I) → Bool
  | [] => true
  | st :: sts => st.newsStored && Block.newsStoredAll sts

end

/-- Whether fresh arrays occur in an item only where they are stored. -/
def Item.newsStored : Item L I → Bool
  | .function f => f.body.all Block.newsStored
  | .main e => e.body.newsStored

/-- Whether fresh arrays occur in a program only where they are stored. -/
def Program.newsStored (p : Program L) : Bool :=
  p.items.all Item.newsStored

theorem Expr.isNewFree_of_mem {es : List (Expr L)} (h : Expr.areNewFree es = true) :
    ∀ e ∈ es, e.isNewFree = true := by
  induction es with
  | nil => exact fun e he => absurd he List.not_mem_nil
  | cons first rest ih =>
    obtain ⟨hfirst, hrest⟩ := Bool.and_eq_true_iff.mp h
    intro e he
    rcases List.mem_cons.mp he with rfl | he
    · exact hfirst
    · exact ih hrest e he

theorem Expr.leadsToNew_of_isNewFree {e : Expr L} (h : e.isNewFree = true) :
    e.leadsToNew = false := by
  induction e using Expr.inductionOn with
  | paren p operand ih | negate p operand ih => exact ih h
  | binary p op lhs rhs ihl _ =>
    simp [leadsToNew, ihl (Bool.and_eq_true_iff.mp h).1]
  | newArray => cases h
  | _ => rfl

theorem Expr.emit_type_of_isNewFree {c : Context} {s : ScopeId} {e : Expr L} {τ : Ty}
    (h : e.HasType c.table s τ) (hnew : e.isNewFree = true) (f : Frame) :
    (e.emit c s f).type = τ := by
  rw [Expr.emit_type h f, Expr.emittedType, Expr.leadsToNew_of_isNewFree hnew]
  rfl

/-- What holds of each argument of a call and its type. -/
theorem Expr.forall₂_of_hasType {t : Table} {s : ScopeId} {es : List (Expr L)} {types : List Ty}
    {R : Expr L → Ty → Prop} (h : List.Forall₂ (Expr.HasType t s) es types) (hvoid : .void ∉ types)
    (hR : ∀ e ∈ es, ∀ τ, e.HasType t s τ → τ ≠ .void → R e τ) : List.Forall₂ R es types := by
  induction h with
  | nil => exact .nil
  | @cons e τ es types he _ ih =>
    rw [List.mem_cons, not_or] at hvoid
    exact .cons (hR e List.mem_cons_self τ he (Ne.symm hvoid.1))
      (ih hvoid.2 fun e he => hR e (List.mem_cons_of_mem _ he))

/-- A stored value is the declared one, or a fresh array of the declared type. -/
theorem Expr.StoredAs.cases {t : Table} {s : ScopeId} {e : Expr L} {declared : Ty}
    (h : e.StoredAs t s declared) (hnew : e.isNewOnlyWhole = true) :
    (e.isNewFree = true ∧ e.HasType t s declared ∧ declared ≠ .void) ∨
      ∃ p element size τ, e = .newArray p element size ∧ size.isNewFree = true ∧
        size.HasType t s .int ∧ Ty.named? element.text = some τ ∧ τ.arrayOf? = some declared := by
  obtain ⟨found, hfound, hvoid, hstorable⟩ := h
  unfold Expr.storableAs at hstorable
  -- Only a fresh array is stored under a type that is not its own.
  split_ifs at hstorable with hisNew
  · cases hfound with
    | @newArray p element size τ hnamed hscalar hsize =>
      refine .inr ⟨p, element, size, found, rfl, hnew, hsize, hnamed, ?_⟩
      simp only [Bool.and_eq_true, decide_eq_true_eq] at hstorable
      obtain ⟨harray, helement⟩ := hstorable
      -- Among the types only the arrays have an element.
      cases declared <;> simp_all [Ty.isArray, Ty.element?] <;> subst helement <;> rfl
    | _ => cases hisNew
  · have hsame : declared = found := by simpa using hstorable
    subst hsame
    refine .inl ⟨?_, hfound, hvoid⟩
    cases e with
    | newArray => exact absurd rfl hisNew
    | _ => exact hnew

/-! ## Kinds of operands -/

theorem Ty.ne_void_of_comparable {op : BinOp} {τ : Ty} (h : Typed.comparable op τ = true) :
    τ ≠ .void := by
  rintro rfl
  cases h

theorem Ty.ofTy_of_hasLength {τ : Ty} (h : τ = .string ∨ τ.isArray = true) :
    Kind.ofTy τ = .ref ∧ τ ≠ .void := by
  cases τ <;> simp_all [Ty.isArray, Kind.ofTy]

theorem Ty.ofTy_of_element? {τ element : Ty} (h : τ.element? = some element) :
    Kind.ofTy τ = .ref ∧ element ≠ .void := by
  cases τ <;> simp_all [Ty.element?] <;> subst h <;> exact ⟨rfl, by decide⟩

theorem Ty.exists_element_of_isArray {τ element : Ty} (harray : τ.isArray = true)
    (h : τ.element? = some element) : ∃ e, Element.ofTy? element = some e := by
  cases τ <;> simp_all [Ty.isArray, Ty.element?] <;> subst h <;> exact ⟨_, rfl⟩

theorem Ty.ofTy_of_arrayOf? {τ σ : Ty} (h : τ.arrayOf? = some σ) :
    Kind.ofTy σ = .ref ∧ τ ≠ .void := by
  cases τ <;> simp_all [Ty.arrayOf?] <;> subst h <;> rfl

/-! ## Code without omissions -/

namespace Machine

/-- Where a variable is kept, and the frame afterwards. -/
def Context.place (c : Context) (x : SymbolId) (f : Frame) : Storage × Frame :=
  match c.arguments.idxOf? x with
  | some position => (.argument position, f)
  | none => (.slot (f.slot x (c.table.typeOf x)).1, (f.slot x (c.table.typeOf x)).2)

variable {c : Context} {s : ScopeId} {name : String} {x : SymbolId}

theorem Context.storage?_eq (h : c.table.resolve s name = some x) (f : Frame) :
    c.storage? s name f = (some ((c.place x f).1, c.table.typeOf x), (c.place x f).2) := by
  unfold storage? place
  simp only [h]
  cases c.arguments.idxOf? x <;> rfl

theorem Context.load_eq (h : c.table.resolve s name = some x) (f : Frame) :
    c.load s name f = ⟨c.table.typeOf x, [(c.place x f).1.load (Kind.ofTy (c.table.typeOf x))],
      (c.place x f).2⟩ := by
  unfold load
  rw [storage?_eq h]

theorem Context.store_eq (h : c.table.resolve s name = some x) (f : Frame) :
    c.store s name f =
      ([(c.place x f).1.store (Kind.ofTy (c.table.typeOf x))], (c.place x f).2) := by
  unfold store
  rw [storage?_eq h]

/-- A character is taken from a string, and anything else from an array of such. -/
theorem elementOf_cases {base element : Ty} (hbase : base ∈ Ty.nameable)
    (h : base.element? = some element) :
    (base = .string ∧ element = .char ∧ elementOf base = (.char, [.charAt])) ∨
      (base ≠ .string ∧ ∃ e, Element.ofTy? element = some e ∧
        elementOf base = (element, [.arrayLoad e])) := by
  cases base <;> simp_all [Ty.element?, Ty.nameable, elementOf] <;> subst h <;>
    simp [Element.ofTy?]

end Machine

namespace Expr

variable {c : Context} {s : ScopeId}

theorem emit_call {p : L} {callee : Name L} {arguments : List (Expr L)} {g : FunctionSymbol}
    (hcallee : c.table.callee? s callee.text = some g)
    (hlength : g.parameters.length = arguments.length) (f : Frame) :
    (Expr.call p callee arguments).emit c s f =
      ⟨g.returns, (emitAll c s arguments f).1 ++ [.call callee.text (signatureOf c.table g)],
        (emitAll c s arguments f).2⟩ := by
  simp [emit, callOf, hcallee, hlength]

theorem emit_array {p : L} {elements : List (Expr L)} {τ σ : Ty} {e : Element}
    (hne : elements ≠ []) (helements : ∀ e ∈ elements, e.HasType c.table s τ)
    (he : Element.ofTy? τ = some e) (hτ : τ.arrayOf? = some σ) (f : Frame) :
    (Expr.array p elements).emit c s f =
      ⟨σ, [.push (.int elements.length), .newArray e] ++ (emitElements c s e 0 elements f).1,
        (emitElements c s e 0 elements f).2⟩ := by
  obtain ⟨first, rest, rfl⟩ := List.exists_cons_of_ne_nil hne
  have hfirst : first.typeIn c.table s = τ :=
    (hasType_iff.mp (helements first List.mem_cons_self)).1
  simp [emit, hfirst, he, hτ]

theorem emit_newArray {p : L} {element : Name L} {size : Expr L} {τ σ : Ty} {e : Element}
    (hnamed : Ty.named? element.text = some τ) (he : Element.ofTy? τ = some e)
    (hτ : τ.arrayOf? = some σ) (f : Frame) :
    (Expr.newArray p element size).emit c s f =
      ⟨σ, (size.emit c s f).code ++ [.newArray e], (size.emit c s f).frame⟩ := by
  simp [emit, hnamed, he, hτ]

end Expr

end Primer
