import Primer.Proofs.Machine.Locals

/-!
# Programs that fit into frames

The slots of a routine are counted with 16 bits and its labels with 32. What an item of an accepted
program needs of both can be read off its tree: slots for the types that it names, a label or two
for every conditional and loop, and two for every comparison (`Item.Drafted.inRange_iff`). So an
accepted program is assembled exactly if every item fits (`Program.assembles`), and is refused
because of an overflow otherwise.
-/

namespace Primer

open Machine

variable {L I : Type}

/-! ## Counting labels -/

mutual

/-- How many labels the code of an expression sets: two for each comparison. -/
def Expr.labelCount : Expr L → Nat
  | .int .. | .float .. | .bool .. | .char .. | .str .. | .read .. => 0
  | .call _ _ arguments => Expr.labelCountAll arguments
  | .index _ _ position => position.labelCount
  | .length _ operand | .paren _ operand | .negate _ operand => operand.labelCount
  | .binary _ op lhs rhs =>
    lhs.labelCount + rhs.labelCount + if op.isArithmetic then 0 else 2
  | .array _ elements => Expr.labelCountAll elements
  | .newArray _ _ size => size.labelCount

/-- How many labels the code of several expressions sets. -/
def Expr.labelCountAll : List (Expr L) → Nat
  | [] => 0
  | e :: es => e.labelCount + Expr.labelCountAll es

end

mutual

/-- How many labels the code of a statement sets. -/
def Stmt.labelCount : Stmt L I → Nat
  | .declare _ _ _ value | .ret _ _ value | .print _ _ value =>
    (value.map Expr.labelCount).getD 0
  | .assign _ _ value => value.labelCount
  | .assignAt _ _ position value => position.labelCount + value.labelCount
  | .ifThen _ condition yes => 1 + condition.labelCount + yes.labelCount
  | .ifElse _ condition yes no => 2 + condition.labelCount + yes.labelCount + no.labelCount
  | .loop _ condition body => 2 + condition.labelCount + body.labelCount
  | .call _ _ arguments => Expr.labelCountAll arguments

/-- How many labels the code of a block sets. -/
def Block.labelCount : Block L I → Nat
  | .mk _ statements => Block.labelCountAll statements

/-- How many labels the code of statements sets. -/
def Block.labelCountAll : List (Stmt L I) → Nat
  | [] => 0
  | st :: sts => st.labelCount + Block.labelCountAll sts

end

namespace Expr

variable {c : Context} {s : ScopeId}

private theorem nextLabel_emitAll_of {es : List (Expr L)}
    (ih : ∀ e ∈ es, ∀ f, (e.emit c s f).frame.nextLabel = f.nextLabel + e.labelCount) (f : Frame) :
    (emitAll c s es f).2.nextLabel = f.nextLabel + labelCountAll es := by
  induction es generalizing f with
  | nil => rfl
  | cons e es ihs =>
    have hrest := ihs (fun e he => ih e (List.mem_cons_of_mem _ he)) (e.emit c s f).frame
    rw [ih e List.mem_cons_self f, Nat.add_assoc] at hrest
    exact hrest

private theorem nextLabel_emitElements_of {es : List (Expr L)}
    (ih : ∀ e ∈ es, ∀ f, (e.emit c s f).frame.nextLabel = f.nextLabel + e.labelCount)
    (element : Element) (n : Nat) (f : Frame) :
    (emitElements c s element n es f).2.nextLabel = f.nextLabel + labelCountAll es := by
  induction es generalizing f n with
  | nil => rfl
  | cons e es ihs =>
    have hrest := ihs (fun e he => ih e (List.mem_cons_of_mem _ he)) (n + 1) (e.emit c s f).frame
    rw [ih e List.mem_cons_self f, Nat.add_assoc] at hrest
    exact hrest

theorem nextLabel_operator (op : BinOp) (type : Ty) (f : Frame) :
    (operator op type f).frame.nextLabel = f.nextLabel + if op.isArithmetic then 0 else 2 := by
  cases op <;> rfl

theorem exists_element_of_arrayOf? {τ σ : Ty} (h : τ.arrayOf? = some σ) :
    ∃ element, Element.ofTy? τ = some element := by
  cases τ <;> simp_all [Ty.arrayOf?, Element.ofTy?]

/-- An expression that has a type leaves no part out, so its labels can be counted on the tree. -/
theorem HasType.nextLabel_emit {e : Expr L} {τ : Ty} (h : e.HasType c.table s τ) (f : Frame) :
    (e.emit c s f).frame.nextLabel = f.nextLabel + e.labelCount := by
  induction e using Expr.inductionOn generalizing τ f with
  | int | float | bool | char | str => rfl
  -- A read may still take a slot, but the two counters are independent.
  | read p name => exact (Context.labelFree_load name.text f).1
  | call p callee arguments ih =>
    cases h with
    | call _ harguments _ _ =>
      refine nextLabel_emitAll_of (fun e he f => ?_) f
      obtain ⟨type, htype⟩ := exists_hasType_of_mem harguments he
      exact ih e he htype f
  | index p base position ih =>
    cases h with
    | index _ _ hposition =>
      refine (ih hposition (c.load s base.text f).frame).trans ?_
      rw [(Context.labelFree_load base.text f).1]
      rfl
  | length p operand ih => cases h with | length hoperand _ => exact ih hoperand f
  | paren p operand ih => cases h with | paren hoperand => exact ih hoperand f
  | negate p operand ih => cases h with | negate hoperand _ => exact ih hoperand f
  | binary p op lhs rhs ihl ihr =>
    -- Both rules type the two operands, and only a comparison hands out labels of its own.
    obtain ⟨τl, hlhs, τr, hrhs⟩ :
        ∃ τl, lhs.HasType c.table s τl ∧ ∃ τr, rhs.HasType c.table s τr := by
      cases h with
      | arithmetic _ hlhs hrhs _ => exact ⟨_, hlhs, _, hrhs⟩
      | comparison _ hlhs hrhs _ => exact ⟨_, hlhs, _, hrhs⟩
    refine (nextLabel_operator op _ _).trans ?_
    rw [ihr hrhs, ihl hlhs, labelCount]
    omega
  | array p elements ih =>
    cases h with
    | array hne helements hτ =>
      -- A typed array has a first element, so its code is not the empty one of an unknown type.
      obtain ⟨element, helement⟩ := exists_element_of_arrayOf? hτ
      rw [emit_array hne helements helement hτ]
      exact nextLabel_emitElements_of (fun e he f => ih e he (helements e he) f) element 0 f
  | newArray p element size ih => cases h with | newArray _ _ hsize => exact ih hsize f

theorem nextLabel_emitAll {es : List (Expr L)} (h : ∀ e ∈ es, ∃ τ, e.HasType c.table s τ)
    (f : Frame) : (emitAll c s es f).2.nextLabel = f.nextLabel + labelCountAll es := by
  refine nextLabel_emitAll_of (fun e he f => ?_) f
  obtain ⟨τ, hτ⟩ := h e he
  exact hτ.nextLabel_emit f

end Expr

section Statements

variable {c : Context} {m : ScopeMap} {returns : Option Ty}

mutual

/-- The labels of a well-typed statement. -/
theorem Stmt.Emits.nextLabel_eq {s : ScopeId} {f f' : Frame} {code : Code} :
    {st : Stmt L NodeId} → st.Emits c m s f code f' →
      st.WellTyped c.table m c.arguments returns s →
      f'.nextLabel = f.nextLabel + st.labelCount
  | _, .undeclared hnone, .declare hlocal _ _ => by
    -- A well-typed declaration has its symbol, so the code that skips it is never emitted.
    rw [hnone] at hlocal
    cases hlocal
  | _, .declare _, _ => Frame.nextLabel_slot f _ _
  | _, @Stmt.Emits.declareWith _ _ _ _ _ _ _ value _ x _, .declare _ _ hvalue => by
    obtain ⟨τ, hτ⟩ := (hvalue value rfl).hasType
    rw [hτ.nextLabel_emit, Frame.nextLabel_slot]
    rfl
  | _, .assign, .assign _ hvalue => by
    obtain ⟨τ, hτ⟩ := hvalue.hasType
    rw [(Context.labelFree_store _ _).1, hτ.nextLabel_emit]
    rfl
  | _, .assignAt h₁ h₂, .assignAt _ _ _ hposition hvalue => by
    subst h₁ h₂
    rw [hvalue.nextLabel_emit, hposition.nextLabel_emit, (Context.labelFree_load _ f).1,
      Stmt.labelCount, Nat.add_assoc]
  | _, .ifThen h₁ hyes, .ifThen hcondition hwell => by
    subst h₁
    rw [hyes.nextLabel_eq hwell, hcondition.nextLabel_emit, Stmt.labelCount]
    simp only [Frame.skipLabels]
    omega
  | _, .ifElse h₁ hyes hno, .ifElse hcondition hwellYes hwellNo => by
    subst h₁
    -- The second label is handed out between the two blocks.
    have hlast := hno.nextLabel_eq hwellNo
    simp only [Frame.skipLabels] at hlast
    rw [hlast, hyes.nextLabel_eq hwellYes, hcondition.nextLabel_emit, Stmt.labelCount]
    simp only [Frame.skipLabels]
    omega
  | _, .loop h₁ hbody, .loop hcondition hwell => by
    subst h₁
    rw [hbody.nextLabel_eq hwell, hcondition.nextLabel_emit, Stmt.labelCount]
    simp only [Frame.skipLabels]
    omega
  | _, .ret, _ => rfl
  | _, .newline, _ => rfl
  | _, .retValue, .retValue _ _ hvalue => by
    obtain ⟨τ, hτ⟩ := hvalue.hasType
    exact hτ.nextLabel_emit f
  | _, .print, .print hvalue _ _ => hvalue.nextLabel_emit f
  | _, .call _, .call _ hvalues _ _ =>
    Expr.nextLabel_emitAll (fun _ he => Expr.exists_hasType_of_mem hvalues he) f

theorem Block.Emits.nextLabel_eq {f f' : Frame} {code : Code} :
    {b : Block L NodeId} → b.Emits c m f code f' → b.WellTyped c.table m c.arguments returns →
      f'.nextLabel = f.nextLabel + b.labelCount
  | _, .mk hnode hsts, .mk hnode' hwell => by
    obtain rfl := Option.some.inj (hnode.symm.trans hnode')
    exact hsts.nextLabel_eq hwell

theorem Block.EmitsAll.nextLabel_eq {s : ScopeId} {f f' : Frame} {code : Code} :
    {sts : List (Stmt L NodeId)} → Block.EmitsAll c m s sts f code f' →
      (∀ st ∈ sts, Stmt.WellTyped c.table m c.arguments returns s st) →
      f'.nextLabel = f.nextLabel + Block.labelCountAll sts
  | _, .nil, _ => rfl
  | _, .cons hst hsts, hwell => by
    rw [hsts.nextLabel_eq fun st hm => hwell st (List.mem_cons_of_mem _ hm),
      hst.nextLabel_eq (hwell _ List.mem_cons_self), Block.labelCountAll, Nat.add_assoc]

end

end Statements

/-! ## Items -/

namespace Item

/-- The types in the header of an item. An entry point is given the command line. -/
def headerTypes : Item L I → List Ty
  | .function f => f.parameters.map fun p => (Ty.named? p.type.text).getD .error
  | .main _ => Signature.ofMain.parameters

/-- How many slots an item needs. -/
def slotCount (i : Item L I) : Nat :=
  slotsOf i.headerTypes + slotsOf i.declaredTypes

/-- How many labels an item needs. -/
def labelCount : Item L I → Nat
  | .function f => (f.body.map Block.labelCount).getD 0
  | .main e => e.body.labelCount

/-- The slots of an item can be counted with 16 bits and its labels with 32. -/
structure FitsFrame (i : Item L I) : Prop where
  slots : i.slotCount ≤ 65535
  labels : i.labelCount ≤ 4294967295

instance (i : Item L I) : Decidable i.FitsFrame :=
  decidable_of_iff (i.slotCount ≤ 65535 ∧ i.labelCount ≤ 4294967295)
    ⟨fun h => ⟨h.1, h.2⟩, fun h => ⟨h.1, h.2⟩⟩

end Item

/-- Every item of the program fits. -/
def Program.FitsFrames (p : Program L) : Prop :=
  ∀ i ∈ p.items, i.FitsFrame

instance (p : Program L) : Decidable p.FitsFrames :=
  inferInstanceAs (Decidable (∀ i ∈ p.items, i.FitsFrame))

section Accepted

variable {p : Program Location} {a : Analysis}

/-- The signature of an item that was analyzed and accepted has the types of its header. -/
private theorem Item.headerTypes_eq (hp : p.Distinct) (ha : p.analyze = .ok a)
    (haccepted : a.isAccepted = true) {i : Item Location NodeId} (hi : i ∈ p.items)
    {o : Outline Location} (ho : i.outline? a.table a.scopes = some o) :
    o.signature.parameters = i.headerTypes ∧ o.body.labelCount = i.labelCount := by
  obtain ⟨k, hk⟩ := Item.exists_mem_numbered (k := 0) hi
  cases i with
  | function f =>
    obtain ⟨body, s, returns, types, hf, -⟩ := Program.wellTyped_function hp ha haccepted hk
    obtain rfl := Option.some.inj (ho.symm.trans hf.outline?_eq)
    have htypes := congrArg (List.map fun type => type.getD Ty.error) hf.types_named
    simp only [List.map_map, Function.comp_def, Option.getD_some, List.map_id'] at htypes
    exact ⟨htypes.symm, by simp [Item.labelCount, hf.body_eq]⟩
  | main e =>
    obtain ⟨s, he, -⟩ := Program.wellTyped_main hp ha haccepted hk
    obtain rfl := Option.some.inj (ho.symm.trans he.outline?_eq)
    exact ⟨rfl, rfl⟩

/-- The counts at the end of an item are those of its tree. -/
theorem Item.Drafted.inRange_iff (hp : p.Distinct) (ha : p.analyze = .ok a)
    (haccepted : a.isAccepted = true) {i : Item Location NodeId} (hi : i ∈ p.items) {r : Routine}
    {f : Frame} (h : i.Drafted a.table a.scopes r f) : f.InRange ↔ i.FitsFrame := by
  obtain ⟨o, code, ho, hyields⟩ := h.yields
  obtain ⟨o', ho', -, hassembled⟩ := h.assembled
  -- Both outlines are those of the same item.
  obtain rfl := Option.some.inj (ho.symm.trans ho')
  obtain ⟨htypes, hlabels⟩ := Item.headerTypes_eq hp ha haccepted hi ho
  -- The slots are those of the header and of the declared variables, which the source text fixes.
  have hslot : f.nextSlot = i.slotCount := by
    rw [← hyields.slots, Item.slots_of_isAccepted hp ha haccepted hi ho hyields, hyields.signature,
      Signature.argumentSlots, htypes, Item.slotCount]
  have hlabel : f.nextLabel = i.labelCount := by
    -- The labels are counted along the body, starting from a frame that has handed out none.
    obtain ⟨returns, -, hwell⟩ := hassembled.wellTyped
    have hcount := hyields.emits.nextLabel_eq hwell
    rw [hlabels] at hcount
    exact hcount.trans (Nat.zero_add _)
  unfold Frame.InRange
  rw [hslot, hlabel]
  exact ⟨fun h => ⟨h.1, h.2⟩, fun h => ⟨h.slots, h.labels⟩⟩

/-- An item that fits has a routine. -/
theorem Item.exists_emit?_of_fits (hp : p.Distinct) (ha : p.analyze = .ok a)
    (haccepted : a.isAccepted = true) {i : Item Location NodeId} (hi : i ∈ p.items)
    (hfits : i.FitsFrame) : ∃ r, i.emit? a.table a.scopes = .ok (some r) := by
  obtain ⟨r, f, hdrafted⟩ := Program.exists_drafted hp ha haccepted hi
  rw [hdrafted.emit?_eq, Frame.finish, if_pos ((hdrafted.inRange_iff hp ha haccepted hi).mpr hfits)]
  exact ⟨r, rfl⟩

/-! ## Programs -/

/-- The program is assembled, to a unit with a property, exactly if it fits into frames. -/
structure Analysis.Assembles (a : Analysis) (p : Program L) (name : String)
    (P : CodeUnit → Prop) : Prop where
  fits : p.FitsFrames → ∃ u, a.codeUnit p name = .ok u ∧ P u
  overflows : ¬ p.FitsFrames → a.codeUnit p name = .error (.fault .frameOverflow)

private theorem Item.mapM_emit?_of_fits (hp : p.Distinct) (ha : p.analyze = .ok a)
    (haccepted : a.isAccepted = true) (items : List (Item Location NodeId))
    (hitems : ∀ i ∈ items, i ∈ p.items) :
    ((∀ i ∈ items, i.FitsFrame) → ∃ rs, items.mapM (·.emit? a.table a.scopes) = .ok rs) ∧
      (¬ (∀ i ∈ items, i.FitsFrame) →
        items.mapM (·.emit? a.table a.scopes) = .error .frameOverflow) := by
  induction items with
  | nil => exact ⟨fun _ => ⟨[], rfl⟩, fun h => absurd (fun i hi => absurd hi List.not_mem_nil) h⟩
  | cons i items ih =>
    obtain ⟨ihfits, ihover⟩ := ih fun j hj => hitems j (List.mem_cons_of_mem _ hj)
    have hi := hitems i List.mem_cons_self
    obtain ⟨r, f, hdrafted⟩ := Program.exists_drafted hp ha haccepted hi
    have hrange := hdrafted.inRange_iff hp ha haccepted hi
    rw [List.mapM_cons, hdrafted.emit?_eq, Frame.finish, List.forall_mem_cons]
    -- The first item that does not fit stops the assembly.
    by_cases hfit : i.FitsFrame
    · rw [if_pos (hrange.mpr hfit)]
      constructor
      · rintro ⟨-, hrest⟩
        obtain ⟨rs, hrs⟩ := ihfits hrest
        exact ⟨some r :: rs, by rw [hrs]; rfl⟩
      · intro hnot
        rw [ihover fun hrest => hnot ⟨hfit, hrest⟩]
        rfl
    · rw [if_neg fun h => hfit (hrange.mp h)]
      exact ⟨fun h => absurd h.1 hfit, fun _ => rfl⟩

/-- Whether an accepted program fits decides whether it has machine code. -/
theorem Program.emit_of_fits (hp : p.Distinct) (ha : p.analyze = .ok a)
    (haccepted : a.isAccepted = true) (name : String) :
    (p.FitsFrames → ∃ u, p.emit a.table a.scopes name = .ok u) ∧
      (¬p.FitsFrames → p.emit a.table a.scopes name = .error .frameOverflow) := by
  obtain ⟨hfits, hover⟩ := Item.mapM_emit?_of_fits hp ha haccepted p.items fun i hi => hi
  unfold Program.emit
  constructor
  · intro hfit
    obtain ⟨rs, hrs⟩ := hfits hfit
    exact ⟨_, by rw [hrs]; rfl⟩
  · intro hnot
    rw [hover hnot]
    rfl

/-- What holds of every unit of an accepted program holds of the one to which it is assembled if it
fits. -/
theorem Program.assembles (hp : p.Distinct) (ha : p.analyze = .ok a)
    (haccepted : a.isAccepted = true) (name : String) {P : CodeUnit → Prop}
    (h : ∀ u, a.codeUnit p name = .ok u → P u) : a.Assembles p name P := by
  obtain ⟨hfits, hover⟩ := Program.emit_of_fits hp ha haccepted name
  have hunit : a.codeUnit p name = _ := Analysis.ifAccepted_eq haccepted _
  constructor
  · intro hfit
    obtain ⟨u, hu⟩ := hfits hfit
    rw [hu] at hunit
    exact ⟨u, hunit, h u hunit⟩
  · intro hnot
    rw [hunit, hover hnot]
    rfl

end Accepted

end Primer
