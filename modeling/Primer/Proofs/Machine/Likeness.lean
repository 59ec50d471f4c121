import Primer.Proofs.Analysis.Likeness
import Primer.Proofs.Machine.Emission
import Mathlib.Data.List.Forall2

/-!
# Code does not depend on numbers

Emission addresses variables by their symbols and gives them slots as they are met. With a renaming
between two tables (`Table.Renaming`) and frames that give the same slots to related variables, a
tree is emitted to the same code, and the frames stay alike.
-/

namespace Primer

open Machine

variable {L : Type} {R : SymbolId → SymbolId → Prop}

namespace Machine

/-! ## Frames -/

/-- Frames that give the same slots to related variables. -/
structure Frame.Alike (R : SymbolId → SymbolId → Prop) (f f' : Frame) : Prop where
  locals : List.Forall₂ (fun x x' => R x.1 x'.1 ∧ x.2 = x'.2) f.locals f'.locals
  nextSlot : f.nextSlot = f'.nextSlot
  nextLabel : f.nextLabel = f'.nextLabel

/-- Contexts whose tables are renamed and whose arguments are related. -/
structure Context.Alike (R : SymbolId → SymbolId → Prop) (c c' : Context) : Prop where
  symbols : c.table.Renaming c'.table R
  arguments : List.Forall₂ R c.arguments c'.arguments

theorem beq_eq_of_biUnique (hR : Relator.BiUnique R) {x x' y y' : SymbolId} (hx : R x x')
    (hy : R y y') : (x == y) = (x' == y') := by
  by_cases h : x = y
  · subst h
    rw [hR.2 hx hy]
    simp
  · have h' : x' ≠ y' := fun he => h (hR.1 hx (he ▸ hy))
    rw [beq_eq_false_iff_ne.mpr h, beq_eq_false_iff_ne.mpr h']

namespace Frame.Alike

variable {f f' : Frame} {x x' : SymbolId}

theorem start (n : Nat) : Frame.Alike R (.start n) (.start n) := ⟨.nil, rfl, rfl⟩

theorem skipLabels (h : Frame.Alike R f f') (n : Nat) :
    Frame.Alike R (f.skipLabels n) (f'.skipLabels n) :=
  ⟨h.locals, h.nextSlot, congrArg (· + n) h.nextLabel⟩

theorem label_eq (h : Frame.Alike R f f') : f.label = f'.label :=
  congrArg Label.mk h.nextLabel

/-- Both frames overflow, or none. -/
theorem finish_eq (h : Frame.Alike R f f') {α : Type} (made : α) :
    f.finish made = f'.finish made := by
  have hrange : f.InRange ↔ f'.InRange := by
    rw [Frame.InRange, Frame.InRange, h.nextSlot, h.nextLabel]
  exact if_congr hrange rfl rfl

theorem lookup_eq (hR : Relator.BiUnique R) (h : Frame.Alike R f f') (hx : R x x') :
    f.locals.lookup x = f'.locals.lookup x' := by
  have hlocals := h.locals
  generalize f.locals = locals at hlocals
  generalize f'.locals = locals' at hlocals
  induction hlocals with
  | nil => rfl
  | cons hy _ ih =>
    rw [List.lookup_cons, List.lookup_cons, beq_eq_of_biUnique hR hx hy.1, hy.2, ih]

/-- Related variables get the same slot. -/
theorem slot (hR : Relator.BiUnique R) (h : Frame.Alike R f f') (hx : R x x') (τ : Ty) :
    (f.slot x τ).1 = (f'.slot x' τ).1 ∧ Frame.Alike R (f.slot x τ).2 (f'.slot x' τ).2 := by
  unfold Frame.slot
  rw [h.lookup_eq hR hx]
  cases f'.locals.lookup x' with
  | some n => exact ⟨rfl, h⟩
  | none =>
    exact ⟨h.nextSlot, .cons ⟨hx, h.nextSlot⟩ h.locals, congrArg (· + _) h.nextSlot, h.nextLabel⟩

end Frame.Alike

theorem idxOf?_eq (hR : Relator.BiUnique R) {x x' : SymbolId} {xs xs' : List SymbolId}
    (hx : R x x') (h : List.Forall₂ R xs xs') : xs.idxOf? x = xs'.idxOf? x' := by
  induction h with
  | nil => rfl
  | cons hy _ ih =>
    rw [List.idxOf?_cons, List.idxOf?_cons, beq_eq_of_biUnique hR hy hx, ih]

/-! ## Variables -/

/-- The same code for a value of the same type, and frames that are alike. -/
structure Emitted.Alike (R : SymbolId → SymbolId → Prop) (x x' : Emitted) : Prop where
  type : x.type = x'.type
  code : x.code = x'.code
  frame : Frame.Alike R x.frame x'.frame

/-- The same code, and frames that are alike. -/
structure AlikeCode (R : SymbolId → SymbolId → Prop) (x x' : Code × Frame) : Prop where
  code : x.1 = x'.1
  frame : Frame.Alike R x.2 x'.2

section Variables

variable {c c' : Context} {s s' : ScopeId} {f f' : Frame}

theorem Context.Alike.storage? (hc : Context.Alike R c c')
    (h : Table.Alike R c.table c'.table s s') (hf : Frame.Alike R f f') (name : String) :
    (c.storage? s name f).1 = (c'.storage? s' name f').1 ∧
      Frame.Alike R (c.storage? s name f).2 (c'.storage? s' name f').2 := by
  unfold Context.storage?
  rcases (h.resolve name).none_or_some with ⟨hx, hx'⟩ | ⟨x, x', hx, hx', hxx⟩
  · rw [hx, hx']
    exact ⟨rfl, hf⟩
  · rw [hx, hx']
    simp only [idxOf?_eq hc.symbols.unique hxx hc.arguments, hc.symbols.typeOf_eq hxx]
    cases c'.arguments.idxOf? x' with
    | some position => exact ⟨rfl, hf⟩
    | none =>
      obtain ⟨hslot, hframe⟩ := hf.slot hc.symbols.unique hxx (c'.table.typeOf x')
      exact ⟨by rw [hslot], hframe⟩

theorem Context.Alike.load (hc : Context.Alike R c c') (h : Table.Alike R c.table c'.table s s')
    (hf : Frame.Alike R f f') (name : String) :
    Emitted.Alike R (c.load s name f) (c'.load s' name f') := by
  obtain ⟨hstorage, hframe⟩ := hc.storage? h hf name
  unfold Context.load
  generalize c.storage? s name f = x at hstorage hframe
  generalize c'.storage? s' name f' = x' at hstorage hframe
  obtain ⟨x, g⟩ := x
  obtain ⟨x', g'⟩ := x'
  obtain rfl : x = x' := hstorage
  cases x with
  | none => exact ⟨rfl, rfl, hframe⟩
  | some x => exact ⟨rfl, rfl, hframe⟩

theorem Context.Alike.store (hc : Context.Alike R c c') (h : Table.Alike R c.table c'.table s s')
    (hf : Frame.Alike R f f') (name : String) :
    AlikeCode R (c.store s name f) (c'.store s' name f') := by
  obtain ⟨hstorage, hframe⟩ := hc.storage? h hf name
  unfold Context.store
  generalize c.storage? s name f = x at hstorage hframe
  generalize c'.storage? s' name f' = x' at hstorage hframe
  obtain ⟨x, g⟩ := x
  obtain ⟨x', g'⟩ := x'
  obtain rfl : x = x' := hstorage
  cases x with
  | none => exact ⟨rfl, hframe⟩
  | some x => exact ⟨rfl, hframe⟩

theorem operator_alike (op : BinOp) (τ : Ty) (hf : Frame.Alike R f f') :
    Emitted.Alike R (operator op τ f) (operator op τ f') := by
  unfold operator
  cases operation op with
  | inl arithmetic => exact ⟨rfl, rfl, hf⟩
  | inr condition =>
    exact ⟨rfl, by rw [hf.label_eq, (hf.skipLabels 1).label_eq], hf.skipLabels 2⟩

/-- A call has the same type and signature. -/
theorem callOf_congr {t t' : Table} (hR : t.Renaming t' R) (h : Table.Alike R t t' s s')
    (callee : String) (arguments : Nat) :
    callOf t s callee arguments = callOf t' s' callee arguments := by
  unfold callOf
  rcases (h.callee? hR callee).none_or_some with ⟨hg, hg'⟩ | ⟨g, g', hg, hg', hgg⟩
  · rw [hg, hg']
  · rw [hg, hg']
    simp only [hgg.length_parameters, hgg.returns, signatureOf, hgg.parameters]

end Variables

end Machine

/-! ## Expressions -/

section Expressions

variable {c c' : Context} {s s' : ScopeId}

private theorem Expr.emitAll_alike_of {es : List (Expr L)}
    (ih : ∀ e ∈ es, ∀ f f', Frame.Alike R f f' →
      Emitted.Alike R (e.emit c s f) (e.emit c' s' f'))
    {f f' : Frame} (hf : Frame.Alike R f f') :
    AlikeCode R (Expr.emitAll c s es f) (Expr.emitAll c' s' es f') := by
  induction es generalizing f f' with
  | nil => exact ⟨rfl, hf⟩
  | cons e es ihs =>
    have hfirst := ih e List.mem_cons_self f f' hf
    have hrest := ihs (fun e he => ih e (List.mem_cons_of_mem _ he)) hfirst.frame
    exact ⟨congrArg₂ _ hfirst.code hrest.code, hrest.frame⟩

private theorem Expr.emitElements_alike_of {element : Element} {es : List (Expr L)}
    (ih : ∀ e ∈ es, ∀ f f', Frame.Alike R f f' →
      Emitted.Alike R (e.emit c s f) (e.emit c' s' f'))
    (position : Nat) {f f' : Frame} (hf : Frame.Alike R f f') :
    AlikeCode R (Expr.emitElements c s element position es f)
      (Expr.emitElements c' s' element position es f') := by
  induction es generalizing position f f' with
  | nil => exact ⟨rfl, hf⟩
  | cons e es ihs =>
    have hfirst := ih e List.mem_cons_self f f' hf
    have hrest := ihs (fun e he => ih e (List.mem_cons_of_mem _ he)) (position + 1) hfirst.frame
    exact ⟨by simp only [Expr.emitElements, hfirst.code, hrest.code], hrest.frame⟩

/-- An expression is emitted to the same code in scopes that are alike. -/
theorem Expr.emit_alike (hc : Context.Alike R c c') (h : Table.Alike R c.table c'.table s s')
    (e : Expr L) {f f' : Frame} (hf : Frame.Alike R f f') :
    Emitted.Alike R (e.emit c s f) (e.emit c' s' f') := by
  induction e using Expr.inductionOn generalizing f f' with
  | int | float | bool | char | str => exact ⟨rfl, rfl, hf⟩
  | read p name => exact hc.load h hf name.text
  | call p callee arguments ih =>
    -- The callee is found by name, so the related tables answer with the same signature.
    have harguments := Expr.emitAll_alike_of (fun e he f f' => ih e he) hf
    have hcall := callOf_congr hc.symbols h callee.text arguments.length
    exact ⟨by simp only [Expr.emit, hcall], by simp only [Expr.emit, hcall, harguments.code],
      harguments.frame⟩
  | index p base position ih =>
    have hbase := hc.load h hf base.text
    have hposition := ih hbase.frame
    exact ⟨by simp only [Expr.emit, hbase.type],
      by simp only [Expr.emit, hbase.type, hbase.code, hposition.code], hposition.frame⟩
  | length p operand ih =>
    have hoperand := ih hf
    exact ⟨rfl, by simp only [Expr.emit, hoperand.code, hoperand.type], hoperand.frame⟩
  | paren p operand ih => exact ih hf
  | negate p operand ih =>
    have hoperand := ih hf
    exact ⟨hoperand.type, by simp only [Expr.emit, hoperand.code, hoperand.type],
      hoperand.frame⟩
  | binary p op lhs rhs ihl ihr =>
    have hlhs := ihl hf
    -- The right operand starts in the frame that the left one has left.
    have hrhs := ihr hlhs.frame
    have hoperator := operator_alike op (lhs.emit c' s' f').type hrhs.frame
    exact ⟨by simp only [Expr.emit, hlhs.type, hoperator.type],
      by simp only [Expr.emit, hlhs.type, hlhs.code, hrhs.code, hoperator.code],
      by simpa only [Expr.emit, hlhs.type] using hoperator.frame⟩
  | array p elements ih =>
    -- The element type is the one of the first element, read off the two tables before any code.
    have htype : (elements.head?.map (·.typeIn c.table s)) =
        elements.head?.map (·.typeIn c'.table s') :=
      Option.map_congr fun e _ => e.typeIn_congr hc.symbols h
    simp only [Expr.emit, htype]
    cases Element.ofTy? ((elements.head?.map (·.typeIn c'.table s')).getD .error) with
    | none => exact ⟨rfl, rfl, hf⟩
    | some element =>
      have helements : AlikeCode R (Expr.emitElements c s element 0 elements f)
          (Expr.emitElements c' s' element 0 elements f') :=
        Expr.emitElements_alike_of (fun e he f f' => ih e he) 0 hf
      exact ⟨rfl, by simp only [helements.code], helements.frame⟩
  | newArray p element size ih =>
    have hsize := ih hf
    exact ⟨rfl, by simp only [Expr.emit, hsize.code], hsize.frame⟩

theorem Expr.emitAll_alike (hc : Context.Alike R c c') (h : Table.Alike R c.table c'.table s s')
    (es : List (Expr L)) {f f' : Frame} (hf : Frame.Alike R f f') :
    AlikeCode R (Expr.emitAll c s es f) (Expr.emitAll c' s' es f') :=
  Expr.emitAll_alike_of (fun e _ _ _ => e.emit_alike hc h) hf

end Expressions

/-! ## Statements -/

section Statements

variable {c c' : Context} {m m' : ScopeMap}

mutual

/-- A statement is emitted to the same code in scopes that are alike. -/
theorem Stmt.Emits.alike {s s' : ScopeId} {f f' g : Frame} {code : Code} {st : Stmt L NodeId}
    (hc : Context.Alike R c c') (hst : st.Emits c m s f code g)
    (h : Table.Alike R c.table c'.table s s')
    (hnodes : ∀ node ∈ st.nodes, Table.AlikeAt R c.table c'.table m m' node)
    (hf : Frame.Alike R f f') : ∃ g', st.Emits c' m' s' f' code g' ∧ Frame.Alike R g g' := by
  cases hst with
  | @undeclared _ p type name value _ hlocal =>
    -- Related scopes declare the same names, so the second one does not know the name either.
    rcases (h.localResolve name.text).none_or_some with ⟨-, hx'⟩ | ⟨x, x', hx, -, -⟩
    · exact ⟨f', .undeclared hx', hf⟩
    · cases hlocal.symm.trans hx
  | @declare _ p type name _ x hlocal =>
    obtain ⟨x', hx', hxx⟩ := h.exists_localResolve hlocal
    rw [hc.symbols.typeOf_eq hxx]
    exact ⟨_, .declare hx', (hf.slot hc.symbols.unique hxx _).2⟩
  | @declareWith _ p type name value _ x hlocal =>
    obtain ⟨x', hx', hxx⟩ := h.exists_localResolve hlocal
    -- The two variables are in the same slot, though their symbols may differ.
    obtain ⟨hslot, hframe⟩ := hf.slot hc.symbols.unique hxx (c'.table.typeOf x')
    have hvalue := value.emit_alike hc h hframe
    rw [hc.symbols.typeOf_eq hxx, hslot, hvalue.code]
    exact ⟨_, .declareWith hx', hvalue.frame⟩
  | @assign _ p target value _ =>
    have hvalue := value.emit_alike hc h hf
    have hstore := hc.store h hvalue.frame target.text
    rw [hvalue.code, hstore.code]
    exact ⟨_, .assign, hstore.frame⟩
  | @assignAt _ p target position value _ _ _ h₁ h₂ =>
    subst h₁ h₂
    have hbase := hc.load h hf target.text
    have hposition := position.emit_alike hc h hbase.frame
    have hvalue := value.emit_alike hc h hposition.frame
    rw [hbase.code, hbase.type, hposition.code, hvalue.code]
    exact ⟨_, .assignAt rfl rfl, hvalue.frame⟩
  | ret => exact ⟨f', .ret, hf⟩
  | @retValue _ p node value _ =>
    have hvalue := value.emit_alike hc h hf
    rw [hvalue.code, hvalue.type]
    exact ⟨_, .retValue, hvalue.frame⟩
  | newline => exact ⟨f', .newline, hf⟩
  | @print _ p newline value _ =>
    have hvalue := value.emit_alike hc h hf
    rw [hvalue.code, hvalue.type]
    exact ⟨_, .print, hvalue.frame⟩
  | @call _ p callee arguments _ type transfer hcall =>
    have harguments := Expr.emitAll_alike hc h arguments hf
    rw [harguments.code]
    exact ⟨_, .call ((callOf_congr hc.symbols h _ _).symm.trans hcall), harguments.frame⟩
  | @ifThen _ p condition yes _ _ code _ h₁ hyes =>
    subst h₁
    have hcondition := condition.emit_alike hc h (hf.skipLabels 1)
    obtain ⟨g', hyes', hg⟩ := hyes.alike hc hnodes hcondition.frame
    rw [hcondition.code, hf.label_eq]
    exact ⟨g', .ifThen rfl hyes', hg⟩
  | @ifElse _ p condition yes no _ _ code _ code' _ h₁ hyes hno =>
    subst h₁
    obtain ⟨hyesNodes, hnoNodes⟩ := List.forall_mem_append.mp hnodes
    have hcondition := condition.emit_alike hc h (hf.skipLabels 1)
    -- The second block starts where the first one ends, with one more label handed out.
    obtain ⟨g₁, hyes', hg₁⟩ := hyes.alike hc hyesNodes hcondition.frame
    obtain ⟨g', hno', hg⟩ := hno.alike hc hnoNodes (hg₁.skipLabels 1)
    rw [hcondition.code, hf.label_eq, hg₁.label_eq]
    exact ⟨g', .ifElse rfl hyes' hno', hg⟩
  | @loop _ p condition body _ _ code _ h₁ hbody =>
    subst h₁
    have hcondition := condition.emit_alike hc h (hf.skipLabels 2)
    obtain ⟨g', hbody', hg⟩ := hbody.alike hc hnodes hcondition.frame
    rw [hcondition.code, hf.label_eq, (hf.skipLabels 1).label_eq]
    exact ⟨g', .loop rfl hbody', hg⟩

theorem Block.Emits.alike {f f' g : Frame} {code : Code} {b : Block L NodeId}
    (hc : Context.Alike R c c') (hb : b.Emits c m f code g)
    (hnodes : ∀ node ∈ b.nodes, Table.AlikeAt R c.table c'.table m m' node)
    (hf : Frame.Alike R f f') : ∃ g', b.Emits c' m' f' code g' ∧ Frame.Alike R g g' := by
  cases hb with
  | @mk node s sts _ _ _ hnode hsts =>
    obtain ⟨r, s', hr, hs', h⟩ := hnodes node List.mem_cons_self
    obtain rfl : s = r := Option.some.inj (hnode.symm.trans hr)
    obtain ⟨g', hsts', hg⟩ := hsts.alike hc h
      (fun node hn => hnodes node (List.mem_cons_of_mem _ hn)) hf
    exact ⟨g', .mk hs' hsts', hg⟩

theorem Block.EmitsAll.alike {s s' : ScopeId} {f f' g : Frame} {code : Code}
    {sts : List (Stmt L NodeId)} (hc : Context.Alike R c c')
    (hsts : Block.EmitsAll c m s sts f code g) (h : Table.Alike R c.table c'.table s s')
    (hnodes : ∀ node ∈ Block.nodesAll sts, Table.AlikeAt R c.table c'.table m m' node)
    (hf : Frame.Alike R f f') :
    ∃ g', Block.EmitsAll c' m' s' sts f' code g' ∧ Frame.Alike R g g' := by
  cases hsts with
  | nil => exact ⟨f', .nil, hf⟩
  | cons hst hsts =>
    obtain ⟨hfirst, hrest⟩ := List.forall_mem_append.mp hnodes
    obtain ⟨g₁, hst', hg₁⟩ := hst.alike hc h hfirst hf
    obtain ⟨g', hsts', hg⟩ := hsts.alike hc h hrest hg₁
    exact ⟨g', .cons hst' hsts', hg⟩

end

end Statements

end Primer
