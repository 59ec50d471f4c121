import Primer.Proofs.Declaration.Coverage
import Primer.Proofs.Script.Passage
import Mathlib.Data.List.Basic
import Mathlib.Logic.Relator

/-!
# Tables that differ in numbers only

The numbers of scopes and symbols say in which order things were declared, and nothing that is found
or written depends on them. A *renaming* relates the symbols of two tables one to one, such that
related symbols stand for the same (`Table.Renaming`). Two scopes are *alike* if every name means
related symbols in them (`Table.Alike`).

If the nodes of a tree have scopes that are alike, then the passes over references and types report
the same in both tables, and the tree has the same script.
-/

namespace Option.Rel

variable {α β γ δ : Type} {r : α → β → Prop} {q : γ → δ → Prop} {x : Option α} {x' : Option β}

theorem none_or_some (h : Option.Rel r x x') :
    (x = .none ∧ x' = .none) ∨ ∃ a b, x = .some a ∧ x' = .some b ∧ r a b := by
  cases h with
  | none => exact .inl ⟨rfl, rfl⟩
  | some hab => exact .inr ⟨_, _, rfl, rfl, hab⟩

theorem bind {f : α → Option γ} {f' : β → Option δ} (h : Option.Rel r x x')
    (hf : ∀ a b, r a b → Option.Rel q (f a) (f' b)) : Option.Rel q (x.bind f) (x'.bind f') := by
  cases h with
  | none => exact .none
  | some hab => exact hf _ _ hab

theorem or {y : Option α} {y' : Option β} (h : Option.Rel r x x') (hy : Option.Rel r y y') :
    Option.Rel r (x.or y) (x'.or y') := by
  cases h with
  | none => exact hy
  | some hab => exact .some hab

theorem map_eq {f : α → γ} {f' : β → γ} (h : Option.Rel r x x') (hf : ∀ a b, r a b → f a = f' b) :
    x.map f = x'.map f' := by
  cases h with
  | none => rfl
  | some hab => exact congrArg Option.some (hf _ _ hab)

theorem bind_eq {f : α → Option γ} {f' : β → Option γ} (h : Option.Rel r x x')
    (hf : ∀ a b, r a b → f a = f' b) : x.bind f = x'.bind f' := by
  cases h with
  | none => rfl
  | some hab => exact hf _ _ hab

theorem isSome_eq (h : Option.Rel r x x') : x.isSome = x'.isSome := by
  cases h <;> rfl

end Option.Rel

namespace Primer

variable {L : Type}

/-! ## Renamings -/

/-- Two functions with the same name, types of parameters and type of result. -/
structure FunctionSymbol.Alike (t t' : Table) (f f' : FunctionSymbol) : Prop where
  name : f.name = f'.name
  returns : f.returns = f'.returns
  parameters : f.parameters.map t.typeOf = f'.parameters.map t'.typeOf

theorem FunctionSymbol.Alike.length_parameters {t t' : Table} {f f' : FunctionSymbol}
    (h : f.Alike t t' f') : f.parameters.length = f'.parameters.length := by
  simpa using congrArg List.length h.parameters

/-- Two symbols that stand for the same. -/
inductive Symbol.Alike (t t' : Table) : Symbol → Symbol → Prop where
  | var {name τ} : Symbol.Alike t t' (.var name τ) (.var name τ)
  | fn {f f' : FunctionSymbol} (h : FunctionSymbol.Alike t t' f f') :
      Symbol.Alike t t' (.fn f) (.fn f')

/-- A relation of the symbols of two tables, one to one, in which related ones stand for the same.
-/
structure Table.Renaming (t t' : Table) (R : SymbolId → SymbolId → Prop) : Prop where
  symbol : ∀ x x', R x x' → Option.Rel (Symbol.Alike t t') (t.symbol? x) (t'.symbol? x')
  unique : Relator.BiUnique R

/-- Two scopes in which every name means related symbols. -/
structure Table.Alike (R : SymbolId → SymbolId → Prop) (t t' : Table) (s s' : ScopeId) : Prop where
  resolve : ∀ name, Option.Rel R (t.resolve s name) (t'.resolve s' name)
  localResolve : ∀ name, Option.Rel R (t.localResolve s name) (t'.localResolve s' name)
  functions : ∀ name,
    Option.Rel R (t.localResolve Table.global name) (t'.localResolve Table.global name)
  owner : Option.Rel R (t.owner? s) (t'.owner? s')
  global : s = Table.global ↔ s' = Table.global

/-- A node has scopes in both maps, and they are alike. -/
def Table.AlikeAt (R : SymbolId → SymbolId → Prop) (t t' : Table) (m m' : ScopeMap)
    (node : NodeId) : Prop :=
  ∃ s s', m.get? node = some s ∧ m'.get? node = some s' ∧ Table.Alike R t t' s s'

/-- What holds of the nodes of a block holds of those in its statements. -/
theorem Block.forall_nodes_of_mem {P : NodeId → Prop} {b : Block L NodeId}
    (h : ∀ node ∈ b.nodes, P node) {st : Stmt L NodeId} (hst : st ∈ b.statements) :
    ∀ node ∈ st.nodes, P node := by
  obtain ⟨node, sts⟩ := b
  intro n hn
  refine h n (List.mem_cons_of_mem _ ?_)
  rw [Block.nodesAll_eq_flatMap]
  exact List.mem_flatMap.mpr ⟨st, hst, hn⟩

section Tables

variable {R : SymbolId → SymbolId → Prop} {t t' : Table} {m m' : ScopeMap} {s s' : ScopeId}

namespace Table.Renaming

variable {x x' : SymbolId}

theorem typeOf_eq (hR : t.Renaming t' R) (hx : R x x') : t.typeOf x = t'.typeOf x' := by
  refine congrArg (·.getD Ty.error) ((hR.symbol x x' hx).map_eq fun y y' hy => ?_)
  cases hy with
  | var => rfl
  | fn hf => exact hf.returns

theorem function? (hR : t.Renaming t' R) (hx : R x x') :
    Option.Rel (FunctionSymbol.Alike t t') (t.function? x) (t'.function? x') := by
  refine (hR.symbol x x' hx).bind fun y y' hy => ?_
  cases hy with
  | var => exact .none
  | fn hf => exact .some hf

end Table.Renaming

namespace Table.Alike

theorem varType?_eq (hR : t.Renaming t' R) (h : Table.Alike R t t' s s') (name : String) :
    t.varType? s name = t'.varType? s' name := by
  refine ((h.resolve name).bind fun x x' hx => hR.symbol x x' hx).bind_eq fun y y' hy => ?_
  cases hy <;> rfl

theorem callee? (hR : t.Renaming t' R) (h : Table.Alike R t t' s s') (name : String) :
    Option.Rel (FunctionSymbol.Alike t t') (t.callee? s name) (t'.callee? s' name) :=
  ((h.functions name).or (h.resolve name)).bind fun _ _ hx => hR.function? hx

theorem functionOf (hR : t.Renaming t' R) (h : Table.Alike R t t' s s') :
    Option.Rel (fun g g' => FunctionSymbol.Alike t t' g.2 g'.2) (t.functionOf s)
      (t'.functionOf s') := by
  refine h.owner.bind fun x x' hx => ?_
  rcases (hR.function? hx).none_or_some with ⟨hf, hf'⟩ | ⟨f, f', hf, hf', hff⟩
  · rw [hf, hf']
    exact .none
  · rw [hf, hf']
    exact .some hff

theorem exists_localResolve (h : Table.Alike R t t' s s') {name : String} {x : SymbolId}
    (hx : t.localResolve s name = some x) :
    ∃ x', t'.localResolve s' name = some x' ∧ R x x' := by
  rcases (h.localResolve name).none_or_some with ⟨hnone, -⟩ | ⟨y, x', hy, hx', hyx⟩
  · cases hx.symm.trans hnone
  · obtain rfl : x = y := Option.some.inj (hx.symm.trans hy)
    exact ⟨x', hx', hyx⟩

end Table.Alike

/-! ## References -/

section References

variable (hR : t.Renaming t' R) (h : Table.Alike R t t' s s')

include hR h

theorem Name.variableReference_congr (n : Name L) :
    n.variableReference t s = n.variableReference t' s' := by
  unfold Name.variableReference
  rcases (h.resolve n.text).none_or_some with ⟨hx, hx'⟩ | ⟨x, x', hx, hx', hxx⟩
  · rw [hx, hx']
  · rw [hx, hx']
    simp only [(hR.function? hxx).isSome_eq]

theorem Name.calleeReference_congr (n : Name L) (arguments : Nat) :
    n.calleeReference t s arguments = n.calleeReference t' s' arguments := by
  unfold Name.calleeReference
  rcases (h.callee? hR n.text).none_or_some with ⟨hf, hf'⟩ | ⟨f, f', hf, hf', hff⟩
  · rw [hf, hf']
  · rw [hf, hf']
    simp only [hff.length_parameters]

theorem Name.targetReference_congr (n : Name L) :
    n.targetReference t s = n.targetReference t' s' := by
  simp only [Name.targetReference, n.variableReference_congr hR h, h.global]

theorem Expr.references_congr (e : Expr L) : e.references t s = e.references t' s' := by
  induction e using Expr.inductionOn with
  | int | float | bool | char | str => rfl
  | read p name => exact name.variableReference_congr hR h
  | call p callee arguments ih =>
    simp only [Expr.references, Expr.referencesAll_eq_flatMap, callee.calleeReference_congr hR h,
      List.flatMap_congr ih]
  | index p base position ih =>
    simp only [Expr.references, base.variableReference_congr hR h, ih]
  | length p operand ih | paren p operand ih | negate p operand ih
  | newArray p element operand ih =>
    simp only [Expr.references, ih]
  | binary p op lhs rhs ihl ihr => simp only [Expr.references, ihl, ihr]
  | array p elements ih =>
    simp only [Expr.references, Expr.referencesAll_eq_flatMap, List.flatMap_congr ih]

theorem Expr.referencesAll_congr (es : List (Expr L)) :
    Expr.referencesAll t s es = Expr.referencesAll t' s' es := by
  simp only [Expr.referencesAll_eq_flatMap]
  exact List.flatMap_congr fun e _ => e.references_congr hR h

theorem Expr.referencesOption_congr (e : Option (Expr L)) :
    Expr.referencesOption t s e = Expr.referencesOption t' s' e := by
  cases e with
  | none => rfl
  | some e => exact e.references_congr hR h

end References

/-- A report that is made in the scope of a node is the same if it is so for scopes that are alike.
-/
theorem Report.inScopeOf_congr {ε : Type} {node : NodeId} {go go' : ScopeId → Report L ε}
    (hnode : Table.AlikeAt R t t' m m' node)
    (h : ∀ s s', Table.Alike R t t' s s' → go s = go' s') :
    Report.inScopeOf m node go = Report.inScopeOf m' node go' := by
  obtain ⟨s, s', hs, hs', hss⟩ := hnode
  simp only [Report.inScopeOf, ScopeMap.scopeOf, hs, hs']
  exact h s s' hss

private theorem Block.references_block {b : Block L NodeId}
    (ih : ∀ st ∈ b.statements, ∀ s s', Table.Alike R t t' s s' →
      (∀ node ∈ st.nodes, Table.AlikeAt R t t' m m' node) →
      st.references t m s = st.references t' m' s')
    (hnodes : ∀ node ∈ b.nodes, Table.AlikeAt R t t' m m' node) :
    b.references t m = b.references t' m' := by
  obtain ⟨node, sts⟩ := b
  refine Report.inScopeOf_congr (hnodes node List.mem_cons_self) fun s s' h => ?_
  rw [Block.referencesAll_eq_concat, Block.referencesAll_eq_concat]
  exact congrArg Report.concat (List.map_congr_left fun st hst =>
    ih st hst s s' h (Block.forall_nodes_of_mem hnodes hst))

/-- A statement has the same mistaken references in scopes that are alike. -/
theorem Stmt.references_congr (hR : t.Renaming t' R) {st : Stmt L NodeId}
    (h : Table.Alike R t t' s s') (hnodes : ∀ node ∈ st.nodes, Table.AlikeAt R t t' m m' node) :
    st.references t m s = st.references t' m' s' := by
  induction st using Stmt.inductionOn generalizing s s' with
  | declare p type name value | print p newline value =>
    simp only [Stmt.references, Expr.referencesOption_congr hR h]
  | assign p target value =>
    simp only [Stmt.references, target.targetReference_congr hR h, value.references_congr hR h]
  | assignAt p target position value =>
    simp only [Stmt.references, target.targetReference_congr hR h, position.references_congr hR h,
      value.references_congr hR h]
  | call p callee arguments =>
    simp only [Stmt.references, callee.calleeReference_congr hR h,
      Expr.referencesAll_congr hR h]
  -- A return looks its scope up again, so the scope of the block is of no use here.
  | ret p node value =>
    refine Report.inScopeOf_congr (hnodes node List.mem_cons_self) fun r r' hr => ?_
    simp only [← Option.not_isSome, hr.owner.isSome_eq,
      Expr.referencesOption_congr hR hr]
  | ifThen p condition yes ih | loop p condition yes ih =>
    simp only [Stmt.references, condition.references_congr hR h,
      Block.references_block (fun st hst s s' => ih st hst) hnodes]
  | ifElse p condition yes no ihy ihn =>
    obtain ⟨hyes, hno⟩ := List.forall_mem_append.mp hnodes
    simp only [Stmt.references, condition.references_congr hR h,
      Block.references_block (fun st hst s s' => ihy st hst) hyes,
      Block.references_block (fun st hst s s' => ihn st hst) hno]

theorem Block.references_congr (hR : t.Renaming t' R) {b : Block L NodeId}
    (hnodes : ∀ node ∈ b.nodes, Table.AlikeAt R t t' m m' node) :
    b.references t m = b.references t' m' :=
  Block.references_block (fun _ _ _ _ => Stmt.references_congr hR) hnodes

/-! ## Types -/

section Types

variable (hR : t.Renaming t' R) (h : Table.Alike R t t' s s')

include hR h

theorem Typed.call_congr (callee : Name L) (given : List (L × Typed L)) :
    Typed.call t s callee given = Typed.call t' s' callee given := by
  unfold Typed.call
  rcases (h.callee? hR callee.text).none_or_some with ⟨hf, hf'⟩ | ⟨f, f', hf, hf', hff⟩
  · rw [hf, hf']
  · rw [hf, hf']
    simp only [hff.length_parameters, hff.parameters, hff.returns]

theorem Expr.check_congr (e : Expr L) (underLength : Bool) :
    e.check t s underLength = e.check t' s' underLength := by
  induction e using Expr.inductionOn generalizing underLength with
  | int | float | bool | char | str => rfl
  | read p name => simp only [Expr.check, h.varType?_eq hR]
  | call p callee arguments ih =>
    -- Arguments are checked before the callee is looked up.
    have harguments : Expr.checkAll t s arguments = Expr.checkAll t' s' arguments := by
      simp only [Expr.checkAll_eq_map]
      exact List.map_congr_left fun e he => by rw [ih e he]
    simp only [Expr.check, harguments, Typed.call_congr hR h]
  | index p base position ih => simp only [Expr.check, h.varType?_eq hR, ih]
  | length p operand ih | paren p operand ih | negate p operand ih
  | newArray p element operand ih =>
    simp only [Expr.check, ih]
  | binary p op lhs rhs ihl ihr => simp only [Expr.check, ihl, ihr]
  | array p elements ih =>
    have helements : Expr.checkAll t s elements = Expr.checkAll t' s' elements := by
      simp only [Expr.checkAll_eq_map]
      exact List.map_congr_left fun e he => by rw [ih e he]
    simp only [Expr.check, helements]

theorem Expr.checkAll_congr (es : List (Expr L)) :
    Expr.checkAll t s es = Expr.checkAll t' s' es := by
  simp only [Expr.checkAll_eq_map]
  exact List.map_congr_left fun e _ => by rw [e.check_congr hR h]

theorem Expr.typeIn_congr (e : Expr L) : e.typeIn t s = e.typeIn t' s' :=
  congrArg Typed.type (e.check_congr hR h false)

/-- Functions that are alike demand the same of a returned value. -/
theorem Table.Alike.checkReturn (place : L) (found : Option (Expr L × Ty)) :
    (match t.functionOf s with
      | none => Report.empty
      | some (_, f) => .ofFindings (f.checkReturn place found)) =
    match t'.functionOf s' with
      | none => Report.empty
      | some (_, f) => .ofFindings (f.checkReturn place found) := by
  rcases (h.functionOf hR).none_or_some with ⟨hf, hf'⟩ | ⟨f, f', hf, hf', hff⟩
  · rw [hf, hf']
  · rw [hf, hf']
    cases found <;> simp only [FunctionSymbol.checkReturn, hff.name, hff.returns]

end Types

private theorem Block.types_block {b : Block L NodeId}
    (ih : ∀ st ∈ b.statements, ∀ s s', Table.Alike R t t' s s' →
      (∀ node ∈ st.nodes, Table.AlikeAt R t t' m m' node) → st.types t m s = st.types t' m' s')
    (hnodes : ∀ node ∈ b.nodes, Table.AlikeAt R t t' m m' node) :
    b.types t m = b.types t' m' := by
  obtain ⟨node, sts⟩ := b
  refine Report.inScopeOf_congr (hnodes node List.mem_cons_self) fun s s' h => ?_
  rw [Block.typesAll_eq_concat, Block.typesAll_eq_concat]
  exact congrArg Report.concat (List.map_congr_left fun st hst =>
    ih st hst s s' h (Block.forall_nodes_of_mem hnodes hst))

/-- A statement has the same type errors in scopes that are alike. -/
theorem Stmt.types_congr (hR : t.Renaming t' R) {st : Stmt L NodeId}
    (h : Table.Alike R t t' s s') (hnodes : ∀ node ∈ st.nodes, Table.AlikeAt R t t' m m' node) :
    st.types t m s = st.types t' m' s' := by
  induction st using Stmt.inductionOn generalizing s s' with
  | declare p type name value =>
    cases value with
    | none => rfl
    | some value => simp only [Stmt.types, value.check_congr hR h]
  | print p newline value =>
    cases value with
    | none => rfl
    | some value => simp only [Stmt.types, Expr.checkPrint, value.check_congr hR h]
  | assign p target value =>
    simp only [Stmt.types, value.check_congr hR h, h.varType?_eq hR]
  | assignAt p target position value =>
    simp only [Stmt.types, Expr.checkElement, position.check_congr hR h, value.check_congr hR h,
      h.varType?_eq hR]
  | call p callee arguments =>
    simp only [Stmt.types, Expr.checkAll_congr hR h, Typed.call_congr hR h]
  | ret p node value =>
    have hvalue : (value.map fun e => (e, e.check t s false)) =
        value.map fun e => (e, e.check t' s' false) :=
      Option.map_congr fun e _ => by rw [e.check_congr hR h]
    simp only [Stmt.types, hvalue]
    -- The value is checked where the return stands, and the function is that of the node.
    exact congrArg _ (Report.inScopeOf_congr (hnodes node List.mem_cons_self)
      fun r r' hr => hr.checkReturn hR p _)
  | ifThen p condition yes ih | loop p condition yes ih =>
    simp only [Stmt.types, Expr.checkCondition, condition.check_congr hR h,
      Block.types_block (fun st hst s s' => ih st hst) hnodes]
  | ifElse p condition yes no ihy ihn =>
    obtain ⟨hyes, hno⟩ := List.forall_mem_append.mp hnodes
    simp only [Stmt.types, Expr.checkCondition, condition.check_congr hR h,
      Block.types_block (fun st hst s s' => ihy st hst) hyes,
      Block.types_block (fun st hst s s' => ihn st hst) hno]

theorem Block.types_congr (hR : t.Renaming t' R) {b : Block L NodeId}
    (hnodes : ∀ node ∈ b.nodes, Table.AlikeAt R t t' m m' node) : b.types t m = b.types t' m' :=
  Block.types_block (fun _ _ _ _ => Stmt.types_congr hR) hnodes

/-! ## Scripts -/

theorem Expr.toScript_congr (hR : t.Renaming t' R) (h : Table.Alike R t t' s s') (e : Expr L) :
    e.toScript t s = e.toScript t' s' := by
  induction e using Expr.inductionOn with
  | int | float | bool | char | str | read => rfl
  | call p callee arguments ih | array p arguments ih =>
    simp only [Expr.toScript, Expr.toScriptAll_eq_map, List.map_congr_left ih]
  | index p base operand ih | length p operand ih | paren p operand ih | negate p operand ih
  | newArray p element operand ih => simp only [Expr.toScript, ih]
  | binary p op lhs rhs ihl ihr =>
    simp only [Expr.toScript, ihl, ihr, lhs.typeIn_congr hR h]

theorem Expr.map_toScript_congr (hR : t.Renaming t' R) (h : Table.Alike R t t' s s')
    (value : Option (Expr L)) : value.map (·.toScript t s) = value.map (·.toScript t' s') :=
  Option.map_congr fun e _ => e.toScript_congr hR h

private theorem Block.toScript_block {b : Block L NodeId}
    (ih : ∀ st ∈ b.statements, ∀ s s', Table.Alike R t t' s s' →
      (∀ node ∈ st.nodes, Table.AlikeAt R t t' m m' node) →
      st.toScript t m s = st.toScript t' m' s')
    (hnodes : ∀ node ∈ b.nodes, Table.AlikeAt R t t' m m' node) :
    b.toScript t m = b.toScript t' m' := by
  obtain ⟨node, sts⟩ := b
  obtain ⟨s, s', hs, hs', h⟩ := hnodes node List.mem_cons_self
  rw [Block.toScript_of_get? hs, Block.toScript_of_get? hs']
  exact List.map_congr_left fun st hst => ih st hst s s' h (Block.forall_nodes_of_mem hnodes hst)

/-- A statement has the same script in scopes that are alike. -/
theorem Stmt.toScript_congr (hR : t.Renaming t' R) {st : Stmt L NodeId}
    (h : Table.Alike R t t' s s') (hnodes : ∀ node ∈ st.nodes, Table.AlikeAt R t t' m m' node) :
    st.toScript t m s = st.toScript t' m' s' := by
  induction st using Stmt.inductionOn generalizing s s' with
  | declare p type name value | ret p node value | print p newline value =>
    simp only [Stmt.toScript, Expr.map_toScript_congr hR h]
  | assign p target value => simp only [Stmt.toScript, value.toScript_congr hR h]
  | assignAt p target position value =>
    simp only [Stmt.toScript, position.toScript_congr hR h, value.toScript_congr hR h]
  | call p callee arguments =>
    simp only [Stmt.toScript, Expr.toScriptAll_eq_map,
      List.map_congr_left fun e (_ : e ∈ arguments) => e.toScript_congr hR h]
  | ifThen p condition yes ih | loop p condition yes ih =>
    simp only [Stmt.toScript, condition.toScript_congr hR h,
      Block.toScript_block (fun st hst s s' => ih st hst) hnodes]
  -- The nodes of the two blocks are listed one after the other.
  | ifElse p condition yes no ihy ihn =>
    obtain ⟨hyes, hno⟩ := List.forall_mem_append.mp hnodes
    simp only [Stmt.toScript, condition.toScript_congr hR h,
      Block.toScript_block (fun st hst s s' => ihy st hst) hyes,
      Block.toScript_block (fun st hst s s' => ihn st hst) hno]

theorem Block.toScript_congr (hR : t.Renaming t' R) {b : Block L NodeId}
    (hnodes : ∀ node ∈ b.nodes, Table.AlikeAt R t t' m m' node) :
    b.toScript t m = b.toScript t' m' :=
  Block.toScript_block (fun _ _ _ _ => Stmt.toScript_congr hR) hnodes

end Tables

end Primer
