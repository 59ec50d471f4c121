import Primer.Proofs.Declaration.Coverage
import Primer.Proofs.Declaration.Relabeling
import Primer.Proofs.Script.Passage

/-!
# Checks of relabeled trees

The passes over expressions copy places into what they report and do nothing else with them, so a
tree with other places has the same mistakes at the other places. Marks are used only to look scopes
up. So the passes over statements report the same for a tree with other marks, as long as the same
scopes are recorded for its nodes (`ScopeMap.Follows`).
-/

namespace Primer

variable {L L' : Type}

/-! ## References -/

section References

variable (f : L → L') (t : Table) (s : ScopeId)

theorem Name.variableReference_map (n : Name L) :
    (n.map f).variableReference t s = (n.variableReference t s).map (Located.map f) := by
  unfold Name.variableReference
  rw [Name.text_map]
  cases t.resolve s n.text with
  | none => rfl
  | some x =>
    simp only
    split_ifs <;> rfl

theorem Name.calleeReference_map (n : Name L) (arguments : Nat) :
    (n.map f).calleeReference t s arguments =
      (n.calleeReference t s arguments).map (Located.map f) := by
  unfold Name.calleeReference
  rw [Name.text_map]
  cases t.callee? s n.text with
  | none => rfl
  | some g =>
    simp only
    split_ifs <;> rfl

theorem Name.targetReference_map (n : Name L) :
    (n.map f).targetReference t s = (n.targetReference t s).map (Located.map f) := by
  unfold Name.targetReference
  rw [Name.variableReference_map, List.map_append]
  split_ifs <;> rfl

private theorem Expr.referencesAll_map_of {es : List (Expr L)}
    (ih : ∀ e ∈ es, (e.map f).references t s = (e.references t s).map (Located.map f)) :
    Expr.referencesAll t s (Expr.mapAll f es) =
      (Expr.referencesAll t s es).map (Located.map f) := by
  rw [Expr.referencesAll_eq_flatMap, Expr.referencesAll_eq_flatMap, Expr.mapAll_eq_map,
    List.flatMap_map, List.map_flatMap]
  exact List.flatMap_congr ih

theorem Expr.references_map (e : Expr L) :
    (e.map f).references t s = (e.references t s).map (Located.map f) := by
  induction e using Expr.inductionOn with
  -- Literals refer to nothing.
  | int p n => rfl
  | float p bits => rfl
  | bool p b => rfl
  | char p c => rfl
  | str p text => rfl
  | read p name => exact name.variableReference_map f t s
  | call p callee arguments ih =>
    simp only [Expr.map, Expr.references, List.map_append, Expr.referencesAll_map_of f t s ih,
      Name.calleeReference_map, Expr.length_mapAll]
  | index p base position ih =>
    simp only [Expr.map, Expr.references, List.map_append, Name.variableReference_map, ih]
  | length p operand ih => exact ih
  | paren p operand ih => exact ih
  | negate p operand ih => exact ih
  | binary p op lhs rhs ihl ihr =>
    simp only [Expr.map, Expr.references, List.map_append, ihl, ihr]
  | array p elements ih => exact Expr.referencesAll_map_of f t s ih
  | newArray p element size ih => exact ih

theorem Expr.referencesAll_map (es : List (Expr L)) :
    Expr.referencesAll t s (Expr.mapAll f es) =
      (Expr.referencesAll t s es).map (Located.map f) :=
  Expr.referencesAll_map_of f t s fun e _ => e.references_map f t s

end References

/-! ## Typing rules -/

/-- A type with its findings at other places. -/
def Typed.map (f : L → L') (x : Typed L) : Typed L' :=
  ⟨x.type, x.findings.map (Located.map f)⟩

namespace Typed

variable (f : L → L')

@[simp]
theorem type_map (x : Typed L) : (x.map f).type = x.type := rfl

@[simp]
theorem findings_map (x : Typed L) : (x.map f).findings = x.findings.map (Located.map f) := rfl

theorem after_map (earlier : List (Located L TypeError)) (x : Typed L) :
    (x.map f).after (earlier.map (Located.map f)) = (x.after earlier).map f := by
  simp [after, Typed.map]

theorem expect_map (expected found : Ty) (place : L) :
    expect expected found (f place) = (expect expected found place).map f := by
  unfold expect
  split_ifs <;> rfl

theorem providedInt_map (type found : Ty) (place : L) :
    providedInt type found (f place) = (providedInt type found place).map f := by
  simp only [providedInt, expect_map, type_map, findings_map]
  rfl

theorem binary_map (place : L) (op : BinOp) (lhs rhs : Ty) (underLength : Bool) :
    binary (f place) op lhs rhs underLength = (binary place op lhs rhs underLength).map f := by
  unfold binary
  split_ifs <;> rfl

theorem index_map (base : Name L) (type : Ty) (position : L) (found : Ty) :
    index (base.map f) type (f position) found = (index base type position found).map f := by
  unfold index
  split_ifs
  · rfl
  · cases type.element? with
    | none => rfl
    | some element => exact providedInt_map f element found position

theorem length_map (operand : L) (found : Ty) :
    length (f operand) found = (length operand found).map f := by
  unfold length
  split_ifs <;> rfl

theorem negate_map (operand : L) (found : Ty) :
    negate (f operand) found = (negate operand found).map f := by
  unfold negate
  split_ifs <;> rfl

theorem array_map (place : L) (types : List Ty) :
    array (f place) types = (array place types).map f := by
  cases types with
  | nil => rfl
  | cons first rest =>
    simp only [array]
    split_ifs
    · rfl
    · rfl
    · cases first.arrayOf? <;> rfl

theorem newArray_map (element : Name L) (size : L) (found : Ty) :
    newArray (element.map f) (f size) found = (newArray element size found).map f := by
  unfold newArray
  rw [Name.text_map]
  cases Ty.named? element.text with
  | none => rfl
  | some type =>
    simp only
    split_ifs
    · exact providedInt_map f type found size
    · rfl

theorem argument_map (function : String) (position : Nat) (expected : Ty) (place : L)
    (found : Ty) :
    argument function position expected (f place) found =
      (argument function position expected place found).map f := by
  unfold argument
  split_ifs <;> rfl

theorem arguments_map (function : String) (position : Nat) (types : List Ty)
    (given : List (L × Typed L)) :
    arguments function position types (given.map (Prod.map f (Typed.map f))) =
      (arguments function position types given).map (Typed.map f) := by
  induction types generalizing position given with
  | nil => rfl
  | cons expected types ih =>
    cases given with
    | nil => rfl
    | cons first given =>
      obtain ⟨place, found⟩ := first
      simp only [List.map_cons, Prod.map_apply, arguments, type_map, findings_map, argument_map,
        after_map, ih]

/-- What was found in arguments or elements, with their places. -/
theorem given_findings_map (given : List (L × Typed L)) :
    (given.map (Prod.map f (Typed.map f))).flatMap (·.2.findings) =
      (given.flatMap (·.2.findings)).map (Located.map f) := by
  rw [List.flatMap_map, List.map_flatMap]
  rfl

theorem given_types_map (given : List (L × Typed L)) :
    (given.map (Prod.map f (Typed.map f))).map (·.2.type) = given.map (·.2.type) := by
  rw [List.map_map]
  rfl

theorem call_map (t : Table) (s : ScopeId) (callee : Name L) (given : List (L × Typed L)) :
    call t s (callee.map f) (given.map (Prod.map f (Typed.map f))) =
      (call t s callee given).map f := by
  unfold call
  rw [Name.text_map]
  cases t.callee? s callee.text with
  | none => exact congrArg _ (given_findings_map f given)
  | some g =>
    -- Types have no places in them.
    have htypes : ((arguments callee.text 1 (g.parameters.map t.typeOf) given).map
        (Typed.map f)).map Typed.type =
        (arguments callee.text 1 (g.parameters.map t.typeOf) given).map Typed.type := by
      rw [List.map_map]
      rfl
    simp only [List.length_map, arguments_map, htypes, given_findings_map]
    split_ifs
    · rfl
    · simp [Typed.map, List.map_flatMap, List.flatMap_map]
    · simp [Typed.map, List.map_flatMap, List.flatMap_map]

end Typed

/-! ## Types of expressions -/

section Check

variable (f : L → L') (t : Table) (s : ScopeId)

private theorem Expr.checkAll_map_of {es : List (Expr L)}
    (ih : ∀ e ∈ es, ∀ underLength,
      (e.map f).check t s underLength = (e.check t s underLength).map f) :
    Expr.checkAll t s (Expr.mapAll f es) =
      (Expr.checkAll t s es).map (Prod.map f (Typed.map f)) := by
  rw [Expr.checkAll_eq_map, Expr.checkAll_eq_map, Expr.mapAll_eq_map, List.map_map, List.map_map]
  refine List.map_congr_left fun e he => ?_
  simp [ih e he]

theorem Expr.check_map (e : Expr L) (underLength : Bool) :
    (e.map f).check t s underLength = (e.check t s underLength).map f := by
  induction e using Expr.inductionOn generalizing underLength with
  | int p n => rfl
  | float p bits => rfl
  | bool p b => rfl
  | char p c => rfl
  | str p text => rfl
  | read p name => rfl
  | call p callee arguments ih =>
    simp only [Expr.map, Expr.check, Expr.checkAll_map_of f t s ih, Typed.call_map]
  | index p base position ih =>
    simp only [Expr.map, Expr.check, ih, Name.text_map, Expr.place_map, Typed.type_map,
      Typed.findings_map, Typed.index_map, Typed.after_map]
  | length p operand ih =>
    simp only [Expr.map, Expr.check, ih, Expr.place_map, Typed.type_map, Typed.findings_map,
      Typed.length_map, Typed.after_map]
  | paren p operand ih => exact ih false
  | negate p operand ih =>
    simp only [Expr.map, Expr.check, ih, Expr.place_map, Typed.type_map, Typed.findings_map,
      Typed.negate_map, Typed.after_map]
  | binary p op lhs rhs ihl ihr =>
    simp only [Expr.map, Expr.check, ihl, ihr, Typed.type_map, Typed.findings_map,
      Typed.binary_map, ← List.map_append, Typed.after_map]
  | array p elements ih =>
    simp only [Expr.map, Expr.check, Expr.checkAll_map_of f t s ih, Typed.given_types_map,
      Typed.given_findings_map, Typed.array_map, Typed.after_map]
  | newArray p element size ih =>
    simp only [Expr.map, Expr.check, ih, Expr.place_map, Typed.type_map, Typed.findings_map,
      Typed.newArray_map, Typed.after_map]

theorem Expr.checkAll_map (es : List (Expr L)) :
    Expr.checkAll t s (Expr.mapAll f es) =
      (Expr.checkAll t s es).map (Prod.map f (Typed.map f)) :=
  Expr.checkAll_map_of f t s fun e _ => e.check_map f t s

@[simp]
theorem Expr.typeIn_map (e : Expr L) : (e.map f).typeIn t s = e.typeIn t s := by
  rw [Expr.typeIn, Expr.check_map, Typed.type_map, Expr.typeIn]

theorem Expr.checkStore_map (e : Expr L) (name : String) (declared found : Ty) :
    (e.map f).checkStore name declared found =
      (e.checkStore name declared found).map (Located.map f) := by
  simp only [Expr.checkStore, Expr.storableAs, Expr.shownType, Expr.isNewArray_map, Expr.place_map]
  split_ifs <;> rfl

theorem Expr.checkCondition_map (statement : String) (e : Expr L) :
    (e.map f).checkCondition t s statement =
      (e.checkCondition t s statement).map (Located.map f) := by
  simp only [Expr.checkCondition, Typed.conditionMistakes, Expr.check_map, Typed.type_map,
    Typed.findings_map, Expr.place_map, List.map_append]
  split_ifs <;> rfl

theorem Expr.checkPrint_map (e : Expr L) :
    (e.map f).checkPrint t s = (e.checkPrint t s).map (Located.map f) := by
  simp only [Expr.checkPrint, Typed.printMistakes, Expr.check_map, Typed.type_map,
    Typed.findings_map, Expr.place_map, List.map_append]
  split_ifs <;> rfl

theorem Expr.checkElement_map (target : Name L) (position value : Expr L) :
    Expr.checkElement t s (target.map f) (position.map f) (value.map f) =
      (Expr.checkElement t s target position value).map (Located.map f) := by
  simp only [Expr.checkElement, Typed.elementMistakes, Expr.check_map, Typed.type_map,
    Typed.findings_map, Expr.place_map, Name.text_map, List.map_append]
  cases t.varType? s target.text with
  | none => rfl
  | some declared =>
    simp only [Typed.expect_map, Typed.findings_map, List.map_append]
    split_ifs
    · rfl
    · cases declared.element? <;> rfl
    · rfl

theorem FunctionSymbol.checkReturn_map (g : FunctionSymbol) (place : L)
    (value : Option (Expr L × Ty)) :
    g.checkReturn (f place) (value.map (Prod.map (Expr.map f) id)) =
      (g.checkReturn place value).map (Located.map f) := by
  cases value with
  | none =>
    simp only [FunctionSymbol.checkReturn, Option.map_none]
    split_ifs <;> rfl
  | some pair =>
    obtain ⟨e, found⟩ := pair
    simp only [FunctionSymbol.checkReturn, Option.map_some, Prod.map_apply, id, Expr.storableAs,
      Expr.shownType, Expr.isNewArray_map, Expr.place_map]
    split_ifs <;> rfl

end Check

/-! ## Reports -/

/-- A report with its findings at other places. -/
def Report.map {ε : Type} (f : L → L') (r : Report L ε) : Report L' ε :=
  ⟨r.findings.map (Located.map f), r.fault⟩

namespace Report

variable {ε : Type} (f : L → L')

theorem map_append (a b : Report L ε) : (a ++ b).map f = a.map f ++ b.map f := by
  cases h : a.fault with
  | none =>
    have h' : (a.map f).fault = none := h
    rw [append_of_no_fault h, append_of_no_fault h']
    simp [Report.map]
  | some fault =>
    -- What would follow a fault is dropped on both sides.
    have h' : (a.map f).fault = some fault := h
    rw [append_of_fault h, append_of_fault h']

theorem map_concat (reports : List (Report L ε)) :
    (concat reports).map f = concat (reports.map (Report.map f)) := by
  induction reports with
  | nil => rfl
  | cons r reports ih => rw [List.map_cons, concat, concat, map_append, ih]

theorem map_ofFindings (findings : List (Located L ε)) :
    (ofFindings findings).map f = ofFindings (findings.map (Located.map f)) := rfl

end Report

/-- The nodes have scopes in `m`, and `m'` has the same scopes under the new numbers. -/
def ScopeMap.Follows (g : NodeId → NodeId) (m m' : ScopeMap) (nodes : List NodeId) : Prop :=
  ∀ n ∈ nodes, ∃ s, m.get? n = some s ∧ m'.get? (g n) = some s

theorem ScopeMap.Follows.of_append {g : NodeId → NodeId} {m m' : ScopeMap} {as bs : List NodeId}
    (h : m.Follows g m' (as ++ bs)) : m.Follows g m' as ∧ m.Follows g m' bs :=
  ⟨fun n hn => h n (List.mem_append_left _ hn), fun n hn => h n (List.mem_append_right _ hn)⟩

theorem ScopeMap.Follows.statement {g : NodeId → NodeId} {m m' : ScopeMap} {mark : NodeId}
    {sts : List (Stmt L NodeId)} (h : m.Follows g m' (Block.mk mark sts).nodes)
    {st : Stmt L NodeId} (hst : st ∈ sts) : m.Follows g m' st.nodes := by
  intro n hn
  refine h n (List.mem_cons_of_mem _ ?_)
  rw [Block.nodesAll_eq_flatMap]
  exact List.mem_flatMap.mpr ⟨st, hst, hn⟩

/-! ## Statements -/

section Statements

variable (f : L → L') {g : NodeId → NodeId} {m m' : ScopeMap} (t : Table)

theorem Report.inScopeOf_map {ε : Type} {node : NodeId} {nodes : List NodeId}
    (h : m.Follows g m' nodes) (hnode : node ∈ nodes) {go : ScopeId → Report L ε}
    {go' : ScopeId → Report L' ε} (hgo : ∀ s, go' s = (go s).map f) :
    inScopeOf m' (g node) go' = (inScopeOf m node go).map f := by
  obtain ⟨s, hs, hs'⟩ := h node hnode
  rw [inScopeOf_of_get? hs, inScopeOf_of_get? hs', hgo]

theorem Expr.referencesOption_map (s : ScopeId) (value : Option (Expr L)) :
    Expr.referencesOption t s (value.map (Expr.map f)) =
      (Expr.referencesOption t s value).map (Located.map f) := by
  cases value with
  | none => rfl
  | some e => exact e.references_map f t s

private theorem Block.references_map_of {b : Block L NodeId}
    (ih : ∀ st ∈ b.statements, ∀ s, m.Follows g m' st.nodes →
      (st.map f g).references t m' s = (st.references t m s).map f)
    (hb : m.Follows g m' b.nodes) :
    (b.map f g).references t m' = (b.references t m).map f := by
  obtain ⟨mark, sts⟩ := b
  refine Report.inScopeOf_map f hb List.mem_cons_self fun s => ?_
  rw [Block.referencesAll_eq_concat, Block.referencesAll_eq_concat, Block.mapAll_eq_map,
    Report.map_concat, List.map_map, List.map_map]
  exact congrArg _ (List.map_congr_left fun st hst => ih st hst s (hb.statement hst))

theorem Stmt.references_map (st : Stmt L NodeId) (s : ScopeId) (hst : m.Follows g m' st.nodes) :
    (st.map f g).references t m' s = (st.references t m s).map f := by
  induction st using Stmt.inductionOn generalizing s with
  | declare p type name value =>
    simp only [Stmt.map, Stmt.references, Report.map_ofFindings, Expr.referencesOption_map]
  | assign p target value =>
    simp only [Stmt.map, Stmt.references, Report.map_ofFindings, Name.targetReference_map,
      Expr.references_map, List.map_append]
  | assignAt p target position value =>
    simp only [Stmt.map, Stmt.references, Report.map_ofFindings, Name.targetReference_map,
      Expr.references_map, List.map_append]
  | print p newline value =>
    simp only [Stmt.map, Stmt.references, Report.map_ofFindings, Expr.referencesOption_map]
  | call p callee arguments =>
    simp only [Stmt.map, Stmt.references, Report.map_ofFindings, Name.calleeReference_map,
      Expr.length_mapAll, Expr.referencesAll_map, List.map_append]
  | ret p node value =>
    -- A return looks its own scope up; that of the statements around it is not used.
    refine Report.inScopeOf_map f hst List.mem_cons_self fun s => ?_
    simp only [Report.map_ofFindings, Expr.referencesOption_map, List.map_append]
    split_ifs <;> rfl
  | ifThen p condition yes ih =>
    simp only [Stmt.map, Stmt.references, Report.map_append, Report.map_ofFindings,
      Expr.references_map, Block.references_map_of f t ih hst]
  | loop p condition body ih =>
    simp only [Stmt.map, Stmt.references, Report.map_append, Report.map_ofFindings,
      Expr.references_map, Block.references_map_of f t ih hst]
  | ifElse p condition yes no ihy ihn =>
    obtain ⟨hyes, hno⟩ := ScopeMap.Follows.of_append hst
    simp only [Stmt.map, Stmt.references, Report.map_append, Report.map_ofFindings,
      Expr.references_map, Block.references_map_of f t ihy hyes,
      Block.references_map_of f t ihn hno]

theorem Block.references_map (b : Block L NodeId) (hb : m.Follows g m' b.nodes) :
    (b.map f g).references t m' = (b.references t m).map f :=
  Block.references_map_of f t (fun st _ => st.references_map f t) hb

private theorem Block.types_map_of {b : Block L NodeId}
    (ih : ∀ st ∈ b.statements, ∀ s, m.Follows g m' st.nodes →
      (st.map f g).types t m' s = (st.types t m s).map f)
    (hb : m.Follows g m' b.nodes) : (b.map f g).types t m' = (b.types t m).map f := by
  obtain ⟨mark, sts⟩ := b
  refine Report.inScopeOf_map f hb List.mem_cons_self fun s => ?_
  rw [Block.typesAll_eq_concat, Block.typesAll_eq_concat, Block.mapAll_eq_map,
    Report.map_concat, List.map_map, List.map_map]
  exact congrArg _ (List.map_congr_left fun st hst => ih st hst s (hb.statement hst))

theorem Stmt.types_map (st : Stmt L NodeId) (s : ScopeId) (hst : m.Follows g m' st.nodes) :
    (st.map f g).types t m' s = (st.types t m s).map f := by
  induction st using Stmt.inductionOn generalizing s with
  -- Where the type decides what is checked, it is the same in both, so both go the same way.
  | declare p type name value =>
    cases value with
    | none => rfl
    | some e =>
      simp only [Stmt.map, Stmt.types, Option.map_some, Report.map_ofFindings, Expr.check_map,
        Typed.findings_map, Typed.type_map, Name.text_map, List.map_append]
      cases Ty.named? type.text with
      | none => rfl
      | some declared => simp only [Expr.checkStore_map]
  | assign p target value =>
    simp only [Stmt.map, Stmt.types, Report.map_ofFindings, Expr.check_map, Typed.findings_map,
      Typed.type_map, Name.text_map, List.map_append]
    cases t.varType? s target.text with
    | none => rfl
    | some declared => simp only [Expr.checkStore_map]
  | assignAt p target position value =>
    simp only [Stmt.map, Stmt.types, Report.map_ofFindings, Expr.checkElement_map]
  | print p newline value =>
    cases value with
    | none => rfl
    | some e =>
      simp only [Stmt.map, Stmt.types, Option.map_some, Report.map_ofFindings, Expr.checkPrint_map]
  | call p callee arguments =>
    simp only [Stmt.map, Stmt.types, Report.map_ofFindings, Expr.checkAll_map, Typed.call_map,
      Typed.findings_map]
  | ret p node value =>
    -- The recorded scope tells only which function is left.
    cases value with
    | none =>
      rw [Stmt.map, Stmt.types, Stmt.types, Report.map_append]
      refine congrArg₂ _ rfl (Report.inScopeOf_map f hst List.mem_cons_self fun r => ?_)
      cases t.functionOf r with
      | none => rfl
      | some h => exact congrArg Report.ofFindings (h.2.checkReturn_map f p none)
    | some e =>
      rw [Stmt.map, Stmt.types, Stmt.types, Report.map_append]
      simp only [Option.map_some, Expr.check_map, Typed.findings_map, Typed.type_map]
      refine congrArg₂ _ rfl (Report.inScopeOf_map f hst List.mem_cons_self fun r => ?_)
      cases t.functionOf r with
      | none => rfl
      | some h => exact congrArg Report.ofFindings (h.2.checkReturn_map f p (some (e, _)))
  | ifThen p condition yes ih =>
    simp only [Stmt.map, Stmt.types, Report.map_append, Report.map_ofFindings,
      Expr.checkCondition_map, Block.types_map_of f t ih hst]
  | loop p condition body ih =>
    simp only [Stmt.map, Stmt.types, Report.map_append, Report.map_ofFindings,
      Expr.checkCondition_map, Block.types_map_of f t ih hst]
  | ifElse p condition yes no ihy ihn =>
    obtain ⟨hyes, hno⟩ := ScopeMap.Follows.of_append hst
    simp only [Stmt.map, Stmt.types, Report.map_append, Report.map_ofFindings,
      Expr.checkCondition_map, Block.types_map_of f t ihy hyes, Block.types_map_of f t ihn hno]

theorem Block.types_map (b : Block L NodeId) (hb : m.Follows g m' b.nodes) :
    (b.map f g).types t m' = (b.types t m).map f :=
  Block.types_map_of f t (fun st _ => st.types_map f t) hb

end Statements

/-! ## Scripts -/

section Scripts

variable (f : L → L') {g : NodeId → NodeId} {m m' : ScopeMap} (t : Table)

private theorem Expr.toScriptAll_map_of (s : ScopeId) {es : List (Expr L)}
    (ih : ∀ e ∈ es, (e.map f).toScript t s = e.toScript t s) :
    Expr.toScriptAll t s (Expr.mapAll f es) = Expr.toScriptAll t s es := by
  rw [Expr.toScriptAll_eq_map, Expr.toScriptAll_eq_map, Expr.mapAll_eq_map, List.map_map]
  exact List.map_congr_left ih

theorem Expr.toScript_map (s : ScopeId) (e : Expr L) : (e.map f).toScript t s = e.toScript t s := by
  induction e using Expr.inductionOn with
  | int p n => rfl
  | float p bits => rfl
  | bool p b => rfl
  | char p c => rfl
  | str p text => rfl
  | read p name => rfl
  | call p callee arguments ih =>
    simp only [Expr.map, Expr.toScript, Name.text_map, Expr.toScriptAll_map_of f t s ih]
  | index p base position ih => simp only [Expr.map, Expr.toScript, Name.text_map, ih]
  | length p operand ih => simp only [Expr.map, Expr.toScript, ih]
  | paren p operand ih => simp only [Expr.map, Expr.toScript, ih]
  | negate p operand ih => simp only [Expr.map, Expr.toScript, ih]
  -- A division asks for the type of its left operand, and types have no places.
  | binary p op lhs rhs ihl ihr => simp only [Expr.map, Expr.toScript, Expr.typeIn_map, ihl, ihr]
  | array p elements ih =>
    simp only [Expr.map, Expr.toScript, Expr.toScriptAll_map_of f t s ih]
  | newArray p element size ih => simp only [Expr.map, Expr.toScript, Name.text_map, ih]

private theorem Block.toScript_map_of {b : Block L NodeId}
    (ih : ∀ st ∈ b.statements, ∀ s, m.Follows g m' st.nodes →
      (st.map f g).toScript t m' s = st.toScript t m s)
    (hb : m.Follows g m' b.nodes) : (b.map f g).toScript t m' = b.toScript t m := by
  obtain ⟨mark, sts⟩ := b
  obtain ⟨s, hs, hs'⟩ := hb mark List.mem_cons_self
  rw [Block.map, Block.toScript_of_get? hs, Block.toScript_of_get? hs', Block.mapAll_eq_map,
    List.map_map]
  exact List.map_congr_left fun st hst => ih st hst s (hb.statement hst)

private theorem Expr.toScript_map_option (s : ScopeId) (value : Option (Expr L)) :
    (value.map (Expr.map f)).map (·.toScript t s) = value.map (·.toScript t s) := by
  cases value with
  | none => rfl
  | some e => exact congrArg some (e.toScript_map f t s)

theorem Stmt.toScript_map (st : Stmt L NodeId) (s : ScopeId) (hst : m.Follows g m' st.nodes) :
    (st.map f g).toScript t m' s = st.toScript t m s := by
  induction st using Stmt.inductionOn generalizing s with
  | declare p type name value =>
    simp only [Stmt.map, Stmt.toScript, Name.text_map, Expr.toScript_map_option]
  | assign p target value => simp only [Stmt.map, Stmt.toScript, Name.text_map, Expr.toScript_map]
  | assignAt p target position value =>
    simp only [Stmt.map, Stmt.toScript, Name.text_map, Expr.toScript_map]
  | print p newline value => simp only [Stmt.map, Stmt.toScript, Expr.toScript_map_option]
  | call p callee arguments =>
    simp only [Stmt.map, Stmt.toScript, Name.text_map,
      Expr.toScriptAll_map_of f t s fun e _ => e.toScript_map f t s]
  | ret p node value => simp only [Stmt.map, Stmt.toScript, Expr.toScript_map_option]
  | ifThen p condition yes ih =>
    simp only [Stmt.map, Stmt.toScript, Expr.toScript_map, Block.toScript_map_of f t ih hst]
  | loop p condition body ih =>
    simp only [Stmt.map, Stmt.toScript, Expr.toScript_map, Block.toScript_map_of f t ih hst]
  | ifElse p condition yes no ihy ihn =>
    -- Numbers of both blocks are followed, so they are followed in each.
    obtain ⟨hyes, hno⟩ := ScopeMap.Follows.of_append hst
    simp only [Stmt.map, Stmt.toScript, Expr.toScript_map, Block.toScript_map_of f t ihy hyes,
      Block.toScript_map_of f t ihn hno]

theorem Block.toScript_map (b : Block L NodeId) (hb : m.Follows g m' b.nodes) :
    (b.map f g).toScript t m' = b.toScript t m :=
  Block.toScript_map_of f t (fun st _ => st.toScript_map f t) hb

end Scripts

/-! ## Items and programs -/

/-- The nodes of an item have the same scopes under their new numbers, or none of them has one. -/
def Item.Tracked (g : NodeId → NodeId) (m m' : ScopeMap) (i : Item L NodeId) : Prop :=
  m.Follows g m' i.nodes ∨ ∀ n ∈ i.nodes, m.get? n = none ∧ m'.get? (g n) = none

/-- The items of a relabeled program are tracked by the scopes that were recorded for both. -/
theorem Program.Relabels.tracked {f : L → L'} {g : NodeId → NodeId} {p : Program L}
    {q : Program L'} (h : p.Relabels f g q) (hp : p.Distinct) {i : Item L NodeId}
    (hi : i ∈ p.items) :
    i.Tracked g (Declarations.ofProgram p).scopes (Declarations.ofProgram q).scopes := by
  have hscopes : ∀ n ∈ i.nodes, (Declarations.ofProgram q).scopes.get? (g n) =
      (Declarations.ofProgram p).scopes.get? n := fun n hn =>
    (Declarations.relabels_ofProgram h).scopes n
      (List.mem_cons_of_mem _ (List.mem_flatMap.mpr ⟨i, hi, hn⟩))
  -- A declared item has scopes at all its nodes and a refused one at none, so no case is between.
  rcases (Declarations.covered_ofProgram hp i hi).nodes with ⟨-, hsome⟩ | ⟨-, hnone⟩
  · refine .inl fun n hn => ?_
    obtain ⟨s, hs⟩ := Option.isSome_iff_exists.mp (hsome n hn)
    exact ⟨s, hs, (hscopes n hn).trans hs⟩
  · exact .inr fun n hn => ⟨hnone n hn, (hscopes n hn).trans (hnone n hn)⟩

namespace Item.Tracked

variable (f : L → L') {g : NodeId → NodeId} {m m' : ScopeMap} (t : Table)

theorem get?_eq {i : Item L NodeId} (h : i.Tracked g m m') {n : NodeId} (hn : n ∈ i.nodes) :
    m'.get? (g n) = m.get? n := by
  rcases h with h | h
  · obtain ⟨s, hs, hs'⟩ := h n hn
    rw [hs, hs']
  · rw [(h n hn).1, (h n hn).2]

theorem acceptedBody?_map {i : Item L NodeId} (h : i.Tracked g m m') :
    (i.map f g).acceptedBody? m' = (i.acceptedBody? m).map (Block.map f g) := by
  cases i with
  | function fn =>
    have hmark := h.get?_eq (n := fn.mark) List.mem_cons_self
    simp only [Item.map, Item.acceptedBody?, Function.map, hmark]
    split_ifs <;> rfl
  | main e =>
    have hmark := h.get?_eq (n := e.mark) List.mem_cons_self
    simp only [Item.map, Item.acceptedBody?, EntryPoint.map, hmark]
    split_ifs <;> rfl

/-- All nodes of an accepted body have scopes. -/
theorem follows_body {i : Item L NodeId} (h : i.Tracked g m m') {body : Block L NodeId}
    (hbody : i.acceptedBody? m = some body) : m.Follows g m' body.nodes := by
  rcases h with h | h
  · exact fun n hn => h n (Item.nodes_of_acceptedBody? hbody n hn)
  · rw [Item.acceptedBody?_eq_none fun n hn => (h n hn).1] at hbody
    cases hbody

theorem toScript?_function {fn : Function L NodeId} (h : (Item.function fn).Tracked g m m') :
    (fn.map f g).toScript? t m' = fn.toScript? t m := by
  have hmark := h.get?_eq (n := fn.mark) List.mem_cons_self
  cases hbody : fn.body with
  | none => simp [Function.toScript?, Function.map, hbody]
  | some body =>
    cases hs : m.get? fn.mark with
    | none => simp [Function.toScript?, Function.map, hmark, hs]
    | some s =>
      have hfollows : m.Follows g m' body.nodes :=
        h.follows_body (by simp [Item.acceptedBody?, hs, hbody])
      simp [Function.toScript?, Function.map, hbody, hmark, hs, body.toScript_map f t hfollows]

theorem toScript?_entryPoint {e : EntryPoint L NodeId} (h : (Item.main e).Tracked g m m') :
    (e.map f g).toScript? t m' = e.toScript? t m := by
  have hmark := h.get?_eq (n := e.mark) List.mem_cons_self
  cases hs : m.get? e.mark with
  | none => simp [EntryPoint.toScript?, EntryPoint.map, hmark, hs]
  | some s =>
    have hfollows : m.Follows g m' e.body.nodes := h.follows_body (by simp [Item.acceptedBody?, hs])
    simp [EntryPoint.toScript?, EntryPoint.map, hmark, hs, e.body.toScript_map f t hfollows]

end Item.Tracked

namespace Program

variable {f : L → L'} {g : NodeId → NodeId} {m m' : ScopeMap} (t : Table) {p : Program L}
  {q : Program L'}

theorem follows_of_mem_acceptedBodies (htracked : ∀ i ∈ p.items, i.Tracked g m m')
    {body : Block L NodeId} (h : body ∈ p.acceptedBodies m) : m.Follows g m' body.nodes := by
  obtain ⟨i, hi, hbody⟩ := List.mem_filterMap.mp h
  exact (htracked i hi).follows_body hbody

variable (hitems : q.items = p.items.map (Item.map f g))
  (htracked : ∀ i ∈ p.items, i.Tracked g m m')
include hitems htracked

theorem acceptedBodies_map : q.acceptedBodies m' = (p.acceptedBodies m).map (Block.map f g) := by
  rw [acceptedBodies, hitems, List.filterMap_map, acceptedBodies, List.map_filterMap]
  exact List.filterMap_congr fun i hi => (htracked i hi).acceptedBody?_map f

theorem references_map : q.references t m' = (p.references t m).map f := by
  rw [references, acceptedBodies_map hitems htracked, List.map_map, references, Report.map_concat,
    List.map_map]
  refine congrArg _ (List.map_congr_left fun body hbody => ?_)
  exact body.references_map f t (follows_of_mem_acceptedBodies htracked hbody)

theorem types_map : q.types t m' = (p.types t m).map f := by
  rw [types, acceptedBodies_map hitems htracked, List.map_map, types, Report.map_concat,
    List.map_map]
  refine congrArg _ (List.map_congr_left fun body hbody => ?_)
  exact body.types_map f t (follows_of_mem_acceptedBodies htracked hbody)

theorem toScript_map : q.toScript t m' = p.toScript t m := by
  have hfunctions : (q.toScript t m').functions = (p.toScript t m).functions := by
    simp only [toScript, hitems, List.filterMap_filterMap, List.filterMap_map]
    refine List.filterMap_congr fun i hi => ?_
    cases i with
    | function fn => exact (htracked _ hi).toScript?_function f t
    | main e => rfl
  have hmains : (q.toScript t m').mains = (p.toScript t m).mains := by
    simp only [toScript, hitems, List.filterMap_filterMap, List.filterMap_map]
    refine List.filterMap_congr fun i hi => ?_
    cases i with
    | function fn => rfl
    | main e => exact (htracked _ hi).toScript?_entryPoint f t
  exact congrArg₂ Script.mk hfunctions hmains

end Program

end Primer
