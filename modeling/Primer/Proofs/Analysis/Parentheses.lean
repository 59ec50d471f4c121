import Primer.Proofs.Analysis.Completion
import Primer.Proofs.Analysis.Exchange
import Primer.Proofs.Typing.Agreement
import Primer.Proofs.Typing.Parentheses

/-!
# Redundant parentheses

A pair of parentheses is put around one expression of a program (`Program.Wraps`), which can be any
(`Program.HasBlock.exists_wraps`). The passes over declarations and references do not see them, and
they are not emitted. The checker sees them in one place: a fresh array `new T[n]` has the type `T`,
and is stored or returned as an array only where it is written directly. In parentheses it is stored
as a `T`.

So the number of mistakes changes only where a fresh array is stored or returned as a whole
(`Program.parentheses_change`).
-/

namespace Primer

variable {L : Type}

/-! ## Parentheses can be everywhere -/

/-- Parentheses can be put around any expression that occurs in another one. -/
theorem Expr.OccursIn.exists_wraps {e whole : Expr L} (h : e.OccursIn whole) :
    ∃ whole', e.Wraps whole whole' := by
  induction h with
  | here => exact ⟨_, .here⟩
  | @inside part whole hpart _ ih =>
    obtain ⟨part', h⟩ := ih
    cases whole with
    | int | float | bool | char | str | read => exact absurd hpart List.not_mem_nil
    -- A part of a list is somewhere in it, and the rest of the list stays.
    | call p callee arguments =>
      obtain ⟨front, rest, rfl⟩ : ∃ front rest, arguments = front ++ part :: rest :=
        List.append_of_mem hpart
      exact ⟨_, .call h⟩
    | array p elements =>
      obtain ⟨front, rest, rfl⟩ : ∃ front rest, elements = front ++ part :: rest :=
        List.append_of_mem hpart
      exact ⟨_, .array h⟩
    | index p base position => exact ⟨_, .index (List.mem_singleton.mp hpart ▸ h)⟩
    | length p operand => exact ⟨_, .length (List.mem_singleton.mp hpart ▸ h)⟩
    | paren p operand => exact ⟨_, .paren (List.mem_singleton.mp hpart ▸ h)⟩
    | negate p operand => exact ⟨_, .negate (List.mem_singleton.mp hpart ▸ h)⟩
    | newArray p element size => exact ⟨_, .newArray (List.mem_singleton.mp hpart ▸ h)⟩
    | binary p op lhs rhs =>
      rcases List.mem_cons.mp hpart with rfl | hpart
      · exact ⟨_, .lhs h⟩
      · exact ⟨_, .rhs (List.mem_singleton.mp hpart ▸ h)⟩

theorem Stmt.exists_wraps {e whole whole' : Expr L} (h : e.Wraps whole whole')
    {st : Stmt L NodeId} (hwhole : whole ∈ st.expressions) : ∃ st', Stmt.Wraps e st st' := by
  cases st with
  | declare p type name value =>
    obtain rfl : value = some whole := Option.mem_toList.mp hwhole
    exact ⟨_, .declare h⟩
  | ret p mark value =>
    obtain rfl : value = some whole := Option.mem_toList.mp hwhole
    exact ⟨_, .ret h⟩
  | print p newline value =>
    obtain rfl : value = some whole := Option.mem_toList.mp hwhole
    exact ⟨_, .print h⟩
  | assign p target value => exact ⟨_, .assign (List.mem_singleton.mp hwhole ▸ h)⟩
  | assignAt p target position value =>
    rcases List.mem_cons.mp hwhole with rfl | hwhole
    · exact ⟨_, .position h⟩
    · exact ⟨_, .value (List.mem_singleton.mp hwhole ▸ h)⟩
  | ifThen p condition yes => exact ⟨_, .ifThen (List.mem_singleton.mp hwhole ▸ h)⟩
  | ifElse p condition yes no => exact ⟨_, .ifElse (List.mem_singleton.mp hwhole ▸ h)⟩
  | loop p condition body => exact ⟨_, .loop (List.mem_singleton.mp hwhole ▸ h)⟩
  | call p callee arguments =>
    obtain ⟨front, rest, rfl⟩ : ∃ front rest, arguments = front ++ whole :: rest :=
      List.append_of_mem hwhole
    exact ⟨_, .call h⟩

/-- A block inside a statement can be exchanged. -/
theorem Stmt.exists_nests {st : Stmt L NodeId} {k k' : Nat} {b : Block L NodeId}
    (hb : (k', b) ∈ st.numberedBlocks k) (b' : Block L NodeId) : ∃ st', Stmt.Nests b b' st st' := by
  cases st with
  | declare | assign | assignAt | ret | print | call => exact absurd hb List.not_mem_nil
  | ifThen p condition yes =>
    obtain ⟨-, rfl⟩ := Prod.mk.inj (List.mem_singleton.mp hb)
    exact ⟨_, .ifThen⟩
  | loop p condition body =>
    obtain ⟨-, rfl⟩ := Prod.mk.inj (List.mem_singleton.mp hb)
    exact ⟨_, .loop⟩
  | ifElse p condition yes no =>
    rcases List.mem_cons.mp hb with heq | hb
    · obtain ⟨-, rfl⟩ := Prod.mk.inj heq
      exact ⟨_, .yes⟩
    · obtain ⟨-, rfl⟩ := Prod.mk.inj (List.mem_singleton.mp hb)
      exact ⟨_, .no⟩

theorem Program.exists_exchange {p : Program L} {mark : NodeId} {x x' : Stmt L NodeId}
    {i i' : Item L NodeId} (hi : i ∈ p.items) (h : i.Exchange mark x x' i') :
    ∃ p', Program.Exchange mark x x' p p' := by
  obtain ⟨root, items, nodeCount⟩ := p
  obtain ⟨front, rest, rfl⟩ : ∃ front rest, items = front ++ i :: rest := List.append_of_mem hi
  exact ⟨_, .mk h⟩

/-- What is exchanged in a block of a program is exchanged in the program. -/
theorem Program.HasBlock.exists_exchange {p : Program L} {layers : List Layer} {k : Nat}
    {b b' : Block L NodeId} {mark : NodeId} {x x' : Stmt L NodeId} (hb : p.HasBlock layers k b)
    (h : b.Exchange mark x x' b') : ∃ p', Program.Exchange mark x x' p p' := by
  induction hb generalizing b' with
  | function hitem hbody =>
    exact Program.exists_exchange (Item.mem_of_mem_numbered hitem) (.function hbody h)
  | main hitem => exact Program.exists_exchange (Item.mem_of_mem_numbered hitem) (.main h)
  | @nested layers k b k₁ st k₂ inner _ hst hinner ih =>
    obtain ⟨st', hnests⟩ := Stmt.exists_nests hinner b'
    obtain ⟨node, sts⟩ := b
    obtain ⟨front, rest, rfl⟩ : ∃ front rest, sts = front ++ st :: rest :=
      List.append_of_mem (Block.mem_of_mem_numbered hst)
    exact ih (.inside hnests h)

/-- Parentheses can be put around any expression of a program. -/
theorem Program.HasBlock.exists_wraps {p : Program L} {layers : List Layer} {k : Nat}
    {b : Block L NodeId} (hb : p.HasBlock layers k b) {st : Stmt L NodeId} (hst : st ∈ b.statements)
    {whole : Expr L} (hwhole : whole ∈ st.expressions) {e : Expr L} (he : e.OccursIn whole) :
    ∃ p', Program.Wraps e b.mark st p p' := by
  obtain ⟨whole', hwraps⟩ := he.exists_wraps
  obtain ⟨st', hst'⟩ := Stmt.exists_wraps hwraps hwhole
  obtain ⟨node, sts⟩ := b
  obtain ⟨front, rest, rfl⟩ : ∃ front rest, sts = front ++ st :: rest := List.append_of_mem hst
  obtain ⟨p', hp'⟩ := hb.exists_exchange (@Block.Exchange.here _ _ node st st' front rest)
  exact ⟨p', st', hst', hp'⟩

/-! ## References and code -/

namespace Expr

variable {e x x' : Expr L}

theorem Wraps.references_eq (h : e.Wraps x x') (t : Table) (s : ScopeId) :
    x'.references t s = x.references t s := by
  induction h with
  | here => rfl
  | call _ ih | array _ ih =>
    simp [references, referencesAll_eq_flatMap, ih]
  | index _ ih | length _ ih | paren _ ih | negate _ ih | lhs _ ih | rhs _ ih | newArray _ ih =>
    simp only [references, ih]

section Emission

open Machine

variable {c : Context} {s : ScopeId}

theorem emitAll_exchange (h : ∀ f, x'.emit c s f = x.emit c s f) (front rest : List (Expr L))
    (f : Frame) : emitAll c s (front ++ x' :: rest) f = emitAll c s (front ++ x :: rest) f := by
  induction front generalizing f with
  | nil => simp only [List.nil_append, emitAll, h]
  | cons y front ih => simp only [List.cons_append, emitAll, ih]

theorem emitElements_exchange (h : ∀ f, x'.emit c s f = x.emit c s f) (element : Element)
    (position : Nat) (front rest : List (Expr L)) (f : Frame) :
    emitElements c s element position (front ++ x' :: rest) f =
      emitElements c s element position (front ++ x :: rest) f := by
  induction front generalizing position f with
  | nil => simp only [List.nil_append, emitElements, h]
  | cons y front ih => simp only [List.cons_append, emitElements, ih]

theorem Wraps.typeIn_eq (h : e.Wraps x x') (t : Table) (s : ScopeId) :
    x'.typeIn t s = x.typeIn t s :=
  h.check_alike.type

/-- Parentheses are not emitted. -/
theorem Wraps.emit_eq (h : e.Wraps x x') (f : Frame) : x'.emit c s f = x.emit c s f := by
  induction h generalizing f with
  | here => rfl
  | call h ih => simp only [emit, emitAll_exchange ih, List.length_append, List.length_cons]
  | @array p front x x' rest h ih =>
    -- The elements are stored by the type of the first one, which may be the exchanged one.
    have hhead : (front ++ x' :: rest).head?.map (·.typeIn c.table s) =
        (front ++ x :: rest).head?.map (·.typeIn c.table s) := by
      cases front with
      | nil => exact congrArg some (h.typeIn_eq c.table s)
      | cons y front => rfl
    simp only [emit, hhead, emitElements_exchange ih, List.length_append, List.length_cons]
  | index h ih | length h ih | paren h ih | negate h ih | lhs h ih | rhs h ih | newArray h ih =>
    simp only [emit, ih]

end Emission

end Expr

/-- Only the pass over types sees parentheses in a statement. -/
theorem Stmt.Wraps.agrees {e : Expr L} {st st' : Stmt L NodeId} (h : Stmt.Wraps e st st') :
    st.Agrees st' where
  nodes := by cases h <;> rfl
  declarations s d := by cases h <;> rfl
  references t m s := by
    cases h with
    | call h => simp [Stmt.references, Expr.referencesAll_eq_flatMap, h.references_eq]
    | declare h | assign h | position h | value h | ifThen h | ifElse h | loop h | ret h
    | print h => simp only [Stmt.references, Expr.referencesOption, h.references_eq]
  emit c m s f := by
    cases h with
    | call h =>
      simp only [Stmt.emit, Expr.emitAll_exchange h.emit_eq, List.length_append, List.length_cons]
    | declare h | assign h | position h | value h | ifThen h | ifElse h | loop h | ret h
    | print h => simp only [Stmt.emit, h.emit_eq]

/-! ## Mistaken types -/

/-- The value that a statement stores or returns as a whole, and the type that is asked for. -/
def Stmt.received? (t : Table) (m : ScopeMap) (s : ScopeId) : Stmt L NodeId → Option (Expr L × Ty)
  | .declare _ type _ (some value) => (Ty.named? type.text).map (value, ·)
  | .assign _ target value => (t.varType? s target.text).map (value, ·)
  | .ret _ node (some value) => ((m.get? node).bind t.functionOf).map (value, ·.2.returns)
  | _ => none

section Statements

variable {t : Table} {m : ScopeMap} {s : ScopeId}

/-- Findings in front of others, as many as before. -/
private theorem length_append_shift {α : Type} {xs xs' ys ys' : List α} {lost gained : Nat}
    (hxs : xs'.length = xs.length) (hys : ys'.length + lost = ys.length + gained) :
    (xs' ++ ys').length + lost = (xs ++ ys).length + gained := by
  simp only [List.length_append]
  omega

/-- In a statement, parentheses count where a value is stored or returned as a whole. -/
theorem Stmt.Wraps.shifts {e : Expr L} {st st' : Stmt L NodeId} {lost gained : Nat}
    (h : Stmt.Wraps e st st')
    (hstore : ∀ x x' asked, st.received? t m s = some (x, asked) → e.Wraps x x' →
      Expr.StoreShifts lost gained x x' asked (x.typeIn t s))
    (hnone : st.received? t m s = none → lost = gained) :
    Report.Shifts lost gained (st.types t m s) (st'.types t m s) := by
  cases h with
  -- Three forms receive a value as a whole. The value is checked, and then compared with what is
  -- asked for, if that is known.
  | @declare p type name x x' h =>
    refine .ofFindings (length_append_shift h.check_alike.count ?_)
    rw [h.check_alike.type]
    cases hasked : Ty.named? type.text with
    | none => simp [hnone (by simp [Stmt.received?, hasked])]
    | some asked => exact (hstore x x' asked (by simp [Stmt.received?, hasked]) h).store name.text
  | @assign p target x x' h =>
    refine .ofFindings (length_append_shift h.check_alike.count ?_)
    rw [h.check_alike.type]
    cases hasked : t.varType? s target.text with
    | none => simp [hnone (by simp [Stmt.received?, hasked])]
    | some asked => exact (hstore x x' asked (by simp [Stmt.received?, hasked]) h).store target.text
  | @ret p node x x' h =>
    rw [← Nat.zero_add lost, ← Nat.zero_add gained]
    simp only [Stmt.types, Option.map_some, Option.getD_some]
    refine .append (.ofFindings h.check_alike.count) (.inScopeOf fun r hr => ?_)
    rw [h.check_alike.type]
    cases hf : t.functionOf r with
    | none =>
      obtain rfl := hnone (by simp [Stmt.received?, hr, hf])
      exact .refl _ _
    | some f =>
      have hreceived : (Stmt.ret p node (some x)).received? t m s = some (x, f.2.returns) := by
        simp [Stmt.received?, hr, hf]
      exact .ofFindings ((hstore x x' f.2.returns hreceived h).ret f.2 p rfl)
  -- All other forms see the type of an expression only.
  | position h | value h =>
    obtain rfl := hnone rfl
    refine .ofFindings ?_
    simp only [Expr.checkElement, h.check_alike.type, h.check_alike.count, h.place_eq,
      List.length_append]
  | ifThen h | ifElse h | loop h =>
    obtain rfl := hnone rfl
    refine .append_right (.ofFindings ?_) _
    simp only [Expr.checkCondition, h.check_alike.type, h.check_alike.count, h.place_eq,
      List.length_append]
  | print h =>
    obtain rfl := hnone rfl
    refine .ofFindings ?_
    simp only [Expr.checkPrint, h.check_alike.type, h.check_alike.count, h.place_eq,
      List.length_append]
  | @call p callee front x x' rest h =>
    obtain rfl := hnone rfl
    refine .ofFindings (congrArg (· + lost) ?_)
    exact ((h.checkAll_alike h.check_alike front rest).call t s callee).count

end Statements

/-- The statement stores or returns the fresh array `e` as a whole. The type `asked` is asked for,
and `element` is that of the elements of the array. -/
structure Stmt.StoresFresh (t : Table) (m : ScopeMap) (mark : NodeId) (st : Stmt L NodeId)
    (e : Expr L) (asked element : Ty) : Prop where
  fresh : e.isNewArray = true
  received : ∃ s, m.get? mark = some s ∧ st.received? t m s = some (e, asked) ∧
    e.HasType t s element

namespace Program.Wraps

open Declarations (ofProgram)

variable {e : Expr L} {mark : NodeId} {st : Stmt L NodeId} {p p' : Program L}

theorem agrees (h : Program.Wraps e mark st p p') : p.Agrees p' := by
  obtain ⟨st', hst, hexchange⟩ := h
  exact hexchange.agrees hst.agrees

/-- Without the parentheses the array is stored, with them its elements are. -/
theorem shifts_of_storesFresh (hp : p.Distinct) (h : Program.Wraps e mark st p p')
    {asked element : Ty}
    (hfresh : st.StoresFresh (ofProgram p).table (ofProgram p).scopes mark e asked element) :
    Report.Shifts (if element.arrayOf? = some asked then 0 else 1)
      (if asked = element then 0 else 1)
      (p.types (ofProgram p).table (ofProgram p).scopes)
      (p'.types (ofProgram p).table (ofProgram p).scopes) := by
  obtain ⟨st', hst, hexchange⟩ := h
  obtain ⟨s, hs, hreceived, htype⟩ := hfresh.received
  refine hexchange.shifts hp (fun r hr => ?_) (fun hnone => ?_)
  · obtain rfl : s = r := Option.some.inj (hs.symm.trans hr)
    refine hst.shifts (fun x x' d hx hwraps => ?_) (fun hnone => ?_)
    · obtain ⟨rfl, rfl⟩ := Prod.mk.inj (Option.some.inj (hreceived.symm.trans hx))
      -- The array is the whole value, so the parentheses are around all of it.
      obtain rfl := hwraps.eq_paren
      have htypeIn := (Expr.hasType_iff.mp htype).1
      rw [htypeIn]
      exact .of_fresh hfresh.fresh rfl _ htype.ne_error (htype.ne_void_of_isNewArray hfresh.fresh)
    · rw [hreceived] at hnone
      cases hnone
  · rw [hs] at hnone
    cases hnone

/-- In all other places the number of findings stays. -/
theorem shifts_of_not_storesFresh (hp : p.Distinct) (h : Program.Wraps e mark st p p')
    (hfresh : ∀ asked element,
      ¬st.StoresFresh (ofProgram p).table (ofProgram p).scopes mark e asked element) :
    Report.Shifts 0 0 (p.types (ofProgram p).table (ofProgram p).scopes)
      (p'.types (ofProgram p).table (ofProgram p).scopes) := by
  obtain ⟨st', hst, hexchange⟩ := h
  refine hexchange.shifts hp (fun s hs => ?_) (fun _ => rfl)
  refine hst.shifts (fun x x' asked hx hwraps => ?_) (fun _ => rfl)
  by_cases hwhole : x = e ∧ e.isNewArray = true
  · obtain ⟨rfl, hnew⟩ := hwhole
    -- A fresh array that is well typed would be one of those that are left out.
    have herror : x.typeIn (ofProgram p).table s = .error := by
      by_contra hne
      exact hfresh asked _ ⟨hnew, s, hs, hx, Expr.hasType_iff.mpr ⟨rfl, hne⟩⟩
    rw [herror]
    exact .of_error _ _ _
  · refine .of_isNewArray_eq (hwraps.isNewArray_eq_of_ne ?_) _ _
    rwa [not_and_or, Bool.not_eq_true] at hwhole

end Program.Wraps

section Results

variable {p p' : Program Location}

theorem Program.Agrees.count_types {lost gained : Nat} (hp : p.Distinct) (h : p.Agrees p')
    (htypes : Report.Shifts lost gained (p.types p.results.table p.results.scopes)
      (p'.types p.results.table p.results.scopes)) :
    p'.results.types.count + lost = p.results.types.count + gained := by
  simp only [Program.results, Diagnostics.count, h.declarations]
  exact htypes.count (Program.fault_types hp)

theorem Program.Agrees.declarations_results (h : p.Agrees p') :
    p'.results.declarations = p.results.declarations := by
  simp only [Program.results, h.declarations]

theorem Program.Agrees.references_results (h : p.Agrees p') :
    p'.results.references = p.results.references := by
  simp only [Program.results, h.declarations, h.references]

/-- Programs that agree, with as many type errors, have the same code. -/
theorem Program.Agrees.codeUnit_eq (h : p.Agrees p')
    (htypes : p'.results.types.count = p.results.types.count) (name : String) :
    p'.results.codeUnit p' name = p.results.codeUnit p name := by
  have herrors : p'.results.errorCount = p.results.errorCount := by
    simp only [Analysis.errorCount, h.declarations_results, h.references_results, htypes]
  have haccepted : p'.results.isAccepted = p.results.isAccepted := by
    simp only [Analysis.isAccepted, herrors]
  have hemit : p'.emit p'.results.table p'.results.scopes name =
      p.emit p.results.table p.results.scopes name := by
    simp only [Program.results, h.declarations, h.emit]
  simp only [Analysis.codeUnit, Analysis.ifAccepted, haccepted, herrors, hemit]

/-- Parentheses can be put around every expression of a program. They change nothing, unless they
are around a fresh array that is stored or returned as a whole. There they add a type error if an
array of its elements is asked for, and take one away if one element is. -/
theorem Program.parentheses_change (hp : p.Distinct) :
    (∀ layers k b, p.HasBlock layers k b → ∀ st ∈ b.statements, ∀ whole ∈ st.expressions,
      ∀ e : Expr Location, e.OccursIn whole → ∃ p', Program.Wraps e b.mark st p p') ∧
    ∀ e mark st p', Program.Wraps e mark st p p' →
      ∃ a a', p.analyze = .ok a ∧ p'.analyze = .ok a' ∧ a'.declarations = a.declarations ∧
        a'.references = a.references ∧
        (∀ asked element, st.StoresFresh a.table a.scopes mark e asked element →
          element.arrayOf? = some asked → a'.types.count = a.types.count + 1) ∧
        (∀ element, st.StoresFresh a.table a.scopes mark e element element →
          a.types.count = a'.types.count + 1) ∧
        ((∀ asked element, st.StoresFresh a.table a.scopes mark e asked element →
            element.arrayOf? ≠ some asked ∧ asked ≠ element) →
          a'.types.count = a.types.count ∧
            ∀ name, a'.codeUnit p' name = a.codeUnit p name) := by
  refine ⟨fun _ _ _ hb _ hst _ hwhole _ he => hb.exists_wraps hst hwhole he, ?_⟩
  intro e mark st p' h
  have hagrees := h.agrees
  -- Parentheses have no number of their own.
  have hp' : p'.Distinct := by
    rw [Program.Distinct, hagrees.nodes]
    exact hp
  -- The mistake at the stored value comes or goes with the type that it is given. All others stay.
  have hcount : ∀ {asked element}, st.StoresFresh p.results.table p.results.scopes mark e asked
      element → p'.results.types.count + (if element.arrayOf? = some asked then 0 else 1) =
        p.results.types.count + if asked = element then 0 else 1 :=
    fun hfresh => hagrees.count_types hp (h.shifts_of_storesFresh hp hfresh)
  refine ⟨p.results, p'.results, Program.analyze_eq_results hp, Program.analyze_eq_results hp',
    hagrees.declarations_results, hagrees.references_results, ?_, ?_, ?_⟩
  -- Asked for is the array: without parentheses there is one, with them only its element.
  · intro asked element hfresh harray
    have hne : asked ≠ element := fun heq => Ty.arrayOf?_ne_some_self element (heq ▸ harray)
    have hmore := hcount hfresh
    rwa [if_pos harray, if_neg hne] at hmore
  -- Asked for is the element, so it is the other way round.
  · intro element hfresh
    have hsame := hcount hfresh
    rw [if_neg (Ty.arrayOf?_ne_some_self element), if_pos rfl] at hsame
    exact hsame.symm
  · intro hneither
    have htypes : p'.results.types.count = p.results.types.count := by
      by_cases hsome : ∃ asked element,
          st.StoresFresh p.results.table p.results.scopes mark e asked element
      · -- The array is no more right than the element is.
        obtain ⟨asked, element, hfresh⟩ := hsome
        obtain ⟨harray, hne⟩ := hneither asked element hfresh
        have hsame := hcount hfresh
        rw [if_neg harray, if_neg hne] at hsame
        exact Nat.add_right_cancel hsame
      -- Elsewhere parentheses are looked through.
      · have hnot : ∀ asked element,
            ¬st.StoresFresh p.results.table p.results.scopes mark e asked element :=
          fun asked element hfresh => hsome ⟨asked, element, hfresh⟩
        exact hagrees.count_types hp (h.shifts_of_not_storesFresh hp hnot)
    exact ⟨htypes, hagrees.codeUnit_eq htypes⟩

end Results

/-- `main { type a = value; print(printed); }`, where there may be nothing to print. -/
def Program.keeping (type : String) (value : Expr Location) (printed : Option (Expr Location)) :
    Program Location where
  root := ⟨2⟩
  items := [.main ⟨.unknown, ⟨0⟩, .mk ⟨1⟩
    (.declare .unknown ⟨type, .unknown⟩ ⟨"a", .unknown⟩ (some value) ::
      printed.toList.map fun e => .print .unknown false (some e))⟩]
  nodeCount := 3

theorem Program.distinct_keeping (type : String) (value : Expr Location)
    (printed : Option (Expr Location)) : (Program.keeping type value printed).Distinct := by
  have hnodes : [(⟨2⟩ : NodeId), ⟨0⟩, ⟨1⟩].Nodup := by decide
  cases printed <;> exact hnodes

/-- `new int[3]` -/
def Expr.threeInts : Expr Location :=
  .newArray .unknown ⟨"int", .unknown⟩ (.int .unknown 3)

/-- `type a = new int[3];` -/
def Stmt.keepThreeInts (type : String) : Stmt Location NodeId :=
  .declare .unknown ⟨type, .unknown⟩ ⟨"a", .unknown⟩ (some Expr.threeInts)

theorem Program.wraps_keeping (type : String) (printed : Option (Expr Location)) :
    Program.Wraps Expr.threeInts ⟨1⟩ (.keepThreeInts type) (.keeping type Expr.threeInts printed)
      (.keeping type (.paren .unknown Expr.threeInts) printed) :=
  ⟨_, .declare .here, @Exchange.mk _ _ _ _ _ [] _ _ [] _ (.main (@Block.Exchange.here _ _ _ _ _ []
    _))⟩

/-- `a[0]` -/
def Expr.firstOfA : Expr Location :=
  .index .unknown ⟨"a", .unknown⟩ (.int .unknown 0)

/-- `first + 1` -/
def Expr.plusOne (first : Expr Location) : Expr Location :=
  .binary .unknown .add first (.int .unknown 1)

/-- One mistake more with `int[] a = (new int[3]);`, one less with `int a = (new int[3]);`, and as
many, with the same code, with `print((a[0]) + 1);`. -/
theorem Program.parentheses_change_keeping :
    (∃ a a', (Program.keeping "int[]" .threeInts (some .firstOfA)).analyze = .ok a ∧
      (Program.keeping "int[]" (.paren .unknown .threeInts) (some .firstOfA)).analyze = .ok a' ∧
      a'.types.count = a.types.count + 1) ∧
    (∃ a a', (Program.keeping "int" .threeInts (some .firstOfA)).analyze = .ok a ∧
      (Program.keeping "int" (.paren .unknown .threeInts) (some .firstOfA)).analyze = .ok a' ∧
      a.types.count = a'.types.count + 1) ∧
    ∃ a a', (Program.keeping "int[]" .threeInts (some (.plusOne .firstOfA))).analyze = .ok a ∧
      (Program.keeping "int[]" .threeInts (some (.plusOne (.paren .unknown .firstOfA)))).analyze =
        .ok a' ∧
      a'.types.count = a.types.count ∧
      a'.codeUnit (.keeping "int[]" .threeInts (some (.plusOne (.paren .unknown .firstOfA))))
          "Unit" =
        a.codeUnit (.keeping "int[]" .threeInts (some (.plusOne .firstOfA))) "Unit" := by
  refine ⟨?_, ?_, ?_⟩
  -- The array is asked for.
  · have hp := Program.distinct_keeping "int[]" .threeInts (some .firstOfA)
    obtain ⟨a, a', ha, ha', -, -, hmore, -⟩ :=
      (Program.parentheses_change hp).2 _ _ _ _ (Program.wraps_keeping "int[]" (some .firstOfA))
    obtain rfl := Except.ok.inj (ha.symm.trans (Program.analyze_eq_results hp))
    exact ⟨_, a', ha, ha', hmore .intArray .int ⟨rfl, ⟨2⟩, rfl, rfl, .newArray rfl rfl .int⟩ rfl⟩
  -- The element is asked for.
  · have hp := Program.distinct_keeping "int" .threeInts (some .firstOfA)
    obtain ⟨a, a', ha, ha', -, -, -, hless, -⟩ :=
      (Program.parentheses_change hp).2 _ _ _ _ (Program.wraps_keeping "int" (some .firstOfA))
    obtain rfl := Except.ok.inj (ha.symm.trans (Program.analyze_eq_results hp))
    exact ⟨_, a', ha, ha', hless .int ⟨rfl, ⟨2⟩, rfl, rfl, .newArray rfl rfl .int⟩⟩
  -- Printed is no fresh array, so nothing changes.
  · have hp := Program.distinct_keeping "int[]" .threeInts (some (.plusOne .firstOfA))
    have hwraps : Program.Wraps .firstOfA ⟨1⟩ (.print .unknown false (some (.plusOne .firstOfA)))
        (.keeping "int[]" .threeInts (some (.plusOne .firstOfA)))
        (.keeping "int[]" .threeInts (some (.plusOne (.paren .unknown .firstOfA)))) :=
      ⟨_, .print (.lhs .here), @Exchange.mk _ _ _ _ _ [] _ _ [] _
        (.main (@Block.Exchange.here _ _ _ _ _ [.keepThreeInts "int[]"] _))⟩
    obtain ⟨a, a', ha, ha', -, -, -, -, hsame⟩ :=
      (Program.parentheses_change hp).2 _ _ _ _ hwraps
    obtain ⟨htypes, hcode⟩ := hsame fun _ _ hfresh => by cases hfresh.fresh
    exact ⟨a, a', ha, ha', htypes, hcode "Unit"⟩

/-- `new int[3]` is stored as an array, and `(new int[3])` as an integer. -/
theorem Program.parentheses_change_fresh_array :
    (∃ a a', (Program.keeping "int[]" .threeInts none).analyze = .ok a ∧
      (Program.keeping "int[]" (.paren .unknown .threeInts) none).analyze = .ok a' ∧
      a.isAccepted = true ∧ a'.types.count = 1) ∧
    ∃ a a', (Program.keeping "int" .threeInts none).analyze = .ok a ∧
      (Program.keeping "int" (.paren .unknown .threeInts) none).analyze = .ok a' ∧
      a.types.count = 1 ∧ a'.isAccepted = true :=
  ⟨⟨_, _, rfl, rfl, rfl, rfl⟩, _, _, rfl, rfl, rfl, rfl⟩

end Primer
