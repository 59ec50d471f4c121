import Primer.Proofs.Analysis.Completion
import Primer.Proofs.Declaration.Reordering
import Primer.Proofs.Machine.Likeness
import Primer.Proofs.Script.Outline

/-!
# The order of items does not matter

A program whose items change places is accepted as before, every item has the same routine, and the
script consists of the same pieces of text in the new order (`Program.generated_perm`). Symbols and
scopes get other numbers, but what is found and generated is the same in tables that differ in
numbers only (`Primer.Proofs.Analysis.Likeness`, `Primer.Proofs.Machine.Likeness`).
-/

namespace Primer

open Machine

/-! ## Pieces of text -/

/-- The text of a function in the script, if it is not indented too far. -/
def Function.chunk? (a : Analysis) (f : Function Location NodeId) : Option String := do
  let g ← f.toScript? a.table a.scopes
  let lines ← g.layout.toOption
  return String.join (lines.map Script.Line.render)

/-- The text of an entry point in the script. -/
def EntryPoint.chunk? (a : Analysis) (e : EntryPoint Location NodeId) : Option String := do
  let sts ← e.toScript? a.table a.scopes
  let lines ← (Script.Stmt.layoutBlock 0 sts).toOption
  return String.join (lines.map Script.Line.render)

namespace Program

/-- The functions among the items. -/
def functions (p : Program Location) : List (Function Location NodeId) :=
  p.items.filterMap Item.function?

/-- The entry points among the items. -/
def entryPoints (p : Program Location) : List (EntryPoint Location NodeId) :=
  p.items.filterMap Item.main?

/-- The script of a program has the given text of each function, in the order of items, and after
them that of the entry point. -/
structure WrittenAs (p : Program Location) (a : Analysis)
    (chunk : Function Location NodeId → String) (main : String) : Prop where
  functions : ∀ f ∈ p.functions, f.chunk? a = some (chunk f)
  entryPoint : ∀ e ∈ p.entryPoints, e.chunk? a = some main
  noEntryPoint : p.entryPoints = [] → main = ""
  text : a.scriptText p = .ok (String.join (p.functions.map chunk) ++ main)

end Program

namespace Script

theorem join_map_flatMap {α β : Type} (xs : List α) (f : α → List β) (render : β → String) :
    String.join ((xs.flatMap f).map render) =
      String.join (xs.map fun x => String.join ((f x).map render)) := by
  induction xs with
  | nil => rfl
  | cons x xs ih =>
    rw [List.flatMap_cons, List.map_append, String.join_append, ih, List.map_cons,
      String.join_cons]

/-- The lines of an entry point, however far they are indented. -/
def mainLines (sts : List Stmt) : List Line :=
  Clause.linesAll 0 (Passage.suite (Stmt.passages sts))

variable {s : Script}

/-- The text of a script is that of its functions and then that of its entry points. -/
theorem join_render_lines :
    String.join (s.lines.map Line.render) =
      String.join (s.functions.map fun g => String.join (g.lines.map Line.render)) ++
        String.join (s.mains.map fun sts => String.join ((mainLines sts).map Line.render)) := by
  rw [lines, List.map_append, String.join_append, join_map_flatMap, join_map_flatMap]
  rfl

theorem layout_of_mem_functions (hscoped : s.isScoped = true) (hfits : Fits s.lines)
    {g : Function} (hg : g ∈ s.functions) : g.layout = .ok g.lines := by
  have hbody : Stmt.areScoped g.body = true :=
    List.all_eq_true.mp (Bool.and_eq_true_iff.mp hscoped).1 g hg
  have hlines : Fits g.lines := fun l hl =>
    hfits l (List.mem_append_left _ (List.mem_flatMap.mpr ⟨g, hg, hl⟩))
  rw [g.layout_eq hbody, checked, if_pos hlines]

theorem layoutBlock_of_mem_mains (hscoped : s.isScoped = true) (hfits : Fits s.lines)
    {sts : List Stmt} (hsts : sts ∈ s.mains) : Stmt.layoutBlock 0 sts = .ok (mainLines sts) := by
  have hscoped' : Stmt.areScoped sts = true :=
    List.all_eq_true.mp (Bool.and_eq_true_iff.mp hscoped).2 sts hsts
  have hlines : Fits (mainLines sts) := fun l hl =>
    hfits l (List.mem_append_right _ (List.mem_flatMap.mpr ⟨sts, hsts, hl⟩))
  rw [Stmt.layoutBlock_eq 0 sts hscoped', checked]
  exact if_pos hlines

end Script

/-! ## Bodies -/

section Bodies

variable {L : Type} {R : SymbolId → SymbolId → Prop} {t t' : Table} {m m' : ScopeMap}
  {i : Item L NodeId}

theorem Item.acceptedBody?_congr (hnodes : ∀ node ∈ i.nodes, Table.AlikeAt R t t' m m' node) :
    i.acceptedBody? m = i.acceptedBody? m' := by
  cases i with
  | function f =>
    obtain ⟨s, s', hs, hs', -⟩ := hnodes f.mark List.mem_cons_self
    simp [Item.acceptedBody?, hs, hs']
  | main e =>
    obtain ⟨s, s', hs, hs', -⟩ := hnodes e.mark List.mem_cons_self
    simp [Item.acceptedBody?, hs, hs']

end Bodies

namespace Program

variable {p p' : Program Location} {a a' : Analysis}

theorem exists_analyze (hp : p.Distinct) : ∃ a, p.analyze = .ok a :=
  ⟨p.results, analyze_eq_results hp⟩

section Permuted

variable (hp : p.Distinct) (hp' : p'.Distinct) (hitems : p.items.Perm p'.items)
  (ha : p.analyze = .ok a) (ha' : p'.analyze = .ok a')

include hp hp' hitems ha ha'

/-- A program is accepted if the one with the items in another order is. -/
theorem isAccepted_of_perm (haccepted : a.isAccepted = true) : a'.isAccepted = true := by
  obtain ⟨htable, hscopes, hclean, hreferences, htypes⟩ := of_isAccepted ha haccepted
  obtain ⟨htable', hscopes', hiff⟩ := of_analyze ha'
  have hclean' : (Declarations.ofProgram p').findings = [] :=
    (clean_iff_wellDeclared hp').mpr (((clean_iff_wellDeclared hp).mp hclean).perm hitems)
  rw [htable, hscopes, references_eq_empty_iff] at hreferences
  rw [htable, hscopes, types_eq_empty_iff] at htypes
  -- The same bodies are looked at, and the same is reported about them.
  have hbody : ∀ i ∈ p'.items, ∀ body,
      i.acceptedBody? (Declarations.ofProgram p').scopes = some body →
      i ∈ p.items ∧ i.acceptedBody? (Declarations.ofProgram p).scopes = some body ∧
        ∀ node ∈ body.nodes, p.AlikeAt p' node := by
    intro i hi body haccept
    have hnodes := alikeAt hp hp' hclean hclean' hitems (hitems.mem_iff.mpr hi)
    exact ⟨hitems.mem_iff.mpr hi, (Item.acceptedBody?_congr hnodes).trans haccept,
      fun node hn => hnodes node (Item.nodes_of_acceptedBody? haccept node hn)⟩
  rw [hiff, htable', hscopes', references_eq_empty_iff, types_eq_empty_iff]
  refine ⟨hclean', fun i hi body haccept => ?_, fun i hi body haccept => ?_⟩
  · obtain ⟨hi, haccept, hnodes⟩ := hbody i hi body haccept
    have hsame := Block.references_congr (isRenaming hp hp') hnodes
    exact hsame.symm.trans (hreferences i hi body haccept)
  · obtain ⟨hi, haccept, hnodes⟩ := hbody i hi body haccept
    have hsame := Block.types_congr (isRenaming hp hp') hnodes
    exact hsame.symm.trans (htypes i hi body haccept)

/-- An item has the same routine in both programs, or overflows its frame in both. -/
theorem emit?_perm (haccepted : a.isAccepted = true) {i : Item Location NodeId}
    (hi : i ∈ p.items) : i.emit? a'.table a'.scopes = i.emit? a.table a.scopes := by
  have haccepted' := isAccepted_of_perm hp hp' hitems ha ha' haccepted
  obtain ⟨htable, hscopes, hclean, -⟩ := of_isAccepted ha haccepted
  obtain ⟨htable', hscopes', hclean', -⟩ := of_isAccepted ha' haccepted'
  -- Symbols have other numbers in the other table, and so have scopes. Items stay alike.
  have hR := isRenaming hp hp'
  have hnodes := alikeAt hp hp' hclean hclean' hitems hi
  unfold Program.AlikeAt at hnodes
  rw [← htable, ← htable', ← hscopes, ← hscopes'] at hnodes
  rw [← htable, ← htable'] at hR
  obtain ⟨k, hk⟩ := Item.exists_mem_numbered (k := 0) hi
  obtain ⟨k', hk'⟩ := Item.exists_mem_numbered (k := 0) (hitems.mem_iff.mp hi)
  -- The symbols of the item follow each other in both tables, from two different beginnings.
  have hC : ∀ j < i.symbolCount, p.Corresponds p' ⟨k + j⟩ ⟨k' + j⟩ :=
    fun j hj => ⟨i, k, k', j, hk, hk', hj, rfl, rfl⟩
  cases i with
  | function f =>
    obtain ⟨body, s, returns, types, hf, hwell⟩ := wellTyped_function hp ha haccepted hk
    obtain ⟨body', s', returns', types', hf', -⟩ := wellTyped_function hp' ha' haccepted' hk'
    obtain ⟨rfl, rfl, rfl⟩ := hf.unique hf'
    let c : Context := ⟨a.table, SymbolId.block (k + 1) f.parameters.length⟩
    let c' : Context := ⟨a'.table, SymbolId.block (k' + 1) f.parameters.length⟩
    have hc : Context.Alike (p.Renames p') c c' := by
      refine ⟨hR, ?_⟩
      have := hf.forall₂_parameters hf' hC
      rw [htable, htable'] at this
      exact this
    -- Code does not mention symbols, so two alike frames end with the same code.
    obtain ⟨code, g, hcode⟩ := Block.WellTyped.exists_emits (c := c) hwell
      (.start (Signature.argumentSlots ⟨types, returns⟩))
    obtain ⟨g', hcode', hg⟩ := hcode.alike hc
      (fun node hn => hnodes node (by simpa [Item.nodes, hf.body_eq] using .inr hn)) (.start _)
    have hsame := hf.emit?_eq hcode
    rw [hg.nextSlot, hg.finish_eq] at hsame
    exact (hf'.emit?_eq hcode').trans hsame.symm
  | main e =>
    obtain ⟨s, he, hwell⟩ := wellTyped_main hp ha haccepted hk
    obtain ⟨s', he', -⟩ := wellTyped_main hp' ha' haccepted' hk'
    obtain ⟨code, g, hcode⟩ := Block.WellTyped.exists_emits (c := ⟨a.table, []⟩) hwell
      (.start Signature.ofMain.argumentSlots)
    -- There are no arguments to compare, only the tables.
    have hc : Context.Alike (p.Renames p') ⟨a.table, []⟩ ⟨a'.table, []⟩ := ⟨hR, .nil⟩
    obtain ⟨g', hcode', hg⟩ := hcode.alike hc
      (fun node hn => hnodes node (List.mem_cons_of_mem _ hn)) (.start _)
    have hsame := he.emit?_eq hcode
    rw [hg.nextSlot, hg.finish_eq] at hsame
    exact (he'.emit?_eq hcode').trans hsame.symm

/-- A function has the same script in both programs. -/
theorem exists_toScript?_function_perm (haccepted : a.isAccepted = true)
    {f : Function Location NodeId} (hf : f ∈ p.functions) :
    ∃ g, f.toScript? a.table a.scopes = some g ∧ f.toScript? a'.table a'.scopes = some g := by
  have haccepted' := isAccepted_of_perm hp hp' hitems ha ha' haccepted
  obtain ⟨htable, hscopes, hclean, -⟩ := of_isAccepted ha haccepted
  obtain ⟨htable', hscopes', hclean', -⟩ := of_isAccepted ha' haccepted'
  obtain ⟨i, hi, hfi⟩ := List.mem_filterMap.mp hf
  cases i with
  | main e => cases hfi
  | function f' =>
    obtain rfl := Option.some.inj hfi
    have hnodes := alikeAt hp hp' hclean hclean' hitems hi
    obtain ⟨k, hk⟩ := Item.exists_mem_numbered (k := 0) hi
    obtain ⟨k', hk'⟩ := Item.exists_mem_numbered (k := 0) (hitems.mem_iff.mp hi)
    obtain ⟨body, s, returns, types, hf⟩ := entered_item hp hclean hk
    obtain ⟨body', s', returns', types', hf'⟩ := entered_item hp' hclean' hk'
    -- The header decides both, and it is the same header.
    obtain ⟨rfl, rfl, rfl⟩ := hf.unique hf'
    rw [htable, htable', hscopes, hscopes']
    refine ⟨_, hf.toScript?, ?_⟩
    rw [Block.toScript_congr (isRenaming hp hp')
      (fun node hn => hnodes node (by simpa [Item.nodes, hf.body_eq] using .inr hn))]
    exact hf'.toScript?

/-- An entry point has the same script in both programs. -/
theorem exists_toScript?_entryPoint_perm (haccepted : a.isAccepted = true)
    {e : EntryPoint Location NodeId} (he : e ∈ p.entryPoints) :
    ∃ sts, e.toScript? a.table a.scopes = some sts ∧ e.toScript? a'.table a'.scopes = some sts := by
  have haccepted' := isAccepted_of_perm hp hp' hitems ha ha' haccepted
  obtain ⟨htable, hscopes, hclean, -⟩ := of_isAccepted ha haccepted
  obtain ⟨htable', hscopes', hclean', -⟩ := of_isAccepted ha' haccepted'
  obtain ⟨i, hi, hei⟩ := List.mem_filterMap.mp he
  cases i with
  | function f => cases hei
  | main e' =>
    obtain rfl := Option.some.inj hei
    have hnodes := alikeAt hp hp' hclean hclean' hitems hi
    -- The body of an entry point is written if its mark has a scope, here and there.
    obtain ⟨s, s', hs, hs', -⟩ := hnodes e'.mark List.mem_cons_self
    rw [htable, htable', hscopes, hscopes']
    refine ⟨_, by rw [EntryPoint.toScript?, hs]; rfl, ?_⟩
    rw [EntryPoint.toScript?, hs', Block.toScript_congr (isRenaming hp hp')
      (fun node hn => hnodes node (List.mem_cons_of_mem _ hn))]
    rfl

end Permuted

/-! ## Whole programs -/

/-- The unit of an accepted program, from the routine of each item. -/
theorem codeUnit_eq_map (haccepted : a.isAccepted = true)
    {routine : Item Location NodeId → Routine}
    (h : ∀ i ∈ p.items, i.emit? a.table a.scopes = .ok (some (routine i))) (name : String) :
    a.codeUnit p name = .ok ⟨name, p.items.map routine⟩ := by
  have hall : List.Forall₂ (fun i r => i.emit? a.table a.scopes = .ok (some r)) p.items
      (p.items.map routine) :=
    List.forall₂_map_right_iff.mpr (List.forall₂_same.mpr h)
  simp [Analysis.codeUnit, Analysis.ifAccepted, haccepted, Program.emit, Item.mapM_emit?_eq hall,
    bind, Except.bind, Except.mapError, pure, Except.pure]

/-- The text of the script of an accepted program, unless a line is indented too far. -/
theorem scriptText_eq (hp : p.Distinct) (ha : p.analyze = .ok a) (haccepted : a.isAccepted = true) :
    (p.toScript a.table a.scopes).isScoped = true ∧
    a.scriptText p = if Script.Fits (p.toScript a.table a.scopes).lines then
        .ok (String.join ((p.toScript a.table a.scopes).lines.map Script.Line.render))
      else .error (.fault .widthOutOfRange) := by
  obtain ⟨htable, hscopes, -⟩ := of_isAccepted ha haccepted
  have hscoped : (p.toScript a.table a.scopes).isScoped = true := by
    rw [htable, hscopes]
    exact isScoped_toScript (Declarations.covered_ofProgram hp)
  refine ⟨hscoped, ?_⟩
  rw [Analysis.scriptText, Analysis.ifAccepted_eq haccepted, Script.text_eq _ hscoped]
  split_ifs <;> rfl

section Outcome

variable (hp : p.Distinct) (ha : p.analyze = .ok a) (haccepted : a.isAccepted = true)

include hp ha haccepted

/-- A text that was written has the lines of the script. -/
theorem of_scriptText_eq_ok {text : String} (htext : a.scriptText p = .ok text) :
    Script.Fits (p.toScript a.table a.scopes).lines ∧
      text = String.join ((p.toScript a.table a.scopes).lines.map Script.Line.render) := by
  obtain ⟨-, hlines⟩ := scriptText_eq hp ha haccepted
  rw [hlines] at htext
  split_ifs at htext with hfits
  exact ⟨hfits, (Except.ok.inj htext).symm⟩

/-- A script is refused only if a line is indented too far, and then blocks nest that deep. -/
theorem of_scriptText_eq_error {refusal : Refusal} (hrefusal : a.scriptText p = .error refusal) :
    ¬Script.Fits (p.toScript a.table a.scopes).lines ∧ refusal = .fault .widthOutOfRange ∧
      ∃ i ∈ p.items, 16384 ≤ i.nesting := by
  obtain ⟨htable, hscopes, hclean, -⟩ := of_isAccepted ha haccepted
  obtain ⟨-, hlines⟩ := scriptText_eq hp ha haccepted
  rw [hlines] at hrefusal
  split_ifs at hrefusal with hfits
  refine ⟨hfits, (Except.error.inj hrefusal).symm, ?_⟩
  -- Otherwise all lines would fit.
  by_contra hnesting
  refine hfits ?_
  rw [htable, hscopes]
  refine fits_toScript hp hclean fun i hi => ?_
  exact Nat.lt_of_not_le fun hdeep => hnesting ⟨i, hi, hdeep⟩

end Outcome

/-- Texts of members that all have one. -/
private theorem map_filterMap_eq_getD {α β : Type} {xs : List α} {f : α → Option β}
    {text : β → String} {text? : α → Option String}
    (h : ∀ x ∈ xs, ∃ y, f x = some y ∧ text? x = some (text y)) :
    (xs.filterMap f).map text = xs.map fun x => (text? x).getD "" := by
  rw [List.map_filterMap, ← List.filterMap_eq_map]
  refine List.filterMap_congr fun x hx => ?_
  obtain ⟨y, hy, htext⟩ := h x hx
  simp [hy, htext]

section Text

variable (hp : p.Distinct) (ha : p.analyze = .ok a) (haccepted : a.isAccepted = true)
  (hfits : Script.Fits (p.toScript a.table a.scopes).lines)

include hp ha haccepted hfits

theorem exists_chunk?_function {f : Function Location NodeId} (hf : f ∈ p.functions) :
    ∃ g, f.toScript? a.table a.scopes = some g ∧
      f.chunk? a = some (String.join (g.lines.map Script.Line.render)) := by
  obtain ⟨hscoped, -⟩ := scriptText_eq hp ha haccepted
  obtain ⟨g, hg, -⟩ := exists_toScript?_function_perm hp hp (.refl _) ha ha haccepted hf
  have hlayout := Script.layout_of_mem_functions hscoped hfits (List.mem_filterMap.mpr ⟨f, hf, hg⟩)
  exact ⟨g, hg, by simp [Function.chunk?, hg, hlayout, Except.toOption]⟩

theorem exists_chunk?_entryPoint {e : EntryPoint Location NodeId} (he : e ∈ p.entryPoints) :
    ∃ sts, e.toScript? a.table a.scopes = some sts ∧
      e.chunk? a = some (String.join ((Script.mainLines sts).map Script.Line.render)) := by
  obtain ⟨hscoped, -⟩ := scriptText_eq hp ha haccepted
  obtain ⟨sts, hsts, -⟩ := exists_toScript?_entryPoint_perm hp hp (.refl _) ha ha haccepted he
  have hlayout := Script.layoutBlock_of_mem_mains hscoped hfits
    (List.mem_filterMap.mpr ⟨e, he, hsts⟩)
  exact ⟨sts, hsts, by simp [EntryPoint.chunk?, hsts, hlayout, Except.toOption]⟩

/-- The script of an accepted program consists of the texts of its functions and of its entry point.
-/
theorem writtenAs_of_fits :
    p.WrittenAs a (fun f => (f.chunk? a).getD "")
      (String.join (p.entryPoints.map fun e => (e.chunk? a).getD "")) where
  functions f hf := by
    obtain ⟨g, -, hchunk⟩ := exists_chunk?_function hp ha haccepted hfits hf
    rw [hchunk, Option.getD_some]
  entryPoint e he := by
    obtain ⟨sts, -, hchunk⟩ := exists_chunk?_entryPoint hp ha haccepted hfits he
    obtain ⟨-, -, hclean, -⟩ := of_isAccepted ha haccepted
    -- There is no other entry point.
    have honly : p.entryPoints = [e] := by
      have hlength : p.entryPoints.length = 1 :=
        Nat.le_antisymm (length_mains_le hp hclean) (List.length_pos_of_mem he)
      obtain ⟨e', he'⟩ := List.length_eq_one_iff.mp hlength
      rw [he'] at he ⊢
      rw [List.mem_singleton.mp he]
    rw [honly, List.map_singleton, hchunk, Option.getD_some, String.join_cons, String.join_nil,
      String.append_empty]
  noEntryPoint hnone := by rw [hnone]; rfl
  text := by
    obtain ⟨-, htext⟩ := scriptText_eq hp ha haccepted
    rw [htext, if_pos hfits, Script.join_render_lines]
    refine congrArg Except.ok (congrArg₂ _ (congrArg String.join ?_) (congrArg String.join ?_))
    · exact map_filterMap_eq_getD fun f hf => exists_chunk?_function hp ha haccepted hfits hf
    · exact map_filterMap_eq_getD fun e he => exists_chunk?_entryPoint hp ha haccepted hfits he

end Text

theorem Distinct.perm {items : List (Item Location NodeId)} (hp : p.Distinct)
    (hitems : p.items.Perm items) : ({ p with items := items } : Program Location).Distinct :=
  ((hitems.flatMap_right Item.nodes).cons p.root).nodup_iff.mp hp

/-- There is one entry point at most, so entry points do not change places. -/
theorem entryPoints_perm (hp : p.Distinct) (hitems : p.items.Perm p'.items)
    (ha : p.analyze = .ok a) (haccepted : a.isAccepted = true) :
    p.entryPoints = p'.entryPoints := by
  obtain ⟨-, -, hclean, -⟩ := of_isAccepted ha haccepted
  have hperm : p.entryPoints.Perm p'.entryPoints := hitems.filterMap _
  have hle : p.entryPoints.length ≤ 1 := length_mains_le hp hclean
  match hes : p.entryPoints, hle with
  | [], _ => exact (List.nil_perm.mp (hes ▸ hperm)).symm
  | [e], _ => exact List.singleton_perm.mp (hes ▸ hperm)

section Permuted

variable (hp : p.Distinct) (hp' : p'.Distinct) (hitems : p.items.Perm p'.items)
  (ha : p.analyze = .ok a) (ha' : p'.analyze = .ok a') (haccepted : a.isAccepted = true)

include hp hp' hitems ha ha' haccepted

/-- The scripts of both programs have the same lines, those of functions in another order. -/
theorem lines_toScript_perm :
    (p.toScript a.table a.scopes).lines.Perm (p'.toScript a'.table a'.scopes).lines := by
  -- Functions are written in the order of items, so they are permuted along with these.
  have hfunctions : (p.toScript a.table a.scopes).functions.Perm
      (p'.toScript a'.table a'.scopes).functions := by
    change (p.functions.filterMap _).Perm (p'.functions.filterMap _)
    refine (List.Perm.of_eq (List.filterMap_congr fun f hf => ?_)).trans
      ((hitems.filterMap Item.function?).filterMap _)
    obtain ⟨g, hg, hg'⟩ := exists_toScript?_function_perm hp hp' hitems ha ha' haccepted hf
    exact hg.trans hg'.symm
  -- There is at most one entry point, so there is no order to change.
  have hmains : (p.toScript a.table a.scopes).mains = (p'.toScript a'.table a'.scopes).mains := by
    change p.entryPoints.filterMap _ = p'.entryPoints.filterMap _
    rw [← entryPoints_perm hp hitems ha haccepted]
    refine List.filterMap_congr fun e he => ?_
    obtain ⟨sts, hsts, hsts'⟩ := exists_toScript?_entryPoint_perm hp hp' hitems ha ha' haccepted he
    exact hsts.trans hsts'.symm
  unfold Script.lines
  rw [hmains]
  exact (hfunctions.flatMap_right _).append_right _

/-- The scripts of both programs consist of the same texts. -/
theorem exists_writtenAs_perm :
    (∃ chunk main, p.WrittenAs a chunk main ∧ p'.WrittenAs a' chunk main) ∨
      (a.scriptText p = .error (.fault .widthOutOfRange) ∧
        a'.scriptText p' = .error (.fault .widthOutOfRange)) := by
  have haccepted' := isAccepted_of_perm hp hp' hitems ha ha' haccepted
  have hlines := lines_toScript_perm hp hp' hitems ha ha' haccepted
  have hmains := entryPoints_perm hp hitems ha haccepted
  -- Whether the lines fit does not depend on their order.
  by_cases hfits : Script.Fits (p.toScript a.table a.scopes).lines
  · have hfits' : Script.Fits (p'.toScript a'.table a'.scopes).lines :=
      fun l hl => hfits l (hlines.mem_iff.mpr hl)
    have hwritten' := writtenAs_of_fits hp' ha' haccepted' hfits'
    refine .inl ⟨_, _, writtenAs_of_fits hp ha haccepted hfits, ?_⟩
    -- The chunks are those of the first program, so both texts can be told with one function.
    have hchunk : ∀ f ∈ p'.functions, f.chunk? a' = f.chunk? a := by
      intro f hf
      obtain ⟨g, hg, hg'⟩ := exists_toScript?_function_perm hp hp' hitems ha ha' haccepted
        ((hitems.filterMap _).mem_iff.mpr hf)
      simp only [Function.chunk?, hg, hg']
    have hmain : (p'.entryPoints.map fun e => (e.chunk? a').getD "") =
        p.entryPoints.map fun e => (e.chunk? a).getD "" := by
      rw [← hmains]
      refine List.map_congr_left fun e he => ?_
      obtain ⟨sts, hsts, hsts'⟩ :=
        exists_toScript?_entryPoint_perm hp hp' hitems ha ha' haccepted he
      simp only [EntryPoint.chunk?, hsts, hsts']
    rw [hmain] at hwritten'
    refine ⟨fun f hf => ?_, hwritten'.entryPoint, hwritten'.noEntryPoint, ?_⟩
    · rw [hwritten'.functions f hf, hchunk f hf]
    · rw [hwritten'.text, List.map_congr_left fun f hf => by rw [hchunk f hf]]
  · have hfits' : ¬ Script.Fits (p'.toScript a'.table a'.scopes).lines :=
      fun h => hfits fun l hl => h l (hlines.mem_iff.mp hl)
    obtain ⟨-, htext⟩ := scriptText_eq hp ha haccepted
    obtain ⟨-, htext'⟩ := scriptText_eq hp' ha' haccepted'
    exact .inr ⟨htext.trans (if_neg hfits), htext'.trans (if_neg hfits')⟩

/-- Every item has the same routine in both programs, if all of them fit. -/
theorem exists_routine_perm (hfits : p.FitsFrames) :
    ∃ routine : Item Location NodeId → Routine,
      (∀ i ∈ p.items, i.emit? a.table a.scopes = .ok (some (routine i))) ∧
      ∀ name, a.codeUnit p name = .ok ⟨name, p.items.map routine⟩ ∧
        a'.codeUnit p' name = .ok ⟨name, p'.items.map routine⟩ := by
  have : Nonempty Routine := ⟨⟨"main", .ofMain, .ofMain, 0, []⟩⟩
  have haccepted' := isAccepted_of_perm hp hp' hitems ha ha' haccepted
  choose! routine hroutine using
    fun i (hi : i ∈ p.items) => Item.exists_emit?_of_fits hp ha haccepted hi (hfits i hi)
  refine ⟨routine, hroutine, fun name => ⟨?_, ?_⟩⟩
  · exact codeUnit_eq_map haccepted hroutine name
  · refine codeUnit_eq_map haccepted' (fun i hi => ?_) name
    have hi := hitems.mem_iff.mpr hi
    exact (emit?_perm hp hp' hitems ha ha' haccepted hi).trans (hroutine i hi)

/-- If an item does not fit, both programs are refused for that. -/
theorem codeUnit_perm_of_overflow (hoverflow : ¬ p.FitsFrames) (name : String) :
    a.codeUnit p name = .error (.fault .frameOverflow) ∧
      a'.codeUnit p' name = .error (.fault .frameOverflow) := by
  have haccepted' := isAccepted_of_perm hp hp' hitems ha ha' haccepted
  have hoverflow' : ¬ p'.FitsFrames := fun h => hoverflow fun i hi => h i (hitems.mem_iff.mp hi)
  have hunit := assembles hp ha haccepted name (P := fun _ => True) fun _ _ => trivial
  have hunit' := assembles hp' ha' haccepted' name (P := fun _ => True) fun _ _ => trivial
  exact ⟨hunit.overflows hoverflow, hunit'.overflows hoverflow'⟩

end Permuted

/-- The order of items does not matter. A program whose items change places is accepted if it was
accepted before. Then every item has the same routine, and the routines stand in the new order; and
the script has the same text of every function, in the new order, followed by the same text of the
entry point. A frame that overflows stops the machine code of both, and a line that is indented too
far the scripts of both. -/
theorem generated_perm (hp : p.Distinct) {items : List (Item Location NodeId)}
    (hitems : p.items.Perm items) :
    ∃ a a', p.analyze = .ok a ∧ { p with items := items }.analyze = .ok a' ∧
      (a'.errorCount = 0 ↔ a.errorCount = 0) ∧
      (a'.errorCount = 0 →
        (p.FitsFrames → ∃ routine : Item Location NodeId → Routine,
          (∀ i ∈ p.items, i.emit? a.table a.scopes = .ok (some (routine i))) ∧
          ∀ name, a.codeUnit p name = .ok ⟨name, p.items.map routine⟩ ∧
            a'.codeUnit { p with items := items } name = .ok ⟨name, items.map routine⟩) ∧
        (¬ p.FitsFrames → ∀ name, a.codeUnit p name = .error (.fault .frameOverflow) ∧
          a'.codeUnit { p with items := items } name = .error (.fault .frameOverflow)) ∧
        ((∃ chunk main, p.WrittenAs a chunk main ∧
            { p with items := items }.WrittenAs a' chunk main) ∨
          (a.scriptText p = .error (.fault .widthOutOfRange) ∧
            a'.scriptText { p with items := items } = .error (.fault .widthOutOfRange)))) := by
  have hp' := hp.perm hitems
  obtain ⟨a, ha⟩ := exists_analyze hp
  obtain ⟨a', ha'⟩ := exists_analyze hp'
  have hcount : ∀ x : Analysis, x.errorCount = 0 ↔ x.isAccepted = true :=
    fun x => decide_eq_true_iff.symm
  -- A permutation can be undone, so one direction is enough.
  have hiff : a'.errorCount = 0 ↔ a.errorCount = 0 := by
    rw [hcount, hcount]
    exact ⟨isAccepted_of_perm hp' hp hitems.symm ha' ha, isAccepted_of_perm hp hp' hitems ha ha'⟩
  refine ⟨a, a', ha, ha', hiff, fun hzero => ?_⟩
  have haccepted : a.isAccepted = true := (hcount a).mp (hiff.mp hzero)
  exact ⟨exists_routine_perm hp hp' hitems ha ha' haccepted,
    codeUnit_perm_of_overflow hp hp' hitems ha ha' haccepted,
    exists_writtenAs_perm hp hp' hitems ha ha' haccepted⟩

/-- Two functions that call each other, around an entry point that calls the first:
`int ping(int n) { int m = n; if (m > 0) { return pong(m - 1); } return 0; }`
`main { print(ping(3)); }`
`int pong(int n) { return ping(n); }` -/
def pingPong : Program Location :=
  let written (text : String) : Name (Option Location) := ⟨text, none⟩
  let read (text : String) : Expr (Option Location) := .read none (written text)
  let function (name : String) (body : List (Draft Stmt)) : Draft Item :=
    .function ⟨none, none, written "int", written name, [⟨written "int", written "n"⟩],
      some (.mk none body)⟩
  Program.ofDraft
    [function "ping"
      [.declare none (written "int") (written "m") (some (read "n")),
        .ifThen none (.binary none .greater (read "m") (.int none 0)) (.mk none
          [.ret none none (some (.call none (written "pong")
            [.binary none .sub (read "m") (.int none 1)]))]),
        .ret none none (some (.int none 0))],
      .main ⟨none, none, .mk none
        [.print none true (some (.call none (written "ping") [.int none 3]))]⟩,
      function "pong" [.ret none none (some (.call none (written "ping") [read "n"]))]]

/-- The items from the last to the first. -/
theorem generated_perm_pingPong :
    ∃ a a' routine chunk main, pingPong.analyze = .ok a ∧ a.errorCount = 0 ∧
      { pingPong with items := pingPong.items.reverse }.analyze = .ok a' ∧ a'.errorCount = 0 ∧
      (∀ name, a.codeUnit pingPong name = .ok ⟨name, pingPong.items.map routine⟩ ∧
        a'.codeUnit { pingPong with items := pingPong.items.reverse } name =
          .ok ⟨name, pingPong.items.reverse.map routine⟩) ∧
      pingPong.WrittenAs a chunk main ∧
      { pingPong with items := pingPong.items.reverse }.WrittenAs a' chunk main := by
  have hp : pingPong.Distinct := Program.distinct_ofDraft _ (by decide)
  obtain ⟨a, a', ha, ha', hiff, hgenerated⟩ := generated_perm hp (List.reverse_perm _).symm
  obtain ⟨b, hb, hzero, htext⟩ := exists_accepted (p := pingPong)
    (fun a => (a.scriptText pingPong).toOption.isSome) (by decide +kernel)
  obtain rfl : a = b := Except.ok.inj (ha.symm.trans hb)
  have hzero : a.errorCount = 0 := of_decide_eq_true hzero
  obtain ⟨hroutine, -, hwritten | ⟨hfault, -⟩⟩ := hgenerated (hiff.mpr hzero)
  · obtain ⟨chunk, main, hwritten, hwritten'⟩ := hwritten
    obtain ⟨routine, -, hunit⟩ := hroutine (by decide)
    exact ⟨a, a', routine, chunk, main, ha, hzero, ha', hiff.mpr hzero, hunit, hwritten, hwritten'⟩
  -- A script was written, so it was not refused.
  · rw [hfault] at htext
    cases htext

end Program

end Primer
