import Primer.Analysis.Declaration
import Primer.Proofs.Tree.Relabeling

/-!
# Declarations of relabeled trees

Declaring a tree with other labels makes the same table and reports the same mistakes, each at the
new place. Scopes are recorded for the same nodes under their new numbers. `Declarations.Relabels`
says this of two states of the pass; every operation keeps it, as long as nodes that are distinct
get distinct numbers, and so does the pass as a whole (`Declarations.relabels_ofProgram`).
-/

namespace Primer

variable {L L' : Type}

/-- A value at another place. -/
def Located.map {ε : Type} (f : L → L') (x : Located L ε) : Located L' ε :=
  ⟨f x.place, x.value⟩

namespace Declarations

/-- `d'` is `d` with other labels; `nodes` are those whose new numbers are known to be distinct. -/
structure Relabels (f : L → L') (g : NodeId → NodeId) (nodes : List NodeId) (d : Declarations L)
    (d' : Declarations L') : Prop where
  table : d'.table = d.table
  findings : d'.findings = d.findings.map (Located.map f)
  scopes : ∀ n ∈ nodes, d'.scopes.get? (g n) = d.scopes.get? n

variable {f : L → L'} {g : NodeId → NodeId} {nodes : List NodeId}

namespace Relabels

variable {d : Declarations L} {d' : Declarations L'}

/-! ## Single operations -/

theorem report (h : Relabels f g nodes d d') (place : L) (error : DeclarationError) :
    Relabels f g nodes (d.report place error) (d'.report (f place) error) where
  table := h.table
  findings := by simp [Declarations.report, h.findings, Located.map]
  scopes := h.scopes

theorem define (h : Relabels f g nodes d d') (s : ScopeId) (x : Symbol) :
    (d'.define s x).1 = (d.define s x).1 ∧
      Relabels f g nodes (d.define s x).2 (d'.define s x).2 := by
  refine ⟨?_, ?_, h.findings, h.scopes⟩
  · simp only [Declarations.define, h.table]
  · simp only [Declarations.define, h.table]

theorem addParameter (h : Relabels f g nodes d d') (x y : SymbolId) :
    Relabels f g nodes (d.addParameter x y) (d'.addParameter x y) where
  table := by simp only [Declarations.addParameter, h.table]
  findings := h.findings
  scopes := h.scopes

theorem hasFunction (h : Relabels f g nodes d d') (name : String) :
    d'.hasFunction name = d.hasFunction name := by
  simp only [Declarations.hasFunction, h.table]

theorem hasVariable (h : Relabels f g nodes d d') (s : ScopeId) (name : String) :
    d'.hasVariable s name = d.hasVariable s name := by
  simp only [Declarations.hasVariable, h.table]

theorem resolveType (h : Relabels f g nodes d d') (name : Name L) :
    (d'.resolveType (name.map f)).1 = (d.resolveType name).1 ∧
      Relabels f g nodes (d.resolveType name).2 (d'.resolveType (name.map f)).2 := by
  unfold Declarations.resolveType
  rw [Name.text_map]
  cases Ty.named? name.text with
  | some type => exact ⟨rfl, h⟩
  | none => exact ⟨rfl, h.report _ _⟩

theorem resolveTypes (h : Relabels f g nodes d d') (names : List (Name L)) :
    (d'.resolveTypes (names.map (Name.map f))).1 = (d.resolveTypes names).1 ∧
      Relabels f g nodes (d.resolveTypes names).2
        (d'.resolveTypes (names.map (Name.map f))).2 := by
  induction names generalizing d d' with
  | nil => exact ⟨rfl, h⟩
  | cons name names ih =>
    obtain ⟨htype, hfirst⟩ := h.resolveType name
    simp only [List.map_cons, Declarations.resolveTypes]
    cases hresolve : d.resolveType name with
    | mk type d₁ =>
      cases hresolve' : d'.resolveType (name.map f) with
      | mk type' d₁' =>
        rw [hresolve, hresolve'] at htype hfirst
        obtain rfl : type' = type := htype
        -- The text of a name decides, so both stop at the same name.
        cases type' with
        | none => exact ⟨rfl, hfirst⟩
        | some τ =>
          obtain ⟨htypes, hrest⟩ := ih hfirst
          exact ⟨congrArg (Option.map (τ :: ·)) htypes, hrest⟩

theorem declareVariable (h : Relabels f g nodes d d') (s : ScopeId) (type name : Name L) :
    Relabels f g nodes (d.declareVariable s type name)
      (d'.declareVariable s (type.map f) (name.map f)) := by
  unfold Declarations.declareVariable Declarations.resolveType
  rw [Name.text_map]
  cases Ty.named? type.text with
  | none => exact h.report _ _
  | some τ =>
    simp only [Name.text_map, h.hasVariable]
    split_ifs
    · exact h.report _ _
    · exact (h.define s _).2

theorem parameters (h : Relabels f g nodes d d') (x : SymbolId) (s : ScopeId)
    (ps : List (Name L × Ty)) :
    Relabels f g nodes (d.parameters x s ps)
      (d'.parameters x s (ps.map (Prod.map (Name.map f) id))) := by
  induction ps generalizing d d' with
  | nil => exact h
  | cons p ps ih =>
    obtain ⟨name, type⟩ := p
    obtain ⟨hid, hdefine⟩ := h.define s (.var name.text type)
    simp only [List.map_cons, Prod.map_apply, id, Declarations.parameters, Name.text_map]
    -- Both scopes accept the name, or neither does.
    cases hd : d.define s (.var name.text type) with
    | mk y d₁ =>
      cases hd' : d'.define s (.var name.text type) with
      | mk y' d₁' =>
        rw [hd, hd'] at hid hdefine
        obtain rfl : y' = y := hid
        cases y' with
        | some y => exact ih (hdefine.addParameter x y)
        | none => exact ih (hdefine.report _ _)

section Recording

variable (hg : ∀ m ∈ nodes, ∀ n ∈ nodes, g m = g n → m = n)
include hg

/-- Scopes of nodes with distinct numbers do not get into each other's way. -/
theorem record (h : Relabels f g nodes d d') {node : NodeId} (hnode : node ∈ nodes) (s : ScopeId) :
    Relabels f g nodes (d.record node s) (d'.record (g node) s) where
  table := h.table
  findings := h.findings
  scopes n hn := by
    have hiff : g n = g node ↔ n = node := ⟨hg n hn node hnode, congrArg g⟩
    simp only [Declarations.record, ScopeMap.get?_record, hiff, h.scopes n hn]

theorem openFor (h : Relabels f g nodes d d') {node : NodeId} (hnode : node ∈ nodes)
    (parent : ScopeId) (owner : Option SymbolId) :
    (d'.openFor (g node) parent owner).1 = (d.openFor node parent owner).1 ∧
      Relabels f g nodes (d.openFor node parent owner).2 (d'.openFor (g node) parent owner).2 := by
  have hrecord := h.record hg hnode (d.table.openScope parent owner).1
  refine ⟨?_, ?_, h.findings, ?_⟩
  · simp only [Declarations.openFor, h.table]
  · simp only [Declarations.openFor, h.table]
  · simp only [Declarations.openFor, h.table]
    exact hrecord.scopes

theorem openBlock (h : Relabels f g nodes d d') {node : NodeId} (hnode : node ∈ nodes)
    (parent : ScopeId) :
    (d'.openBlock (g node) parent).1 = (d.openBlock node parent).1 ∧
      Relabels f g nodes (d.openBlock node parent).2 (d'.openBlock (g node) parent).2 := by
  -- The scope of a block belongs to the function of its parent, which the table knows.
  change (d'.openFor (g node) parent (d'.table.owner? parent)).1 = _ ∧
    Relabels f g nodes _ (d'.openFor (g node) parent (d'.table.owner? parent)).2
  rw [h.table]
  exact h.openFor hg hnode parent (d.table.owner? parent)

end Recording

end Relabels

end Declarations

/-! ## Statements and blocks -/

section Trees

open Declarations

variable {f : L → L'} {g : NodeId → NodeId} {nodes : List NodeId}
  (hg : ∀ m ∈ nodes, ∀ n ∈ nodes, g m = g n → m = n)
include hg

private theorem Block.relabels_of {b : Block L NodeId}
    (ih : ∀ st ∈ b.statements, ∀ (s : ScopeId) (d : Declarations L) (d' : Declarations L'),
      Relabels f g nodes d d' → (∀ n ∈ st.nodes, n ∈ nodes) →
      Relabels f g nodes (st.declarations s d) ((st.map f g).declarations s d'))
    (s : ScopeId) (d : Declarations L) (d' : Declarations L') (h : Relabels f g nodes d d')
    (hb : ∀ n ∈ b.nodes, n ∈ nodes) :
    Relabels f g nodes (b.declarations s d) ((b.map f g).declarations s d') := by
  obtain ⟨mark, sts⟩ := b
  obtain ⟨hscope, hopen⟩ := h.openBlock hg (hb mark List.mem_cons_self) s
  have hsts : ∀ n ∈ Block.nodesAll sts, n ∈ nodes := fun n hn => hb n (List.mem_cons_of_mem _ hn)
  simp only [Block.map, Block.declarations, hscope]
  -- The scope is the same for all statements, while the state goes from one to the next.
  generalize (d.openBlock mark s).1 = r
  generalize (d.openBlock mark s).2 = d₁ at hopen
  generalize (d'.openBlock (g mark) s).2 = d₁' at hopen
  clear hscope h hb
  induction sts generalizing d₁ d₁' with
  | nil => exact hopen
  | cons st sts ihs =>
    have hfirst := ih st List.mem_cons_self r d₁ d₁' hopen
      fun n hn => hsts n (List.mem_append_left _ hn)
    exact ihs (fun st hst => ih st (List.mem_cons_of_mem _ hst))
      (fun n hn => hsts n (List.mem_append_right _ hn)) _ _ hfirst

theorem Stmt.relabels_declarations (st : Stmt L NodeId) (s : ScopeId) (d : Declarations L)
    (d' : Declarations L') (h : Relabels f g nodes d d') (hst : ∀ n ∈ st.nodes, n ∈ nodes) :
    Relabels f g nodes (st.declarations s d) ((st.map f g).declarations s d') := by
  induction st using Stmt.inductionOn generalizing s d d' with
  | declare p type name value => exact h.declareVariable s type name
  | assign p target value => exact h
  | assignAt p target position value => exact h
  | print p newline value => exact h
  | call p callee arguments => exact h
  | ret p node value => exact h.record hg (hst node (List.mem_singleton_self _)) s
  | ifThen p condition yes ih => exact Block.relabels_of hg ih s d d' h hst
  | loop p condition body ih => exact Block.relabels_of hg ih s d d' h hst
  | ifElse p condition yes no ihy ihn =>
    have hyes := Block.relabels_of hg ihy s d d' h fun n hn => hst n (List.mem_append_left _ hn)
    exact Block.relabels_of hg ihn s _ _ hyes fun n hn => hst n (List.mem_append_right _ hn)

theorem Block.relabels_declarations (b : Block L NodeId) (s : ScopeId) (d : Declarations L)
    (d' : Declarations L') (h : Relabels f g nodes d d') (hb : ∀ n ∈ b.nodes, n ∈ nodes) :
    Relabels f g nodes (b.declarations s d) ((b.map f g).declarations s d') :=
  Block.relabels_of hg (fun st _ => st.relabels_declarations hg) s d d' h hb

end Trees

/-! ## Items and programs -/

namespace Declarations.Relabels

variable {f : L → L'} {g : NodeId → NodeId} {nodes : List NodeId} {d : Declarations L}
  {d' : Declarations L'} (hg : ∀ m ∈ nodes, ∀ n ∈ nodes, g m = g n → m = n)
include hg

theorem accept (h : Relabels f g nodes d d') (fn : Function L NodeId) (body : Block L NodeId)
    (hmark : fn.mark ∈ nodes) (hbody : ∀ n ∈ body.nodes, n ∈ nodes) (returns : Ty)
    (types : List Ty) :
    Relabels f g nodes (d.accept fn body returns types)
      (d'.accept (fn.map f g) (body.map f g) returns types) := by
  -- Parameters are paired with their types, and a type has no place.
  have hnames : ((fn.map f g).parameters.map (·.name)).zip types =
      ((fn.parameters.map (·.name)).zip types).map (Prod.map (Name.map f) id) := by
    rw [← List.zip_map_left, Function.map, List.map_map, List.map_map]
    rfl
  obtain ⟨hid, hdefine⟩ := h.define Table.global (.fn ⟨fn.name.text, returns, []⟩)
  unfold Declarations.accept
  rw [hnames]
  simp only [Function.map, Name.text_map]
  cases hd : d.define Table.global (.fn ⟨fn.name.text, returns, []⟩) with
  | mk y d₁ =>
    cases hd' : d'.define Table.global (.fn ⟨fn.name.text, returns, []⟩) with
    | mk y' d₁' =>
      rw [hd, hd'] at hid hdefine
      obtain rfl : y' = y := hid
      cases y' with
      | none => exact hdefine
      | some y =>
        obtain ⟨hscope, hopen⟩ := hdefine.openFor hg hmark Table.global (some y)
        simp only [hscope]
        exact body.relabels_declarations hg _ _ _ (hopen.parameters y _ _) hbody

theorem function (h : Relabels f g nodes d d') (fn : Function L NodeId)
    (hfn : ∀ n ∈ (Item.function fn).nodes, n ∈ nodes) :
    Relabels f g nodes (d.function fn) (d'.function (fn.map f g)) := by
  have hname : (fn.map f g).name = fn.name.map f := rfl
  have hreturns : (fn.map f g).returns = fn.returns.map f := rfl
  have htypes : (fn.map f g).parameters.map (·.type) =
      (fn.parameters.map (·.type)).map (Name.map f) := by
    rw [Function.map, List.map_map, List.map_map]
    rfl
  unfold Declarations.function
  rw [hname, hreturns, htypes]
  cases hbody : fn.body with
  | none =>
    have hbody' : (fn.map f g).body = none := by simp [Function.map, hbody]
    simp only [hbody', Name.text_map]
    exact h.report _ _
  | some body =>
    have hbody' : (fn.map f g).body = some (body.map f g) := by simp [Function.map, hbody]
    simp only [hbody', Name.text_map, h.hasFunction]
    split_ifs
    · exact h.report _ _
    -- Both headers resolve to the same types, so both are accepted or neither is.
    · obtain ⟨hresult, hfirst⟩ := h.resolveType fn.returns
      obtain ⟨hparameters, hrest⟩ := hfirst.resolveTypes (fn.parameters.map (·.type))
      simp only [Item.nodes, hbody, Option.map_some, Option.getD_some] at hfn
      rw [hresult, hparameters]
      split
      · exact hrest.accept hg fn body (hfn _ List.mem_cons_self)
          (fun n hn => hfn n (List.mem_cons_of_mem _ hn)) _ _
      · exact hrest

theorem entryPoint (h : Relabels f g nodes d d') (e : EntryPoint L NodeId)
    (he : ∀ n ∈ (Item.main e).nodes, n ∈ nodes) :
    Relabels f g nodes (d.entryPoint e) (d'.entryPoint (e.map f g)) := by
  unfold Declarations.entryPoint
  rw [h.hasFunction]
  split_ifs
  · exact h.report _ _
  · obtain ⟨-, hdefine⟩ := h.define Table.global (.fn ⟨"main", .void, []⟩)
    obtain ⟨hscope, hopen⟩ := hdefine.openFor hg (he e.mark List.mem_cons_self) Table.global none
    simp only [EntryPoint.map, hscope]
    exact e.body.relabels_declarations hg _ _ _ hopen fun n hn => he n (List.mem_cons_of_mem _ hn)

theorem items (h : Relabels f g nodes d d') (is : List (Item L NodeId))
    (his : ∀ i ∈ is, ∀ n ∈ i.nodes, n ∈ nodes) :
    Relabels f g nodes (is.foldl item d) ((is.map (Item.map f g)).foldl item d') := by
  induction is generalizing d d' with
  | nil => exact h
  | cons i is ih =>
    have hi := his i List.mem_cons_self
    refine ih ?_ fun i hi => his i (List.mem_cons_of_mem _ hi)
    cases i with
    | function fn => exact h.function hg fn hi
    | main e => exact h.entryPoint hg e hi

end Declarations.Relabels

/-- Declaring a relabeled program. -/
theorem Declarations.relabels_ofProgram {f : L → L'} {g : NodeId → NodeId} {p : Program L}
    {q : Program L'} (h : p.Relabels f g q) :
    Relabels f g p.nodes (ofProgram p) (ofProgram q) := by
  have hempty : Relabels f g p.nodes (empty : Declarations L) (empty : Declarations L') :=
    ⟨rfl, rfl, fun _ _ => rfl⟩
  have hroot := hempty.record h.injective List.mem_cons_self Table.global
  unfold ofProgram
  rw [h.root, h.items]
  refine hroot.items h.injective p.items fun i hi n hn => ?_
  exact List.mem_cons_of_mem _ (List.mem_flatMap.mpr ⟨i, hi, hn⟩)

end Primer
