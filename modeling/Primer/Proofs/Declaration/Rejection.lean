import Primer.Proofs.Declaration.Shape
import Primer.Proofs.Declaration.WellDeclared

/-!
# Rejected declarations

A declaration that is rejected is reported and leaves no trace: the program without it has the same
table and the same recorded scopes, and nothing in it is reported.

Which declarations are rejected can be read off the tree. `Program.sift` takes them out, with what
is wrong with each: functions without a body, with a taken name or with an unknown type, further
entry points, parameters whose name another one has, and variables of unknown type or with a name
that their block or the parameter list has. A name counts as taken only by what is kept.

The pass is compared with itself on what is kept. `Declarations.Sifts` says of one construct that
both runs come to the same; it composes, and every construct has it where the names that its scope
refuses are those that were kept before (`Declarations.Holds`, `Declarations.Binds`). In the end,
`Declarations.ofProgram_sift` is about whole programs, with any number of mistakes.
-/

namespace Primer

variable {L I : Type}

/-! ## On the tree -/

/-- What is left of a part of a program without the declarations that are rejected, and what is
wrong with these, in reading order. -/
structure Sifted (L α : Type) where
  kept : α
  mistakes : List (Located L DeclarationError)

/-- What is wrong with the name of a type. -/
def Name.typeMistake? (type : Name L) : Option (Located L DeclarationError) :=
  if (Ty.named? type.text).isSome then none else some ⟨type.place, .unknownType type.text⟩

/-- What is wrong with the declaration of a variable in a block that has the variables `taken`, in a
function with the given parameters. -/
def Name.variableMistake? (parameters taken : List String) (type name : Name L) :
    Option (Located L DeclarationError) :=
  type.typeMistake?.or <|
    if name.text ∈ taken ∨ name.text ∈ parameters then
      some ⟨name.place, .duplicateVariable name.text⟩
    else none

mutual

/-- A statement without the declarations that are rejected. Nothing is left of one that is itself
such a declaration. -/
def Stmt.sift (parameters taken : List String) : Stmt L I → Sifted L (List (Stmt L I))
  | .declare p type name value =>
    match Name.variableMistake? parameters taken type name with
    | none => ⟨[.declare p type name value], []⟩
    | some mistake => ⟨[], [mistake]⟩
  | .ifThen p condition yes =>
    let yes := yes.sift parameters
    ⟨[.ifThen p condition yes.kept], yes.mistakes⟩
  | .ifElse p condition yes no =>
    let yes := yes.sift parameters
    let no := no.sift parameters
    ⟨[.ifElse p condition yes.kept no.kept], yes.mistakes ++ no.mistakes⟩
  | .loop p condition body =>
    let body := body.sift parameters
    ⟨[.loop p condition body.kept], body.mistakes⟩
  | .assign p target value => ⟨[.assign p target value], []⟩
  | .assignAt p target position value => ⟨[.assignAt p target position value], []⟩
  | .ret p mark value => ⟨[.ret p mark value], []⟩
  | .print p newline value => ⟨[.print p newline value], []⟩
  | .call p callee arguments => ⟨[.call p callee arguments], []⟩

/-- A block without the declarations that are rejected. -/
def Block.sift (parameters : List String) : Block L I → Sifted L (Block L I)
  | .mk mark statements =>
    let statements := Block.siftAll parameters [] statements
    ⟨.mk mark statements.kept, statements.mistakes⟩

/-- The statements of a block, of which `taken` are the variables so far. -/
def Block.siftAll (parameters taken : List String) :
    List (Stmt L I) → Sifted L (List (Stmt L I))
  | [] => ⟨[], []⟩
  | st :: sts =>
    let first := st.sift parameters taken
    let rest := Block.siftAll parameters (Block.declares first.kept ++ taken) sts
    ⟨first.kept ++ rest.kept, first.mistakes ++ rest.mistakes⟩

end

/-- Parameters without those whose name is taken. -/
def Parameter.sift (taken : List String) : List (Parameter L) → Sifted L (List (Parameter L))
  | [] => ⟨[], []⟩
  | p :: ps =>
    if p.name.text ∈ taken then
      let rest := Parameter.sift taken ps
      ⟨rest.kept, ⟨p.name.place, .duplicateParameter p.name.text⟩ :: rest.mistakes⟩
    else
      let rest := Parameter.sift (p.name.text :: taken) ps
      ⟨p :: rest.kept, rest.mistakes⟩

theorem Parameter.sift_sublist (taken : List String) (ps : List (Parameter L)) :
    (Parameter.sift taken ps).kept.Sublist ps := by
  induction ps generalizing taken with
  | nil => exact .slnil
  | cons p ps ih =>
    unfold Parameter.sift
    split_ifs with htaken
    · exact (ih taken).cons p
    · exact (ih _).cons_cons p

/-- What is wrong with the types in the header of a function: that of the result, and the first
unknown one of the parameters. -/
def Function.typeMistakes (f : Function L I) : List (Located L DeclarationError) :=
  f.returns.typeMistake?.toList ++ (f.parameters.findSome? (·.type.typeMistake?)).toList

/-- A function without the parameters and variables that are rejected. -/
def Function.sift (f : Function L I) (body : Block L I) : Sifted L (Function L I) :=
  let parameters := Parameter.sift [] f.parameters
  let body := body.sift (parameters.kept.map (·.name.text))
  ⟨{ f with parameters := parameters.kept, body := some body.kept },
    parameters.mistakes ++ body.mistakes⟩

/-- An item without the declarations that are rejected, where `taken` are the names of the items so
far. Nothing is left of an item that is itself rejected. -/
def Item.sift (taken : List String) : Item L I → Sifted L (List (Item L I))
  | .function f =>
    match f.body with
    | none => ⟨[], [⟨f.name.place, .missingBody f.name.text⟩]⟩
    | some body =>
      if f.name.text ∈ taken then ⟨[], [⟨f.name.place, .duplicateFunction f.name.text⟩]⟩
      else if f.typeMistakes.isEmpty then
        let f := f.sift body
        ⟨[.function f.kept], f.mistakes⟩
      else ⟨[], f.typeMistakes⟩
  | .main e =>
    if "main" ∈ taken then ⟨[], [⟨e.place, .duplicateMain⟩]⟩
    else
      let body := e.body.sift []
      ⟨[.main { e with body := body.kept }], body.mistakes⟩

/-- Items in order. -/
def Item.siftAll (taken : List String) : List (Item L I) → Sifted L (List (Item L I))
  | [] => ⟨[], []⟩
  | i :: items =>
    let first := i.sift taken
    let rest := Item.siftAll (first.kept.map Item.name ++ taken) items
    ⟨first.kept ++ rest.kept, first.mistakes ++ rest.mistakes⟩

/-- A program without the declarations that are rejected. -/
def Program.sift (p : Program L) : Sifted L (Program L) :=
  let items := Item.siftAll [] p.items
  ⟨{ p with items := items.kept }, items.mistakes⟩

/-! ## Two runs -/

namespace Declarations

/-- The same declarations with nothing reported. -/
def cleared (d : Declarations L) : Declarations L :=
  { d with findings := [] }

/-- Reports several mistakes. -/
def reportAll (d : Declarations L) (mistakes : List (Located L DeclarationError)) :
    Declarations L :=
  { d with findings := d.findings ++ mistakes }

@[simp] theorem reportAll_nil (d : Declarations L) : d.reportAll [] = d := by
  simp [reportAll]

/-- From `d` on, `part` does the same as `whole`, which reports the mistakes. -/
structure Sifts (whole part : Declarations L → Declarations L)
    (mistakes : List (Located L DeclarationError)) (d : Declarations L) : Prop where
  cleared : part d.cleared = (whole d).cleared
  findings : (whole d).findings = d.findings ++ mistakes

variable {d : Declarations L}

namespace Sifts

variable {whole whole' part part' : Declarations L → Declarations L}
  {mistakes mistakes' : List (Located L DeclarationError)}

theorem trans (h : Sifts whole part mistakes d) (h' : Sifts whole' part' mistakes' (whole d)) :
    Sifts (fun d => whole' (whole d)) (fun d => part' (part d)) (mistakes ++ mistakes') d where
  cleared := by
    rw [h.cleared]
    exact h'.cleared
  findings := by rw [h'.findings, h.findings, List.append_assoc]

/-- An operation that reports nothing and does not look at what was reported. -/
theorem of_eq (hcleared : whole d.cleared = (whole d).cleared)
    (hfindings : (whole d).findings = d.findings) : Sifts whole whole [] d :=
  ⟨hcleared, hfindings.trans (List.append_nil _).symm⟩

/-- What is rejected is only reported. -/
theorem of_reportAll (h : whole d = d.reportAll mistakes) : Sifts whole id mistakes d where
  cleared := by
    rw [h]
    rfl
  findings := by
    rw [h]
    rfl

theorem table (h : Sifts whole part mistakes d) : (part d.cleared).table = (whole d).table := by
  rw [h.cleared]
  rfl

theorem findings_part (h : Sifts whole part mistakes d) : (part d.cleared).findings = [] := by
  rw [h.cleared]
  rfl

end Sifts

end Declarations

open Declarations

/-! ## Bodies -/

theorem Block.declarationsAll_append (s : ScopeId) (sts sts' : List (Stmt L NodeId))
    (d : Declarations L) :
    Block.declarationsAll s (sts ++ sts') d =
      Block.declarationsAll s sts' (Block.declarationsAll s sts d) := by
  induction sts generalizing d with
  | nil => rfl
  | cons st sts ih => exact ih _

namespace Declarations

variable {d : Declarations L} {s : ScopeId} {parameters taken : List String}

theorem resolveType_eq (d : Declarations L) (name : Name L) :
    d.resolveType name = (Ty.named? name.text, d.reportAll name.typeMistake?.toList) := by
  unfold resolveType Name.typeMistake?
  cases Ty.named? name.text <;> simp [reportAll, report]

/-- A variable is declared if its type is known and its name is free. -/
theorem declareVariable_of_free {type name : Name L} {τ : Ty} (hτ : Ty.named? type.text = some τ)
    (hfree : d.hasVariable s name.text = false) :
    d.declareVariable s type name = (d.define s (.var name.text τ)).2 := by
  simp [declareVariable, resolveType, hτ, hfree]

/-- Otherwise the mistake is reported. -/
theorem declareVariable_cases (h : d.Holds s parameters taken) (type name : Name L) :
    (Name.variableMistake? parameters taken type name = none ∧
      ∃ τ, Ty.named? type.text = some τ ∧ d.hasVariable s name.text = false) ∨
    ∃ mistake, Name.variableMistake? parameters taken type name = some mistake ∧
      d.declareVariable s type name = d.reportAll [mistake] := by
  have hrefused := h.hasVariable_iff name.text
  unfold declareVariable Name.variableMistake?
  rw [resolveType_eq]
  unfold Name.typeMistake?
  -- An unknown type is reported before the name is looked at.
  cases Ty.named? type.text with
  | none => exact .inr ⟨_, rfl, rfl⟩
  | some τ =>
    simp only [Option.isSome_some, if_true, Option.toList_none, reportAll_nil, Option.none_or]
    -- The scope refuses a name exactly if it is taken here or a parameter.
    by_cases hname : name.text ∈ taken ∨ name.text ∈ parameters
    · refine .inr ⟨_, if_pos hname, ?_⟩
      rw [if_pos (hrefused.mpr hname)]
      rfl
    · exact .inl ⟨if_neg hname, τ, rfl, by simpa using fun h => hname (hrefused.mp h)⟩

/-- What a scope refuses is a matter of the table. -/
theorem Holds.of_table_eq {d' : Declarations L} (h : d.Holds s parameters taken)
    (htable : d.table = d'.table) : d'.Holds s parameters taken :=
  ⟨htable ▸ h.lt_size, htable ▸ h.onlyVariables, htable ▸ h.bound_iff, htable ▸ h.hasParameters⟩

/-- A block leaves the scope around it as it is. -/
theorem Holds.declarations (h : d.Holds s parameters taken) (b : Block L NodeId) :
    (b.declarations s d).Holds s parameters taken :=
  h.keep (b.extends_declarations ⟨d.table.scopes.size⟩ s d h.lt_size (Nat.le_refl _))
    fun he => Nat.ne_of_lt h.lt_size (congrArg _ he)

end Declarations

/-- What declaring a statement has in common with declaring what is left of it, and which names the
scope refuses after it. -/
private def Stmt.SiftsAt (parameters : List String) (st : Stmt L NodeId) (s : ScopeId)
    (taken : List String) (d : Declarations L) : Prop :=
  let sifted := st.sift parameters taken
  Sifts (st.declarations s) (Block.declarationsAll s sifted.kept) sifted.mistakes d ∧
    (st.declarations s d).Holds s parameters (Block.declares sifted.kept ++ taken)

private theorem Block.sifts_all {sts : List (Stmt L NodeId)} {s : ScopeId}
    {parameters : List String}
    (ih : ∀ st ∈ sts, ∀ (taken : List String) (d : Declarations L),
      d.Holds s parameters taken → st.SiftsAt parameters s taken d)
    (taken : List String) (d : Declarations L) (h : d.Holds s parameters taken) :
    Sifts (Block.declarationsAll s sts)
      (Block.declarationsAll s (Block.siftAll parameters taken sts).kept)
      (Block.siftAll parameters taken sts).mistakes d := by
  induction sts generalizing taken d with
  | nil => exact .of_eq rfl rfl
  | cons st sts ihs =>
    obtain ⟨hfirst, hnext⟩ := ih st List.mem_cons_self taken d h
    have hrest := ihs (fun st hm => ih st (List.mem_cons_of_mem _ hm)) _ _ hnext
    have hboth := hfirst.trans hrest
    exact ⟨(Block.declarationsAll_append s _ _ _).trans hboth.cleared, hboth.findings⟩

private theorem Block.sifts_block {b : Block L NodeId} {parameters : List String}
    (ih : ∀ st ∈ b.statements, ∀ (s : ScopeId) (taken : List String) (d : Declarations L),
      d.Holds s parameters taken → st.SiftsAt parameters s taken d)
    (s : ScopeId) (d : Declarations L) (h : d.table.HasParameters s parameters) :
    Sifts (b.declarations s) ((b.sift parameters).kept.declarations s)
      (b.sift parameters).mistakes d := by
  obtain ⟨node, sts⟩ := b
  have hall := Block.sifts_all (fun st hm => ih st hm ⟨d.table.scopes.size⟩) [] _
    (holds_openBlock h node)
  exact ⟨hall.cleared, hall.findings⟩

private theorem Stmt.siftsAt (st : Stmt L NodeId) {parameters : List String} (s : ScopeId)
    (taken : List String) (d : Declarations L) (h : d.Holds s parameters taken) :
    st.SiftsAt parameters s taken d := by
  induction st using Stmt.inductionOn generalizing s taken d with
  | declare p type name value =>
    unfold Stmt.SiftsAt Stmt.sift
    rcases declareVariable_cases h type name with ⟨hnone, τ, hτ, hfree⟩ | ⟨mistake, hsome, hreport⟩
    · -- The names that are refused are the same with nothing reported.
      have hcleared : d.cleared.declareVariable s type name = (d.cleared.define s _).2 :=
        declareVariable_of_free hτ hfree
      have hdeclare : d.declareVariable s type name = (d.define s _).2 :=
        declareVariable_of_free hτ hfree
      have hbefore : d.cleared.Holds s parameters taken := h.of_table_eq rfl
      have hafter : (d.cleared.declareVariable s type name).Holds s parameters
          (name.text :: taken) := hbefore.declareVariable (by rw [hcleared]; rfl)
      simp only [hnone]
      refine ⟨⟨hcleared.trans ?_, ?_⟩, hafter.of_table_eq ?_⟩
      · simp only [Stmt.declarations, hdeclare]
        rfl
      · simp only [Stmt.declarations, hdeclare, List.append_nil]
        rfl
      · simp only [Stmt.declarations, hdeclare, hcleared]
        rfl
    -- The declaration is dropped, and the table is as it was.
    · simp only [hsome]
      refine ⟨.of_reportAll hreport, ?_⟩
      simp only [Stmt.declarations, hreport]
      exact h.of_table_eq rfl
  | assign p target value => exact ⟨.of_eq rfl rfl, h⟩
  | assignAt p target position value => exact ⟨.of_eq rfl rfl, h⟩
  | print p newline value => exact ⟨.of_eq rfl rfl, h⟩
  | call p callee arguments => exact ⟨.of_eq rfl rfl, h⟩
  | ret p node value => exact ⟨.of_eq rfl rfl, h.of_table_eq rfl⟩
  -- A block has a scope of its own, so the names of this one stay.
  | ifThen p condition yes ih =>
    exact ⟨Block.sifts_block ih s d h.hasParameters, h.declarations yes⟩
  | loop p condition body ih =>
    exact ⟨Block.sifts_block ih s d h.hasParameters, h.declarations body⟩
  | ifElse p condition yes no ihy ihn =>
    have h₁ := h.declarations yes
    exact ⟨(Block.sifts_block ihy s d h.hasParameters).trans
      (Block.sifts_block ihn s _ h₁.hasParameters), h₁.declarations no⟩

/-- Declaring a block does the same as declaring what is left of it. -/
theorem Block.sifts_declarations (b : Block L NodeId) {parameters : List String} (s : ScopeId)
    (d : Declarations L) (h : d.table.HasParameters s parameters) :
    Sifts (b.declarations s) ((b.sift parameters).kept.declarations s)
      (b.sift parameters).mistakes d :=
  Block.sifts_block (fun st _ => st.siftsAt) s d h

/-! ## Headers -/

namespace Declarations

/-- The names that a scope binds. -/
structure Binds (d : Declarations L) (s : ScopeId) (taken : List String) : Prop where
  lt_size : s.index < d.table.scopes.size
  bound_iff : ∀ name, (∃ x, d.table.localResolve s name = some x) ↔ name ∈ taken

variable {d : Declarations L} {s : ScopeId} {taken : List String}

theorem Binds.free (h : d.Binds s taken) {name : String} (hname : name ∉ taken) :
    d.table.localResolve s name = none := by
  cases hlocal : d.table.localResolve s name with
  | none => rfl
  | some x => exact absurd ((h.bound_iff name).mp ⟨x, hlocal⟩) hname

/-- One name more. -/
theorem Binds.cons {d' : Declarations L} {new : String} {x : SymbolId} (h : d.Binds s taken)
    (hs : s.index < d'.table.scopes.size)
    (hnames : ∀ name, d'.table.localResolve s name =
      if name = new then some x else d.table.localResolve s name) :
    d'.Binds s (new :: taken) := by
  refine ⟨hs, fun name => ?_⟩
  rw [hnames, List.mem_cons, ← h.bound_iff]
  by_cases hname : name = new
  · simp [hname]
  · simp [hname]

/-- A parameter whose name is taken is only reported. -/
theorem parameters_of_bound {x y : SymbolId} {name : Name L} {type : Ty}
    (h : d.table.localResolve s name.text = some y) (ps : List (Name L × Ty)) :
    d.parameters x s ((name, type) :: ps) =
      (d.report name.place (.duplicateParameter name.text)).parameters x s ps := by
  have hdefine : d.define s (.var name.text type) = (none, d) := by
    simp [define, Table.define_of_bound (x := .var name.text type) h]
  rw [parameters, hdefine]

theorem parameters_of_free {x : SymbolId} {name : Name L} {type : Ty}
    (hs : s.index < d.table.scopes.size) (h : d.table.localResolve s name.text = none)
    (ps : List (Name L × Ty)) :
    d.parameters x s ((name, type) :: ps) =
      ((d.define s (.var name.text type)).2.addParameter x ⟨d.table.symbols.size⟩).parameters
        x s ps := by
  have hdefine : d.define s (.var name.text type) =
      (some ⟨d.table.symbols.size⟩, (d.define s (.var name.text type)).2) :=
    Prod.ext (Table.define_fst_of_free hs h) rfl
  rw [parameters, hdefine]

/-- Declaring parameters does the same as declaring those whose names are new. -/
theorem sifts_parameters (type : Parameter L → Ty) (x : SymbolId) (ps : List (Parameter L))
    (h : d.Binds s taken) :
    Sifts (·.parameters x s (ps.map fun p => (p.name, type p)))
      (·.parameters x s ((Parameter.sift taken ps).kept.map fun p => (p.name, type p)))
      (Parameter.sift taken ps).mistakes d := by
  induction ps generalizing taken d with
  | nil => exact .of_eq rfl rfl
  | cons p ps ih =>
    unfold Parameter.sift
    split_ifs with htaken
    -- A name that was seen before is reported and dropped, and the list goes on with the same
    -- names.
    · obtain ⟨y, hy⟩ := (h.bound_iff p.name.text).mpr htaken
      have hrest := ih (d := d.report p.name.place (.duplicateParameter p.name.text))
        ⟨h.lt_size, h.bound_iff⟩
      refine ⟨?_, ?_⟩
      · simp only [List.map_cons, parameters_of_bound hy]
        exact hrest.cleared
      · simp only [List.map_cons, parameters_of_bound hy]
        rw [hrest.findings]
        simp [report]
    -- A new name is kept, and from here on it is taken.
    · have hfree := h.free htaken
      have hbinds : ((d.define s (.var p.name.text (type p))).2.addParameter x
          ⟨d.table.symbols.size⟩).Binds s (p.name.text :: taken) := by
        refine h.cons (x := ⟨d.table.symbols.size⟩) ?_ fun name => ?_
        · simpa [addParameter, define] using h.lt_size
        · simp [addParameter, define, Symbol.name,
            Table.localResolve_define_of_free (x := .var p.name.text (type p)) h.lt_size hfree]
      have hrest := ih hbinds
      have hfree' : d.cleared.table.localResolve s p.name.text = none := hfree
      refine ⟨?_, ?_⟩
      · simp only [List.map_cons, parameters_of_free h.lt_size hfree]
        rw [parameters_of_free (d := d.cleared) h.lt_size hfree']
        exact hrest.cleared
      · simp only [List.map_cons, parameters_of_free h.lt_size hfree]
        exact hrest.findings

/-- The type that a name stands for. -/
def typeNamed (type : Name L) : Ty :=
  (Ty.named? type.text).getD .error

theorem named?_of_typeMistake? {type : Name L} (h : type.typeMistake? = none) :
    Ty.named? type.text = some (typeNamed type) := by
  unfold Name.typeMistake? at h
  cases htype : Ty.named? type.text with
  | none => simp [htype] at h
  | some τ => simp [typeNamed, htype]

/-- The types of names are all known, or the first unknown one is reported. -/
private theorem resolveTypes_eq (d : Declarations L) (names : List (Name L)) :
    d.resolveTypes names =
      (if names.findSome? Name.typeMistake? = none then some (names.map typeNamed) else none,
        d.reportAll (names.findSome? Name.typeMistake?).toList) := by
  induction names with
  | nil => simp [resolveTypes]
  | cons name names ih =>
    rw [resolveTypes, resolveType_eq]
    cases hmistake : name.typeMistake? with
    | none =>
      simp only [named?_of_typeMistake? hmistake, Option.toList_none, reportAll_nil, ih,
        List.findSome?_cons, hmistake]
      split_ifs <;> rfl
    -- The first unknown type ends the search, so the rest is not reported.
    | some mistake =>
      have hnone : Ty.named? name.text = none := by
        unfold Name.typeMistake? at hmistake
        cases htype : Ty.named? name.text with
        | none => rfl
        | some τ => simp [htype] at hmistake
      simp [hnone, hmistake]

variable {f : Function L NodeId} {body : Block L NodeId}

private theorem typeMistakes_eq_nil_iff :
    f.typeMistakes = [] ↔ f.returns.typeMistake? = none ∧
      (f.parameters.map (·.type)).findSome? Name.typeMistake? = none := by
  simp [Function.typeMistakes, List.findSome?_map, Function.comp_def]

theorem typeMistake?_parameter (htypes : f.typeMistakes = []) {p : Parameter L}
    (hp : p ∈ f.parameters) : p.type.typeMistake? = none :=
  List.findSome?_eq_none_iff.mp (typeMistakes_eq_nil_iff.mp htypes).2 _ (List.mem_map_of_mem hp)

/-- Fewer parameters have no more unknown types. -/
private theorem typeMistakes_sift (htypes : f.typeMistakes = []) (body : Block L NodeId) :
    (f.sift body).kept.typeMistakes = [] := by
  refine typeMistakes_eq_nil_iff.mpr ⟨(typeMistakes_eq_nil_iff.mp htypes).1, ?_⟩
  refine List.findSome?_eq_none_iff.mpr (List.forall_mem_map.mpr fun p hp => ?_)
  exact typeMistake?_parameter htypes ((Parameter.sift_sublist [] f.parameters).subset hp)

/-- A function whose types are known. -/
theorem function_of_types (hbody : f.body = some body)
    (hname : d.hasFunction f.name.text = false) (htypes : f.typeMistakes = []) :
    d.function f =
      d.accept f body (typeNamed f.returns) (f.parameters.map (typeNamed ·.type)) := by
  obtain ⟨hreturns, hparameters⟩ := typeMistakes_eq_nil_iff.mp htypes
  unfold function
  simp only [hbody, hname, resolveType_eq, resolveTypes_eq, named?_of_typeMistake? hreturns,
    hreturns, hparameters, Option.toList_none, reportAll_nil, if_true]
  simp [Function.comp_def]

/-- A function of which some type is unknown. -/
private theorem function_of_typeMistakes (hbody : f.body = some body)
    (hname : d.hasFunction f.name.text = false) (htypes : f.typeMistakes ≠ []) :
    d.function f = d.reportAll f.typeMistakes := by
  have hfindings : (d.reportAll f.returns.typeMistake?.toList).reportAll
      ((f.parameters.map (·.type)).findSome? Name.typeMistake?).toList =
        d.reportAll f.typeMistakes := by
    simp [reportAll, Function.typeMistakes, List.findSome?_map, Function.comp_def]
  unfold function
  simp only [hbody, hname, resolveType_eq, resolveTypes_eq, hfindings]
  simp only [Bool.false_eq_true, if_false]
  split
  next returns types hreturns hparameters =>
    -- Both are known only if there is no mistake.
    refine absurd (typeMistakes_eq_nil_iff.mpr ⟨?_, ?_⟩) htypes
    · simp [Name.typeMistake?, hreturns]
    · by_contra hsome
      simp [hsome] at hparameters
  · rfl

end Declarations

/-! ## Items -/

theorem Table.Arranged.bindsFunctions {items : List (Item L NodeId)} {t : Table}
    (ht : t.Arranged items) : t.BindsFunctions Table.global := by
  intro name x hx
  exact ht.functions x ((ht.consistent.localResolve_eq_some_iff _ _ _).mp hx).1

namespace Declarations

variable {d : Declarations L} {items : List (Item L NodeId)} {taken : List String}

theorem Binds.hasFunction_iff (h : d.Binds Table.global taken) (ht : d.table.Arranged items)
    (name : String) : d.hasFunction name = true ↔ name ∈ taken := by
  rw [Declarations.hasFunction_iff ht.bindsFunctions, ← h.bound_iff, ne_eq,
    Option.eq_none_iff_forall_ne_some]
  simp

/-- The scope of an item and what is declared below it bind nothing else in the global scope. -/
theorem Prepares.binds {g : FunctionSymbol} {mark : NodeId} {owner : Option SymbolId}
    {s : ScopeId} {k : Nat} {nodes : List NodeId} {d₂ d' : Declarations L}
    (hopen : Prepares g mark owner s d d₂) (h : d.Binds Table.global taken)
    (hkeep : Extends s k nodes d₂ d') : d'.Binds Table.global (g.name :: taken) :=
  h.cons (Nat.lt_of_lt_of_le hopen.global_lt hkeep.scopes_le) fun name => by
    rw [hkeep.bindings _ hopen.global_lt hopen.ne_global, hopen.names]

section Function

variable {f : Function L NodeId} (body : Block L NodeId) (returns : Ty)

theorem Binds.accept {types : List Ty} (h : d.Binds Table.global taken)
    (hname : f.name.text ∉ taken) (htypes : ∀ type ∈ types, type ∈ Ty.nameable) :
    (d.accept f body returns types).Binds Table.global (f.name.text :: taken) := by
  have hfree := h.free hname
  let g : FunctionSymbol := ⟨f.name.text, returns, []⟩
  let x : SymbolId := ⟨d.table.symbols.size⟩
  let d₁ := (d.define Table.global (.fn g)).2
  let d₂ := (d₁.openFor f.mark Table.global (some x)).2
  let s : ScopeId := ⟨d₁.table.scopes.size⟩
  have hopen : Prepares g f.mark (some x) s d d₂ := prepares_openFor f.mark (some x) h.lt_size hfree
  have hkeep := extends_parameters s 0 d₂ x (Nat.zero_le _)
    ((f.parameters.map (·.name)).zip types) (Nat.zero_le _)
    fun p hp => htypes p.2 (List.of_mem_zip hp).2
  have hs := Nat.lt_of_lt_of_le hopen.lt_size hkeep.scopes_le
  rw [accept_of_free h.lt_size hfree]
  exact hopen.binds h (hkeep.trans (body.extends_declarations s s _ hs (Nat.zero_le _)))

/-- Below its header a function does the same as what is left of it. -/
private theorem sifts_accept (h : d.Binds Table.global taken) (hname : f.name.text ∉ taken)
    (htypes : ∀ p ∈ f.parameters, typeNamed p.type ∈ Ty.nameable) :
    let kept := (Parameter.sift [] f.parameters).kept
    let rest := (body.sift (kept.map (·.name.text))).kept
    Sifts (·.accept f body returns (f.parameters.map (typeNamed ·.type)))
      (·.accept (f.sift body).kept rest returns (kept.map (typeNamed ·.type)))
      (f.sift body).mistakes d := by
  intro kept rest
  have hfree := h.free hname
  let g : FunctionSymbol := ⟨f.name.text, returns, []⟩
  let x : SymbolId := ⟨d.table.symbols.size⟩
  let d₁ := (d.define Table.global (.fn g)).2
  let d₂ := (d₁.openFor f.mark Table.global (some x)).2
  let s : ScopeId := ⟨d₁.table.scopes.size⟩
  have hopen : Prepares g f.mark (some x) s d d₂ := prepares_openFor f.mark (some x) h.lt_size hfree
  have hempty : d₂.Binds s [] := ⟨hopen.lt_size, fun name => by simp [hopen.empty]⟩
  have hparameters := sifts_parameters (typeNamed ·.type) x f.parameters hempty
  have hzip : ∀ ps : List (Parameter L), (ps.map (·.name)).zip (ps.map (typeNamed ·.type)) =
      ps.map fun p => (p.name, typeNamed p.type) := fun ps => List.zip_map' ..
  have hnameable : ∀ type ∈ kept.map (typeNamed ·.type), type ∈ Ty.nameable := by
    intro type hm
    obtain ⟨p, hp, rfl⟩ := List.mem_map.mp hm
    exact htypes p ((Parameter.sift_sublist [] f.parameters).subset hp)
  -- The parameters that were kept are those that the body must not use for variables.
  have hhas : (d₂.parameters x s (f.parameters.map fun p => (p.name, typeNamed p.type))).table
      |>.HasParameters s (kept.map (·.name.text)) := by
    have hclean : (d₂.cleared.parameters x s
        ((kept.map (·.name)).zip (kept.map (typeNamed ·.type)))).findings = [] := by
      rw [hzip]
      exact hparameters.findings_part
    have henters := parameters_of_clean (d := d₂.cleared) (g := g) hopen.lt_size hopen.symbol
      (by simp) hnameable hclean
    rw [hzip] at henters
    rw [← hparameters.table]
    refine henters.hasParameters rfl (by simp) ?_
    have hkeep := extends_parameters s 0 d₂.cleared x (Nat.zero_le _)
      (kept.map fun p => (p.name, typeNamed p.type)) (Nat.zero_le _)
      (List.forall_mem_map.mpr fun p hp => hnameable _ (List.mem_map_of_mem hp))
    exact (hkeep.owner s hopen.lt_size).trans hopen.owner
  -- The parameters are sifted first, and then the body with the names that are left.
  have hboth := hparameters.trans (body.sifts_declarations s _ hhas)
  refine ⟨?_, ?_⟩
  · rw [accept_of_free h.lt_size hfree,
      accept_of_free (d := d.cleared) (f := (f.sift body).kept) h.lt_size hfree, hzip]
    exact (congrArg _ (congrArg _ (hzip kept))).trans hboth.cleared
  · rw [accept_of_free h.lt_size hfree, hzip]
    exact hboth.findings

end Function

/-- What `whole` does is the same as declaring the items that are left, and the global scope binds
their names after it. -/
def SiftsItems (taken : List String) (whole : Declarations L → Declarations L)
    (sifted : Sifted L (List (Item L NodeId))) (d : Declarations L) : Prop :=
  Sifts whole (sifted.kept.foldl item) sifted.mistakes d ∧
    (whole d).Binds Table.global (sifted.kept.map Item.name ++ taken)

private theorem SiftsItems.of_reportAll {whole : Declarations L → Declarations L}
    {mistakes : List (Located L DeclarationError)} (h : d.Binds Table.global taken)
    (hreport : whole d = d.reportAll mistakes) : SiftsItems taken whole ⟨[], mistakes⟩ d := by
  refine ⟨.of_reportAll hreport, ?_⟩
  rw [hreport]
  exact ⟨h.lt_size, h.bound_iff⟩

private theorem siftsItems_function (ht : d.table.Arranged items) (h : d.Binds Table.global taken)
    (f : Function L NodeId) :
    SiftsItems taken (·.function f) (Item.sift taken (.function f)) d := by
  have hname := h.hasFunction_iff ht f.name.text
  cases hbody : f.body with
  | none =>
    simp only [Item.sift, hbody]
    refine .of_reportAll h ?_
    simp only [function, hbody]
    rfl
  | some body =>
    -- The pass looks at the body, the name and the types, in this order, and stops at the first
    -- mistake.
    simp only [Item.sift, hbody]
    by_cases htaken : f.name.text ∈ taken
    · rw [if_pos htaken]
      refine .of_reportAll h ?_
      simp only [function, hbody, hname.mpr htaken, if_true]
      rfl
    have hfree : d.hasFunction f.name.text = false := by
      simpa using fun h => htaken (hname.mp h)
    rw [if_neg htaken]
    by_cases htypes : f.typeMistakes = []
    -- The header is as good in the sifted function, since types of parameters were only dropped.
    · rw [if_pos (by simpa using htypes)]
      have hnameable : ∀ p ∈ f.parameters, typeNamed p.type ∈ Ty.nameable := fun p hp =>
        Ty.named?_mem (named?_of_typeMistake? (typeMistake?_parameter htypes hp))
      have haccept := sifts_accept body (typeNamed f.returns) h htaken hnameable
      have hwhole := function_of_types hbody hfree htypes
      have hpart := function_of_types (d := d.cleared) (f := (f.sift body).kept) rfl hfree
        (typeMistakes_sift htypes body)
      refine ⟨⟨?_, ?_⟩, ?_⟩
      · exact (hpart.trans haccept.cleared).trans (congrArg Declarations.cleared hwhole.symm)
      · exact (congrArg Declarations.findings hwhole).trans haccept.findings
      · simp only [hwhole]
        exact h.accept body _ htaken (List.forall_mem_map.mpr hnameable)
    · rw [if_neg (by simpa using htypes)]
      exact .of_reportAll h (function_of_typeMistakes hbody hfree htypes)

theorem entryPoint_of_free {e : EntryPoint L NodeId}
    (hname : d.hasFunction "main" = false) :
    let d₁ := (d.define Table.global (.fn ⟨"main", .void, []⟩)).2
    d.entryPoint e = e.body.declarations ⟨d₁.table.scopes.size⟩
      (d₁.openFor e.mark Table.global none).2 := by
  simp only [entryPoint, hname]
  rfl

private theorem siftsItems_entryPoint (ht : d.table.Arranged items)
    (h : d.Binds Table.global taken) (e : EntryPoint L NodeId) :
    SiftsItems taken (·.entryPoint e) (Item.sift taken (.main e)) d := by
  have hname := h.hasFunction_iff ht "main"
  unfold Item.sift
  split_ifs with htaken
  · refine .of_reportAll h ?_
    simp only [entryPoint, hname.mpr htaken, if_true]
    rfl
  · have hmain : d.hasFunction "main" = false := by
      simpa using fun h => htaken (hname.mp h)
    have hfree := h.free htaken
    let g : FunctionSymbol := ⟨"main", .void, []⟩
    let d₁ := (d.define Table.global (.fn g)).2
    let d₂ := (d₁.openFor e.mark Table.global none).2
    let s : ScopeId := ⟨d₁.table.scopes.size⟩
    have hopen : Prepares g e.mark none s d d₂ := prepares_openFor e.mark none h.lt_size hfree
    -- There are no parameters to sift, so all that can be dropped is in the body.
    have hwhole : d.entryPoint e = e.body.declarations s d₂ := entryPoint_of_free hmain
    have hpart : d.cleared.entryPoint { e with body := (e.body.sift []).kept } =
        (e.body.sift []).kept.declarations s d₂.cleared :=
      entryPoint_of_free (d := d.cleared) hmain
    have hbody := e.body.sifts_declarations s d₂ (.inl ⟨hopen.owner, rfl⟩)
    refine ⟨⟨?_, ?_⟩, ?_⟩
    · exact (hpart.trans hbody.cleared).trans (congrArg Declarations.cleared hwhole.symm)
    · exact (congrArg Declarations.findings hwhole).trans hbody.findings
    · simp only [hwhole]
      exact hopen.binds h (e.body.extends_declarations s s d₂ hopen.lt_size (Nat.zero_le _))

theorem siftsItems_item (ht : d.table.Arranged items) (h : d.Binds Table.global taken)
    (i : Item L NodeId) : SiftsItems taken (·.item i) (i.sift taken) d := by
  cases i with
  | function f => exact siftsItems_function ht h f
  | main e => exact siftsItems_entryPoint ht h e

/-- Declaring items does the same as declaring what is left of them. -/
theorem sifts_items (ht : d.table.Arranged items) (is : List (Item L NodeId))
    (his : ∀ i ∈ is, i ∈ items) (h : d.Binds Table.global taken) :
    Sifts (is.foldl item) ((Item.siftAll taken is).kept.foldl item)
      (Item.siftAll taken is).mistakes d := by
  induction is generalizing taken d with
  | nil => exact .of_eq rfl rfl
  | cons i is ih =>
    obtain ⟨hfirst, hnext⟩ := siftsItems_item ht h i
    have hi : ∀ j ∈ [i], j ∈ items := fun j hj => by
      rw [List.mem_singleton.mp hj]
      exact his i List.mem_cons_self
    have hrest := ih (arranged_items ht [i] hi) (fun j hj => his j (List.mem_cons_of_mem _ hj))
      hnext
    have hboth := hfirst.trans hrest
    exact ⟨List.foldl_append.trans hboth.cleared, hboth.findings⟩

/-- Before the items are declared no name is taken. -/
theorem binds_empty (root : NodeId) :
    (empty.record root Table.global : Declarations L).Binds Table.global [] := by
  refine ⟨by simp [record, empty, Table.empty, Table.global], fun name => ?_⟩
  have hnone : (empty.record root Table.global : Declarations L).table.localResolve
    Table.global name = none := rfl
  simp [hnone]

/-- Rejected declarations leave no trace. The mistakes in the declarations of a program are those of
the declarations that `Program.sift` takes out, in reading order; what is left of the program is
declared without a mistake, in the same table and with the same recorded scopes. -/
theorem ofProgram_sift (p : Program L) :
    (ofProgram p).findings = p.sift.mistakes ∧
      (ofProgram p.sift.kept).findings = [] ∧
      (ofProgram p.sift.kept).table = (ofProgram p).table ∧
      (ofProgram p.sift.kept).scopes = (ofProgram p).scopes := by
  have hsifts := sifts_items Table.arranged_empty p.items (fun _ h => h) (binds_empty p.root)
  have hcleared : ofProgram p.sift.kept = (ofProgram p).cleared := hsifts.cleared
  rw [hcleared]
  exact ⟨hsifts.findings, rfl, rfl, rfl⟩

end Declarations

end Primer
