import Primer.Proofs.Declaration.Entry

/-!
# Well-declared programs

Which programs are declared without a mistake, read off the tree: every function has a body and a
name of its own, every type is known, and no name is declared twice where it would clash. A block
may hide what is declared around it, but never a parameter of its function.

The pass decides this with the table that it builds on the way. `Declarations.Holds` says which
names a scope refuses at a given moment. From there one lemma for each construct says that declaring
it reports nothing exactly if it is well declared, and `Program.clean_iff_wellDeclared` puts them
together.
-/

namespace Primer

variable {L I : Type}

/-! ## On the tree -/

/-- The variable that a statement declares in its block. -/
def Stmt.declares? : Stmt L I → Option String
  | .declare _ _ name _ => some name.text
  | _ => none

/-- The variables that the statements of a block declare directly. -/
def Block.declares (sts : List (Stmt L I)) : List String :=
  sts.filterMap Stmt.declares?

mutual

/-- The types of the variables in a statement are known, and none has the name of a parameter. -/
def Stmt.WellDeclared (parameters : List String) : Stmt L I → Prop
  | .declare _ type name _ => (Ty.named? type.text).isSome ∧ name.text ∉ parameters
  | .ifThen _ _ yes => yes.WellDeclared parameters
  | .ifElse _ _ yes no => yes.WellDeclared parameters ∧ no.WellDeclared parameters
  | .loop _ _ body => body.WellDeclared parameters
  | .assign .. | .assignAt .. | .ret .. | .print .. | .call .. => True

/-- No block declares a variable twice directly. -/
def Block.WellDeclared (parameters : List String) : Block L I → Prop
  | .mk _ statements =>
    Block.WellDeclaredAll parameters statements ∧ (Block.declares statements).Nodup

/-- The statements of a block are well declared. -/
def Block.WellDeclaredAll (parameters : List String) : List (Stmt L I) → Prop
  | [] => True
  | st :: sts => st.WellDeclared parameters ∧ Block.WellDeclaredAll parameters sts

end

/-- The names of the parameters of a function. -/
def Function.parameterNames (f : Function L I) : List String :=
  f.parameters.map (·.name.text)

/-- The name that an item declares. The entry point is called `main`. -/
def Item.name : Item L I → String
  | .function f => f.name.text
  | .main _ => "main"

/-- An item that can be declared wherever its name is free. -/
def Item.WellDeclared : Item L I → Prop
  | .function f =>
    (∃ body, f.body = some body ∧ body.WellDeclared f.parameterNames) ∧
      (Ty.named? f.returns.text).isSome ∧ (∀ p ∈ f.parameters, (Ty.named? p.type.text).isSome) ∧
      f.parameterNames.Nodup
  | .main e => e.body.WellDeclared []

/-- Every item is well declared, and no two have the same name. -/
structure Program.WellDeclared (p : Program L) : Prop where
  items : ∀ i ∈ p.items, i.WellDeclared
  names : (p.items.map Item.name).Nodup

theorem Item.declared_fst (k : Nat) (i : Item L I) : (i.declared k).1 = i.name := by
  cases i <;> rfl

theorem Item.declared_symbol (k : Nat) (i : Item L I) : (i.declared k).2.symbol = ⟨k⟩ := by
  cases i <;> rfl

/-- A function of the program is declared by an item of that name. -/
theorem Item.exists_of_lookup_layer {items : List (Nat × Item L I)} {name : String} {x : Declared}
    (h : (Item.layer items).lookup name = some x) :
    ∃ k i, (k, i) ∈ items ∧ i.name = name ∧ i.declared k = (name, x) := by
  obtain ⟨before, after, hsplit, -⟩ := List.lookup_eq_some_iff.mp h
  have hmem : (name, x) ∈ Item.layer items := by simp [hsplit]
  obtain ⟨⟨k, i⟩, hi, heq⟩ := List.mem_map.mp hmem
  have heq : i.declared k = (name, x) := heq
  exact ⟨k, i, hi, by rw [← i.declared_fst k, heq], heq⟩

/-- The order of items does not decide whether they are well declared. -/
theorem Program.WellDeclared.perm {p p' : Program L} (h : p.WellDeclared)
    (hitems : p.items.Perm p'.items) : p'.WellDeclared where
  items i hi := h.items i (hitems.mem_iff.mpr hi)
  names := (hitems.map Item.name).nodup_iff.mp h.names

/-! ## Names that a scope refuses -/

/-- The parameters of the function that the scope belongs to have these names. -/
def Table.HasParameters (t : Table) (s : ScopeId) (names : List String) : Prop :=
  (t.owner? s = none ∧ names = []) ∨
    ∃ x f, t.owner? s = some x ∧ t.symbol? x = some (.fn f) ∧
      List.Forall₂ (fun y name => ∃ τ, t.symbol? y = some (.var name τ)) f.parameters names

namespace Table.HasParameters

variable {t t' : Table} {s r : ScopeId} {names : List String}

/-- Scopes of the same function have the same parameters, as long as symbols keep. -/
theorem keep (h : t.HasParameters s names) (howner : t'.owner? r = t.owner? s)
    (hsymbol : ∀ x : SymbolId, x.index < t.symbols.size → t'.symbol? x = t.symbol? x) :
    t'.HasParameters r names := by
  rcases h with ⟨hnone, hnames⟩ | ⟨x, f, hx, hf, hall⟩
  · exact .inl ⟨howner.trans hnone, hnames⟩
  · refine .inr ⟨x, f, howner.trans hx, (hsymbol x (lt_size_of_symbol? hf)).trans hf,
      hall.imp ?_⟩
    rintro y name ⟨τ, hy⟩
    exact ⟨τ, (hsymbol y (lt_size_of_symbol? hy)).trans hy⟩

/-- Looking a name up among parameters. -/
theorem find? {parameters : List SymbolId}
    (h : List.Forall₂ (fun y name => ∃ τ, t.symbol? y = some (.var name τ)) parameters names)
    (name : String) :
    (name ∉ names → parameters.find? (fun x => t.nameOf x = name) = none) ∧
      (name ∈ names → ∃ x τ, parameters.find? (fun x => t.nameOf x = name) = some x ∧
        t.symbol? x = some (.var name τ)) := by
  induction h with
  | nil => simp
  | @cons y other parameters names hy _ ih =>
    obtain ⟨τ, hy⟩ := hy
    have hname : t.nameOf y = other := by simp [nameOf, hy, Symbol.name]
    -- The search stops at the first symbol of the name, and names and symbols go in step.
    by_cases heq : other = name
    · subst heq
      exact ⟨fun hnot => absurd List.mem_cons_self hnot,
        fun _ => ⟨y, τ, by simp [hname], hy⟩⟩
    · have hne : ¬t.nameOf y = name := fun he => heq (hname.symm.trans he)
      have hne' : name ≠ other := fun he => heq he.symm
      simpa [List.find?_cons, hne, hne'] using ih

end Table.HasParameters

namespace Declarations

/-- The scope `s` binds the names `taken`, and the parameters of its function have the names
`parameters`. -/
structure Holds (d : Declarations L) (s : ScopeId) (parameters taken : List String) : Prop where
  lt_size : s.index < d.table.scopes.size
  onlyVariables : d.table.BindsVariables s
  bound_iff : ∀ name, (∃ x, d.table.localResolve s name = some x) ↔ name ∈ taken
  hasParameters : d.table.HasParameters s parameters

variable {d d' : Declarations L} {s : ScopeId} {parameters taken : List String}

/-- A scope refuses what it binds and what is a parameter. -/
theorem Holds.hasVariable_iff (h : d.Holds s parameters taken) (name : String) :
    d.hasVariable s name = true ↔ name ∈ taken ∨ name ∈ parameters := by
  unfold hasVariable Table.paramLocalResolve
  -- The scope itself comes first. Parameters are asked only if it does not know the name.
  cases hlocal : d.table.localResolve s name with
  | some x =>
    obtain ⟨n, τ, hx⟩ := h.onlyVariables name x hlocal
    have htaken : name ∈ taken := (h.bound_iff name).mp ⟨x, hlocal⟩
    simp [Table.function?, hx, Symbol.function?, htaken]
  | none =>
    have htaken : name ∉ taken := fun hm => by
      obtain ⟨x, hx⟩ := (h.bound_iff name).mpr hm
      exact absurd (hx.symm.trans hlocal) (by simp)
    rcases h.hasParameters with ⟨hnone, rfl⟩ | ⟨x, f, hx, hf, hall⟩
    · simp [Table.functionOf, hnone, htaken]
    · have hfunction : d.table.functionOf s = some (x, f) := by
        simp [Table.functionOf, hx, Table.function?, hf, Symbol.function?]
      obtain ⟨habsent, hpresent⟩ := Table.HasParameters.find? hall name
      by_cases hm : name ∈ parameters
      · obtain ⟨y, τ, hy, hsymbol⟩ := hpresent hm
        simp [hfunction, hy, Table.function?, hsymbol, Symbol.function?, hm]
      · simp [hfunction, habsent hm, htaken, hm]

/-- What touches neither the scope nor its function changes nothing of what the scope refuses. -/
theorem Holds.keep {o : ScopeId} {nodes : List NodeId} (h : d.Holds s parameters taken)
    (hkeep : Extends o d.table.symbols.size nodes d d') (ho : s ≠ o) :
    d'.Holds s parameters taken where
  lt_size := Nat.lt_of_lt_of_le h.lt_size hkeep.scopes_le
  onlyVariables name x hx := by
    rw [hkeep.bindings s h.lt_size ho] at hx
    obtain ⟨n, τ, hsymbol⟩ := h.onlyVariables name x hx
    exact ⟨n, τ, (hkeep.symbol x (Table.lt_size_of_symbol? hsymbol)).trans hsymbol⟩
  bound_iff name := by
    rw [hkeep.bindings s h.lt_size ho]
    exact h.bound_iff name
  hasParameters := h.hasParameters.keep (hkeep.owner s h.lt_size) hkeep.symbol

/-- A variable is declared if its type is known and its name is free. -/
theorem clean_declareVariable_iff (h : d.Holds s parameters taken) (hd : d.findings = [])
    (type name : Name L) :
    (d.declareVariable s type name).findings = [] ↔
      ((Ty.named? type.text).isSome ∧ name.text ∉ parameters) ∧ name.text ∉ taken := by
  unfold declareVariable resolveType
  cases htype : Ty.named? type.text with
  | none => simp [report]
  | some τ =>
    have hrefused := h.hasVariable_iff name.text
    simp only
    split_ifs with hvar
    · rcases hrefused.mp hvar with hm | hm
      · simp [report, hm]
      · simp [report, hm]
    · rw [hrefused, not_or] at hvar
      simp [define, hd, hvar.1, hvar.2]

/-- The scope binds one name more after a variable was declared. -/
theorem Holds.declareVariable (h : d.Holds s parameters taken) {type name : Name L}
    (hclean : (d.declareVariable s type name).findings = []) :
    (d.declareVariable s type name).Holds s parameters (name.text :: taken) := by
  obtain ⟨τ, htype, hfree, heq⟩ := declareVariable_of_clean h.onlyVariables hclean
  have hadds : Adds s [(name.text, ⟨⟨d.table.symbols.size⟩, type.text, false⟩)] 1 d
      (d.define s (.var name.text τ)).2 := adds_define h.lt_size h.onlyVariables hfree
  have hkeep := extends_define (L := L) s d.table.symbols.size d (.var name.text τ)
    (Nat.le_refl _) (Ty.named?_mem htype)
  rw [heq]
  refine ⟨Nat.lt_of_lt_of_le h.lt_size hkeep.scopes_le, hadds.onlyVariables, ?_,
    h.hasParameters.keep (hkeep.owner s h.lt_size) hkeep.symbol⟩
  intro other
  rw [hadds.bindings, List.mem_cons, ← h.bound_iff]
  -- The name that was declared is taken from here on, and all others are as they were.
  by_cases hother : other = name.text
  · subst hother
    simp [hfree]
  · have hne : (other == name.text) = false := beq_eq_false_iff_ne.mpr hother
    simp [List.lookup_cons, hne, hother]

/-- The scope of a block binds nothing at first, and belongs to the function around it. -/
theorem holds_openBlock (h : d.table.HasParameters s parameters) (node : NodeId) :
    (d.openBlock node s).2.Holds ⟨d.table.scopes.size⟩ parameters [] := by
  have howner : (d.openBlock node s).2.table.owner? ⟨d.table.scopes.size⟩ = d.table.owner? s := by
    simp [openBlock, Table.openBlock, Table.owner?_openScope]
  have hempty : ∀ name,
      (d.openBlock node s).2.table.localResolve ⟨d.table.scopes.size⟩ name = none := by
    intro name
    simp [openBlock, Table.openBlock, Table.localResolve_eq_none_of_size_le]
  exact
    { lt_size := by simp [openBlock, Table.openBlock]
      onlyVariables := fun name x hx => by
        rw [hempty] at hx
        cases hx
      bound_iff := fun name => by simp [hempty]
      hasParameters := h.keep howner fun x _ => rfl }

end Declarations

open Declarations

/-! ## Bodies -/

theorem Block.declares_cons (st : Stmt L I) (sts : List (Stmt L I)) :
    Block.declares (st :: sts) = st.declares?.toList ++ Block.declares sts := by
  cases h : st.declares? <;> simp [Block.declares, h]

/-- What a statement declares directly is new, and what it contains is well declared. -/
private def Stmt.Declarable (parameters taken : List String) (st : Stmt L NodeId) : Prop :=
  st.WellDeclared parameters ∧ ∀ name ∈ st.declares?, name ∉ taken

/-- Statements in order, if each of them is declared without a mistake exactly when it should. -/
private theorem Block.clean_all_iff {sts : List (Stmt L NodeId)} {s : ScopeId}
    {parameters : List String}
    (ih : ∀ st ∈ sts, ∀ (taken : List String) (d : Declarations L),
      d.Holds s parameters taken → d.findings = [] →
      ((st.declarations s d).findings = [] ↔ st.Declarable parameters taken) ∧
        ((st.declarations s d).findings = [] →
          (st.declarations s d).Holds s parameters (st.declares?.toList ++ taken)))
    (taken : List String) (d : Declarations L) (h : d.Holds s parameters taken)
    (hd : d.findings = []) :
    (Block.declarationsAll s sts d).findings = [] ↔
      Block.WellDeclaredAll parameters sts ∧ (Block.declares sts).Nodup ∧
        ∀ name ∈ Block.declares sts, name ∉ taken := by
  induction sts generalizing taken d with
  | nil => simp [Block.declarationsAll, Block.WellDeclaredAll, Block.declares, hd]
  | cons st sts ihs =>
    obtain ⟨hiff, hnext⟩ := ih st List.mem_cons_self taken d h hd
    have hrest := ihs fun st hm => ih st (List.mem_cons_of_mem _ hm)
    -- What the first statement reports is still there in the end.
    have hsize := (st.extends_declarations s d h.lt_size (Nat.zero_le _)).scopes_le
    have hkeep := Block.extends_declarationsAll (k := 0) sts s (st.declarations s d)
      (Nat.lt_of_lt_of_le h.lt_size hsize) (Nat.zero_le _)
    have hsplit : (Block.declarationsAll s (st :: sts) d).findings = [] ↔
        st.Declarable parameters taken ∧ Block.WellDeclaredAll parameters sts ∧
          (Block.declares sts).Nodup ∧
          ∀ name ∈ Block.declares sts, name ∉ st.declares?.toList ++ taken := by
      constructor
      · intro hclean
        have hfirst := hkeep.findings_eq_nil hclean
        exact ⟨hiff.mp hfirst, (hrest _ _ (hnext hfirst) hfirst).mp hclean⟩
      · rintro ⟨hfirst, hlater⟩
        have hfirst := hiff.mpr hfirst
        exact (hrest _ _ (hnext hfirst) hfirst).mpr hlater
    rw [hsplit, Block.declares_cons, Stmt.Declarable, Block.WellDeclaredAll]
    cases st.declares? with
    | none => simp [and_assoc]
    | some name =>
      simp only [Option.mem_some_iff, forall_eq', Option.toList_some, List.singleton_append,
        List.mem_cons, not_or, List.nodup_cons, forall_eq_or_imp]
      grind

private theorem Block.clean_block_iff {b : Block L NodeId} {parameters : List String}
    (ih : ∀ st ∈ b.statements, ∀ (s : ScopeId) (taken : List String) (d : Declarations L),
      d.Holds s parameters taken → d.findings = [] →
      ((st.declarations s d).findings = [] ↔ st.Declarable parameters taken) ∧
        ((st.declarations s d).findings = [] →
          (st.declarations s d).Holds s parameters (st.declares?.toList ++ taken)))
    {s : ScopeId} {d : Declarations L} (hparameters : d.table.HasParameters s parameters)
    (hd : d.findings = []) :
    (b.declarations s d).findings = [] ↔ b.WellDeclared parameters := by
  obtain ⟨node, sts⟩ := b
  let r : ScopeId := ⟨d.table.scopes.size⟩
  let d₁ := (d.openBlock node s).2
  have hall := Block.clean_all_iff (fun st hm => ih st hm r) [] d₁
    (holds_openBlock hparameters node) hd
  change (Block.declarationsAll r sts d₁).findings = [] ↔ _
  simpa [Block.WellDeclared, Block.statements] using hall

/-- Declaring a statement reports nothing exactly if it is well declared and its own name is free.
-/
private theorem Stmt.clean_iff (st : Stmt L NodeId) {parameters : List String} (s : ScopeId)
    (taken : List String) (d : Declarations L) (h : d.Holds s parameters taken)
    (hd : d.findings = []) :
    ((st.declarations s d).findings = [] ↔ st.Declarable parameters taken) ∧
      ((st.declarations s d).findings = [] →
        (st.declarations s d).Holds s parameters (st.declares?.toList ++ taken)) := by
  induction st using Stmt.inductionOn generalizing s taken d with
  | declare p type name value =>
    refine ⟨?_, h.declareVariable⟩
    have hiff := clean_declareVariable_iff h hd type name
    simpa [Stmt.declarations, Stmt.Declarable, Stmt.WellDeclared, Stmt.declares?] using hiff
  -- What declares nothing changes nothing.
  | assign p target value =>
    exact ⟨by simp [Stmt.declarations, Stmt.Declarable, Stmt.WellDeclared, Stmt.declares?, hd],
      fun _ => h⟩
  | assignAt p target position value =>
    exact ⟨by simp [Stmt.declarations, Stmt.Declarable, Stmt.WellDeclared, Stmt.declares?, hd],
      fun _ => h⟩
  | print p newline value =>
    exact ⟨by simp [Stmt.declarations, Stmt.Declarable, Stmt.WellDeclared, Stmt.declares?, hd],
      fun _ => h⟩
  | call p callee arguments =>
    exact ⟨by simp [Stmt.declarations, Stmt.Declarable, Stmt.WellDeclared, Stmt.declares?, hd],
      fun _ => h⟩
  | ret p node value =>
    refine ⟨?_, fun _ => ⟨h.lt_size, h.onlyVariables, h.bound_iff, h.hasParameters⟩⟩
    simp [Stmt.declarations, record, Stmt.Declarable, Stmt.WellDeclared, Stmt.declares?, hd]
  | ifThen p condition yes ih =>
    -- Inside a block other names are taken, but here they are the same before and after.
    have hkeep := yes.extends_declarations ⟨d.table.scopes.size⟩ s d h.lt_size (Nat.le_refl _)
    refine ⟨?_, fun _ => h.keep hkeep (fun he => Nat.ne_of_lt h.lt_size (congrArg _ he))⟩
    simpa [Stmt.declarations, Stmt.Declarable, Stmt.WellDeclared, Stmt.declares?] using
      Block.clean_block_iff ih h.hasParameters hd
  | loop p condition body ih =>
    have hkeep := body.extends_declarations ⟨d.table.scopes.size⟩ s d h.lt_size (Nat.le_refl _)
    refine ⟨?_, fun _ => h.keep hkeep (fun he => Nat.ne_of_lt h.lt_size (congrArg _ he))⟩
    simpa [Stmt.declarations, Stmt.Declarable, Stmt.WellDeclared, Stmt.declares?] using
      Block.clean_block_iff ih h.hasParameters hd
  | ifElse p condition yes no ihy ihn =>
    have hkeep := yes.extends_declarations ⟨d.table.scopes.size⟩ s d h.lt_size (Nat.le_refl _)
    have h₁ : (yes.declarations s d).Holds s parameters taken :=
      h.keep hkeep (fun he => Nat.ne_of_lt h.lt_size (congrArg _ he))
    have hkeep' := no.extends_declarations ⟨(yes.declarations s d).table.scopes.size⟩ s _
      h₁.lt_size (Nat.le_refl _)
    refine ⟨?_, fun _ => h₁.keep hkeep' (fun he => Nat.ne_of_lt h₁.lt_size (congrArg _ he))⟩
    have hyes := Block.clean_block_iff ihy h.hasParameters hd
    simp only [Stmt.declarations, Stmt.Declarable, Stmt.WellDeclared, Stmt.declares?,
      Option.not_mem_none, false_imp_iff, implies_true, and_true]
    constructor
    · intro hclean
      have hfirst := hkeep'.findings_eq_nil hclean
      exact ⟨hyes.mp hfirst, (Block.clean_block_iff ihn h₁.hasParameters hfirst).mp hclean⟩
    · rintro ⟨hfirst, hsecond⟩
      exact (Block.clean_block_iff ihn h₁.hasParameters (hyes.mpr hfirst)).mpr hsecond

/-- Declaring a block reports nothing exactly if the block is well declared. -/
theorem Block.clean_iff (b : Block L NodeId) {parameters : List String} {s : ScopeId}
    {d : Declarations L} (hparameters : d.table.HasParameters s parameters)
    (hd : d.findings = []) :
    (b.declarations s d).findings = [] ↔ b.WellDeclared parameters :=
  Block.clean_block_iff (fun st _ => st.clean_iff) hparameters hd

/-! ## Items -/

namespace Declarations

variable {d : Declarations L}

/-- The types of names are all known, or the first unknown one is reported. -/
theorem resolveTypes_cases (d : Declarations L) (names : List (Name L)) :
    ((∀ name ∈ names, (Ty.named? name.text).isSome) ∧
      ∃ types, d.resolveTypes names = (some types, d)) ∨
      ((∃ name ∈ names, Ty.named? name.text = none) ∧
        ∃ place error, d.resolveTypes names = (none, d.report place error)) := by
  induction names with
  | nil => exact .inl ⟨by simp, [], rfl⟩
  | cons name names ih =>
    unfold resolveTypes resolveType
    -- The first unknown type decides, and nothing is reported after it.
    cases hname : Ty.named? name.text with
    | none => exact .inr ⟨⟨name, List.mem_cons_self, hname⟩, _, _, rfl⟩
    | some τ =>
      rcases ih with ⟨hall, types, hresolve⟩ | ⟨⟨other, hm, hother⟩, place, error, hresolve⟩
      · refine .inl ⟨?_, τ :: types, by simp [hresolve]⟩
        intro other hm
        rcases List.mem_cons.mp hm with rfl | hm
        · simp [hname]
        · exact hall other hm
      · exact .inr ⟨⟨other, List.mem_cons_of_mem _ hm, hother⟩, place, error, by simp [hresolve]⟩

/-- Parameters are declared without a mistake if their names are free and differ. -/
theorem clean_parameters_iff {x : SymbolId} {s : ScopeId} {ps : List (Parameter L)}
    {types : List Ty} (hs : s.index < d.table.scopes.size) (hlength : ps.length = types.length)
    (htypes : ∀ type ∈ types, type ∈ Ty.nameable) (hd : d.findings = []) :
    (d.parameters x s ((ps.map (·.name)).zip types)).findings = [] ↔
      (ps.map (·.name.text)).Nodup ∧
        ∀ name ∈ ps.map (·.name.text), d.table.localResolve s name = none := by
  induction ps generalizing types d with
  | nil => simp [parameters, hd]
  | cons p ps ih =>
    obtain ⟨τ, types, rfl⟩ : ∃ τ rest, types = τ :: rest := by
      cases types with
      | nil => simp at hlength
      | cons τ rest => exact ⟨τ, rest, rfl⟩
    have hrest : ∀ type ∈ types, type ∈ Ty.nameable :=
      fun type hm => htypes type (List.mem_cons_of_mem _ hm)
    simp only [List.map_cons, List.zip_cons_cons, parameters]
    cases hfree : d.table.localResolve s p.name.text with
    | some z =>
      -- The report about a name that is taken stays.
      have hdefine : d.define s (.var p.name.text τ) = (none, d) := by
        simp [define, Table.define_of_bound (x := .var p.name.text τ) hfree]
      have hlater := extends_parameters (L := L) s 0
        (d.report p.name.place (.duplicateParameter p.name.text)) x (Nat.zero_le _)
        ((ps.map (·.name)).zip types) (Nat.zero_le _)
        (fun q hq => hrest q.2 (List.of_mem_zip hq).2)
      simp only [hdefine]
      constructor
      · intro hclean
        have hnone := hlater.findings_eq_nil hclean
        simp [report] at hnone
      · rintro ⟨-, hall⟩
        have hnone := hall _ List.mem_cons_self
        rw [hfree] at hnone
        cases hnone
    | none =>
      have hdefine : d.define s (.var p.name.text τ) =
          (some ⟨d.table.symbols.size⟩, (d.define s (.var p.name.text τ)).2) := by
        simp only [define, Table.define_fst_of_free (x := .var p.name.text τ) hs hfree]
      rw [hdefine]
      let d₁ := (d.define s (.var p.name.text τ)).2.addParameter x ⟨d.table.symbols.size⟩
      have hs₁ : s.index < d₁.table.scopes.size := by simpa [d₁, addParameter, define] using hs
      -- After the first parameter its name is bound too. That is how a second one of the name is
      -- found.
      have hlocal : ∀ name, d₁.table.localResolve s name =
          if name = p.name.text then some ⟨d.table.symbols.size⟩
          else d.table.localResolve s name := by
        intro name
        simp [d₁, addParameter, define, Symbol.name,
          Table.localResolve_define_of_free (x := .var p.name.text τ) hs hfree]
      change (d₁.parameters x s _).findings = [] ↔ _
      rw [ih hs₁ (by simpa using hlength) hrest hd, List.nodup_cons]
      constructor
      · rintro ⟨hnodup, hfrees⟩
        have hother : ∀ name ∈ ps.map (·.name.text),
            name ≠ p.name.text ∧ d.table.localResolve s name = none := by
          intro name hm
          have hname := hfrees name hm
          rw [hlocal] at hname
          split_ifs at hname with heq
          exact ⟨heq, hname⟩
        refine ⟨⟨fun hm => (hother _ hm).1 rfl, hnodup⟩, ?_⟩
        intro name hm
        rcases List.mem_cons.mp hm with rfl | hm
        · exact hfree
        · exact (hother name hm).2
      · rintro ⟨⟨hnew, hnodup⟩, hfrees⟩
        refine ⟨hnodup, fun name hm => ?_⟩
        have hne : name ≠ p.name.text := fun he => hnew (he ▸ hm)
        rw [hlocal, if_neg hne]
        exact hfrees name (List.mem_cons_of_mem _ hm)

/-- The scope of a function knows its parameters once they are declared. -/
theorem EntersParameters.hasParameters {x : SymbolId} {s : ScopeId} {g : FunctionSymbol}
    {ps : List (Parameter L)} {types : List Ty} {d' : Declarations L}
    (h : EntersParameters x s g ps types d d') (hg : g.parameters = [])
    (hlength : ps.length = types.length) (howner : d'.table.owner? s = some x) :
    d'.table.HasParameters s (ps.map (·.name.text)) := by
  refine .inr ⟨x, _, howner, h.function, ?_⟩
  simp only [hg, List.nil_append]
  refine List.forall₂_iff_get.mpr ⟨by simp [SymbolId.block], fun j hj hj' => ?_⟩
  have hps : j < ps.length := by simpa using hj'
  have htypes : j < types.length := hlength ▸ hps
  refine ⟨types[j], ?_⟩
  have hsymbol := h.parameter j _ _ (List.getElem?_eq_getElem hps)
    (List.getElem?_eq_getElem htypes)
  simpa [SymbolId.block] using hsymbol

/-- A function with known types and a free name. -/
theorem clean_accept_iff {f : Function L NodeId} {body : Block L NodeId} {returns : Ty}
    {types : List Ty} (hd : Table.global.index < d.table.scopes.size)
    (hfree : d.table.localResolve Table.global f.name.text = none)
    (hlength : f.parameters.length = types.length)
    (htypes : ∀ type ∈ types, type ∈ Ty.nameable) (hclean : d.findings = []) :
    (d.accept f body returns types).findings = [] ↔
      f.parameterNames.Nodup ∧ body.WellDeclared f.parameterNames := by
  let g : FunctionSymbol := ⟨f.name.text, returns, []⟩
  let x : SymbolId := ⟨d.table.symbols.size⟩
  let d₁ := (d.define Table.global (.fn g)).2
  let d₂ := (d₁.openFor f.mark Table.global (some x)).2
  let s : ScopeId := ⟨d₁.table.scopes.size⟩
  let d₃ := d₂.parameters x s ((f.parameters.map (·.name)).zip types)
  have hopen : Prepares g f.mark (some x) s d d₂ := prepares_openFor f.mark (some x) hd hfree
  have haccept : d.accept f body returns types = body.declarations s d₃ := accept_of_free hd hfree
  have hclean₂ : d₂.findings = [] := hclean
  have hparameters : d₃.findings = [] ↔ f.parameterNames.Nodup := by
    have hiff := clean_parameters_iff (x := x) hopen.lt_size hlength htypes hclean₂
    simpa [hopen.empty, Function.parameterNames] using hiff
  have hkeep₃ : Extends s d.table.symbols.size [] d₂ d₃ :=
    extends_parameters s d.table.symbols.size d₂ x (Nat.le_refl _) _
      (by rw [hopen.symbols]; exact Nat.le_succ _) (fun p hp => htypes p.2 (List.of_mem_zip hp).2)
  have hs₃ : s.index < d₃.table.scopes.size := Nat.lt_of_lt_of_le hopen.lt_size hkeep₃.scopes_le
  have hkeep₄ := body.extends_declarations (k := 0) ⟨d₃.table.scopes.size⟩ s d₃ hs₃ (Nat.zero_le _)
  -- Once the parameters are declared without a mistake, they decide about the body.
  have hbody : d₃.findings = [] →
      ((body.declarations s d₃).findings = [] ↔ body.WellDeclared f.parameterNames) := by
    intro hclean₃
    have henters := parameters_of_clean hopen.lt_size hopen.symbol hlength htypes hclean₃
    exact body.clean_iff (henters.hasParameters rfl hlength
      ((hkeep₃.owner s hopen.lt_size).trans hopen.owner)) hclean₃
  rw [haccept]
  constructor
  · intro h
    have hclean₃ := hkeep₄.findings_eq_nil h
    exact ⟨hparameters.mp hclean₃, (hbody hclean₃).mp h⟩
  · rintro ⟨hnodup, hwell⟩
    exact (hbody (hparameters.mpr hnodup)).mpr hwell

theorem hasFunction_iff (hfns : d.table.BindsFunctions Table.global) (name : String) :
    d.hasFunction name = true ↔ d.table.localResolve Table.global name ≠ none := by
  constructor
  · intro h hnone
    simp [hasFunction, hnone] at h
  · intro h
    by_contra hnot
    exact h (localResolve_eq_none_of_hasFunction hfns hnot)

/-- A function is declared without a mistake if it is well declared and its name is free. -/
theorem clean_function_iff (hd : Table.global.index < d.table.scopes.size)
    (hfns : d.table.BindsFunctions Table.global) (hclean : d.findings = [])
    (f : Function L NodeId) :
    (d.function f).findings = [] ↔ (Item.function f).WellDeclared ∧
      d.table.localResolve Table.global f.name.text = none := by
  have hname := hasFunction_iff hfns f.name.text
  unfold function
  cases hbody : f.body with
  | none => simp [report, Item.WellDeclared, hbody]
  | some body =>
    -- Each condition is decided in turn, and what is reported for one of them stays.
    simp only
    split_ifs with htaken
    · simp [report, hname.mp htaken]
    · have hfree : d.table.localResolve Table.global f.name.text = none := by
        by_contra hnot
        exact htaken (hname.mpr hnot)
      have hwell : (Item.function f).WellDeclared ↔
          (Ty.named? f.returns.text).isSome ∧
            (∀ p ∈ f.parameters, (Ty.named? p.type.text).isSome) ∧
            f.parameterNames.Nodup ∧ body.WellDeclared f.parameterNames := by
        simp only [Item.WellDeclared, hbody, Option.some.injEq, exists_eq_left']
        tauto
      rw [hwell, and_iff_left hfree]
      cases hreturns : Ty.named? f.returns.text with
      | none =>
        -- What is reported about the result type stays, whatever is found about the others.
        have hreturn : d.resolveType f.returns = (none, d.report f.returns.place
            (.unknownType f.returns.text)) := by simp [resolveType, hreturns]
        have hkeep := extends_resolveTypes Table.global 0
          (d.report f.returns.place (.unknownType f.returns.text)) (f.parameters.map (·.type))
        simp only [hreturn, Option.isSome_none, Bool.false_eq_true, false_and, iff_false]
        intro hnone
        have hnone := hkeep.findings_eq_nil hnone
        simp [report] at hnone
      | some returns =>
        have hreturn : d.resolveType f.returns = (some returns, d) := by
          simp [resolveType, hreturns]
        simp only [hreturn, Option.isSome_some, true_and]
        rcases resolveTypes_cases d (f.parameters.map (·.type)) with
          ⟨hall, types, hresolve⟩ | ⟨⟨name, hm, hname⟩, place, error, hresolve⟩
        · simp only [List.forall_mem_map] at hall
          -- There are as many types as parameters, since every name was resolved.
          have hlength : f.parameters.length = types.length := by
            have hresolved : (d.resolveTypes (f.parameters.map (·.type))).2.findings = [] := by
              simpa [hresolve] using hclean
            obtain ⟨types', htypes, hsame⟩ := resolveTypes_of_clean hresolved
            obtain rfl : types = types' := by simpa [hresolve] using congrArg Prod.fst hsame
            simpa using congrArg List.length htypes
          simp only [hresolve]
          rw [clean_accept_iff hd hfree hlength (resolveTypes_nameable hresolve) hclean]
          exact ⟨fun h => ⟨hall, h⟩, fun h => h.2⟩
        -- Some parameter has an unknown type, so neither side can hold.
        · obtain ⟨p, hp, rfl⟩ := List.mem_map.mp hm
          have hnot : ¬∀ p ∈ f.parameters, (Ty.named? p.type.text).isSome := fun hall => by
            have hsome := hall p hp
            simp [hname] at hsome
          simp [hresolve, report, hnot]

/-- The entry point is declared without a mistake if its body is and no function is called `main`.
-/
theorem clean_entryPoint_iff (hd : Table.global.index < d.table.scopes.size)
    (hfns : d.table.BindsFunctions Table.global) (hclean : d.findings = [])
    (e : EntryPoint L NodeId) :
    (d.entryPoint e).findings = [] ↔ (Item.main e).WellDeclared ∧
      d.table.localResolve Table.global "main" = none := by
  have hname := hasFunction_iff hfns "main"
  unfold entryPoint
  split_ifs with htaken
  · simp [report, hname.mp htaken]
  · have hfree : d.table.localResolve Table.global "main" = none := by
      by_contra hnot
      exact htaken (hname.mpr hnot)
    let g : FunctionSymbol := ⟨"main", .void, []⟩
    have hopen := prepares_openFor (g := g) e.mark none hd hfree
    rw [and_iff_left hfree]
    exact e.body.clean_iff (.inl ⟨hopen.owner, rfl⟩) hclean

theorem clean_item_iff (hd : Table.global.index < d.table.scopes.size)
    (hfns : d.table.BindsFunctions Table.global) (hclean : d.findings = [])
    (i : Item L NodeId) :
    (d.item i).findings = [] ↔ i.WellDeclared ∧
      d.table.localResolve Table.global i.name = none := by
  cases i with
  | function f => exact clean_function_iff hd hfns hclean f
  | main e => exact clean_entryPoint_iff hd hfns hclean e

/-- Items are declared without a mistake if each is well declared and their names are free and
differ. -/
theorem clean_items_iff {items : List (Item L NodeId)}
    (hd : Table.global.index < d.table.scopes.size) (hfns : d.table.BindsFunctions Table.global)
    (hnodes : (items.flatMap Item.nodes).Nodup) (hclean : d.findings = []) :
    (items.foldl item d).findings = [] ↔
      (∀ i ∈ items, i.WellDeclared) ∧ (items.map Item.name).Nodup ∧
        ∀ i ∈ items, d.table.localResolve Table.global i.name = none := by
  induction items generalizing d with
  | nil => simp [hclean]
  | cons i items ih =>
    obtain ⟨hfirst, hrest, -⟩ := List.nodup_append.mp hnodes
    have hkeep : Extends Table.global 0 i.nodes d (d.item i) :=
      extends_item d i hd (Nat.zero_le _)
    have hd₁ := Nat.lt_of_lt_of_le hd hkeep.scopes_le
    have hlater := extends_items (k := 0) (d.item i) items hd₁ (Nat.zero_le _)
    have hitem := clean_item_iff hd hfns hclean i
    -- After the item its own name is taken, and the others are as free as before.
    have hitems : (d.item i).findings = [] → ((items.foldl item (d.item i)).findings = [] ↔
        (∀ j ∈ items, j.WellDeclared) ∧ (items.map Item.name).Nodup ∧
          ∀ j ∈ items, j.name ≠ i.name ∧
            d.table.localResolve Table.global j.name = none) := by
      intro hclean₁
      have henters := enters_item hd hfns hfirst hclean₁
      have hname : ∀ name, (d.item i).table.localResolve Table.global name = none ↔
          name ≠ i.name ∧ d.table.localResolve Table.global name = none := by
        intro name
        rw [henters.bindings, Option.or_eq_none_iff, Option.map_eq_none_iff,
          ← i.declared_fst d.table.symbols.size]
        generalize i.declared d.table.symbols.size = x
        obtain ⟨other, x⟩ := x
        by_cases heq : name = other
        · simp [heq]
        · have hne : (name == other) = false := beq_eq_false_iff_ne.mpr heq
          simp [List.lookup_cons, hne, heq]
      rw [ih hd₁ henters.functions hrest hclean₁]
      simp only [hname]
    simp only [List.foldl_cons, List.map_cons, List.nodup_cons, List.forall_mem_cons, List.mem_map,
      not_exists, not_and]
    -- Nothing is taken back, so a clean end means that every item was clean.
    constructor
    · intro h
      have hclean₁ := hlater.findings_eq_nil h
      obtain ⟨hwell, hfree⟩ := hitem.mp hclean₁
      obtain ⟨hall, hnodup, hothers⟩ := (hitems hclean₁).mp h
      exact ⟨⟨hwell, hall⟩, ⟨fun j hj => (hothers j hj).1, hnodup⟩, hfree,
        fun j hj => (hothers j hj).2⟩
    · rintro ⟨⟨hwell, hall⟩, ⟨hnew, hnodup⟩, hfree, hfrees⟩
      have hclean₁ := hitem.mpr ⟨hwell, hfree⟩
      exact (hitems hclean₁).mpr ⟨hall, hnodup, fun j hj => ⟨hnew j hj, hfrees j hj⟩⟩

end Declarations

/-- A program is declared without a mistake exactly if it is well declared. -/
theorem Program.clean_iff_wellDeclared {p : Program L} (hp : p.Distinct) :
    (Declarations.ofProgram p).findings = [] ↔ p.WellDeclared := by
  have hempty : ∀ name, Table.empty.localResolve Table.global name = none := fun name => rfl
  have hiff := clean_items_iff (L := L) (d := empty.record p.root Table.global)
    (by simp [record, empty, Table.empty, Table.global])
    (fun name x hx => by simp [record, empty, hempty] at hx) (List.nodup_cons.mp hp).2 rfl
  refine hiff.trans ⟨fun h => ⟨h.1, h.2.1⟩, fun h => ⟨h.items, h.names, ?_⟩⟩
  intro i _
  exact hempty i.name

end Primer
