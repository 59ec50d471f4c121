import Primer.Proofs.Declaration.WellDeclared
import Primer.Proofs.Tree.Names

/-!
# The conditions on declarations, one by one

`Program.WellDeclared` goes down the tree and asks at every place for what matters there. The same
can be said the other way round: each condition on its own, about all functions or about all blocks
at any depth. `Program.MeetsConditions` lists these conditions, and a program meets them exactly if
it is well declared (`Program.MeetsConditions.wellDeclared`).

So the declarations of a program are accepted exactly if the program meets the conditions, and this
can be read off the tree: `Program.findings_eq_nil_iff_meetsConditions`.
-/

namespace Primer

variable {L I : Type}

/-! ## Parts of well-declared items -/

/-- The names of the parameters of an item. -/
def Item.parameterNames : Item L I → List String
  | .function f => f.parameterNames
  | .main _ => []

theorem Block.wellDeclaredAll_iff {parameters : List String} {sts : List (Stmt L I)} :
    Block.WellDeclaredAll parameters sts ↔ ∀ st ∈ sts, st.WellDeclared parameters := by
  induction sts with
  | nil => simp [Block.WellDeclaredAll]
  | cons st sts ih => simp [Block.WellDeclaredAll, ih]

theorem Block.wellDeclared_iff {parameters : List String} {b : Block L I} :
    b.WellDeclared parameters ↔
      (∀ st ∈ b.statements, st.WellDeclared parameters) ∧ (Block.declares b.statements).Nodup := by
  obtain ⟨mark, sts⟩ := b
  rw [Block.WellDeclared, Block.wellDeclaredAll_iff, Block.statements]

theorem Stmt.WellDeclared.block {parameters : List String} {st : Stmt L I}
    (h : st.WellDeclared parameters) {b : Block L I} (hb : b ∈ st.blocks) :
    b.WellDeclared parameters := by
  cases st with
  | ifThen p condition yes => exact List.mem_singleton.mp hb ▸ h
  | loop p condition body => exact List.mem_singleton.mp hb ▸ h
  | ifElse p condition yes no =>
    rcases List.mem_cons.mp hb with rfl | hb
    · exact h.1
    · exact List.mem_singleton.mp hb ▸ h.2
  | _ => exact absurd hb List.not_mem_nil

/-- Every block of a well-declared item is well declared. -/
theorem Item.Contains.wellDeclared {i : Item L I} {b : Block L I} (hb : i.Contains b)
    (h : i.WellDeclared) : b.WellDeclared i.parameterNames := by
  induction hb with
  | @function f body hbody =>
    obtain ⟨⟨body', hbody', hwell⟩, -⟩ := h
    obtain rfl : body' = body := Option.some.inj (hbody'.symm.trans hbody)
    exact hwell
  | main => exact h
  | nested _ hst hb' ih => exact ((Block.wellDeclared_iff.mp (ih h)).1 _ hst).block hb'

/-- No block declares a parameter again. -/
theorem Block.WellDeclared.not_mem_parameters {parameters : List String} {b : Block L I}
    (h : b.WellDeclared parameters) {name : String}
    (hname : name ∈ Block.declares b.statements) : name ∉ parameters := by
  obtain ⟨st, hst, hdeclares⟩ := List.mem_filterMap.mp hname
  have hwell := (Block.wellDeclared_iff.mp h).1 st hst
  cases st with
  | declare p type written value =>
    obtain rfl := Option.some.inj hdeclares
    exact hwell.2
  | _ => cases hdeclares

/-! ## Conditions -/

/-- A name stands for a type if it is the text of one of the nameable types. -/
theorem Ty.isSome_named?_iff {name : String} :
    (Ty.named? name).isSome ↔ name ∈ Ty.nameable.map Ty.text := by
  simp [Ty.named?, List.find?_isSome]

example : Ty.nameable.map Ty.text =
    ["int", "float", "bool", "char", "string", "int[]", "float[]", "char[]", "void"] := rfl

/-- The conditions on the declarations of a program. -/
structure Program.MeetsConditions (p : Program L) : Prop where
  /-- Every function has a body. -/
  bodies : ∀ f, .function f ∈ p.items → f.body.isSome
  /-- No two items have the same name. Every entry point is called `main`. -/
  names : (p.items.map Item.name).Nodup
  /-- The types of results, of parameters and of variables are nameable ones. -/
  resultTypes : ∀ f, .function f ∈ p.items → f.returns.text ∈ Ty.nameable.map Ty.text
  parameterTypes : ∀ f, .function f ∈ p.items → ∀ q ∈ f.parameters,
    q.type.text ∈ Ty.nameable.map Ty.text
  variableTypes : ∀ i ∈ p.items, ∀ b, i.Contains b → ∀ place type name value,
    .declare place type name value ∈ b.statements → type.text ∈ Ty.nameable.map Ty.text
  /-- No two parameters of a function have the same name. -/
  distinctParameters : ∀ f, .function f ∈ p.items → f.parameterNames.Nodup
  /-- No block declares the same name twice directly. -/
  distinctVariables : ∀ i ∈ p.items, ∀ b, i.Contains b → (Block.declares b.statements).Nodup
  /-- No block of a function, at any depth, declares the name of a parameter. -/
  apart : ∀ f, .function f ∈ p.items → ∀ b, (Item.function f).Contains b →
    ∀ name ∈ Block.declares b.statements, name ∉ f.parameterNames

/-- What the conditions ask of one block of an item with the given parameters. -/
private structure Block.Meets (parameters : List String) (b : Block L I) : Prop where
  types : ∀ place type name value, .declare place type name value ∈ b.statements →
    type.text ∈ Ty.nameable.map Ty.text
  distinct : (Block.declares b.statements).Nodup
  apart : ∀ name ∈ Block.declares b.statements, name ∉ parameters

section Items

variable {i : Item L I} {parameters : List String}

private theorem Block.Meets.wellDeclared {b : Block L I} (h : b.Meets parameters)
    (hsts : ∀ st ∈ b.statements, st.WellDeclared parameters) : b.WellDeclared parameters :=
  Block.wellDeclared_iff.mpr ⟨hsts, h.distinct⟩

/-- If all blocks of an item meet the conditions, a statement in one of them is well declared. -/
private theorem Stmt.wellDeclared_of_meets (hblocks : ∀ b, i.Contains b → b.Meets parameters)
    (st : Stmt L I) {b : Block L I} (hb : i.Contains b) (hst : st ∈ b.statements) :
    st.WellDeclared parameters := by
  -- The conditions are on blocks, so the block around the statement changes with it.
  induction st using Stmt.inductionOn generalizing b with
  | declare p type name value =>
    have hname : name.text ∈ Block.declares b.statements := List.mem_filterMap.mpr ⟨_, hst, rfl⟩
    exact ⟨Ty.isSome_named?_iff.mpr ((hblocks b hb).types _ _ _ _ hst),
      (hblocks b hb).apart _ hname⟩
  | assign p target value => exact trivial
  | assignAt p target position value => exact trivial
  | ret p mark value => exact trivial
  | print p newline value => exact trivial
  | call p callee arguments => exact trivial
  | ifThen p condition yes ih =>
    have hyes : i.Contains yes := .nested hb hst (List.mem_singleton_self _)
    exact (hblocks yes hyes).wellDeclared fun st' hst' => ih st' hst' hyes hst'
  | loop p condition body ih =>
    have hbody : i.Contains body := .nested hb hst (List.mem_singleton_self _)
    exact (hblocks body hbody).wellDeclared fun st' hst' => ih st' hst' hbody hst'
  | ifElse p condition yes no ihy ihn =>
    have hyes : i.Contains yes := .nested hb hst List.mem_cons_self
    have hno : i.Contains no := .nested hb hst (List.mem_cons_of_mem _ (List.mem_singleton_self _))
    exact ⟨(hblocks yes hyes).wellDeclared fun st' hst' => ihy st' hst' hyes hst',
      (hblocks no hno).wellDeclared fun st' hst' => ihn st' hst' hno hst'⟩

private theorem Block.wellDeclared_of_meets (hblocks : ∀ b, i.Contains b → b.Meets parameters)
    {b : Block L I} (hb : i.Contains b) : b.WellDeclared parameters :=
  (hblocks b hb).wellDeclared fun st hst => st.wellDeclared_of_meets hblocks hb hst

/-- Every block of a well-declared item meets the conditions. -/
private theorem Item.Contains.meets {b : Block L I} (hb : i.Contains b) (h : i.WellDeclared) :
    b.Meets i.parameterNames := by
  have hwell := hb.wellDeclared h
  refine ⟨?_, (Block.wellDeclared_iff.mp hwell).2, fun name hname => hwell.not_mem_parameters hname⟩
  intro place type name value hst
  exact Ty.isSome_named?_iff.mp ((Block.wellDeclared_iff.mp hwell).1 _ hst).1

end Items

/-! ## Programs -/

variable {p : Program L}

theorem Program.WellDeclared.meetsConditions (h : p.WellDeclared) : p.MeetsConditions where
  bodies f hf := by
    obtain ⟨⟨body, hbody, -⟩, -⟩ := h.items _ hf
    exact Option.isSome_of_eq_some hbody
  names := h.names
  resultTypes f hf := Ty.isSome_named?_iff.mp (h.items _ hf).2.1
  parameterTypes f hf q hq := Ty.isSome_named?_iff.mp ((h.items _ hf).2.2.1 q hq)
  variableTypes i hi b hb := (hb.meets (h.items i hi)).types
  distinctParameters f hf := (h.items _ hf).2.2.2
  distinctVariables i hi b hb := (hb.meets (h.items i hi)).distinct
  apart f hf b hb := (hb.meets (h.items _ hf)).apart

theorem Program.MeetsConditions.wellDeclared (h : p.MeetsConditions) : p.WellDeclared where
  items i hi := by
    cases i with
    | function f =>
      obtain ⟨body, hbody⟩ := Option.isSome_iff_exists.mp (h.bodies f hi)
      have hblocks : ∀ b, (Item.function f).Contains b → b.Meets f.parameterNames := fun b hb =>
        ⟨h.variableTypes _ hi b hb, h.distinctVariables _ hi b hb, h.apart f hi b hb⟩
      exact ⟨⟨body, hbody, Block.wellDeclared_of_meets hblocks (.function hbody)⟩,
        Ty.isSome_named?_iff.mpr (h.resultTypes f hi),
        fun q hq => Ty.isSome_named?_iff.mpr (h.parameterTypes f hi q hq),
        h.distinctParameters f hi⟩
    | main e =>
      -- An entry point has no parameters that its variables could be called like.
      have hblocks : ∀ b, (Item.main e).Contains b → b.Meets [] := fun b hb =>
        ⟨h.variableTypes _ hi b hb, h.distinctVariables _ hi b hb, fun _ _ => List.not_mem_nil⟩
      exact Block.wellDeclared_of_meets hblocks .main
  names := h.names

/-- The declarations of a program are accepted exactly if the program meets the conditions. -/
theorem Program.findings_eq_nil_iff_meetsConditions (hp : p.Distinct) :
    (Declarations.ofProgram p).findings = [] ↔ p.MeetsConditions :=
  (Program.clean_iff_wellDeclared hp).trans ⟨fun h => h.meetsConditions, fun h => h.wellDeclared⟩

/-- A function whose inner block declares a given name, and an entry point:
`int f(int n) { int x = 0; while (n > 0) { float inner = 1; } return x; }` -/
def Program.innerBlock (inner : String) : Program Location :=
  let written (text : String) : Name (Option Location) := ⟨text, none⟩
  let read (text : String) : Expr (Option Location) := .read none (written text)
  let positive : Expr (Option Location) := .binary none .greater (read "n") (.int none 0)
  let block : Draft Block :=
    .mk none [.declare none (written "float") (written inner) (some (.int none 1))]
  Program.ofDraft
    [.function ⟨none, none, written "int", written "f", [⟨written "int", written "n"⟩],
      some (.mk none [.declare none (written "int") (written "x") (some (.int none 0)),
        .loop none positive block, .ret none none (some (read "x"))])⟩,
      .main ⟨none, none, .mk none []⟩]

/-- An inner block may declare a variable of an outer block again, but not a parameter. -/
theorem Program.findings_eq_nil_iff_meetsConditions_innerBlock :
    ((Program.innerBlock "x").Distinct ∧ (Program.innerBlock "x").MeetsConditions) ∧
      (Program.innerBlock "n").Distinct ∧ ¬(Program.innerBlock "n").MeetsConditions := by
  have hvariable : (Program.innerBlock "x").Distinct := Program.distinct_ofDraft _ (by decide)
  have hparameter : (Program.innerBlock "n").Distinct := Program.distinct_ofDraft _ (by decide)
  refine ⟨⟨hvariable, ?_⟩, hparameter, ?_⟩
  · exact (findings_eq_nil_iff_meetsConditions hvariable).mp (by decide +kernel)
  · intro hmeets
    have hclean := (findings_eq_nil_iff_meetsConditions hparameter).mpr hmeets
    exact absurd hclean (by decide +kernel)

end Primer
