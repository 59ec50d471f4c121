import Primer.Proofs.Declaration.Conditions
import Primer.Proofs.Script.Identifier
import Primer.Proofs.Script.Outline
import Primer.Proofs.Typing.System

/-!
# Names in a script and the symbols behind them

A script writes every name of the program by its text alone, while the program tells names apart by
the symbols they denote. `Item.occurrences` lists the names in an item with their symbols, and
`Item.scriptNames` the names that its script writes; apart from the predefined functions that a
script calls on its own account, the second list is the first one, name by name.

Two names are written alike if they have the same text, or if one of them is reserved and the other
is that one with the mark in front (`Script.safeName_eq_iff`). `Program.written_alike` says what
this means for symbols.
-/

namespace Primer

open Script

variable {L : Type}

/-! ## Names of a script -/

namespace Script

mutual

/-- The names in an expression, in the order of the text. -/
def Expr.names : Expr → List String
  | .none | .int _ | .float _ | .bool _ | .str _ => []
  | .name text => [text]
  | .call callee arguments => callee :: Expr.namesAll arguments
  | .subscript base position => base :: position.names
  | .paren operand | .negate operand => operand.names
  | .binary _ lhs rhs => lhs.names ++ rhs.names
  | .list elements => Expr.namesAll elements

/-- The names in several expressions. -/
def Expr.namesAll : List Expr → List String
  | [] => []
  | e :: es => e.names ++ Expr.namesAll es

end

/-- The names in an expression that may be absent. -/
def Expr.namesOption : Option Expr → List String
  | .none => []
  | .some e => e.names

mutual

/-- The names in a statement, in the order of the text. -/
def Stmt.names : Stmt → List String
  | .assign target value => target :: value.names
  | .assignAt target position value => target :: (position.names ++ value.names)
  | .ret value | .print _ value => Expr.namesOption value
  | .eval value => value.names
  | .ifThen condition yes => condition.names ++ Stmt.namesAll yes
  | .ifElse condition yes no => condition.names ++ (Stmt.namesAll yes ++ Stmt.namesAll no)
  | .loop condition body => condition.names ++ Stmt.namesAll body
  | .unscoped _ => []

/-- The names in several statements. -/
def Stmt.namesAll : List Stmt → List String
  | [] => []
  | st :: sts => st.names ++ Stmt.namesAll sts

end

/-- The names inside a function: its parameters, and those of its body. -/
def Function.names (f : Function) : List String :=
  f.parameters ++ Stmt.namesAll f.body

/-- One of the names is reserved, and the other is that one with the mark in front. -/
def Marked (a b : String) : Prop :=
  (a ∈ reserved ∧ b = reservedMark ++ a) ∨ (b ∈ reserved ∧ a = reservedMark ++ b)

theorem reservedMark_append_not_mem (name : String) : reservedMark ++ name ∉ reserved :=
  fun hmem => take_ne_reservedMark _ hmem (by simp [reservedMark])

theorem Marked.ne {a b : String} (h : Marked a b) : a ≠ b := by
  rintro rfl
  rcases h with ⟨hmem, heq⟩ | ⟨hmem, heq⟩
  · exact reservedMark_append_not_mem a (heq ▸ hmem)
  · exact reservedMark_append_not_mem a (heq ▸ hmem)

/-- When two names are written alike. -/
theorem safeName_eq_iff {a b : String} : safeName a = safeName b ↔ a = b ∨ Marked a b := by
  unfold safeName Marked
  by_cases ha : a ∈ reserved
  · by_cases hb : b ∈ reserved
    · -- Both get the mark, so the rest is the same.
      have hne : ∀ c d : String, c ∈ reserved → c ≠ reservedMark ++ d :=
        fun c d hc he => reservedMark_append_not_mem d (he ▸ hc)
      simp [ha, hb, hne b a hb, hne a b ha, String.append_right_inj]
    · simp only [ha, hb, if_true, if_false, true_and, false_and, or_false]
      constructor
      · exact fun h => .inr h.symm
      · rintro (rfl | h)
        · exact absurd ha hb
        · exact h.symm
  · by_cases hb : b ∈ reserved
    · simp only [ha, hb, if_true, if_false, true_and, false_and, false_or]
      constructor
      · exact .inr
      · rintro (rfl | h)
        · exact absurd hb ha
        · exact h
    · simp [ha, hb]

end Script

/-! ## Names of the program -/

/-- A name at some place of the program, and the symbol that it denotes there. -/
structure Occurrence where
  name : String
  symbol : Option SymbolId

/-- A name that stands for a variable. -/
def Table.occurrence (t : Table) (s : ScopeId) (name : Name L) : Occurrence :=
  ⟨name.text, t.resolve s name.text⟩

/-- A name that is called. -/
def Table.calleeOccurrence (t : Table) (s : ScopeId) (name : Name L) : Occurrence :=
  ⟨name.text, t.resolveCallee s name.text⟩

mutual

/-- The names in an expression, in reading order. -/
def Expr.occurrences (t : Table) (s : ScopeId) : Expr L → List Occurrence
  | .int .. | .float .. | .bool .. | .char .. | .str .. => []
  | .read _ name => [t.occurrence s name]
  | .call _ callee arguments => t.calleeOccurrence s callee :: Expr.occurrencesAll t s arguments
  | .index _ base position => t.occurrence s base :: position.occurrences t s
  | .length _ operand | .paren _ operand | .negate _ operand => operand.occurrences t s
  | .binary _ _ lhs rhs => lhs.occurrences t s ++ rhs.occurrences t s
  | .array _ elements => Expr.occurrencesAll t s elements
  | .newArray _ _ size => size.occurrences t s

/-- The names in several expressions. -/
def Expr.occurrencesAll (t : Table) (s : ScopeId) : List (Expr L) → List Occurrence
  | [] => []
  | e :: es => e.occurrences t s ++ Expr.occurrencesAll t s es

end

/-- The names in an expression that may be absent. -/
def Expr.occurrencesOption (t : Table) (s : ScopeId) : Option (Expr L) → List Occurrence
  | none => []
  | some e => e.occurrences t s

mutual

/-- The names in a statement, in reading order. -/
def Stmt.occurrences (t : Table) (m : ScopeMap) (s : ScopeId) : Stmt L NodeId → List Occurrence
  | .declare _ _ name value => t.occurrence s name :: Expr.occurrencesOption t s value
  | .assign _ target value => t.occurrence s target :: value.occurrences t s
  | .assignAt _ target position value =>
    t.occurrence s target :: (position.occurrences t s ++ value.occurrences t s)
  | .ifThen _ condition yes => condition.occurrences t s ++ yes.occurrences t m
  | .ifElse _ condition yes no =>
    condition.occurrences t s ++ (yes.occurrences t m ++ no.occurrences t m)
  | .loop _ condition body => condition.occurrences t s ++ body.occurrences t m
  | .ret _ _ value | .print _ _ value => Expr.occurrencesOption t s value
  | .call _ callee arguments => t.calleeOccurrence s callee :: Expr.occurrencesAll t s arguments

/-- The names in a block, which are looked up in the scope recorded for it. -/
def Block.occurrences (t : Table) (m : ScopeMap) : Block L NodeId → List Occurrence
  | .mk node statements =>
    match m.get? node with
    | some s => Block.occurrencesAll t m s statements
    | none => []

/-- The names in the statements of a block. -/
def Block.occurrencesAll (t : Table) (m : ScopeMap) (s : ScopeId) :
    List (Stmt L NodeId) → List Occurrence
  | [] => []
  | st :: sts => st.occurrences t m s ++ Block.occurrencesAll t m s sts

end

/-- The names inside an item: the parameters of a function, looked up in the scope of the function,
and the names in the body. -/
def Item.occurrences (t : Table) (m : ScopeMap) : Item L NodeId → List Occurrence
  | .function f =>
    (f.parameters.map fun p => ⟨p.name.text, (m.get? f.mark).bind (t.resolve · p.name.text)⟩) ++
      (f.body.map (Block.occurrences t m)).getD []
  | .main e => e.body.occurrences t m

/-- The names inside an item as its script writes them. The functions that are predefined for every
script are left out: the program does not name them. -/
def Item.scriptNames (t : Table) (m : ScopeMap) (i : Item L NodeId) : List String :=
  let written := match i with
    | .function f => ((f.toScript? t m).map Script.Function.names).getD []
    | .main e => ((e.toScript? t m).map Script.Stmt.namesAll).getD []
  written.filter (· ∉ reserved)

/-! ## Every name is written by its text -/

/-- What a script writes for a list of names. -/
def Occurrence.written (occurrences : List Occurrence) : List String :=
  occurrences.map fun o => safeName o.name

theorem Occurrence.written_append (as bs : List Occurrence) :
    written (as ++ bs) = written as ++ written bs :=
  List.map_append

section Written

variable {t : Table} {m : ScopeMap} {s : ScopeId}

/-- The names that the program chooses. -/
private def chosen (names : List String) : List String :=
  names.filter (· ∉ reserved)

private theorem chosen_append (as bs : List String) : chosen (as ++ bs) = chosen as ++ chosen bs :=
  List.filter_append ..

private theorem chosen_safeName (name : String) (names : List String) :
    chosen (safeName name :: names) = safeName name :: chosen names := by
  simp [chosen, safeName_not_mem_reserved]

private theorem chosen_predefined {name : String} (h : name ∈ reserved) (names : List String) :
    chosen (name :: names) = chosen names := by
  simp [chosen, h]

private theorem Expr.chosen_all {es : List (Expr L)}
    (ih : ∀ e ∈ es, chosen (e.toScript t s).names = Occurrence.written (e.occurrences t s)) :
    chosen (Script.Expr.namesAll (Expr.toScriptAll t s es)) =
      Occurrence.written (Expr.occurrencesAll t s es) := by
  induction es with
  | nil => rfl
  | cons e es ihs =>
    rw [Expr.toScriptAll, Script.Expr.namesAll, chosen_append, ih e List.mem_cons_self,
      ihs fun e he => ih e (List.mem_cons_of_mem _ he), Expr.occurrencesAll,
      Occurrence.written_append]

/-- An expression of the program and its script have the same names, one by one. -/
theorem Expr.chosen_names (e : Expr L) :
    chosen (e.toScript t s).names = Occurrence.written (e.occurrences t s) := by
  induction e using Expr.inductionOn with
  | int | float | bool | char | str => rfl
  | read p name =>
    rw [Expr.toScript, Script.Expr.names, chosen_safeName]
    rfl
  | call p callee arguments ih =>
    rw [Expr.toScript, Script.Expr.names, chosen_safeName, Expr.chosen_all ih]
    rfl
  | index p base position ih =>
    rw [Expr.toScript, Script.Expr.names, chosen_safeName, ih]
    rfl
  | length p operand ih =>
    rw [Expr.toScript, Script.Expr.names, chosen_predefined (by decide +kernel)]
    simpa [Script.Expr.namesAll, Expr.occurrences] using ih
  | paren p operand ih => exact ih
  | negate p operand ih => exact ih
  | binary p op lhs rhs ihl ihr =>
    rw [Expr.occurrences, Occurrence.written_append, ← ihl, ← ihr, ← chosen_append, Expr.toScript]
    split_ifs
    -- The quotient of integers is cut by a predefined function.
    · rw [Script.Expr.wholeQuotient, Script.Expr.names, chosen_predefined (by decide +kernel)]
      simp [Script.Expr.namesAll, Script.Expr.names]
    · rfl
  | array p elements ih =>
    rw [Expr.toScript, Script.Expr.names, Expr.chosen_all ih]
    rfl
  | newArray p element size ih =>
    have hzero : (Script.Expr.zeroOf element.text).names = [] := by
      unfold Script.Expr.zeroOf
      split_ifs <;> rfl
    rw [Expr.toScript, Script.Expr.zeros, Script.Expr.names, Script.Expr.names,
      Script.Expr.namesAll, hzero]
    simpa [Script.Expr.namesAll, Expr.occurrences] using ih

theorem Expr.chosen_namesAll (es : List (Expr L)) :
    chosen (Script.Expr.namesAll (Expr.toScriptAll t s es)) =
      Occurrence.written (Expr.occurrencesAll t s es) :=
  Expr.chosen_all fun e _ => e.chosen_names

theorem Expr.chosen_namesOption (value : Option (Expr L)) :
    chosen (Script.Expr.namesOption (value.map (·.toScript t s))) =
      Occurrence.written (Expr.occurrencesOption t s value) := by
  cases value with
  | none => rfl
  | some e => exact e.chosen_names

private theorem Block.chosen_block {b : Block L NodeId}
    (ih : ∀ st ∈ b.statements, ∀ s, chosen (st.toScript t m s).names =
      Occurrence.written (st.occurrences t m s)) :
    chosen (Script.Stmt.namesAll (b.toScript t m)) = Occurrence.written (b.occurrences t m) := by
  obtain ⟨node, sts⟩ := b
  cases hnode : m.get? node with
  | none =>
    -- A block without a scope is neither written nor looked at.
    cases sts with
    | nil => simp [Block.toScript, Block.occurrences, hnode, Script.Stmt.namesAll, chosen,
        Occurrence.written]
    | cons st sts => simp [Block.toScript, Block.occurrences, hnode, Script.Stmt.namesAll,
        Script.Stmt.names, chosen, Occurrence.written]
  | some s =>
    rw [Block.toScript_of_get? hnode, Block.occurrences, hnode]
    simp only [Block.statements] at ih ⊢
    clear hnode
    induction sts with
    | nil => rfl
    | cons st sts ihs =>
      rw [List.map_cons, Script.Stmt.namesAll, chosen_append, ih st List.mem_cons_self,
        ihs fun st hst => ih st (List.mem_cons_of_mem _ hst), Block.occurrencesAll,
        Occurrence.written_append]

/-- A statement of the program and its script have the same names, one by one. -/
theorem Stmt.chosen_names (st : Stmt L NodeId) (s : ScopeId) :
    chosen (st.toScript t m s).names = Occurrence.written (st.occurrences t m s) := by
  induction st using Stmt.inductionOn generalizing s with
  | declare p type name value =>
    -- The declared name is safe, hence chosen; the type is not written in the script.
    rw [Stmt.toScript, Script.Stmt.names, chosen_safeName]
    cases value with
    | none => rfl
    | some e => exact congrArg (safeName name.text :: ·) e.chosen_names
  | assign p target value =>
    rw [Stmt.toScript, Script.Stmt.names, chosen_safeName, value.chosen_names]
    rfl
  | assignAt p target position value =>
    rw [Stmt.toScript, Script.Stmt.names, chosen_safeName, chosen_append, position.chosen_names,
      value.chosen_names, ← Occurrence.written_append]
    rfl
  | ifThen p condition yes ih =>
    -- The blocks come out in the order in which the occurrences are listed.
    rw [Stmt.toScript, Script.Stmt.names, chosen_append, condition.chosen_names,
      Block.chosen_block ih, ← Occurrence.written_append]
    rfl
  | loop p condition body ih =>
    rw [Stmt.toScript, Script.Stmt.names, chosen_append, condition.chosen_names,
      Block.chosen_block ih, ← Occurrence.written_append]
    rfl
  | ifElse p condition yes no ihy ihn =>
    rw [Stmt.toScript, Script.Stmt.names, chosen_append, chosen_append, condition.chosen_names,
      Block.chosen_block ihy, Block.chosen_block ihn, ← Occurrence.written_append,
      ← Occurrence.written_append]
    rfl
  | ret p node value => exact Expr.chosen_namesOption value
  | print p newline value => exact Expr.chosen_namesOption value
  | call p callee arguments =>
    rw [Stmt.toScript, Script.Stmt.names, Script.Expr.names, chosen_safeName,
      Expr.chosen_namesAll]
    rfl

theorem Block.chosen_names (b : Block L NodeId) :
    chosen (Script.Stmt.namesAll (b.toScript t m)) = Occurrence.written (b.occurrences t m) :=
  Block.chosen_block fun st _ => st.chosen_names

/-- An item and its script have the same names inside, one by one. -/
theorem Item.Entered.scriptNames_eq {k : Nat} {i : Item L NodeId} (hi : i.Entered t m k) :
    i.scriptNames t m = Occurrence.written (i.occurrences t m) := by
  cases i with
  | function f =>
    obtain ⟨body, s, returns, types, hf⟩ := hi
    -- A safe name is never reserved, so none of the parameters is filtered out.
    have hparameters : chosen (f.parameters.map fun p => safeName p.name.text) =
        f.parameters.map fun p => safeName p.name.text := by
      refine List.filter_eq_self.mpr fun name hm => ?_
      obtain ⟨p, -, rfl⟩ := List.mem_map.mp hm
      simpa using safeName_not_mem_reserved p.name.text
    -- An entered function has a translation, and its default is not used.
    change chosen (((f.toScript? t m).map Script.Function.names).getD []) = _
    rw [hf.toScript?, Option.map_some, Option.getD_some, Script.Function.names, chosen_append,
      hparameters, Block.chosen_names, Item.occurrences, Occurrence.written_append, hf.body_eq]
    simp [Occurrence.written]
  | main e =>
    obtain ⟨s, he⟩ := hi
    change chosen (((e.toScript? t m).map Script.Stmt.namesAll).getD []) = _
    rw [EntryPoint.toScript?, he.mark]
    exact e.body.chosen_names

end Written

/-! ## What names denote -/

/-- The symbol is the variable that a block of the item declares under this name. -/
structure Item.DeclaresIn (t : Table) (m : ScopeMap) (i : Item L NodeId) (b : Block L NodeId)
    (name : String) (x : SymbolId) : Prop where
  contains : i.Contains b
  declares : name ∈ Block.declares b.statements
  bound : (m.get? b.mark).bind (t.localResolve · name) = some x

/-- The symbol is a variable of the item with this name. -/
inductive Item.HasVariable (t : Table) (m : ScopeMap) (i : Item L NodeId) (name : String)
    (x : SymbolId) : Prop where
  | parameter {f} (hi : i = .function f) (hname : name ∈ f.parameterNames)
      (hbound : (m.get? f.mark).bind (t.localResolve · name) = some x)
  | block {b} (hb : i.DeclaresIn t m b name x)

/-- In the scope a name stands for a function of the program or for a variable of the item. -/
def Item.Explains (t : Table) (m : ScopeMap) (i : Item L NodeId) (s : ScopeId) : Prop :=
  ∀ name x, t.resolve s name = some x → t.localResolve Table.global name = some x ∨
    (i.HasVariable t m name x ∧ ∃ τ, t.symbol? x = some (.var name τ))

/-- The global scope binds functions under their own names. -/
def Table.NamesFunctions (t : Table) : Prop :=
  ∀ name x, t.localResolve Table.global name = some x →
    ∃ returns parameters, t.symbol? x = some (.fn ⟨name, returns, parameters⟩)

/-- The name denotes a symbol that has this name: a function of the program, or a variable of the
item. -/
def Occurrence.Denotes (t : Table) (m : ScopeMap) (i : Item L NodeId) (o : Occurrence) : Prop :=
  ∃ x, o.symbol = some x ∧ t.nameOf x = o.name ∧
    ((t.localResolve Table.global o.name = some x ∧ (t.function? x).isSome) ∨
      (i.HasVariable t m o.name x ∧ t.function? x = none))

section Denoting

variable {t : Table} {m : ScopeMap} {i : Item L NodeId} {s : ScopeId}

/-- A name that stands for a variable. -/
theorem Item.Explains.denotes_variable (h : i.Explains t m s) (hglobal : t.NamesFunctions)
    {name n : String} {x : SymbolId} {τ : Ty} (hx : t.resolve s name = some x)
    (hsymbol : t.symbol? x = some (.var n τ)) :
    Occurrence.Denotes t m i ⟨name, t.resolve s name⟩ := by
  have hnone : t.function? x = none := by simp [Table.function?, hsymbol, Symbol.function?]
  rcases h name x hx with hfunction | ⟨hvariable, σ, hsymbol⟩
  · obtain ⟨returns, parameters, hf⟩ := hglobal name x hfunction
    rw [hsymbol] at hf
    cases hf
  · exact ⟨x, hx, by simp [Table.nameOf, hsymbol, Symbol.name], .inr ⟨hvariable, hnone⟩⟩

theorem Item.Explains.denotes_varType (h : i.Explains t m s) (hglobal : t.NamesFunctions)
    {name : Name L} {τ : Ty} (hτ : t.varType? s name.text = some τ) :
    Occurrence.Denotes t m i (t.occurrence s name) := by
  obtain ⟨x, n, hx, hsymbol⟩ := Table.varType?_eq_some_iff.mp hτ
  exact h.denotes_variable hglobal hx hsymbol

/-- A name that is called. -/
theorem Item.Explains.denotes_callee (h : i.Explains t m s) (hglobal : t.NamesFunctions)
    {name : Name L} {f : FunctionSymbol} (hf : t.callee? s name.text = some f) :
    Occurrence.Denotes t m i (t.calleeOccurrence s name) := by
  obtain ⟨x, hx, hfunction⟩ := Option.bind_eq_some_iff.mp hf
  have hlocal : t.localResolve Table.global name.text = some x := by
    rcases Option.or_eq_some_iff.mp hx with hlocal | ⟨hnone, hresolve⟩
    · exact hlocal
    · -- What is not global is a variable, which cannot be called.
      rcases h _ x hresolve with hlocal | ⟨-, τ, hsymbol⟩
      · exact hlocal
      · simp [Table.function?, hsymbol, Symbol.function?] at hfunction
  obtain ⟨returns, parameters, hsymbol⟩ := hglobal _ x hlocal
  have hname : t.nameOf x = (t.calleeOccurrence s name).name := by
    simp [Table.calleeOccurrence, Table.nameOf, hsymbol, Symbol.name]
  exact ⟨x, hx, hname, .inl ⟨hlocal, by simp [hfunction]⟩⟩

private theorem Expr.denotes_all {es : List (Expr L)}
    (ih : ∀ e ∈ es, ∀ o ∈ e.occurrences t s, o.Denotes t m i) :
    ∀ o ∈ Expr.occurrencesAll t s es, o.Denotes t m i := by
  induction es with
  | nil => exact fun o ho => absurd ho List.not_mem_nil
  | cons e es ihs =>
    exact List.forall_mem_append.mpr ⟨ih e List.mem_cons_self,
      ihs fun e he => ih e (List.mem_cons_of_mem _ he)⟩

/-- The names in an expression that has a type denote symbols. -/
theorem Expr.HasType.denotes (h : i.Explains t m s) (hglobal : t.NamesFunctions) {e : Expr L}
    {τ : Ty} (he : e.HasType t s τ) : ∀ o ∈ e.occurrences t s, o.Denotes t m i := by
  induction e using Expr.inductionOn generalizing τ with
  | int | float | bool | char | str => exact fun o ho => absurd ho List.not_mem_nil
  | read p name =>
    cases he with
    -- A name that is read has the type of a variable, so it does not mean a function.
    | read hvar _ => exact List.forall_mem_singleton.mpr (h.denotes_varType hglobal hvar)
  | call p callee arguments ih =>
    cases he with
    | call hcallee harguments _ _ =>
      refine List.forall_mem_cons.mpr ⟨h.denotes_callee hglobal hcallee, Expr.denotes_all ?_⟩
      intro e he
      obtain ⟨σ, hσ⟩ := Expr.exists_hasType_of_mem harguments he
      exact ih e he hσ
  | index p base position ih =>
    cases he with
    | index hvar _ hposition =>
      exact List.forall_mem_cons.mpr ⟨h.denotes_varType hglobal hvar, ih hposition⟩
  | length p operand ih => cases he with | length hoperand _ => exact ih hoperand
  | paren p operand ih => cases he with | paren hoperand => exact ih hoperand
  | negate p operand ih => cases he with | negate hoperand _ => exact ih hoperand
  | binary p op lhs rhs ihl ihr =>
    cases he with
    | arithmetic _ hlhs hrhs _ => exact List.forall_mem_append.mpr ⟨ihl hlhs, ihr hrhs⟩
    | comparison _ hlhs hrhs _ => exact List.forall_mem_append.mpr ⟨ihl hlhs, ihr hrhs⟩
  | array p elements ih =>
    cases he with
    | array _ helements _ => exact Expr.denotes_all fun e hm => ih e hm (helements e hm)
  | newArray p element size ih => cases he with | newArray _ _ hsize => exact ih hsize

theorem Block.mem_declares_of_lookup {k : Nat} {sts : List (Stmt L NodeId)} {name : String}
    {x : Declared} (h : (Block.layer k sts).lookup name = some x) :
    name ∈ Block.declares sts ∧ (name, x) ∈ Block.layer k sts := by
  obtain ⟨before, after, hsplit, -⟩ := List.lookup_eq_some_iff.mp h
  have hmem : (name, x) ∈ Block.layer k sts := by simp [hsplit]
  refine ⟨?_, hmem⟩
  obtain ⟨⟨k', st⟩, hst, hx⟩ := List.mem_flatMap.mp hmem
  refine List.mem_filterMap.mpr ⟨st, Block.mem_of_mem_numbered hst, ?_⟩
  cases st with
  | declare p type written value =>
    obtain ⟨rfl, -⟩ := Prod.mk.inj (List.mem_singleton.mp hx)
    rfl
  | _ => exact absurd hx List.not_mem_nil

theorem Parameter.exists_lookup_layer {k : Nat} {ps : List (Parameter L)} {p : Parameter L}
    (hp : p ∈ ps) : ∃ x, (Parameter.layer k ps).lookup p.name.text = some x := by
  induction ps generalizing k with
  | nil => exact absurd hp List.not_mem_nil
  | cons q ps ih =>
    cases hname : p.name.text == q.name.text with
    | true => exact ⟨_, by simp [Parameter.layer, List.lookup_cons, hname]; rfl⟩
    | false =>
      rcases List.mem_cons.mp hp with rfl | hp
      · simp at hname
      · obtain ⟨x, hx⟩ := ih (k := k + 1) hp
        exact ⟨x, by simpa [Parameter.layer, List.lookup_cons, hname] using hx⟩

/-- A block inside a scope that explains its names has such a scope too. -/
theorem Item.Explains.block (ht : t.Descends) (h : i.Explains t m s) {owner : Option SymbolId}
    {k : Nat} {b : Block L NodeId} (hb : i.Contains b) (hplaced : b.Placed t m owner s)
    (hbound : b.Bound t m s k) :
    ∃ r, m.get? b.mark = some r ∧ i.Explains t m r ∧
      (∀ st ∈ b.statements, st.Placed t m owner r) ∧
      ∀ k' st, (k', st) ∈ Block.numbered k b.statements → st.Bound t m r k' := by
  cases hplaced with
  | @mk _ r node sts hnode hparent howner hsts =>
    cases hbound with
    | @mk _ r' _ _ _ hnode' _ _ hbinds hbound =>
      -- Both relations look the scope of the block up in the same map.
      obtain rfl : r = r' := Option.some.inj (hnode.symm.trans hnode')
      refine ⟨r, hnode, ?_, hsts, hbound⟩
      intro name x hx
      rw [Table.resolve_eq ht, hparent] at hx
      -- A name of the block is declared in it, and any other is explained by the scope around it.
      rcases Option.or_eq_some_iff.mp hx with hlocal | ⟨-, houter⟩
      · have hlookup := hlocal
        rw [hbinds] at hlookup
        obtain ⟨declared, hdeclared, rfl⟩ := Option.map_eq_some_iff.mp hlookup
        obtain ⟨hname, hmem⟩ := Block.mem_declares_of_lookup hdeclared
        obtain ⟨τ, -, hsymbol⟩ := Block.describes_layer hbound hmem
        rw [Block.isFunction_layer hmem] at hsymbol
        refine .inr ⟨.block ⟨hb, hname, ?_⟩, τ, by simpa using hsymbol⟩
        simpa [Block.mark, hnode] using hlocal
      · exact h name x houter

theorem Block.forall_mem_occurrencesAll {P : Occurrence → Prop} {sts : List (Stmt L NodeId)}
    (h : ∀ st ∈ sts, ∀ o ∈ st.occurrences t m s, P o) :
    ∀ o ∈ Block.occurrencesAll t m s sts, P o := by
  induction sts with
  | nil => exact fun o ho => absurd ho List.not_mem_nil
  | cons st sts ih =>
    exact List.forall_mem_append.mpr ⟨h st List.mem_cons_self,
      ih fun st hst => h st (List.mem_cons_of_mem _ hst)⟩

private theorem Block.denotes_block (ht : t.Descends) (h : i.Explains t m s)
    {owner : Option SymbolId} {arguments : List SymbolId} {returns : Option Ty} {k : Nat}
    {b : Block L NodeId}
    (ih : ∀ st ∈ b.statements, ∀ (s : ScopeId) (k : Nat), i.Explains t m s →
      (∀ b ∈ st.blocks, i.Contains b) → st.WellTyped t m arguments returns s →
      st.Placed t m owner s → st.Bound t m s k → ∀ o ∈ st.occurrences t m s, o.Denotes t m i)
    (hb : i.Contains b) (hwell : b.WellTyped t m arguments returns)
    (hplaced : b.Placed t m owner s) (hbound : b.Bound t m s k) :
    ∀ o ∈ b.occurrences t m, o.Denotes t m i := by
  obtain ⟨r, hnode, hexplains, hplaced, hbound⟩ := h.block ht hb hplaced hbound
  cases hwell with
  | @mk node r' sts hnode' hsts =>
    obtain rfl : r = r' := Option.some.inj (hnode.symm.trans hnode')
    have hall : ∀ st ∈ sts, ∀ o ∈ st.occurrences t m r, o.Denotes t m i := by
      intro st hst
      -- The index of the statement only matters for the symbol that it declares.
      obtain ⟨k', -, hnumbered⟩ := Block.exists_mem_numbered (k := k) hst
      exact ih st hst r k' hexplains (fun b' hb' => .nested hb hst hb') (hsts st hst)
        (hplaced st hst) (hbound k' st hnumbered)
    rw [Block.occurrences, hnode']
    exact Block.forall_mem_occurrencesAll hall

/-- The names in a well-typed statement denote symbols. -/
theorem Stmt.denotes (ht : t.Descends) (hglobal : t.NamesFunctions) {owner : Option SymbolId}
    {arguments : List SymbolId} {returns : Option Ty} (st : Stmt L NodeId) (s : ScopeId) (k : Nat)
    (h : i.Explains t m s) (hin : ∀ b ∈ st.blocks, i.Contains b)
    (hwell : st.WellTyped t m arguments returns s) (hplaced : st.Placed t m owner s)
    (hbound : st.Bound t m s k) : ∀ o ∈ st.occurrences t m s, o.Denotes t m i := by
  induction st using Stmt.inductionOn generalizing s k with
  | declare p type name value =>
    cases hwell with
    | declare _ _ hvalue =>
      cases hbound with
      | declare _ hsymbol hlocal =>
        -- The declared name is found in the scope itself, whatever is around it.
        have hresolve : t.resolve s name.text = some ⟨k⟩ := by
          rw [Table.resolve_eq ht, hlocal, Option.some_or]
        refine List.forall_mem_cons.mpr ⟨h.denotes_variable hglobal hresolve hsymbol, ?_⟩
        cases value with
        | none => exact fun o ho => absurd ho List.not_mem_nil
        | some e =>
          obtain ⟨τ, hτ⟩ := (hvalue e rfl).hasType
          exact hτ.denotes h hglobal
  | assign p target value =>
    cases hwell with
    | assign htarget hvalue =>
      obtain ⟨τ, hτ⟩ := hvalue.hasType
      exact List.forall_mem_cons.mpr ⟨h.denotes_varType hglobal htarget, hτ.denotes h hglobal⟩
  | assignAt p target position value =>
    cases hwell with
    | assignAt htarget _ _ hposition hvalue =>
      exact List.forall_mem_cons.mpr ⟨h.denotes_varType hglobal htarget,
        List.forall_mem_append.mpr ⟨hposition.denotes h hglobal, hvalue.denotes h hglobal⟩⟩
  | ifThen p condition yes ih =>
    cases hwell with
    | ifThen hcondition hyes =>
      cases hplaced with
      | ifThen hplaced =>
        cases hbound with
        | ifThen hbound =>
          exact List.forall_mem_append.mpr ⟨hcondition.denotes h hglobal,
            Block.denotes_block ht h ih (hin yes List.mem_cons_self) hyes hplaced hbound⟩
  | loop p condition body ih =>
    cases hwell with
    | loop hcondition hbody =>
      cases hplaced with
      | loop hplaced =>
        cases hbound with
        | loop hbound =>
          exact List.forall_mem_append.mpr ⟨hcondition.denotes h hglobal,
            Block.denotes_block ht h ih (hin body List.mem_cons_self) hbody hplaced hbound⟩
  | ifElse p condition yes no ihy ihn =>
    cases hwell with
    | ifElse hcondition hyes hno =>
      cases hplaced with
      | ifElse hplaced hplaced' =>
        cases hbound with
        | ifElse hbound hbound' =>
          -- The two branches are explained apart, each in a scope of its own.
          have hblocks := List.forall_mem_append.mpr
            ⟨Block.denotes_block ht h ihy (hin yes List.mem_cons_self) hyes hplaced hbound,
              Block.denotes_block ht h ihn (hin no (List.mem_cons_of_mem _ List.mem_cons_self)) hno
                hplaced' hbound'⟩
          exact List.forall_mem_append.mpr ⟨hcondition.denotes h hglobal, hblocks⟩
  | ret p node value =>
    cases hwell with
    | ret => exact fun o ho => absurd ho List.not_mem_nil
    | retValue _ _ hvalue =>
      obtain ⟨τ, hτ⟩ := hvalue.hasType
      exact hτ.denotes h hglobal
  | print p newline value =>
    cases hwell with
    | newline => exact fun o ho => absurd ho List.not_mem_nil
    | print hvalue _ _ => exact hvalue.denotes h hglobal
  | call p callee arguments =>
    cases hwell with
    | call hcallee hvalues _ _ =>
      refine List.forall_mem_cons.mpr ⟨h.denotes_callee hglobal hcallee, Expr.denotes_all ?_⟩
      intro e he
      obtain ⟨σ, hσ⟩ := Expr.exists_hasType_of_mem hvalues he
      exact hσ.denotes h hglobal

theorem Block.denotes (ht : t.Descends) (hglobal : t.NamesFunctions) (h : i.Explains t m s)
    {owner : Option SymbolId} {arguments : List SymbolId} {returns : Option Ty} {k : Nat}
    {b : Block L NodeId} (hb : i.Contains b) (hwell : b.WellTyped t m arguments returns)
    (hplaced : b.Placed t m owner s) (hbound : b.Bound t m s k) :
    ∀ o ∈ b.occurrences t m, o.Denotes t m i :=
  Block.denotes_block ht h (fun st _ => st.denotes ht hglobal) hb hwell hplaced hbound

/-- The names inside a function denote symbols, if its body is well typed. -/
theorem Function.Entered.denotes (ht : t.Descends) (hglobal : t.NamesFunctions)
    {f : Function L NodeId} (hroot : (Item.function f).Explains t m Table.global) {k : Nat}
    {body : Block L NodeId} {returns : Ty} {types : List Ty}
    (hf : f.Entered t m k body s returns types) {arguments : List SymbolId} {result : Option Ty}
    (hwell : body.WellTyped t m arguments result) :
    ∀ o ∈ (Item.function f).occurrences t m, o.Denotes t m (.function f) := by
  -- The scope of the function binds its parameters.
  have hparameter : ∀ name x, t.localResolve s name = some x →
      (Item.function f).HasVariable t m name x ∧ ∃ τ, t.symbol? x = some (.var name τ) := by
    intro name x hx
    have hlookup := hx
    rw [hf.bindings] at hlookup
    obtain ⟨declared, hdeclared, rfl⟩ := Option.map_eq_some_iff.mp hlookup
    obtain ⟨before, after, hsplit, -⟩ := List.lookup_eq_some_iff.mp hdeclared
    have hmem : (name, declared) ∈ Parameter.layer (k + 1) f.parameters := by simp [hsplit]
    obtain ⟨τ, -, hsymbol⟩ := hf.describes_parameter hmem
    obtain ⟨j, q, hq, rfl, rfl⟩ := Parameter.mem_layer hmem
    refine ⟨.parameter rfl ?_ (by simpa [hf.mark] using hx), τ, by simpa using hsymbol⟩
    exact List.mem_map_of_mem (List.mem_of_getElem? hq)
  have hexplains : (Item.function f).Explains t m s := by
    intro name x hx
    rw [Table.resolve_eq ht, hf.parent] at hx
    rcases Option.or_eq_some_iff.mp hx with hlocal | ⟨-, houter⟩
    · exact .inr (hparameter name x hlocal)
    · exact hroot name x houter
  rw [Item.occurrences, hf.body_eq, hf.mark]
  refine List.forall_mem_append.mpr ⟨List.forall_mem_map.mpr fun p hp => ?_,
    Block.denotes ht hglobal hexplains (.function hf.body_eq) hwell hf.placed hf.bound⟩
  obtain ⟨declared, hdeclared⟩ := Parameter.exists_lookup_layer (k := k + 1) hp
  have hlocal : t.localResolve s p.name.text = some declared.symbol := by
    rw [hf.bindings, hdeclared, Option.map_some]
  have hresolve : t.resolve s p.name.text = some declared.symbol := by
    rw [Table.resolve_eq ht, hlocal, Option.some_or]
  obtain ⟨-, τ, hsymbol⟩ := hparameter _ _ hlocal
  exact hexplains.denotes_variable hglobal hresolve hsymbol

/-- The names inside an entry point denote symbols, if its body is well typed. -/
theorem EntryPoint.Entered.denotes (ht : t.Descends) (hglobal : t.NamesFunctions)
    {e : EntryPoint L NodeId} (hroot : (Item.main e).Explains t m Table.global) {k : Nat}
    (he : e.Entered t m k s) {arguments : List SymbolId} {result : Option Ty}
    (hwell : e.body.WellTyped t m arguments result) :
    ∀ o ∈ (Item.main e).occurrences t m, o.Denotes t m (.main e) := by
  have hexplains : (Item.main e).Explains t m s := by
    intro name x hx
    rw [Table.resolve_eq ht, he.bindings, he.parent, Option.none_or] at hx
    exact hroot name x hx
  exact Block.denotes ht hglobal hexplains .main hwell he.placed he.bound

end Denoting

/-! ## Variables of the same name -/

/-- Variables of one item with the same name are the same, or two blocks declare them. -/
theorem Item.HasVariable.eq_or_declared_twice {t : Table} {m : ScopeMap} {i : Item L NodeId}
    (hwell : i.WellDeclared) {name : String} {x y : SymbolId} (hx : i.HasVariable t m name x)
    (hy : i.HasVariable t m name y) :
    x = y ∨ ∃ b b', i.DeclaresIn t m b name x ∧ i.DeclaresIn t m b' name y ∧ b.mark ≠ b'.mark := by
  -- A parameter and a variable of a block never have the same name.
  have hmixed : ∀ {f : Function L NodeId} {b : Block L NodeId} {z : SymbolId}, i = .function f →
      name ∈ f.parameterNames → ¬i.DeclaresIn t m b name z := by
    rintro f b z rfl hparameter hb
    exact (hb.contains.wellDeclared hwell).not_mem_parameters hb.declares hparameter
  cases hx with
  | @parameter f hi hname hbound =>
    cases hy with
    | @parameter g hi' hname' hbound' =>
      obtain rfl : f = g := Item.function.inj (hi.symm.trans hi')
      exact .inl (Option.some.inj (hbound.symm.trans hbound'))
    | block hb => exact absurd hb (hmixed hi hname)
  | @block b hb =>
    cases hy with
    | parameter hi hname _ => exact absurd hb (hmixed hi hname)
    | @block b' hb' =>
      by_cases hmark : b.mark = b'.mark
      · have hbound := hb.bound
        rw [hmark, hb'.bound] at hbound
        exact .inl (Option.some.inj hbound).symm
      · exact .inr ⟨b, b', hb, hb', hmark⟩

/-! ## Accepted programs -/

/-- Two symbols that have one name in an item, though they are declared apart: one of them is a
function of the program, or they are variables of two different blocks. -/
def Item.DeclaredApart (t : Table) (m : ScopeMap) (i : Item L NodeId) (name : String)
    (x y : SymbolId) : Prop :=
  (t.function? x).isSome ≠ (t.function? y).isSome ∨
    ∃ b b', i.DeclaresIn t m b name x ∧ i.DeclaresIn t m b' name y ∧ b.mark ≠ b'.mark

theorem Program.namesFunctions {p : Program L} (hp : p.Distinct)
    (hclean : (Declarations.ofProgram p).findings = []) :
    (Declarations.ofProgram p).table.NamesFunctions := by
  intro name x hx
  rw [Program.localResolve_global hp hclean] at hx
  obtain ⟨declared, hlookup, rfl⟩ := Option.map_eq_some_iff.mp hx
  obtain ⟨k, i, hi, -, hdeclared⟩ := Item.exists_of_lookup_layer hlookup
  obtain ⟨τ, -, hsymbol⟩ := (Program.entered_item hp hclean hi).describes
  have hfunction : (i.declared k).2.isFunction = true := by cases i <;> rfl
  rw [if_pos hfunction, hdeclared] at hsymbol
  obtain ⟨parameters, hsymbol⟩ := hsymbol
  exact ⟨τ, parameters, hsymbol⟩

section Accepted

variable {p : Program Location} {a : Analysis}

/-- The names inside an item of an accepted program denote symbols. -/
theorem Program.denotes_of_isAccepted (hp : p.Distinct) (ha : p.analyze = .ok a)
    (haccepted : a.isAccepted = true) {k : Nat} {i : Item Location NodeId}
    (hi : (k, i) ∈ p.numberedItems) :
    ∀ o ∈ i.occurrences a.table a.scopes, o.Denotes a.table a.scopes i := by
  obtain ⟨htable, -, hclean, -, -⟩ := Program.of_isAccepted ha haccepted
  have ht : a.table.Descends := htable ▸ Declarations.descends_ofProgram p
  have hglobal : a.table.NamesFunctions := htable ▸ Program.namesFunctions hp hclean
  -- In the global scope every name is the one of a function, and it means that function.
  have hroot : i.Explains a.table a.scopes Table.global := by
    intro name x hx
    rw [htable, (Program.reads_global hp hclean).resolve] at hx
    refine .inl ?_
    rw [htable, Program.localResolve_global hp hclean]
    simpa [Layer.meaning] using hx
  cases i with
  | function f =>
    obtain ⟨body, s, returns, types, hf, hwell⟩ := Program.wellTyped_function hp ha haccepted hi
    exact hf.denotes ht hglobal hroot hwell
  | main e =>
    obtain ⟨s, he, hwell⟩ := Program.wellTyped_main hp ha haccepted hi
    exact he.denotes ht hglobal hroot hwell

/-- How the script of an accepted program writes the names inside an item. All names for one symbol
are written alike. Names for different symbols are written alike only if one of them is reserved and
the other is that one with the mark in front, which always happens then, or if they are the same
name, declared apart. -/
theorem Program.written_alike (hp : p.Distinct) (ha : p.analyze = .ok a)
    (haccepted : a.isAccepted = true) {i : Item Location NodeId} (hi : i ∈ p.items) :
    i.scriptNames a.table a.scopes = Occurrence.written (i.occurrences a.table a.scopes) ∧
      ∀ o ∈ i.occurrences a.table a.scopes, ∀ o' ∈ i.occurrences a.table a.scopes,
        ∃ x x', o.symbol = some x ∧ o'.symbol = some x' ∧
          (x = x' → safeName o.name = safeName o'.name) ∧
          (safeName o.name = safeName o'.name → x = x' ∨ Marked o.name o'.name ∨
            (o.name = o'.name ∧ i.DeclaredApart a.table a.scopes o.name x x')) ∧
          (Marked o.name o'.name → safeName o.name = safeName o'.name ∧ x ≠ x') := by
  obtain ⟨htable, hscopes, hclean, -, -⟩ := Program.of_isAccepted ha haccepted
  obtain ⟨k, hk⟩ := Item.exists_mem_numbered (k := 0) hi
  have hentered : i.Entered a.table a.scopes k := by
    rw [htable, hscopes]
    exact Program.entered_item hp hclean hk
  -- Within one scope a name is declared once, so a second symbol comes from another block.
  have hwell : i.WellDeclared := ((Program.clean_iff_wellDeclared hp).mp hclean).items i hi
  have hdenotes := Program.denotes_of_isAccepted hp ha haccepted hk
  refine ⟨hentered.scriptNames_eq, fun o ho o' ho' => ?_⟩
  obtain ⟨x, hx, hname, hkind⟩ := hdenotes o ho
  obtain ⟨x', hx', hname', hkind'⟩ := hdenotes o' ho'
  refine ⟨x, x', hx, hx', ?_, ?_, ?_⟩
  · rintro rfl
    rw [← hname, ← hname']
  · intro hwritten
    rcases safeName_eq_iff.mp hwritten with hsame | hmarked
    · rw [← hsame] at hkind'
      -- The same name: two functions are one, and variables differ only if two blocks declare them.
      rcases hkind with ⟨hglobal, hsome⟩ | ⟨hvariable, hnone⟩
      · rcases hkind' with ⟨hglobal', -⟩ | ⟨-, hnone'⟩
        · exact .inl (Option.some.inj (hglobal.symm.trans hglobal'))
        · exact .inr (.inr ⟨hsame, .inl (by simp [hsome, hnone'])⟩)
      · rcases hkind' with ⟨-, hsome'⟩ | ⟨hvariable', -⟩
        · exact .inr (.inr ⟨hsame, .inl (by simp [hsome', hnone])⟩)
        · rcases hvariable.eq_or_declared_twice hwell hvariable' with heq | htwice
          · exact .inl heq
          · exact .inr (.inr ⟨hsame, .inr htwice⟩)
    · exact .inr (.inl hmarked)
  -- Marked names differ, and a symbol has one name only.
  · intro hmarked
    refine ⟨safeName_eq_iff.mpr (.inr hmarked), ?_⟩
    rintro rfl
    exact hmarked.ne (hname.symm.trans hname')

end Accepted

/-- A function with a reserved name for its parameter and a nested block:
`int count(int len) { int i = 0; while (i < len) { int step = 1; i = i + step; } return i; }`,
`main { print(count(3)); }` -/
def Program.counting : Program Location :=
  let written (text : String) : Name (Option Location) := ⟨text, none⟩
  let read (text : String) : Expr (Option Location) := .read none (written text)
  let body : Draft Block := .mk none
    [.declare none (written "int") (written "step") (some (.int none 1)),
      .assign none (written "i") (.binary none .add (read "i") (read "step"))]
  Program.ofDraft
    [.function ⟨none, none, written "int", written "count", [⟨written "int", written "len"⟩],
      some (.mk none
        [.declare none (written "int") (written "i") (some (.int none 0)),
          .loop none (.binary none .less (read "i") (read "len")) body,
          .ret none none (some (read "i"))])⟩,
      .main ⟨none, none, .mk none
        [.print none true (some (.call none (written "count") [.int none 3]))]⟩]

theorem Program.written_alike_counting :
    Program.counting.Distinct ∧ ∃ a i, Program.counting.analyze = .ok a ∧ a.isAccepted = true ∧
      i ∈ Program.counting.items ∧
      i.scriptNames a.table a.scopes =
        ["ofp_len", "i", "i", "ofp_len", "step", "i", "i", "step", "i"] ∧
      ∀ o ∈ i.occurrences a.table a.scopes, ∀ o' ∈ i.occurrences a.table a.scopes,
        o.symbol = o'.symbol → safeName o.name = safeName o'.name := by
  have hdistinct : Program.counting.Distinct := Program.distinct_ofDraft _ (by decide)
  obtain ⟨a, ha, haccepted, hcheck⟩ := Program.exists_accepted (p := Program.counting)
    (fun a => Program.counting.items.head?.any fun i =>
      (i.occurrences a.table a.scopes).map Occurrence.name ==
        ["len", "i", "i", "len", "step", "i", "i", "step", "i"]) (by decide +kernel)
  have hi : _ ∈ Program.counting.items := List.mem_cons_self
  obtain ⟨hnames, halike⟩ := Program.written_alike hdistinct ha haccepted hi
  refine ⟨hdistinct, a, _, ha, haccepted, hi, ?_, ?_⟩
  -- The names of the script are the safe forms of the names that occur.
  · have htexts := eq_of_beq hcheck
    rw [hnames, Occurrence.written, ← Function.comp_def safeName, ← List.map_map, htexts]
    decide +kernel
  · intro o ho o' ho' hsymbol
    obtain ⟨x, x', hx, hx', hsame, -⟩ := halike o ho o' ho'
    exact hsame (Option.some.inj (hx.symm.trans (hsymbol.trans hx')))

/-- `main { int x = 1; if (true) { int x = 2; } print(x); }` -/
def Program.overwriting : Program Location :=
  let written (text : String) : Name (Option Location) := ⟨text, none⟩
  Program.ofDraft [.main ⟨none, none, .mk none
    [.declare none (written "int") (written "x") (some (.int none 1)),
      .ifThen none (.bool none true) (.mk none
        [.declare none (written "int") (written "x") (some (.int none 2))]),
      .print none true (some (.read none (written "x")))]⟩]

/-- The variable of the nested block is another one than the variable outside, and both are written
alike. The script prints what the nested block has stored, though the program reads the variable
outside: the unit keeps the two in slots of their own and prints the first. -/
theorem Program.overwriting_written_alike :
    ∃ a i u, Program.overwriting.analyze = .ok a ∧ a.isAccepted = true ∧
      i ∈ Program.overwriting.items ∧
      i.occurrences a.table a.scopes =
        [⟨"x", some ⟨1⟩⟩, ⟨"x", some ⟨2⟩⟩, ⟨"x", some ⟨1⟩⟩] ∧
      a.scriptText Program.overwriting = .ok "x = 1\nif True:\n    x = 2\nprint(x)\n" ∧
      a.codeUnit Program.overwriting "Unit" = .ok u ∧ u.functions.map Machine.Routine.body =
        [[.push (.int 1), .store .int 1, .push (.int 1), .jumpIfFalse ⟨0⟩, .push (.int 2),
          .store .int 2, .label ⟨0⟩, .load .int 1, .print (some .int) true, .ret none]] :=
  ⟨_, _, _, rfl, rfl, List.mem_cons_self, rfl, by decide +kernel, rfl, rfl⟩

end Primer
