import Primer.Proofs.Declaration.Recording
import Primer.Proofs.Declaration.Steps
import Primer.Proofs.Machine.Capacity
import Primer.Proofs.Script.Passage

/-!
# Analysis and generation find every scope

Passes look scopes up by node, and a look-up without a record is a fault. For a program whose nodes
have distinct numbers there is no such fault, whatever mistakes the program has: all three passes
run to their end, and if nothing was reported, no scope is missing to the generators either
(`Program.exists_completes`).
-/

namespace Primer

variable {L : Type}

/-! ## Following numbers -/

namespace Table.Closed

variable {t : Table}

/-- The way outwards from a scope stays inside the table. -/
theorem lt_size_of_mem_chain (ht : t.Closed) {s r : ScopeId} (hs : s.index < t.scopes.size)
    (hr : r ∈ t.chain s) : r.index < t.scopes.size := by
  have hwithin : ∀ steps (s : ScopeId), s.index < t.scopes.size → ∀ r ∈ t.chainWithin steps s,
      r.index < t.scopes.size := by
    intro steps
    induction steps with
    | zero => exact fun _ _ _ hr => absurd hr List.not_mem_nil
    | succ steps ih =>
      intro s hs r hr
      rcases List.mem_cons.mp hr with rfl | hr
      · exact hs
      · cases hp : t.parent? s with
        | none => simp [hp] at hr
        | some p => exact ih p (ht.parent s p hp) r (by simpa [hp] using hr)
  exact hwithin _ s hs r hr

/-- What a name stands for is a symbol of the table. -/
theorem lt_size_of_resolve (ht : t.Closed) {s : ScopeId} {name : String} {x : SymbolId}
    (h : t.resolve s name = some x) : x.index < t.symbols.size := by
  obtain ⟨r, -, hr⟩ := List.exists_of_findSome?_eq_some h
  exact ht.bound r name x hr

theorem lt_size_of_resolveCallee (ht : t.Closed) {s : ScopeId} {name : String} {x : SymbolId}
    (h : t.resolveCallee s name = some x) : x.index < t.symbols.size := by
  rcases Option.or_eq_some_iff.mp h with h | ⟨-, h⟩
  · exact ht.bound _ name x h
  · exact ht.lt_size_of_resolve h

end Table.Closed

/-! ## Scripts of placed blocks -/

section Script

variable {t : Table} {m : ScopeMap} {owner : Option SymbolId}

theorem Script.Stmt.areScoped_eq_all (sts : List Script.Stmt) :
    Script.Stmt.areScoped sts = sts.all Script.Stmt.isScoped := by
  induction sts with
  | nil => rfl
  | cons st sts ih => simp [Script.Stmt.areScoped, ih]

private theorem Block.areScoped_toScript_block {b : Block L NodeId}
    (ih : ∀ st ∈ b.statements, ∀ s, st.Placed t m owner s → (st.toScript t m s).isScoped = true)
    {s : ScopeId} (hb : b.Placed t m owner s) :
    Script.Stmt.areScoped (b.toScript t m) = true := by
  cases hb with
  | @mk _ r node sts hnode hparent howner hsts =>
    rw [Block.toScript_of_get? hnode, Script.Stmt.areScoped_eq_all, List.all_map]
    exact List.all_eq_true.mpr fun st hst => ih st hst r (hsts st hst)

/-- The script of a placed statement asks for no scope in vain. -/
theorem Stmt.Placed.isScoped_toScript {st : Stmt L NodeId} {s : ScopeId}
    (hst : st.Placed t m owner s) : (st.toScript t m s).isScoped = true := by
  induction st using Stmt.inductionOn generalizing s with
  | declare p type name value => rfl
  | assign p target value => rfl
  | assignAt p target position value => rfl
  | print p newline value => rfl
  | call p callee arguments => rfl
  | ret p node value => rfl
  -- Only blocks ask for scopes.
  | ifThen p condition yes ih =>
    cases hst with
    | ifThen hyes => exact Block.areScoped_toScript_block (fun st hm s => ih st hm) hyes
  | loop p condition body ih =>
    cases hst with
    | loop hbody => exact Block.areScoped_toScript_block (fun st hm s => ih st hm) hbody
  | ifElse p condition yes no ihy ihn =>
    cases hst with
    | ifElse hyes hno =>
      exact Bool.and_eq_true_iff.mpr
        ⟨Block.areScoped_toScript_block (fun st hm s => ihy st hm) hyes,
          Block.areScoped_toScript_block (fun st hm s => ihn st hm) hno⟩

theorem Block.Placed.areScoped_toScript {b : Block L NodeId} {s : ScopeId}
    (hb : b.Placed t m owner s) : Script.Stmt.areScoped (b.toScript t m) = true :=
  Block.areScoped_toScript_block (fun _ _ _ hst => hst.isScoped_toScript) hb

/-- The script of a program with covered items. -/
theorem Program.isScoped_toScript {p : Program L} (hp : ∀ i ∈ p.items, i.Covered t m) :
    (p.toScript t m).isScoped = true := by
  refine Bool.and_eq_true_iff.mpr ⟨List.all_eq_true.mpr ?_, List.all_eq_true.mpr ?_⟩
  · intro g hg
    obtain ⟨f, hf, hg⟩ := List.mem_filterMap.mp hg
    obtain ⟨i, hi, hfi⟩ := List.mem_filterMap.mp hf
    cases i with
    | main e => cases hfi
    | function f' =>
      obtain rfl := Option.some.inj hfi
      simp only [Function.toScript?, Option.bind_eq_bind, Option.bind_eq_some_iff] at hg
      obtain ⟨body, hbody, s, hs, x, -, hg⟩ := hg
      obtain rfl := Option.some.inj hg
      -- The function is written because its mark has a scope, so the passes visit it too.
      have haccepted : (Item.function f').acceptedBody? m = some body := by
        simp [Item.acceptedBody?, hs, hbody]
      obtain ⟨owner, r, hplaced⟩ := (hp _ hi).placed haccepted
      exact hplaced.areScoped_toScript
  · intro sts hsts
    obtain ⟨e, he, hsts⟩ := List.mem_filterMap.mp hsts
    obtain ⟨i, hi, hei⟩ := List.mem_filterMap.mp he
    cases i with
    | function f => cases hei
    | main e' =>
      obtain rfl := Option.some.inj hei
      obtain ⟨s, hs, rfl⟩ := Option.map_eq_some_iff.mp hsts
      -- The same for the entry point: no scope, no statements.
      have haccepted : (Item.main e').acceptedBody? m = some e'.body := by
        simp [Item.acceptedBody?, hs]
      obtain ⟨owner, r, hplaced⟩ := (hp _ hi).placed haccepted
      exact hplaced.areScoped_toScript

end Script

/-! ## Whole programs -/

open Declarations

/-- What the three passes find in a program when none of them is stopped. -/
def Program.results (p : Program Location) : Analysis where
  table := (ofProgram p).table
  scopes := (ofProgram p).scopes
  declarations := ⟨DeclarationError.label, (ofProgram p).findings⟩
  references := ⟨ReferenceError.label,
    (p.references (ofProgram p).table (ofProgram p).scopes).findings⟩
  types := ⟨TypeError.label, (p.types (ofProgram p).table (ofProgram p).scopes).findings⟩

theorem Program.analyze_eq_results {p : Program Location} (hp : p.Distinct) :
    p.analyze = .ok p.results := by
  simp only [Program.analyze, Report.diagnostics, Program.fault_references hp,
    Program.fault_types hp]
  rfl

/-- What the analysis of a program amounts to if no scope is missing anywhere. -/
structure Program.Completes (p : Program Location) (a : Analysis) : Prop where
  /-- Declaring took steps, each of them on numbers of scopes and symbols that were there, and the
  numbers that it left stay inside the table. -/
  declared : ∃ d : Declarations Location, Steps .empty d ∧ d.Closed ∧
    a.table = d.table ∧ a.scopes = d.scopes
  /-- Whoever starts at a recorded scope and follows its parents, or looks up a variable or a
  function there, meets scopes and symbols of the table only. -/
  inside : ∀ node s, a.scopes.get? node = some s →
    (∀ r ∈ a.table.chain s, r.index < a.table.scopes.size) ∧
      ∀ name x, a.table.resolve s name = some x ∨ a.table.resolveCallee s name = some x →
        x.index < a.table.symbols.size
  /-- An item that is not rejected is visited, and all its nodes, which are its own, its blocks and
  its returns at any depth, have scopes. -/
  accepted : ∀ taken i, (taken, i) ∈ Item.inTurn [] p.items → i.rejections taken = [] →
    (i.acceptedBody? a.scopes).isSome ∧ ∀ node ∈ i.nodes, (a.scopes.get? node).isSome
  /-- An item that is rejected is reported as such and passed over, and none of its nodes has a
  scope: whoever had asked for one would have been stopped. -/
  rejected : ∀ taken i, (taken, i) ∈ Item.inTurn [] p.items → i.rejections taken ≠ [] →
    (∀ e ∈ i.rejections taken, e ∈ a.declarations.entries) ∧ i.acceptedBody? a.scopes = none ∧
      ∀ node ∈ i.nodes, a.scopes.get? node = none
  /-- The machine code of an accepted program is generated, or stopped by an overflow. -/
  emitted : a.isAccepted = true → ∀ name, a.Assembles p name fun _ => True
  /-- The script of an accepted program is not stopped for want of a scope. -/
  written : a.isAccepted = true → ∀ node, a.scriptText p ≠ .error (.fault (.unscoped node))

/-- All passes over a program with distinct nodes run to their end. -/
theorem Program.exists_completes {p : Program Location} (hp : p.Distinct) :
    ∃ a, p.analyze = .ok a ∧ p.Completes a := by
  have hclosed : (ofProgram p).Closed := closed_ofProgram p
  have hcovered := covered_ofProgram hp
  have hanalyze := Program.analyze_eq_results hp
  -- Of the two ways in which an item can be covered, its mark tells which one it is.
  have hnodes : ∀ i ∈ p.items, _ := fun i hi => (hcovered i hi).nodes
  refine ⟨_, hanalyze, ⟨ofProgram p, steps_ofProgram p, hclosed, rfl, rfl⟩, ?_, ?_, ?_, ?_, ?_⟩
  · intro node s hs
    have hlt : s.index < (ofProgram p).table.scopes.size := hclosed.recorded node s hs
    refine ⟨fun r hr => hclosed.table.lt_size_of_mem_chain hlt hr, ?_⟩
    rintro name x (hx | hx)
    · exact hclosed.table.lt_size_of_resolve hx
    · exact hclosed.table.lt_size_of_resolveCallee hx
  · intro taken i hi hkept
    obtain ⟨s, hs⟩ := (records_ofProgram hp hi).accepted hkept
    rcases hnodes i (Item.mem_of_mem_inTurn hi) with hall | ⟨-, hnone⟩
    · exact hall
    · rw [hnone i.mark i.mark_mem_nodes] at hs
      cases hs
  · intro taken i hi hrejected
    have hrecords := records_ofProgram hp hi
    refine ⟨hrecords.reported, ?_⟩
    rcases hnodes i (Item.mem_of_mem_inTurn hi) with ⟨-, hall⟩ | hnone
    · have hmark := hall i.mark i.mark_mem_nodes
      rw [hrecords.rejected hrejected] at hmark
      cases hmark
    · exact hnone
  · exact fun haccepted name => Program.assembles hp hanalyze haccepted name fun _ _ => trivial
  · intro haccepted node
    have hscoped := Program.isScoped_toScript hcovered
    rw [Analysis.scriptText, Analysis.ifAccepted_eq haccepted, Program.results,
      Script.text_eq _ hscoped]
    split_ifs <;> simp [Except.mapError]

/-- Two functions with blocks and returns, the second of a given name, and an entry point:
`int f(int n) { if (n > 0) { return n; } return 0; }`
`int second(int n) { while (n > 0) { return n; } return 0; }` -/
def Program.pair (second : String) : Program Location :=
  let written (text : String) : Name (Option Location) := ⟨text, none⟩
  let read (text : String) : Expr (Option Location) := .read none (written text)
  let positive : Expr (Option Location) := .binary none .greater (read "n") (.int none 0)
  let block : Draft Block := .mk none [.ret none none (some (read "n"))]
  let function (name : String) (first : Draft Stmt) : Draft Item :=
    .function ⟨none, none, written "int", written name, [⟨written "int", written "n"⟩],
      some (.mk none [first, .ret none none (some (.int none 0))])⟩
  Program.ofDraft
    [function "f" (.ifThen none positive block), function second (.loop none positive block),
      .main ⟨none, none, .mk none []⟩]

/-- Of three items the second, a function with a taken name, is rejected, and the analysis is
complete all the same. -/
theorem Program.exists_completes_pair :
    ((Program.pair "f").Distinct ∧
      (Item.inTurn [] (Program.pair "f").items).map (fun (taken, i) =>
        (i.rejections taken).map Located.value) = [[], [.duplicateFunction "f"], []] ∧
      ∃ a, (Program.pair "f").analyze = .ok a ∧ a.isAccepted = false ∧
        (Program.pair "f").Completes a) ∧
    ((Program.pair "g").Distinct ∧ ∃ a, (Program.pair "g").analyze = .ok a ∧
      a.isAccepted = true ∧ (Program.pair "g").Completes a) := by
  have htaken : (Program.pair "f").Distinct := Program.distinct_ofDraft _ (by decide)
  have hfree : (Program.pair "g").Distinct := Program.distinct_ofDraft _ (by decide)
  refine ⟨⟨htaken, by decide +kernel, ?_⟩, hfree, ?_⟩
  -- A name that is taken costs the function its scopes, but no pass is stopped by that.
  · obtain ⟨a, ha, hcompletes⟩ := Program.exists_completes htaken
    have hrejected : (Program.pair "f").analyze.toOption.all (!·.isAccepted) = true := by
      decide +kernel
    exact ⟨a, ha, by simpa [ha, Except.toOption] using hrejected, hcompletes⟩
  · obtain ⟨a, ha, hcompletes⟩ := Program.exists_completes hfree
    have haccepted : (Program.pair "g").analyze.toOption.all (·.isAccepted) = true := by
      decide +kernel
    exact ⟨a, ha, by simpa [ha, Except.toOption] using haccepted, hcompletes⟩

end Primer
