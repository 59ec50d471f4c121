import Primer.Proofs.Analysis.ItemOrder
import Primer.Proofs.Machine.Relabeling

/-!
# Labels are only names

Numbers of nodes are only names, and places reach diagnostics only. Two programs that differ in
these labels alone, each with distinct nodes, have the same table, the same scopes at corresponding
nodes, the same messages of all three passes, and the same script and machine code
(`Program.exists_sameResults`). The numbers may have gaps and be as large as they like.

Both programs are compared with a third one, which has the numbers of the second and no places: both
become that program when their labels are replaced.
-/

namespace Primer

variable {L L' L'' : Type}

open Declarations

namespace Program

/-- What does not depend on labels is the same for both programs. -/
structure Concurs (p : Program L) (q : Program L') : Prop where
  table : (ofProgram p).table = (ofProgram q).table
  scopes : p.nodes.map (ofProgram p).scopes.get? = q.nodes.map (ofProgram q).scopes.get?
  declarations : (ofProgram p).findings.map Located.value =
    (ofProgram q).findings.map Located.value
  references : (p.references (ofProgram p).table (ofProgram p).scopes).findings.map Located.value =
    (q.references (ofProgram q).table (ofProgram q).scopes).findings.map Located.value
  types : (p.types (ofProgram p).table (ofProgram p).scopes).findings.map Located.value =
    (q.types (ofProgram q).table (ofProgram q).scopes).findings.map Located.value
  script : p.toScript (ofProgram p).table (ofProgram p).scopes =
    q.toScript (ofProgram q).table (ofProgram q).scopes
  unit : ∀ name, p.emit (ofProgram p).table (ofProgram p).scopes name =
    q.emit (ofProgram q).table (ofProgram q).scopes name

/-- Findings at other places are the same findings. -/
private theorem values_map {ε : Type} (f : L → L') (findings : List (Located L ε)) :
    (findings.map (Located.map f)).map Located.value = findings.map Located.value := by
  rw [List.map_map]
  rfl

theorem Relabels.concurs {f : L → L'} {g : NodeId → NodeId} {p : Program L} {q : Program L'}
    (h : p.Relabels f g q) (hp : p.Distinct) : p.Concurs q := by
  -- Places and numbers are never computed with, so each result is the other one relabeled.
  have hdeclarations := relabels_ofProgram h
  have htracked : ∀ i ∈ p.items, i.Tracked g (ofProgram p).scopes (ofProgram q).scopes :=
    fun i hi => h.tracked hp hi
  exact {
    table := hdeclarations.table.symm
    scopes := by
      rw [h.nodes_eq, List.map_map]
      exact List.map_congr_left fun n hn => (hdeclarations.scopes n hn).symm
    declarations := by rw [hdeclarations.findings, values_map]
    references := by
      rw [hdeclarations.table, references_map _ h.items htracked]
      exact (values_map f _).symm
    types := by
      rw [hdeclarations.table, types_map _ h.items htracked]
      exact (values_map f _).symm
    script := by rw [hdeclarations.table, toScript_map _ h.items htracked]
    unit := fun name => by rw [hdeclarations.table, emit_map f _ h.items htracked] }

theorem Concurs.of_common {p : Program L} {q : Program L'} {r : Program L''} (hp : p.Concurs r)
    (hq : q.Concurs r) : p.Concurs q where
  table := hp.table.trans hq.table.symm
  scopes := hp.scopes.trans hq.scopes.symm
  declarations := hp.declarations.trans hq.declarations.symm
  references := hp.references.trans hq.references.symm
  types := hp.types.trans hq.types.symm
  script := hp.script.trans hq.script.symm
  unit name := (hp.unit name).trans (hq.unit name).symm

/-- Programs of the same shape with distinct nodes. -/
theorem concurs_of_shape {p : Program L} {q : Program L'} (hp : p.Distinct) (hq : q.Distinct)
    (h : p.shape = q.shape) : p.Concurs q := by
  obtain ⟨r, g, hpr, hqr, -⟩ := exists_relabels hp hq h
  exact (hpr.concurs hp).of_common (hqr.concurs hq)

/-! ## Results of the analysis -/

/-- What the analyses of two programs have in common if the programs differ in labels only. -/
structure SameResults (p : Program Location) (a : Analysis) (q : Program Location) (b : Analysis) :
    Prop where
  table : a.table = b.table
  /-- Nodes that correspond to each other have the same scopes, or none. -/
  scopes : p.nodes.map a.scopes.get? = q.nodes.map b.scopes.get?
  declarations : a.declarations.messages = b.declarations.messages
  references : a.references.messages = b.references.messages
  types : a.types.messages = b.types.messages
  accepted : a.isAccepted = b.isAccepted
  /-- If the programs are accepted, they have a script, unless a line is indented too far, -/
  written : a.isAccepted = true → (∃ text, a.scriptText p = .ok text) ∨
    a.scriptText p = .error (.fault .widthOutOfRange)
  /-- and machine code, unless a frame overflows, -/
  emitted : a.isAccepted = true → ∀ name, a.Assembles p name fun u => b.codeUnit q name = .ok u
  /-- which are the same for both. -/
  script : a.scriptText p = b.scriptText q
  unit : ∀ name, a.codeUnit p name = b.codeUnit q name

section Results

variable {ε : Type} {d e : Diagnostics ε}

/-- Messages depend on the findings, not on their places. -/
private theorem messages_eq_of_values [Explained ε]
    (h : d.entries.map Located.value = e.entries.map Located.value) : d.messages = e.messages := by
  have hmessages : ∀ x : Diagnostics ε,
      x.messages = (x.entries.map Located.value).map Explained.message := by
    intro x
    rw [List.map_map]
    rfl
  rw [hmessages, hmessages, h]

private theorem count_eq_of_values
    (h : d.entries.map Located.value = e.entries.map Located.value) : d.count = e.count := by
  have hlength := congrArg List.length h
  rwa [List.length_map, List.length_map] at hlength

end Results

theorem Concurs.errorCount_eq {p q : Program Location} (h : p.Concurs q) :
    p.results.errorCount = q.results.errorCount := by
  have hdeclarations : p.results.declarations.count = q.results.declarations.count :=
    count_eq_of_values h.declarations
  have hreferences : p.results.references.count = q.results.references.count :=
    count_eq_of_values h.references
  have htypes : p.results.types.count = q.results.types.count := count_eq_of_values h.types
  rw [Analysis.errorCount, hdeclarations, hreferences, htypes, Analysis.errorCount]

/-- Numbers of nodes are only names, and places reach diagnostics only: programs of the same shape,
each with distinct nodes, have the same results. -/
theorem exists_sameResults {p q : Program Location} (hp : p.Distinct) (hq : q.Distinct)
    (h : p.shape = q.shape) :
    ∃ a b, p.analyze = .ok a ∧ q.analyze = .ok b ∧ p.SameResults a q b := by
  have hsame := concurs_of_shape hp hq h
  have ha := analyze_eq_results hp
  have hcount := hsame.errorCount_eq
  have haccepted : p.results.isAccepted = q.results.isAccepted := by
    rw [Analysis.isAccepted, hcount, Analysis.isAccepted]
  -- A rejected program is answered with the number of its mistakes, which is the same for both.
  have hgenerated : ∀ {α : Type} (x : Except Fault α),
      p.results.ifAccepted x = q.results.ifAccepted x := by
    intro α x
    rw [Analysis.ifAccepted, haccepted, hcount, Analysis.ifAccepted]
  have hunit : ∀ name, p.results.codeUnit p name = q.results.codeUnit q name :=
    fun name => (hgenerated _).trans (congrArg _ (hsame.unit name))
  refine ⟨p.results, q.results, ha, analyze_eq_results hq, ?_⟩
  exact {
    table := hsame.table
    scopes := hsame.scopes
    declarations := messages_eq_of_values hsame.declarations
    references := messages_eq_of_values hsame.references
    types := messages_eq_of_values hsame.types
    accepted := haccepted
    written := by
      intro hzero
      obtain ⟨-, htext⟩ := scriptText_eq hp ha hzero
      rw [htext]
      split_ifs
      · exact .inl ⟨_, rfl⟩
      · exact .inr rfl
    emitted := fun hzero name => assembles hp ha hzero name fun u hu => (hunit name).symm.trans hu
    script := (hgenerated _).trans (congrArg (fun s => q.results.ifAccepted s.text) hsame.script)
    unit := hunit }

/-- The program `pingPong` with numbers in falling order, far apart and above the number of nodes,
and with every place in a file. -/
def pingPongRelabeled : Program Location :=
  let place (_ : Location) : Location := ⟨⟨"ping.txt", []⟩, ⟨7, 1⟩, ⟨9, 4⟩⟩
  let number (n : NodeId) : NodeId := ⟨1000 - 50 * n.index⟩
  ⟨number pingPong.root, pingPong.items.map (Item.map place number), pingPong.nodeCount⟩

theorem exists_sameResults_pingPong :
    pingPong.Distinct ∧ pingPongRelabeled.Distinct ∧ pingPong.shape = pingPongRelabeled.shape ∧
      pingPong.nodes ≠ pingPongRelabeled.nodes ∧ ∃ a b text, pingPong.analyze = .ok a ∧
      pingPongRelabeled.analyze = .ok b ∧ pingPong.SameResults a pingPongRelabeled b ∧
      a.isAccepted = true ∧ b.scriptText pingPongRelabeled = .ok text := by
  have hp : pingPong.Distinct := Program.distinct_ofDraft _ (by decide)
  have hq : pingPongRelabeled.Distinct := by
    unfold Distinct
    decide +kernel
  have hshape : pingPong.shape = pingPongRelabeled.shape := rfl
  obtain ⟨a, b, ha, hb, hsame⟩ := exists_sameResults hp hq hshape
  obtain ⟨a', ha', haccepted, htext⟩ := exists_accepted (p := pingPong)
    (fun a => (a.scriptText pingPong).toOption.isSome) (by decide +kernel)
  obtain rfl : a = a' := Except.ok.inj (ha.symm.trans ha')
  rcases hsame.written haccepted with ⟨text, hwritten⟩ | hfault
  · exact ⟨hp, hq, hshape, by decide +kernel, a, b, text, ha, hb, hsame, haccepted,
      hsame.script.symm.trans hwritten⟩
  -- The script of the first program was written, so the fault is out of the question.
  · rw [hfault] at htext
    cases htext

end Program

end Primer
