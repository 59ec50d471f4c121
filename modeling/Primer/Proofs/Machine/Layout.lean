import Primer.Proofs.Machine.Locals
import Primer.Proofs.Machine.Slots
import Mathlib.Data.List.Perm.Subperm

/-!
# The layout of routines

What the labels and the slots of a routine look like. All of this holds for every unit that can be
assembled, also if the tree is not the one that was analyzed.

* `Analysis.labels_of_codeUnit`: the labels of a routine are numbered from zero without a gap and
  each is set once; jumps go to labels of the routine, and every label has a jump that goes to it;
  the jumps backwards are those that close a loop.
* `Analysis.slots_of_codeUnit`: behind the arguments the slots belong to variables, without overlaps
  and gaps, and whatever is loaded or stored has the kind of its type. If the tree was analyzed
  itself, there are as many slots as its declarations need.
-/

namespace Primer

open Machine

variable {L : Type}

/-! ## Labels -/

/-- The loops in an item. -/
def Item.loops : Item L NodeId → List (Expr L × Block L NodeId)
  | .function f => (f.body.map Block.loops).getD []
  | .main e => e.body.loops

/-- The code of a loop of the item stands in the body, from position `j` on, and its last
instruction but one, which closes the loop, at position `i`. -/
def Item.ClosesLoop (t : Table) (m : ScopeMap) (item : Item L NodeId) (body : Code) (i j : Nat) :
    Prop :=
  ∃ o, item.outline? t m = some o ∧ body.Spans (Code.OfLoop (o.context t) m item.loops) j i

theorem Item.loops_of_outline? {t : Table} {m : ScopeMap} {item : Item L NodeId} {o : Outline L}
    (ho : item.outline? t m = some o) : item.loops = o.body.loops := by
  cases item with
  | function f =>
    obtain ⟨body, hbody, hmap⟩ := Option.bind_eq_some_iff.mp ho
    obtain ⟨symbol, -, rfl⟩ := Option.map_eq_some_iff.mp hmap
    simp [Item.loops, hbody]
  | main e =>
    obtain ⟨s, -, rfl⟩ := Option.map_eq_some_iff.mp ho
    rfl

namespace Machine.Code

/-- Labels with all numbers up to a bound. -/
theorem Wired.perm_range {P : Code → Prop} {code : Code} {k : Nat} (h : Wired P 0 code k) :
    (labels code).Perm ((List.range k).map Label.mk) := by
  have hsub : labels code ⊆ (List.range k).map Label.mk := by
    intro l hl
    exact List.mem_map.mpr ⟨l.index, List.mem_range.mpr (h.numbered.labels.range l hl).2, rfl⟩
  -- No label is set twice, so none is left out if there are as many as numbers.
  have hlength : ((List.range k).map Label.mk).length ≤ (labels code).length := by
    have hcount := h.count
    simp only [List.length_map, List.length_range]
    omega
  exact (List.subperm_of_subset h.numbered.labels.nodup hsub).perm_of_length_le hlength

/-- A loop starts with a label and ends with the jump to it and another label. -/
theorem OfLoop.exists_eq {c : Context} {m : ScopeMap} {loops : List (Expr L × Block L NodeId)}
    {code : Code} (h : OfLoop c m loops code) :
    ∃ top done inner, code = [.label top] ++ inner ++ [.jump top, .label done] := by
  obtain ⟨condition, body, -, p, s, f, f', hloop⟩ := h
  cases hloop with
  | @loop _ _ _ _ _ _ inner =>
    refine ⟨f.label, (f.skipLabels 1).label, (condition.emit c s (f.skipLabels 2)).code ++
      [.jumpIfFalse (f.skipLabels 1).label] ++ inner, ?_⟩
    simp only [List.append_assoc]

/-- Where a loop stands, its closing jump goes back to the label in front of it. -/
theorem Spans.getElem? {c : Context} {m : ScopeMap} {loops : List (Expr L × Block L NodeId)}
    {code : Code} {i j : Nat} (h : code.Spans (OfLoop c m loops) j i) :
    ∃ l, code[i]? = some (.jump l) ∧ code[j]? = some (.label l) ∧ j ≤ i := by
  obtain ⟨before, piece, after, rfl, rfl, hlength, hpiece⟩ := h
  obtain ⟨top, done, inner, rfl⟩ := hpiece.exists_eq
  have hi : i = before.length + (inner.length + 1) := by
    simp at hlength
    omega
  refine ⟨top, ?_, ?_, ?_⟩
  · simp [hi]
  · simp
  · omega

end Machine.Code

/-- The labels and jumps of a routine are those of its block. -/
theorem Outline.Yields.wired {t : Table} {m : ScopeMap} {o : Outline L} {r : Routine} {code : Code}
    {f : Frame} (h : o.Yields t m r code f) :
    r.body.Wired (Code.OfLoop (o.context t) m o.body.loops) 0 f.nextLabel := by
  rw [h.body]
  exact h.emits.wired.append (o.wired_ending _)

/-- The labels of every routine: numbered from zero without a gap, each set once; jumps go to labels
that are set, every label has a jump that goes to it, and the jumps backwards are the unconditional
ones that close a loop. -/
theorem Analysis.labels_of_codeUnit {a : Analysis} {p : Program L} {name : String} {u : CodeUnit}
    (hu : a.codeUnit p name = .ok u) {r : Routine} (hr : r ∈ u.functions) :
    ∃ item ∈ p.items, item.emit? a.table a.scopes = .ok (some r) ∧
      (∃ k, (Code.labels r.body).Perm ((List.range k).map Label.mk)) ∧
      (∀ x ∈ r.body, ∀ l, x.target? = some l → .label l ∈ r.body) ∧
      (∀ l, .label l ∈ r.body → ∃ x ∈ r.body, x.target? = some l) ∧
      ∀ i j l, r.body.JumpsBack i j l ↔
        r.body[i]? = some (.jump l) ∧ r.body[j]? = some (.label l) ∧
          item.ClosesLoop a.table a.scopes r.body i j := by
  obtain ⟨item, hitem, hemit⟩ := Analysis.exists_emit? hu hr
  obtain ⟨o, code, f, ho, hyields⟩ := Item.exists_yields hemit
  have hwired := hyields.wired
  rw [← Item.loops_of_outline? ho] at hwired
  refine ⟨item, hitem, hemit, ⟨_, hwired.perm_range⟩, hwired.numbered.closed, ?_, ?_⟩
  · intro l hl
    exact hwired.targeted l (Code.mem_labels.mpr hl)
  · intro i j l
    constructor
    · intro hback
      have hspans := hwired.back i j l hback
      -- The label at position `j` is the one that the closing jump goes to.
      obtain ⟨l', hjump, hlabel, -⟩ := hspans.getElem?
      have hsame : l' = l := by simpa using hlabel.symm.trans hback.label
      exact ⟨hsame ▸ hjump, hback.label, o, ho, hspans⟩
    · rintro ⟨hjump, hlabel, o', -, hspans⟩
      obtain ⟨-, -, -, hle⟩ := hspans.getElem?
      exact ⟨⟨_, hjump, rfl⟩, hlabel, hle⟩

/-- `main { T n = start; while (n > zero) { n = n - one; } if (n == zero) { print(n); } else
{ print(zero); } }` -/
def Program.countdown (type : String) (number : Nat → Expr (Option Location)) : Program Location :=
  let n : Name (Option Location) := ⟨"n", none⟩
  let compare (op : BinOp) : Expr (Option Location) := .binary none op (.read none n) (number 0)
  let step : Expr (Option Location) := .binary none .sub (.read none n) (number 1)
  Program.ofDraft
    [.main ⟨none, none, .mk none
      [.declare none ⟨type, none⟩ n (some (number 3)),
        .loop none (compare .greater) (.mk none [.assign none n step]),
        .ifElse none (compare .equal) (.mk none [.print none false (some (.read none n))])
          (.mk none [.print none false (some (number 0))])]⟩]

def Program.countdownInt : Program Location :=
  .countdown "int" fun n => .int none n

def Program.countdownFloat : Program Location :=
  .countdown "float" fun n => .float none n.toUInt64

/-- The tree counts with integers, and the analysis is that of a tree that counts with floats. -/
theorem Analysis.labels_of_codeUnit_countdown :
    ∃ a u, Program.countdownFloat.analyze = .ok a ∧
      a.codeUnit Program.countdownInt "Unit" = .ok u ∧ u.functions.length = 1 ∧
      ∀ r ∈ u.functions, ∃ item ∈ Program.countdownInt.items,
        item.emit? a.table a.scopes = .ok (some r) ∧
        (∃ k, (Code.labels r.body).Perm ((List.range k).map Label.mk)) ∧
        (∀ x ∈ r.body, ∀ l, x.target? = some l → .label l ∈ r.body) ∧
        (∀ l, .label l ∈ r.body → ∃ x ∈ r.body, x.target? = some l) ∧
        ∀ i j l, r.body.JumpsBack i j l ↔
          r.body[i]? = some (.jump l) ∧ r.body[j]? = some (.label l) ∧
            item.ClosesLoop a.table a.scopes r.body i j := by
  -- The analysis is evaluated once; the unit is then the one that the theorem speaks about.
  obtain ⟨a, ha, -, hcheck⟩ := Program.exists_accepted (p := Program.countdownFloat)
    (fun a => (a.codeUnit Program.countdownInt "Unit").toOption.any (·.functions.length == 1))
    (by decide +kernel)
  cases hu : a.codeUnit Program.countdownInt "Unit" with
  | error refusal => simp [hu, Except.toOption] at hcheck
  | ok u =>
    have hlength : u.functions.length = 1 := by simpa [hu, Except.toOption] using hcheck
    exact ⟨a, u, ha, hu, hlength, fun r hr => Analysis.labels_of_codeUnit hu hr⟩

/-! ## Slots -/

/-- Only an accepted program is assembled. -/
theorem Analysis.isAccepted_of_codeUnit {a : Analysis} {p : Program L} {name : String}
    {u : CodeUnit} (hu : a.codeUnit p name = .ok u) : a.isAccepted = true := by
  by_contra hrejected
  simp [Analysis.codeUnit, Analysis.ifAccepted, hrejected] at hu

/-- The slots of every routine. Variables lie behind the arguments, one behind the other, and every
access is that of a whole variable or argument with the kind of its type, so accesses that overlap
are of one variable. In a tree that was analyzed itself every declaration has slots of its own, and
there are no others. -/
theorem Analysis.slots_of_codeUnit {a : Analysis} {p : Program Location} {name : String}
    {u : CodeUnit} (hu : a.codeUnit p name = .ok u) {r : Routine} (hr : r ∈ u.functions) :
    ∃ item ∈ p.items, item.emit? a.table a.scopes = .ok (some r) ∧
      (∃ o code f, item.outline? a.table a.scopes = some o ∧
        o.body.emit (o.context a.table) a.scopes o.frame = .ok (code, f) ∧
        r.body = code ++ o.ending ∧ r.slots = f.nextSlot ∧
        r.LaidOut a.table fun x => f.locals.lookup x) ∧
      (∀ i ∈ r.body, ∀ j ∈ r.body, ∀ kind kind' n n', i.local? = some (kind, n) →
        j.local? = some (kind', n') → n < n' + kind'.width → n' < n + kind.width →
        n = n' ∧ kind = kind') ∧
      (∀ e, item = .main e → r.signature.argumentSlots = 1) ∧
      (p.Distinct → p.analyze = .ok a →
        r.slots = r.signature.argumentSlots + slotsOf item.declaredTypes) := by
  obtain ⟨item, hitem, hemit⟩ := Analysis.exists_emit? hu hr
  obtain ⟨o, code, f, ho, hyields⟩ := Item.exists_yields hemit
  refine ⟨item, hitem, hemit, ⟨o, code, f, ho, hyields.emits.emit_eq, hyields.body, hyields.slots,
    hyields.laidOut⟩, ?_, ?_, ?_⟩
  -- The frame assigns disjoint ranges to different variables.
  · intro i hi j hj kind kind' n n' haccess haccess' hn hn'
    exact hyields.laidOut.eq_of_overlap hi hj haccess haccess' hn hn'
  -- The entry point takes the one array of the command line, which is one slot wide.
  · rintro e rfl
    obtain ⟨s, -, rfl⟩ := Option.map_eq_some_iff.mp ho
    rw [hyields.signature]
    rfl
  · intro hp ha
    exact Item.slots_of_isAccepted hp ha (Analysis.isAccepted_of_codeUnit hu) hitem ho hyields

/-- `float blend(float a, int b) { float mean = a; if (b > 0) { int twice = b; float half = a;
mean = half; } return mean; }`, `main { float x = blend(1.5, 2); print(x); }` -/
def Program.blend : Program Location :=
  let written (text : String) : Name (Option Location) := ⟨text, none⟩
  let read (text : String) : Expr (Option Location) := .read none (written text)
  let declare (type name : String) (value : Expr (Option Location)) : Draft Stmt :=
    .declare none (written type) (written name) (some value)
  Program.ofDraft
    [.function ⟨none, none, written "float", written "blend",
      [⟨written "float", written "a"⟩, ⟨written "int", written "b"⟩],
      some (.mk none
        [declare "float" "mean" (read "a"),
          .ifThen none (.binary none .greater (read "b") (.int none 0))
            (.mk none [declare "int" "twice" (read "b"), declare "float" "half" (read "a"),
              .assign none (written "mean") (read "half")]),
          .ret none none (some (read "mean"))])⟩,
      .main ⟨none, none, .mk none
        [declare "float" "x" (.call none (written "blend")
            [.float none 0x3ff8000000000000, .int none 2]),
          .print none false (some (read "x"))]⟩]

/-- The arguments of `blend` take three slots and its variables five. -/
theorem Analysis.slots_of_codeUnit_blend :
    Program.blend.Distinct ∧ ∃ a u, Program.blend.analyze = .ok a ∧
      a.codeUnit Program.blend "Unit" = .ok u ∧ u.functions.map (·.slots) = [8, 3] ∧
      ∀ r ∈ u.functions, ∃ item ∈ Program.blend.items,
        item.emit? a.table a.scopes = .ok (some r) ∧
        (∃ f : Frame, r.slots = f.nextSlot ∧ r.LaidOut a.table fun x => f.locals.lookup x) ∧
        r.slots = r.signature.argumentSlots + slotsOf item.declaredTypes := by
  have hdistinct : Program.blend.Distinct := Program.distinct_ofDraft _ (by decide)
  -- A float is two slots wide, as an argument and as a local alike.
  obtain ⟨a, ha, -, hcheck⟩ := Program.exists_accepted (p := Program.blend)
    (fun a => (a.codeUnit Program.blend "Unit").toOption.any
      (·.functions.map (·.slots) == [8, 3])) (by decide +kernel)
  cases hu : a.codeUnit Program.blend "Unit" with
  | error refusal => simp [hu, Except.toOption] at hcheck
  | ok u =>
    have hslots : u.functions.map (·.slots) = [8, 3] := by
      simpa [hu, Except.toOption] using hcheck
    refine ⟨hdistinct, a, u, ha, hu, hslots, fun r hr => ?_⟩
    obtain ⟨item, hitem, hemit, ⟨_, _, f, _, _, _, hnext, hlaid⟩, -, -, hown⟩ :=
      Analysis.slots_of_codeUnit hu hr
    exact ⟨item, hitem, hemit, ⟨f, hnext, hlaid⟩, hown hdistinct ha⟩

end Primer
