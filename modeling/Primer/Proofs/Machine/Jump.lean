import Primer.Proofs.Machine.Label

/-!
# Jumps of emitted code

The labels of a piece of code are all those that were handed out while it was emitted, each of them
is the target of a jump, and a jump goes forwards unless it closes a loop. `Code.Wired` says this of
a piece of code, together with `Code.Numbered`; it is kept when pieces are put in sequence
(`Wired.append`) and by each of the control constructs, so it holds of every statement
(`Stmt.Emits.wired`).
-/

namespace Primer

open Machine

variable {L I : Type}

/-! ## Loops of a tree -/

mutual

/-- The conditions and bodies of the loops in a statement, at any depth. -/
def Stmt.loops : Stmt L I → List (Expr L × Block L I)
  | .declare .. | .assign .. | .assignAt .. | .ret .. | .print .. | .call .. => []
  | .ifThen _ _ yes => yes.loops
  | .ifElse _ _ yes no => yes.loops ++ no.loops
  | .loop _ condition body => (condition, body) :: body.loops

/-- The loops in a block. -/
def Block.loops : Block L I → List (Expr L × Block L I)
  | .mk _ statements => Block.loopsAll statements

/-- The loops in the statements of a block. -/
def Block.loopsAll : List (Stmt L I) → List (Expr L × Block L I)
  | [] => []
  | st :: sts => st.loops ++ Block.loopsAll sts

end

namespace Machine

/-- The code is what one of the loops yields in some scope and frame. -/
def Code.OfLoop (c : Context) (m : ScopeMap) (loops : List (Expr L × Block L NodeId))
    (code : Code) : Prop :=
  ∃ condition body, (condition, body) ∈ loops ∧
    ∃ p s f f', (Stmt.loop p condition body).Emits c m s f code f'

theorem Code.OfLoop.mono {c : Context} {m : ScopeMap}
    {loops loops' : List (Expr L × Block L NodeId)} (hsub : loops ⊆ loops') {code : Code}
    (h : Code.OfLoop c m loops code) : Code.OfLoop c m loops' code :=
  have ⟨condition, body, hmem, hcode⟩ := h
  ⟨condition, body, hsub hmem, hcode⟩

namespace Code

/-! ## Jumps backwards -/

/-- The instruction at position `i` can jump to the label at position `j`, which does not stand
behind it. -/
structure JumpsBack (code : Code) (i j : Nat) (l : Label) : Prop where
  jump : ∃ x, code[i]? = some x ∧ x.target? = some l
  label : code[j]? = some (.label l)
  le : j ≤ i

/-- A piece with the given property stands in the code, from position `j` on, and its last
instruction but one at position `i`. -/
def Spans (P : Code → Prop) (code : Code) (j i : Nat) : Prop :=
  ∃ before piece after, code = before ++ piece ++ after ∧ before.length = j ∧
    j + piece.length = i + 2 ∧ P piece

variable {P Q : Code → Prop} {a b code : Code} {lo mid hi : Nat}

theorem Spans.mono (hPQ : ∀ piece, P piece → Q piece) {j i : Nat} (h : Spans P code j i) :
    Spans Q code j i :=
  have ⟨before, piece, after, hcode, hj, hi, hpiece⟩ := h
  ⟨before, piece, after, hcode, hj, hi, hPQ piece hpiece⟩

theorem Spans.append_left {j i : Nat} (h : Spans P a j i) (b : Code) : Spans P (a ++ b) j i := by
  obtain ⟨before, piece, after, rfl, hj, hi, hpiece⟩ := h
  refine ⟨before, piece, after ++ b, ?_, hj, hi, hpiece⟩
  simp only [List.append_assoc]

theorem Spans.append_right {j i : Nat} (h : Spans P b j i) (a : Code) :
    Spans P (a ++ b) (a.length + j) (a.length + i) := by
  obtain ⟨before, piece, after, rfl, hj, hi, hpiece⟩ := h
  refine ⟨a ++ before, piece, after, ?_, ?_, ?_, hpiece⟩
  · simp only [List.append_assoc]
  · rw [List.length_append, hj]
  · omega

/-- A jump backwards in two pieces of code stands in one of them, together with its label, or goes
from the second piece to the first. -/
theorem JumpsBack.of_append {i j : Nat} {l : Label} (h : JumpsBack (a ++ b) i j l) :
    JumpsBack a i j l ∨
      (∃ i' j', JumpsBack b i' j' l ∧ i = a.length + i' ∧ j = a.length + j') ∨
      (j < a.length ∧ l ∈ labels a ∧ a.length ≤ i ∧
        ∃ x, b[i - a.length]? = some x ∧ x.target? = some l) := by
  obtain ⟨⟨x, hx, htarget⟩, hlabel, hle⟩ := h
  by_cases hi : i < a.length
  · -- The label stands before the jump, so it is in the first piece too.
    rw [List.getElem?_append_left hi] at hx
    rw [List.getElem?_append_left (Nat.lt_of_le_of_lt hle hi)] at hlabel
    exact .inl ⟨⟨x, hx, htarget⟩, hlabel, hle⟩
  · have hi := Nat.le_of_not_lt hi
    rw [List.getElem?_append_right hi] at hx
    by_cases hj : j < a.length
    · rw [List.getElem?_append_left hj] at hlabel
      exact .inr (.inr ⟨hj, mem_labels.mpr (List.mem_of_getElem? hlabel), hi, x, hx, htarget⟩)
    · have hj := Nat.le_of_not_lt hj
      rw [List.getElem?_append_right hj] at hlabel
      exact .inr (.inl ⟨i - a.length, j - a.length, ⟨⟨x, hx, htarget⟩, hlabel, by omega⟩,
        by omega, by omega⟩)

/-! ## Pieces that do not jump into each other -/

/-- No jump of the second piece goes to a label of the first. -/
def Avoids (a b : Code) : Prop :=
  ∀ l ∈ labels a, ∀ x ∈ b, x.target? ≠ some l

theorem Numbered.target_bounds (h : Numbered lo code hi) {x : Instruction} (hx : x ∈ code)
    {l : Label} (hl : x.target? = some l) : lo ≤ l.index ∧ l.index < hi :=
  h.labels.range l (mem_labels.mpr (h.closed x hx l hl))

theorem Numbered.avoids {lo' hi' : Nat} (ha : Numbered lo a mid) (hb : Numbered lo' b hi')
    (hle : mid ≤ lo') : Avoids a b := by
  intro l hl x hx htarget
  have h₁ := (ha.labels.range l hl).2
  have h₂ := (hb.target_bounds hx htarget).1
  omega

namespace Avoids

variable {a' b' : Code}

theorem append_left (h : Avoids a b) (h' : Avoids a' b) : Avoids (a ++ a') b := by
  intro l hl
  rcases List.mem_append.mp (labels_append a a' ▸ hl) with hl | hl
  · exact h l hl
  · exact h' l hl

theorem append_right (h : Avoids a b) (h' : Avoids a b') : Avoids a (b ++ b') := by
  intro l hl x hx
  rcases List.mem_append.mp hx with hx | hx
  · exact h l hl x hx
  · exact h' l hl x hx

/-- Code that sets no label. -/
theorem of_labels (h : labels a = []) : Avoids a b := by
  intro l hl
  rw [h] at hl
  cases hl

/-- Code that does not jump. -/
theorem of_targets (h : ∀ x ∈ b, x.target? = none) : Avoids a b := by
  intro l _ x hx htarget
  rw [h x hx] at htarget
  cases htarget

/-- A jump to a label that was handed out before or after all labels of the code. -/
theorem of_outside (ha : Numbered lo a hi) {x : Instruction} {n : Nat}
    (hx : x.target? = some ⟨n⟩) (hn : n < lo ∨ hi ≤ n) : Avoids a [x] := by
  intro l hl y hy htarget
  obtain rfl := List.mem_singleton.mp hy
  obtain rfl := Option.some.inj (hx.symm.trans htarget)
  have := ha.labels.range _ hl
  simp only at this
  omega

/-- A label that was handed out before or after all labels that the code jumps to. -/
theorem label_of_outside (hb : Numbered lo b hi) {n : Nat} (hn : n < lo ∨ hi ≤ n) :
    Avoids [.label ⟨n⟩] b := by
  intro l hl x hx htarget
  obtain rfl : l = ⟨n⟩ := by simpa [labels, Instruction.label?] using hl
  have := hb.target_bounds hx htarget
  simp only at this
  omega

end Avoids

/-! ## Where jumps backwards stand -/

/-- Jumps backwards stand at the end of pieces with the given property. -/
def Back (P : Code → Prop) (code : Code) : Prop :=
  ∀ i j l, JumpsBack code i j l → Spans P code j i

theorem Back.mono (hPQ : ∀ piece, P piece → Q piece) (h : Back P code) : Back Q code :=
  fun i j l hback => (h i j l hback).mono hPQ

theorem Back.append (ha : Back P a) (hb : Back P b) (hab : Avoids a b) : Back P (a ++ b) := by
  intro i j l h
  rcases h.of_append with h₁ | ⟨i', j', h₂, rfl, rfl⟩ | ⟨-, hl, -, x, hx, htarget⟩
  · exact (ha i j l h₁).append_left b
  · exact (hb i' j' l h₂).append_right a
  · exact absurd htarget (hab l hl x (List.mem_of_getElem? hx))

/-- Code without jumps. -/
theorem Back.plain (h : ∀ x ∈ code, x.target? = none) : Back P code := by
  intro i j l hback
  obtain ⟨x, hx, htarget⟩ := hback.jump
  rw [h x (List.mem_of_getElem? hx)] at htarget
  cases htarget

/-- Code without labels. -/
theorem Back.of_labels (h : labels code = []) : Back P code := by
  intro i j l hback
  have hl : l ∈ labels code := mem_labels.mpr (List.mem_of_getElem? hback.label)
  rw [h] at hl
  cases hl

/-- A single instruction. -/
theorem Back.one (x : Instruction) : Back P [x] := by
  intro i j l hback
  obtain ⟨y, hy, htarget⟩ := hback.jump
  have hj := hback.label
  -- One instruction would have to be both the jump and the label.
  have hy : y = x := by simpa using List.mem_of_getElem? hy
  have hlabel : .label l = x := by simpa using List.mem_of_getElem? hj
  rw [hy, ← hlabel] at htarget
  cases htarget

/-- The jump that closes a loop is the only one to the label in front of it. -/
theorem Back.closing {top done : Label} (hcode : Back P code) (htop : top ∉ labels code)
    (hjumps : ∀ x ∈ code, x.target? ≠ some top)
    (hloop : P ([.label top] ++ (code ++ [.jump top, .label done]))) :
    Back P ([.label top] ++ (code ++ [.jump top, .label done])) := by
  have hpair : Back P [.jump top, .label done] := Back.append (.one _) (.one _) (.of_labels rfl)
  have havoids : Avoids code [.jump top, .label done] := by
    intro l hl x hx htarget
    have hx : x = .jump top ∨ x = .label done := by simpa using hx
    rcases hx with rfl | rfl
    · obtain rfl := Option.some.inj htarget
      exact htop hl
    · cases htarget
  intro i j l h
  rcases h.of_append with h₁ | ⟨i', j', h₂, rfl, rfl⟩ | ⟨hj, hl, hi, x, hx, htarget⟩
  · exact (Back.one _ i j l h₁).append_left _
  · exact ((hcode.append hpair havoids) i' j' l h₂).append_right _
  · -- The label is the one in front, so the jump is none of the code in between.
    obtain rfl : l = top := by simpa [labels, Instruction.label?] using hl
    by_cases hin : i - 1 < code.length
    · rw [List.length_singleton, List.getElem?_append_left hin] at hx
      exact absurd htarget (hjumps x (List.mem_of_getElem? hx))
    · rw [List.length_singleton, List.getElem?_append_right (Nat.le_of_not_lt hin)] at hx
      obtain ⟨hlt, hx⟩ := List.getElem?_eq_some_iff.mp hx
      -- Of the two instructions behind it the second is a label.
      have hfirst : i - 1 - code.length = 0 := by
        rcases Nat.eq_zero_or_pos (i - 1 - code.length) with h₀ | h₁
        · exact h₀
        · have hone : i - 1 - code.length = 1 := by simp at hlt; omega
          simp only [hone] at hx
          rw [← hx] at htarget
          cases htarget
      refine ⟨[], _, [], (List.append_nil _).symm, ?_, ?_, hloop⟩
      · simp at hj
        simp [hj]
      · simp at hj hi ⊢
        omega

/-! ## Wired code -/

/-- Every label of the code is the target of a jump. -/
def Targeted (code : Code) : Prop :=
  ∀ l ∈ labels code, ∃ x ∈ code, x.target? = some l

/-- Code that is put around other code: for every label the part that it comes from or a jump to
it. -/
theorem Targeted.of_parts (h : ∀ l, .label l ∈ code →
    (∃ part, Targeted part ∧ .label l ∈ part ∧ part ⊆ code) ∨ ∃ x ∈ code, x.target? = some l) :
    Targeted code := by
  intro l hl
  rcases h l (mem_labels.mp hl) with ⟨part, hpart, hmem, hsub⟩ | hjump
  · obtain ⟨x, hx, htarget⟩ := hpart l (mem_labels.mpr hmem)
    exact ⟨x, hsub hx, htarget⟩
  · exact hjump

/-- The labels from `lo` on, and before `hi`, are those of the code, and all of them are; each is
the target of a jump, and jumps backwards stand at the end of pieces with the given property. -/
structure Wired (P : Code → Prop) (lo : Nat) (code : Code) (hi : Nat) : Prop where
  numbered : Numbered lo code hi
  count : lo + (labels code).length = hi
  targeted : Targeted code
  back : Back P code

namespace Wired

theorem mono (hPQ : ∀ piece, P piece → Q piece) (h : Wired P lo code hi) : Wired Q lo code hi :=
  ⟨h.numbered, h.count, h.targeted, h.back.mono hPQ⟩

theorem append (ha : Wired P lo a mid) (hb : Wired P mid b hi) : Wired P lo (a ++ b) hi := by
  refine ⟨ha.numbered.append hb.numbered, ?_, ?_, ?_⟩
  · rw [labels_append, List.length_append, ← Nat.add_assoc, ha.count, hb.count]
  · apply Targeted.of_parts
    intro l hl
    rcases List.mem_append.mp hl with hl | hl
    · exact .inl ⟨a, ha.targeted, hl, List.subset_append_left a b⟩
    · exact .inl ⟨b, hb.targeted, hl, List.subset_append_right a b⟩
  · exact ha.back.append hb.back (ha.numbered.avoids hb.numbered (Nat.le_refl mid))

/-- Code without labels and jumps. -/
theorem plain (h : ∀ x ∈ a, x.label? = none ∧ x.target? = none) : Wired P lo a lo := by
  have hlabels : labels a = [] := List.filterMap_eq_nil_iff.mpr fun x hx => (h x hx).1
  refine ⟨.plain h, ?_, ?_, .plain fun x hx => (h x hx).2⟩
  · rw [hlabels]
    rfl
  · intro l hl
    rw [hlabels] at hl
    cases hl

theorem nil : Wired P lo [] lo :=
  plain fun _ hx => absurd hx List.not_mem_nil

/-- A single instruction without label and jump. -/
theorem one {x : Instruction} (hlabel : x.label? = none) (htarget : x.target? = none) :
    Wired P lo [x] lo :=
  plain fun _ hy => List.mem_singleton.mp hy ▸ ⟨hlabel, htarget⟩

/-- An instruction that is left out if there is nothing to build it from. -/
theorem optional {α : Type} {build : α → Instruction} (hlabel : ∀ x, (build x).label? = none)
    (htarget : ∀ x, (build x).target? = none) (x : Option α) :
    Wired P lo (x.toList.map build) lo := by
  cases x with
  | none => exact nil
  | some x => exact one (hlabel x) (htarget x)

/-- The two labels of a comparison stand behind both jumps. -/
theorem compare (kind : Kind) (condition : Condition) (n : Nat) :
    Wired P n (Machine.compare kind condition ⟨n⟩ ⟨n + 1⟩) (n + 2) := by
  refine ⟨numbered_compare kind condition n, rfl, ?_, ?_⟩
  · intro l hl
    have hl : l = ⟨n⟩ ∨ l = ⟨n + 1⟩ := by
      simpa [Machine.compare] using mem_labels.mp hl
    rcases hl with rfl | rfl
    · exact ⟨.ifCompare kind condition ⟨n⟩, by simp [Machine.compare], rfl⟩
    · exact ⟨.jump ⟨n + 1⟩, by simp [Machine.compare], rfl⟩
  · have hfront : Back P [.ifCompare kind condition ⟨n⟩, .push (.int 0), .jump ⟨n + 1⟩] :=
      .of_labels rfl
    have hrear : ∀ x ∈ [.label ⟨n⟩, .push (.int 1), .label ⟨n + 1⟩],
        Instruction.target? x = none := by
      simp [Instruction.target?]
    exact hfront.append (.plain hrear) (.of_targets hrear)

/-- Code that is skipped if a condition fails. -/
theorem skip {n : Nat} {condition : Code} (hcondition : Wired P (n + 1) condition mid)
    (hcode : Wired P mid code hi) :
    Wired P n (condition ++ [.jumpIfFalse ⟨n⟩] ++ code ++ [.label ⟨n⟩]) hi := by
  refine ⟨numbered_skip hcondition.numbered hcode.numbered, ?_, ?_, ?_⟩
  · have h₁ := hcondition.count
    have h₂ := hcode.count
    simp [labels, List.filterMap_cons, Instruction.label?] at h₁ h₂ ⊢
    omega
  · apply Targeted.of_parts
    intro l hl
    simp only [List.mem_append, List.mem_singleton] at hl
    rcases hl with ((hl | hl) | hl) | hl
    · exact .inl ⟨condition, hcondition.targeted, hl, fun x hx => by simp [hx]⟩
    · cases hl
    · exact .inl ⟨code, hcode.targeted, hl, fun x hx => by simp [hx]⟩
    · exact .inr ⟨.jumpIfFalse l, by simp_all, rfl⟩
  · -- The only new jump goes to the label at the very end.
    have hjump : Avoids condition [.jumpIfFalse ⟨n⟩] :=
      .of_outside hcondition.numbered rfl (.inl (Nat.lt_succ_self n))
    have hafter : Avoids (condition ++ [.jumpIfFalse ⟨n⟩]) code :=
      (hcondition.numbered.avoids hcode.numbered (Nat.le_refl mid)).append_left (.of_labels rfl)
    exact ((hcondition.back.append (.one _) hjump).append hcode.back hafter).append (.one _)
      (.of_targets (by simp [Instruction.target?]))

/-- Two pieces of code, of which a condition chooses one. -/
theorem choice {n p q : Nat} {condition yes no : Code} (hcondition : Wired P (n + 1) condition p)
    (hyes : Wired P p yes q) (hno : Wired P (q + 1) no hi) :
    Wired P n (condition ++ [.jumpIfFalse ⟨n⟩] ++ yes ++ [.jump ⟨q⟩, .label ⟨n⟩] ++ no ++
      [.label ⟨q⟩]) hi := by
  have hnp := hcondition.numbered.labels.le
  have hpq := hyes.numbered.labels.le
  refine ⟨numbered_choice hcondition.numbered hyes.numbered hno.numbered, ?_, ?_, ?_⟩
  -- No number is left out: `n` and `q` stand between those of the pieces.
  · have h₁ := hcondition.count
    have h₂ := hyes.count
    have h₃ := hno.count
    simp [labels, List.filterMap_cons, Instruction.label?] at h₁ h₂ h₃ ⊢
    omega
  · apply Targeted.of_parts
    intro l hl
    simp only [List.mem_append, List.mem_cons, List.not_mem_nil, or_false] at hl
    rcases hl with ((((hl | hl) | hl) | (hl | hl)) | hl) | hl
    -- A label of a piece is the target of a jump in that piece; the two new ones have new jumps.
    · exact .inl ⟨condition, hcondition.targeted, hl, fun x hx => by simp [hx]⟩
    · cases hl
    · exact .inl ⟨yes, hyes.targeted, hl, fun x hx => by simp [hx]⟩
    · cases hl
    · exact .inr ⟨.jumpIfFalse l, by simp_all, rfl⟩
    · exact .inl ⟨no, hno.targeted, hl, fun x hx => by simp [hx]⟩
    · exact .inr ⟨.jump l, by simp_all, rfl⟩
  · -- Each of the two new jumps goes to the label behind the piece that follows it.
    have hjump : Avoids condition [.jumpIfFalse ⟨n⟩] :=
      .of_outside hcondition.numbered rfl (.inl (Nat.lt_succ_self n))
    have htoYes : Avoids (condition ++ [.jumpIfFalse ⟨n⟩]) yes :=
      (hcondition.numbered.avoids hyes.numbered (Nat.le_refl p)).append_left (.of_labels rfl)
    have hdone : Avoids (condition ++ [.jumpIfFalse ⟨n⟩] ++ yes) [.jump ⟨q⟩] :=
      ((Avoids.of_outside hcondition.numbered rfl (.inr hpq)).append_left
        (.of_labels rfl)).append_left (.of_outside hyes.numbered rfl (.inr (Nat.le_refl q)))
    have hbetween : Avoids (condition ++ [.jumpIfFalse ⟨n⟩] ++ yes) [.jump ⟨q⟩, .label ⟨n⟩] :=
      hdone.append_right (.of_targets (by simp [Instruction.target?]))
    have htoNo : Avoids (condition ++ [.jumpIfFalse ⟨n⟩] ++ yes ++ [.jump ⟨q⟩, .label ⟨n⟩]) no := by
      have hlabel : Avoids [.jump ⟨q⟩, .label ⟨n⟩] no :=
        (Avoids.of_labels (a := [.jump ⟨q⟩]) rfl).append_left
          (.label_of_outside hno.numbered (.inl (by omega)))
      refine (Avoids.append_left ?_ ?_).append_left hlabel
      · exact (hcondition.numbered.avoids hno.numbered (by omega)).append_left (.of_labels rfl)
      · exact hyes.numbered.avoids hno.numbered (Nat.le_succ q)
    have hpair : Back P [.jump ⟨q⟩, .label ⟨n⟩] :=
      Back.append (.one _) (.one _) (.of_labels rfl)
    exact ((((hcondition.back.append (.one _) hjump).append hyes.back htoYes).append hpair
      hbetween).append hno.back htoNo).append (.one _) (.of_targets (by simp [Instruction.target?]))

/-- Code that is repeated as long as a condition holds. The last jump goes back to the front. -/
theorem loop {n : Nat} {condition : Code} (hcondition : Wired P (n + 2) condition mid)
    (hcode : Wired P mid code hi)
    (hloop : P ([.label ⟨n⟩] ++ condition ++ [.jumpIfFalse ⟨n + 1⟩] ++ code ++
      [.jump ⟨n⟩, .label ⟨n + 1⟩])) :
    Wired P n ([.label ⟨n⟩] ++ condition ++ [.jumpIfFalse ⟨n + 1⟩] ++ code ++
      [.jump ⟨n⟩, .label ⟨n + 1⟩]) hi := by
  have hmid := hcondition.numbered.labels.le
  refine ⟨numbered_loop hcondition.numbered hcode.numbered, ?_, ?_, ?_⟩
  -- No number is left out: the loop takes `n` and `n + 1`, and the pieces the rest.
  · have h₁ := hcondition.count
    have h₂ := hcode.count
    simp [labels, List.filterMap_cons, Instruction.label?] at h₁ h₂ ⊢
    omega
  · apply Targeted.of_parts
    intro l hl
    simp only [List.mem_append, List.mem_cons, List.not_mem_nil, or_false] at hl
    rcases hl with (((hl | hl) | hl) | hl) | (hl | hl)
    -- The label on top is the target of the closing jump, the one at the end of the exit.
    · exact .inr ⟨.jump l, by simp_all, rfl⟩
    · exact .inl ⟨condition, hcondition.targeted, hl, fun x hx => by simp [hx]⟩
    · cases hl
    · exact .inl ⟨code, hcode.targeted, hl, fun x hx => by simp [hx]⟩
    · cases hl
    · exact .inr ⟨.jumpIfFalse l, by simp_all, rfl⟩
  -- Without its first label and its last jump the loop has no backward jump of its own.
  · have hjump : Avoids condition [.jumpIfFalse ⟨n + 1⟩] :=
      .of_outside hcondition.numbered rfl (.inl (Nat.lt_succ_self _))
    have hafter : Avoids (condition ++ [.jumpIfFalse ⟨n + 1⟩]) code :=
      (hcondition.numbered.avoids hcode.numbered (Nat.le_refl mid)).append_left (.of_labels rfl)
    have hinner : Back P (condition ++ [.jumpIfFalse ⟨n + 1⟩] ++ code) :=
      (hcondition.back.append (.one _) hjump).append hcode.back hafter
    -- The label on top is below the range of every label inside, so nothing inside repeats it.
    have htop : ⟨n⟩ ∉ labels (condition ++ [.jumpIfFalse ⟨n + 1⟩] ++ code) := by
      intro hl
      have hboth : ⟨n⟩ ∈ labels (condition ++ code) := by
        simpa [labels, List.filterMap_cons, Instruction.label?] using hl
      have hrange := (hcondition.append hcode).numbered.labels.range _ hboth
      simp only at hrange
      omega
    -- No jump inside goes to it either: a loop is left at the end, never continued early.
    have hjumps : ∀ x ∈ condition ++ [.jumpIfFalse ⟨n + 1⟩] ++ code, x.target? ≠ some ⟨n⟩ := by
      intro x hx htarget
      simp only [List.mem_append, List.mem_singleton] at hx
      rcases hx with (hx | rfl) | hx
      · have hrange := hcondition.numbered.target_bounds hx htarget
        simp only at hrange
        omega
      · simp [Instruction.target?] at htarget
      · have hrange := hcode.numbered.target_bounds hx htarget
        simp only at hrange
        omega
    simpa using hinner.closing htop hjumps (by simpa using hloop)

end Wired

end Code

open Code

variable {c : Context} {m : ScopeMap} {s : ScopeId} {P : Code → Prop}

theorem Context.wired_load (name : String) (f : Frame) :
    Wired P f.nextLabel (c.load s name f).code (c.load s name f).frame.nextLabel := by
  obtain ⟨hnext, hplain⟩ := labelFree_load (c := c) (s := s) name f
  rw [hnext]
  exact .plain hplain

theorem Context.wired_store (name : String) (f : Frame) :
    Wired P f.nextLabel (c.store s name f).1 (c.store s name f).2.nextLabel := by
  obtain ⟨hnext, hplain⟩ := labelFree_store (c := c) (s := s) name f
  rw [hnext]
  exact .plain hplain

/-- The labels of the code of an expression are those of its comparisons. -/
theorem Composed.wired {f g : Frame} {code : Code} (h : Composed c s f code g) :
    Wired P f.nextLabel code g.nextLabel := by
  induction h with
  | nil f => exact .nil
  | plain f hplain =>
    have hnone := Instruction.label?_of_isPlain hplain
    exact .one hnone.1 hnone.2
  | load f name => exact Context.wired_load name f
  | compare f kind condition => exact .compare kind condition f.nextLabel
  | append _ _ iha ihb => exact iha.append ihb

end Machine

/-! ## Expressions and statements -/

section Emission

open Machine.Code

variable {c : Context} {m : ScopeMap} {s : ScopeId} {P : Code → Prop}

theorem Expr.wired_emit (e : Expr L) (f : Frame) :
    Wired P f.nextLabel (e.emit c s f).code (e.emit c s f).frame.nextLabel :=
  (e.composed_emit f).wired

/-- The labels of the code of an expression. -/
theorem Expr.numbered_emit (e : Expr L) (f : Frame) :
    Numbered f.nextLabel (e.emit c s f).code (e.emit c s f).frame.nextLabel :=
  (e.wired_emit (P := fun _ => False) f).numbered

mutual

/-- The labels and jumps of the code of a statement. -/
theorem Stmt.Emits.wired {s : ScopeId} {f f' : Frame} {code : Code} :
    {st : Stmt L NodeId} → st.Emits c m s f code f' →
      Wired (OfLoop c m st.loops) f.nextLabel code f'.nextLabel
  | _, .undeclared _ => .nil
  | _, .declare _ => by
    rw [Frame.nextLabel_slot]
    exact .nil
  | _, @Stmt.Emits.declareWith _ _ _ _ _ _ _ value _ x _ => by
    refine .append ?_ (.one rfl rfl)
    -- The slot of the variable is given before its value is emitted, and needs no label.
    rw [← Frame.nextLabel_slot f x (c.table.typeOf x)]
    exact value.wired_emit _
  | _, .assign => (Expr.wired_emit _ f).append (Context.wired_store _ _)
  | _, .assignAt h₁ h₂ => by
    subst h₁ h₂
    exact (((Context.wired_load _ f).append (Expr.wired_emit _ _)).append
      (Expr.wired_emit _ _)).append (.optional (fun _ => rfl) (fun _ => rfl) _)
  | _, .ifThen h₁ hyes => by
    subst h₁
    exact .skip (Expr.wired_emit _ (f.skipLabels 1)) hyes.wired
  | _, .ifElse h₁ hyes hno => by
    subst h₁
    exact .choice (Expr.wired_emit _ (f.skipLabels 1))
      (hyes.wired.mono fun _ => OfLoop.mono (List.subset_append_left _ _))
      (hno.wired.mono fun _ => OfLoop.mono (List.subset_append_right _ _))
  | .loop p _ _, .loop h₁ hbody => by
    subst h₁
    -- The code as a whole is that of a loop, so the jump back may stand at its end.
    exact .loop (Expr.wired_emit _ (f.skipLabels 2))
      (hbody.wired.mono fun _ => OfLoop.mono (List.subset_cons_self _ _))
      ⟨_, _, List.mem_cons_self, p, _, _, _, .loop rfl hbody⟩
  | _, .ret => .one rfl rfl
  | _, .newline => .one rfl rfl
  | _, .retValue => (Expr.wired_emit _ f).append (.one rfl rfl)
  | _, .print => (Expr.wired_emit _ f).append (.one rfl rfl)
  | _, @Stmt.Emits.call _ _ _ _ _ callee arguments _ type transfer hcall => by
    have htransfer := (composed_callOf (c := c) (s := s) c.table s callee.text arguments.length
      (Expr.emitAll c s arguments f).2)
    rw [hcall] at htransfer
    refine ((Expr.composed_emitAll arguments f).append htransfer).wired.append ?_
    split_ifs
    · exact .nil
    · exact .one rfl rfl

theorem Block.Emits.wired {f f' : Frame} {code : Code} :
    {b : Block L NodeId} → b.Emits c m f code f' →
      Wired (OfLoop c m b.loops) f.nextLabel code f'.nextLabel
  | _, .mk _ hsts => hsts.wired

theorem Block.EmitsAll.wired {s : ScopeId} {f f' : Frame} {code : Code} :
    {sts : List (Stmt L NodeId)} → Block.EmitsAll c m s sts f code f' →
      Wired (OfLoop c m (Block.loopsAll sts)) f.nextLabel code f'.nextLabel
  | _, .nil => .nil
  | _, .cons hst hsts =>
    (hst.wired.mono fun _ => OfLoop.mono (List.subset_append_left _ _)).append
      (hsts.wired.mono fun _ => OfLoop.mono (List.subset_append_right _ _))

end

/-- The labels of the code of a statement. -/
theorem Stmt.Emits.numbered {f f' : Frame} {code : Code} {st : Stmt L NodeId}
    (h : st.Emits c m s f code f') : Numbered f.nextLabel code f'.nextLabel :=
  h.wired.numbered

theorem Block.Emits.numbered {f f' : Frame} {code : Code} {b : Block L NodeId}
    (h : b.Emits c m f code f') : Numbered f.nextLabel code f'.nextLabel :=
  h.wired.numbered

end Emission

end Primer
