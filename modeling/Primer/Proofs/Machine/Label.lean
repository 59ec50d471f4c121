import Primer.Proofs.Machine.Frame

/-!
# Labels of emitted code

The labels that code sets are those that were handed out while it was emitted, each set once, and
code jumps only to labels that it sets itself. So a label has one position in the code of a
function, wherever the code of a construct stands in it.
-/

namespace Primer

open Machine

variable {L : Type}

namespace Machine

/-- The label that an instruction sets. -/
def Instruction.label? : Instruction → Option Label
  | .label l => some l
  | _ => none

/-- The label that an instruction can jump to. -/
def Instruction.target? : Instruction → Option Label
  | .jump l | .jumpIfFalse l | .ifCompare _ _ l => some l
  | _ => none

namespace Code

/-- The labels that code sets, in order. -/
def labels (code : Code) : List Label :=
  code.filterMap Instruction.label?

/-- Code jumps only to labels that it sets. -/
def Closed (code : Code) : Prop :=
  ∀ i ∈ code, ∀ l, i.target? = some l → .label l ∈ code

/-- The labels from `lo` on, and before `hi`, are those of the code. -/
structure Numbered (lo : Nat) (code : Code) (hi : Nat) : Prop where
  labels : Drawn Label.index lo hi (labels code)
  closed : Closed code

theorem mem_labels {code : Code} {l : Label} : l ∈ labels code ↔ .label l ∈ code := by
  unfold labels
  rw [List.mem_filterMap]
  constructor
  · rintro ⟨i, hi, hl⟩
    cases i <;> simp_all [Instruction.label?]
  · intro h
    exact ⟨_, h, rfl⟩

@[simp]
theorem labels_append (a b : Code) : labels (a ++ b) = labels a ++ labels b :=
  List.filterMap_append

theorem Closed.append {a b : Code} (ha : Closed a) (hb : Closed b) : Closed (a ++ b) := by
  intro i hi l hl
  rcases List.mem_append.mp hi with hi | hi
  · exact List.mem_append_left _ (ha i hi l hl)
  · exact List.mem_append_right _ (hb i hi l hl)

namespace Numbered

variable {lo mid hi : Nat} {a b : Code}

theorem append (ha : Numbered lo a mid) (hb : Numbered mid b hi) : Numbered lo (a ++ b) hi :=
  ⟨labels_append a b ▸ ha.labels.append hb.labels, ha.closed.append hb.closed⟩

/-- Code without labels and jumps. -/
theorem plain (h : ∀ i ∈ a, i.label? = none ∧ i.target? = none) : Numbered lo a lo := by
  have hlabels : Code.labels a = [] := List.filterMap_eq_nil_iff.mpr fun i hi => (h i hi).1
  refine ⟨hlabels ▸ .nil lo, ?_⟩
  intro i hi l hl
  rw [(h i hi).2] at hl
  cases hl

/-- Code that is put around other code: its labels in the order of handing out, and for every
instruction the part that it comes from or the label that it jumps to. -/
theorem of_parts {labels : List Label} (hlabels : Drawn Label.index lo hi labels)
    (hperm : labels.Perm (Code.labels a))
    (hclosed : ∀ i ∈ a, (∃ part, Closed part ∧ i ∈ part ∧ part ⊆ a) ∨
      ∀ l, i.target? = some l → l ∈ labels) : Numbered lo a hi := by
  refine ⟨hlabels.perm hperm, ?_⟩
  intro i hi l hl
  rcases hclosed i hi with ⟨part, hpart, hmem, hsub⟩ | htarget
  · exact hsub (hpart i hmem l hl)
  · exact mem_labels.mp (hperm.mem_iff.mp (htarget l hl))

end Numbered

end Code

open Code

theorem Label.drawn_single (n : Nat) : Drawn Label.index n (n + 1) [⟨n⟩] := .single rfl

/-- The two labels of a comparison. -/
theorem numbered_compare (kind : Kind) (condition : Condition) (n : Nat) :
    Numbered n (compare kind condition ⟨n⟩ ⟨n + 1⟩) (n + 2) := by
  constructor
  · exact (Label.drawn_single n).append (Label.drawn_single (n + 1))
  · intro i hi l hl
    -- Of the six instructions the first and the third jump, to the two labels that are set.
    simp only [compare, List.mem_cons, List.not_mem_nil, or_false] at hi
    rcases hi with rfl | rfl | rfl | rfl | rfl | rfl <;>
      simp_all [Instruction.target?, compare]

theorem Frame.nextLabel_slot (f : Frame) (x : SymbolId) (type : Ty) :
    (f.slot x type).2.nextLabel = f.nextLabel := by
  unfold slot
  cases f.locals.lookup x <;> rfl

variable {c : Context} {s : ScopeId}

theorem Context.nextLabel_storage? (name : String) (f : Frame) :
    (c.storage? s name f).2.nextLabel = f.nextLabel := by
  unfold storage?
  cases c.table.resolve s name with
  | none => rfl
  | some x =>
    cases hx : c.arguments.idxOf? x with
    | some position => simp [hx]
    | none => simp [hx, Frame.nextLabel_slot]

theorem Storage.label?_load (kind : Kind) (storage : Storage) :
    (storage.load kind).label? = none ∧ (storage.load kind).target? = none := by
  cases storage <;> exact ⟨rfl, rfl⟩

theorem Storage.label?_store (kind : Kind) (storage : Storage) :
    (storage.store kind).label? = none ∧ (storage.store kind).target? = none := by
  cases storage <;> exact ⟨rfl, rfl⟩

/-- Loading a variable needs no label. -/
theorem Context.labelFree_load (name : String) (f : Frame) :
    (c.load s name f).frame.nextLabel = f.nextLabel ∧
      ∀ i ∈ (c.load s name f).code, i.label? = none ∧ i.target? = none := by
  have hnext := nextLabel_storage? (c := c) (s := s) name f
  unfold load
  split
  next storage type g hstorage =>
    rw [hstorage] at hnext
    exact ⟨hnext, fun i hi => List.mem_singleton.mp hi ▸ storage.label?_load (Kind.ofTy type)⟩
  next g hstorage =>
    rw [hstorage] at hnext
    exact ⟨hnext, fun i hi => absurd hi List.not_mem_nil⟩

/-- Storing a variable needs no label. -/
theorem Context.labelFree_store (name : String) (f : Frame) :
    (c.store s name f).2.nextLabel = f.nextLabel ∧
      ∀ i ∈ (c.store s name f).1, i.label? = none ∧ i.target? = none := by
  have hnext := nextLabel_storage? (c := c) (s := s) name f
  unfold store
  split
  next storage type g hstorage =>
    rw [hstorage] at hnext
    exact ⟨hnext, fun i hi => List.mem_singleton.mp hi ▸ storage.label?_store (Kind.ofTy type)⟩
  next g hstorage =>
    rw [hstorage] at hnext
    exact ⟨hnext, fun i hi => absurd hi List.not_mem_nil⟩

theorem Instruction.label?_of_isPlain {i : Instruction} (h : i.isPlain = true) :
    i.label? = none ∧ i.target? = none := by
  cases i <;> simp_all [isPlain, label?, target?]

/-! ## Code around other code -/

/-- Code that is skipped if a condition fails. The label behind it is handed out first. -/
theorem numbered_skip {n hi mid : Nat} {condition code : Code}
    (hcondition : Numbered (n + 1) condition mid) (hcode : Numbered mid code hi) :
    Numbered n (condition ++ [.jumpIfFalse ⟨n⟩] ++ code ++ [.label ⟨n⟩]) hi := by
  -- The label is handed out before the condition is emitted and set behind the code.
  refine .of_parts ((Label.drawn_single n).append (hcondition.labels.append hcode.labels)) ?_ ?_
  · simp only [labels_append]
    simpa [labels, List.filterMap_cons, Instruction.label?] using
      (List.perm_append_singleton (⟨n⟩ : Label) (labels condition ++ labels code)).symm
  · intro i hi
    simp only [List.mem_append, List.mem_singleton] at hi
    rcases hi with ((hi | rfl) | hi) | rfl
    · exact .inl ⟨condition, hcondition.closed, hi, fun j hj => by simp [hj]⟩
    · exact .inr fun l hl => by simp_all [Instruction.target?]
    · exact .inl ⟨code, hcode.closed, hi, fun j hj => by simp [hj]⟩
    · exact .inr fun l hl => by cases hl

/-- Two pieces of code, of which a condition chooses one. -/
theorem numbered_choice {n a b hi : Nat} {condition yes no : Code}
    (hcondition : Numbered (n + 1) condition a) (hyes : Numbered a yes b)
    (hno : Numbered (b + 1) no hi) :
    Numbered n (condition ++ [.jumpIfFalse ⟨n⟩] ++ yes ++ [.jump ⟨b⟩, .label ⟨n⟩] ++ no ++
      [.label ⟨b⟩]) hi := by
  -- One label is handed out before the condition and one between the two pieces; each of them is
  -- set behind the piece that follows, so the labels are set in another order.
  have hdrawn := ((Label.drawn_single n).append (hcondition.labels.append hyes.labels)).append
    ((Label.drawn_single b).append hno.labels)
  refine .of_parts hdrawn ?_ ?_
  · have hlabels : labels (condition ++ [.jumpIfFalse ⟨n⟩] ++ yes ++ [.jump ⟨b⟩, .label ⟨n⟩] ++
        no ++ [.label ⟨b⟩]) =
          labels condition ++ labels yes ++ ([⟨n⟩] ++ (labels no ++ [⟨b⟩])) := by
      simp [labels, List.filterMap_cons, Instruction.label?]
    rw [hlabels]
    exact (List.perm_append_comm.append List.perm_append_comm).trans
      (by rw [List.append_assoc])
  · intro i hi
    simp only [List.mem_append, List.mem_cons, List.not_mem_nil, or_false] at hi
    rcases hi with ((((hi | rfl) | hi) | (rfl | rfl)) | hi) | rfl
    · exact .inl ⟨condition, hcondition.closed, hi, fun j hj => by simp [hj]⟩
    · exact .inr fun l hl => by simp_all [Instruction.target?]
    · exact .inl ⟨yes, hyes.closed, hi, fun j hj => by simp [hj]⟩
    · exact .inr fun l hl => by simp_all [Instruction.target?]
    · exact .inr fun l hl => by cases hl
    · exact .inl ⟨no, hno.closed, hi, fun j hj => by simp [hj]⟩
    · exact .inr fun l hl => by cases hl

/-- Code that is repeated as long as a condition holds. -/
theorem numbered_loop {n mid hi : Nat} {condition code : Code}
    (hcondition : Numbered (n + 2) condition mid) (hcode : Numbered mid code hi) :
    Numbered n ([.label ⟨n⟩] ++ condition ++ [.jumpIfFalse ⟨n + 1⟩] ++ code ++
      [.jump ⟨n⟩, .label ⟨n + 1⟩]) hi := by
  -- Both labels are handed out first; one is set in front and one at the end.
  have hdrawn := ((Label.drawn_single n).append (Label.drawn_single (n + 1))).append
    (hcondition.labels.append hcode.labels)
  refine .of_parts hdrawn ?_ ?_
  · have hlabels : labels ([.label ⟨n⟩] ++ condition ++ [.jumpIfFalse ⟨n + 1⟩] ++ code ++
        [.jump ⟨n⟩, .label ⟨n + 1⟩]) =
        [⟨n⟩] ++ (labels condition ++ labels code ++ [⟨n + 1⟩]) := by
      simp [labels, List.filterMap_cons, Instruction.label?]
    rw [hlabels, List.append_assoc]
    exact List.perm_append_comm.append_left _
  · intro i hi
    simp only [List.mem_append, List.mem_cons, List.not_mem_nil, or_false] at hi
    rcases hi with (((rfl | hi) | rfl) | hi) | (rfl | rfl)
    · exact .inr fun l hl => by cases hl
    · exact .inl ⟨condition, hcondition.closed, hi, fun j hj => by simp [hj]⟩
    · exact .inr fun l hl => by simp_all [Instruction.target?]
    · exact .inl ⟨code, hcode.closed, hi, fun j hj => by simp [hj]⟩
    · exact .inr fun l hl => by simp_all [Instruction.target?]
    · exact .inr fun l hl => by cases hl

end Machine

end Primer
