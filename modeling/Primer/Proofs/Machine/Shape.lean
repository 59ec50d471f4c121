import Primer.Proofs.Machine.Label
import Mathlib.Data.Set.Image

/-!
# Shapes of the operand stack

The *shape* of a stack lists the kinds of its values, the top first. Every instruction takes
operands of known kinds and leaves results of known kinds (`Instruction.Takes`). The code of a
function is *shaped* if each of its positions has a shape that fits the instruction there and leads
to the shapes of the positions that can come next (`Code.Shaped`).

Shapes of code are put together from those of its pieces (`Code.Flows`). A piece lists the jumps
that leave it and the labels that other pieces may jump to, each with a shape, and is closed once
they match. That each label is set only once is used at the very end, in `Code.Flows.shaped`.
-/

namespace Primer.Machine

/-! ## What instructions take and leave -/

/-- The kind of a constant. -/
def Constant.kind : Constant → Kind
  | .int _ | .char _ => .int
  | .float _ => .float
  | .str _ => .ref

/-- The kind of the elements of an array. -/
def Element.kind : Element → Kind
  | .int | .char => .int
  | .float => .float

/-- The kind of the value that a function returns, if it returns one. -/
def Signature.result (s : Signature) : Option Kind :=
  if s.returns = .void then none else some (Kind.ofTy s.returns)

namespace Instruction

/-- The kinds that an instruction takes from the stack, the top first. -/
def operands : Instruction → List Kind
  | .label _ | .jump _ | .push _ | .load .. | .loadArgument .. => []
  | .jumpIfFalse _ | .newArray _ => [.int]
  | .ifCompare kind _ _ | .arithmetic kind _ => [kind, kind]
  | .pop kind | .store kind _ | .storeArgument kind _ | .negate kind => [kind]
  | .dup | .arrayLength | .stringLength => [.ref]
  | .arrayLoad _ | .charAt => [.int, .ref]
  | .arrayStore element => [element.kind, .int, .ref]
  | .call _ signature => (signature.parameters.map Kind.ofTy).reverse
  | .print value _ => value.toList.map Kind.ofTy
  | .ret kind => kind.toList

/-- The kinds that an instruction leaves on the stack, the top first. -/
def results : Instruction → List Kind
  | .label _ | .jump _ | .jumpIfFalse _ | .ifCompare .. | .pop _ | .store .. | .storeArgument ..
  | .arrayStore _ | .print .. | .ret _ => []
  | .push value => [value.kind]
  | .load kind _ | .loadArgument kind _ | .arithmetic kind _ | .negate kind => [kind]
  | .newArray _ => [.ref]
  | .dup => [.ref, .ref]
  | .arrayLoad element => [element.kind]
  | .arrayLength | .stringLength | .charAt => [.int]
  | .call _ signature => signature.result.toList

/-- Whether an instruction returns from the function. -/
def isReturn : Instruction → Bool
  | .ret _ => true
  | _ => false

/-- Whether the next instruction can come after this one. -/
def fallsThrough : Instruction → Bool
  | .jump _ | .ret _ => false
  | _ => true

/-- An instruction finds its operands on the stack and leaves its results in their place. A return
gives the result of the function, and finds nothing else. -/
def Takes (result : Option Kind) (i : Instruction) (before after : List Kind) : Prop :=
  ∃ rest, before = i.operands ++ rest ∧ after = i.results ++ rest ∧
    ∀ kind, i = .ret kind → rest = [] ∧ kind = result

variable {result : Option Kind}

theorem takes_of_not_return (result : Option Kind) {i : Instruction} (h : i.isReturn = false)
    (rest : List Kind) : i.Takes result (i.operands ++ rest) (i.results ++ rest) := by
  refine ⟨rest, rfl, rfl, ?_⟩
  rintro kind rfl
  cases h

/-- A return finds exactly the result of the function. -/
theorem Takes.eq_of_ret {kind : Option Kind} {before after : List Kind}
    (h : (Instruction.ret kind).Takes result before after) :
    kind = result ∧ before = result.toList := by
  obtain ⟨rest, rfl, -, hret⟩ := h
  obtain ⟨rfl, rfl⟩ := hret kind rfl
  exact ⟨rfl, List.append_nil _⟩

/-- What an instruction leaves is determined by what it finds. -/
theorem Takes.unique {i : Instruction} {before after after' : List Kind}
    (h : i.Takes result before after) (h' : i.Takes result before after') : after = after' := by
  obtain ⟨rest, rfl, rfl, -⟩ := h
  obtain ⟨rest', hsame, rfl, -⟩ := h'
  rw [List.append_cancel_left hsame]

end Instruction

/-- Shapes for every position of code and for its end: each instruction finds its operands, and what
it leaves is the shape of every position that can come next. -/
structure Code.Shaped (result : Option Kind) (code : Code) (shape : Nat → List Kind) : Prop where
  step : ∀ (n : Nat) i, code[n]? = some i → ∃ after, i.Takes result (shape n) after ∧
    (i.fallsThrough = true → shape (n + 1) = after) ∧
    ∀ l, i.target? = some l → (∃ k : Nat, code[k]? = some (.label l)) ∧
      ∀ k : Nat, code[k]? = some (.label l) → shape k = after

/-! ## Pieces of code -/

namespace Code

variable {result : Option Kind}

/-- Instructions, each with the shape of the stack before it. -/
abbrev Annotated : Type := List (List Kind × Instruction)

/-- Each instruction passes the shape on to the next one, from `before` all to `after` all. -/
inductive Flow (result : Option Kind) : List Kind → Annotated → List Kind → Prop where
  | nil {σ} : Flow result σ [] σ
  | cons {before next after i ann} (hstep : ∃ σ, i.Takes result before σ ∧
      (i.fallsThrough = true → next = σ)) (h : Flow result next ann after) :
      Flow result before ((before, i) :: ann) after

/-- The shape at a position, if the shape at the end is `after`. -/
def Annotated.shape? (ann : Annotated) (after : List Kind) (n : Nat) : Option (List Kind) :=
  (ann.map Prod.fst ++ [after])[n]?

/-- Labels with the shape of the stack where they are set. -/
abbrev Ports : Type := List (Label × List Kind)

/-- Code can be given shapes that lead from `before` to `after`. Its jumps find their labels in the
code, or they are among the `exits`; the `entries` are labels of the code; and the stack is empty at
the positions in `stops`. -/
def Flows (result : Option Kind) (before : List Kind) (code : Code) (after : List Kind)
    (exits entries : Ports) (stops : Set Nat) : Prop :=
  ∃ ann : Annotated, ann.map Prod.snd = code ∧ Flow result before ann after ∧
    (∀ x ∈ ann, ∀ l, x.2.target? = some l →
      ∃ σ, x.2.Takes result x.1 σ ∧ ((σ, .label l) ∈ ann ∨ (l, σ) ∈ exits)) ∧
    (∀ l σ, (l, σ) ∈ entries → (σ, .label l) ∈ ann) ∧
    ∀ n ∈ stops, ann.shape? after n = some []

theorem Flow.append {σ τ υ : List Kind} {a b : Annotated} (ha : Flow result σ a τ)
    (hb : Flow result τ b υ) : Flow result σ (a ++ b) υ := by
  induction ha with
  | nil => exact hb
  | cons hstep _ ih => exact .cons hstep (ih hb)

/-- The first shape is the one that the flow starts with. -/
theorem Flow.shape?_zero {σ τ : List Kind} {ann : Annotated} (h : Flow result σ ann τ) :
    ann.shape? τ 0 = some σ := by
  cases h <;> rfl

theorem Annotated.shape?_append_right (a b : Annotated) (after : List Kind) (n : Nat) :
    (a ++ b).shape? after (a.length + n) = b.shape? after n := by
  unfold shape?
  rw [List.map_append, List.append_assoc, List.getElem?_append_right (by simp)]
  simp

/-- Shapes of a piece stay the same when another piece follows. -/
theorem Annotated.shape?_append_left {a b : Annotated} {σ τ υ : List Kind} {n : Nat}
    (hb : Flow result τ b υ) (h : a.shape? τ n = some σ) : (a ++ b).shape? υ n = some σ := by
  unfold shape? at h
  rcases Nat.lt_or_ge n (a.map Prod.fst).length with hn | hn
  · rw [List.getElem?_append_left hn] at h
    unfold shape?
    rw [List.map_append, List.append_assoc, List.getElem?_append_left hn, h]
  · -- The position is the end of the first piece, where the second one starts.
    rw [List.getElem?_append_right hn] at h
    have hlast : n = a.length := by
      have hbound := (List.getElem?_eq_some_iff.mp h).1
      simp only [List.length_map, List.length_singleton] at hn hbound
      omega
    subst hlast
    have hsame : τ = σ := by simpa using h
    rw [← hsame, ← hb.shape?_zero]
    exact shape?_append_right a b υ 0

namespace Flows

variable {σ τ υ : List Kind} {a b : Code} {exits exits' entries entries' : Ports}
  {stops stops' : Set Nat}

theorem nil : Flows result σ [] σ [] [] ∅ :=
  ⟨[], rfl, .nil, fun _ h => absurd h List.not_mem_nil, fun _ _ h => absurd h List.not_mem_nil,
    fun _ h => absurd h (Set.notMem_empty _)⟩

theorem append (ha : Flows result σ a τ exits entries stops)
    (hb : Flows result τ b υ exits' entries' stops') :
    Flows result σ (a ++ b) υ (exits ++ exits') (entries ++ entries')
      (stops ∪ (a.length + ·) '' stops') := by
  obtain ⟨x, rfl, hflow, hjumps, hentries, hstops⟩ := ha
  obtain ⟨y, rfl, hflow', hjumps', hentries', hstops'⟩ := hb
  refine ⟨x ++ y, List.map_append, hflow.append hflow', ?_, ?_, ?_⟩
  · intro z hz l hl
    rcases List.mem_append.mp hz with hz | hz
    -- A jump that finds its label in its own piece, or leaves it, does so in both together.
    · obtain ⟨ρ, htakes, hport⟩ := hjumps z hz l hl
      exact ⟨ρ, htakes, hport.imp (List.mem_append_left _) (List.mem_append_left _)⟩
    · obtain ⟨ρ, htakes, hport⟩ := hjumps' z hz l hl
      exact ⟨ρ, htakes, hport.imp (List.mem_append_right _) (List.mem_append_right _)⟩
  · intro l ρ hport
    rcases List.mem_append.mp hport with hport | hport
    · exact List.mem_append_left _ (hentries l ρ hport)
    · exact List.mem_append_right _ (hentries' l ρ hport)
  · intro n hn
    rcases hn with hn | ⟨k, hk, rfl⟩
    · exact Annotated.shape?_append_left hflow' (hstops n hn)
    · rw [List.length_map, Annotated.shape?_append_right]
      exact hstops' k hk

/-- Code whose jumps all find their labels. -/
theorem close (h : Flows result σ a τ exits entries stops) (hexits : exits ⊆ entries)
    (hstops : stops' ⊆ stops) : Flows result σ a τ [] [] stops' := by
  obtain ⟨ann, hcode, hflow, hjumps, hentries, hown⟩ := h
  refine ⟨ann, hcode, hflow, ?_, fun _ _ hport => absurd hport List.not_mem_nil,
    fun n hn => hown n (hstops hn)⟩
  intro x hx l hl
  -- What would leave the code as an exit is also an entry, so its label is inside.
  obtain ⟨ρ, htakes, hport⟩ := hjumps x hx l hl
  exact ⟨ρ, htakes, .inl (hport.elim id fun hport => hentries l ρ (hexits hport))⟩

/-- Closed pieces without stops, one after the other. -/
theorem seq (ha : Flows result σ a τ [] [] ∅) (hb : Flows result τ b υ [] [] ∅) :
    Flows result σ (a ++ b) υ [] [] ∅ := by
  simpa using ha.append hb

/-- A single instruction: where it goes on, where it jumps and which label it sets. -/
private theorem single {i : Instruction}
    (hstep : ∃ ρ, i.Takes result σ ρ ∧ (i.fallsThrough = true → τ = ρ))
    (hexits : ∀ l, i.target? = some l → ∃ ρ, i.Takes result σ ρ ∧ (l, ρ) ∈ exits)
    (hentries : ∀ l ρ, (l, ρ) ∈ entries → (ρ, .label l) = (σ, i)) :
    Flows result σ [i] τ exits entries ∅ := by
  refine ⟨[(σ, i)], rfl, .cons hstep .nil, ?_, ?_, fun _ hn => absurd hn (Set.notMem_empty _)⟩
  · intro x hx l hl
    obtain rfl := List.mem_singleton.mp hx
    obtain ⟨ρ, htakes, hport⟩ := hexits l hl
    exact ⟨ρ, htakes, .inr hport⟩
  · intro l ρ hport
    exact List.mem_singleton.mpr (hentries l ρ hport)

/-- An instruction on top of any stack that jumps nowhere. -/
theorem plain (result : Option Kind) (i : Instruction) (htarget : i.target? = none)
    (hreturn : i.isReturn = false) (rest : List Kind) :
    Flows result (i.operands ++ rest) [i] (i.results ++ rest) [] [] ∅ :=
  single ⟨_, i.takes_of_not_return result hreturn rest, fun _ => rfl⟩
    (fun _ hl => absurd (htarget.symm.trans hl) nofun) (fun _ _ h => absurd h List.not_mem_nil)

/-- An instruction on top of any stack that goes on or jumps. -/
theorem branch (result : Option Kind) (i : Instruction) {l : Label} (htarget : i.target? = some l)
    (hreturn : i.isReturn = false) (rest : List Kind) :
    Flows result (i.operands ++ rest) [i] (i.results ++ rest) [(l, i.results ++ rest)] [] ∅ := by
  have htakes := i.takes_of_not_return result hreturn rest
  refine single ⟨_, htakes, fun _ => rfl⟩ ?_ (fun _ _ h => absurd h List.not_mem_nil)
  intro k hk
  obtain rfl := Option.some.inj (htarget.symm.trans hk)
  exact ⟨_, htakes, List.mem_singleton_self _⟩

/-- A jump; whatever comes behind it starts afresh. -/
theorem jump (result : Option Kind) (l : Label) : Flows result σ [.jump l] τ [(l, σ)] [] ∅ := by
  have htakes := (Instruction.jump l).takes_of_not_return result rfl σ
  -- Nothing falls through a jump, so the shape behind it is free.
  refine single ⟨σ, htakes, nofun⟩ ?_ (fun _ _ h => absurd h List.not_mem_nil)
  intro k hk
  obtain rfl := Option.some.inj hk
  exact ⟨σ, htakes, List.mem_singleton_self _⟩

theorem label (result : Option Kind) (l : Label) : Flows result σ [.label l] σ [] [(l, σ)] ∅ := by
  refine single ⟨σ, (Instruction.label l).takes_of_not_return result rfl σ, fun _ => rfl⟩ nofun ?_
  intro k ρ hport
  obtain ⟨rfl, rfl⟩ := Prod.mk.inj (List.mem_singleton.mp hport)
  rfl

/-- A return; whatever comes behind it starts afresh. -/
theorem ret (result : Option Kind) : Flows result result.toList [.ret result] τ [] [] ∅ := by
  refine single ⟨[], ⟨[], (List.append_nil _).symm, rfl, ?_⟩, nofun⟩ nofun
    (fun _ _ h => absurd h List.not_mem_nil)
  rintro kind hkind
  exact ⟨rfl, (Instruction.ret.inj hkind).symm⟩

end Flows

/-! ## From pieces to whole code -/

theorem Flow.step {σ τ : List Kind} {ann : Annotated} (h : Flow result σ ann τ) {n : Nat}
    {x : List Kind × Instruction} (hx : ann[n]? = some x) :
    ∃ after, x.2.Takes result x.1 after ∧
      (x.2.fallsThrough = true → ann.shape? τ (n + 1) = some after) := by
  induction h generalizing n with
  | nil => simp at hx
  | cons hstep hrest ih =>
    cases n with
    | zero =>
      obtain rfl := Option.some.inj hx
      obtain ⟨after, htakes, hnext⟩ := hstep
      refine ⟨after, htakes, fun hfalls => ?_⟩
      -- The next shape is the one with which the rest of the flow starts.
      rw [← hnext hfalls, ← hrest.shape?_zero]
      rfl
    | succ n => exact ih hx

/-- Two instructions that set the same label are the same, if no label is set twice. -/
private theorem eq_of_label {ann : Annotated} (h : (labels (ann.map Prod.snd)).Nodup)
    {x y : List Kind × Instruction} (hx : x ∈ ann) (hy : y ∈ ann) {l : Label}
    (hxl : x.2 = .label l) (hyl : y.2 = .label l) : x = y := by
  induction ann with
  | nil => exact absurd hx List.not_mem_nil
  | cons z ann ih =>
    have hrest : (labels (ann.map Prod.snd)).Nodup :=
      h.sublist (((List.sublist_cons_self z ann).map _).filterMap _)
    -- A label that is set further on is not the one that the first instruction sets.
    have hfresh : ∀ w ∈ ann, w.2 = .label l → z.2 ≠ .label l := by
      intro w hw hwl hzl
      have hmem : l ∈ labels (ann.map Prod.snd) :=
        mem_labels.mpr (hwl ▸ List.mem_map_of_mem hw)
      have hlabels : labels ((z :: ann).map Prod.snd) = l :: labels (ann.map Prod.snd) := by
        simp [labels, hzl, Instruction.label?]
      rw [hlabels] at h
      exact (List.nodup_cons.mp h).1 hmem
    rcases List.mem_cons.mp hx with hxz | hx'
    · rcases List.mem_cons.mp hy with hyz | hy'
      · exact hxz.trans hyz.symm
      · exact absurd (hxz ▸ hxl) (hfresh y hy' hyl)
    · rcases List.mem_cons.mp hy with hyz | hy'
      · exact absurd (hyz ▸ hyl) (hfresh x hx' hxl)
      · exact ih hrest hx' hy'

/-- Code whose pieces fit together, and which sets no label twice, is shaped. -/
theorem Flows.shaped {σ τ : List Kind} {code : Code} {stops : Set Nat}
    (h : Flows result σ code τ [] [] stops) (hlabels : (labels code).Nodup) :
    ∃ shape, Shaped result code shape ∧ shape 0 = σ ∧ shape code.length = τ ∧
      ∀ n ∈ stops, shape n = [] := by
  obtain ⟨ann, rfl, hflow, hjumps, -, hstops⟩ := h
  have hshape : ∀ {n : Nat} {x : List Kind × Instruction}, ann[n]? = some x →
      ann.shape? τ n = some x.1 := by
    intro n x hx
    have hn : n < (ann.map Prod.fst).length := by
      simpa using (List.getElem?_eq_some_iff.mp hx).1
    unfold Annotated.shape?
    rw [List.getElem?_append_left hn, List.getElem?_map, hx]
    rfl
  -- The annotations are the shapes. Behind the end of the code any shape will do.
  refine ⟨fun n => (ann.shape? τ n).getD [], ⟨?_⟩, ?_, ?_, ?_⟩
  · intro n i hi
    rw [List.getElem?_map] at hi
    obtain ⟨x, hx, rfl⟩ := Option.map_eq_some_iff.mp hi
    obtain ⟨after, htakes, hnext⟩ := hflow.step hx
    refine ⟨after, by simpa [hshape hx] using htakes, fun hfalls => by simp [hnext hfalls], ?_⟩
    intro l hl
    obtain ⟨ρ, htakes', hport⟩ := hjumps x (List.mem_of_getElem? hx) l hl
    -- The flow gives one place where the label is set; that it is the only one makes the shape
    -- there the shape wherever the label is set.
    have hmem : (ρ, .label l) ∈ ann := hport.resolve_right List.not_mem_nil
    constructor
    · obtain ⟨k, hk⟩ := List.mem_iff_getElem?.mp hmem
      exact ⟨k, by rw [List.getElem?_map, hk, Option.map_some]⟩
    · intro k hk
      rw [List.getElem?_map] at hk
      obtain ⟨z, hz, hzl⟩ := Option.map_eq_some_iff.mp hk
      obtain rfl := eq_of_label hlabels (List.mem_of_getElem? hz) hmem hzl rfl
      simp [hshape hz, htakes.unique htakes']
  · simp [hflow.shape?_zero]
  · simp [Annotated.shape?]
  · intro n hn
    simp [hstops n hn]

end Code

end Primer.Machine
