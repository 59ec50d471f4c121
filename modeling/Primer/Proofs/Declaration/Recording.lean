import Primer.Proofs.Declaration.Coverage
import Primer.Proofs.Declaration.Rejection

/-!
# What is recorded of an item

An item is rejected for one of four mistakes: it has no body, it has a taken name, it is a second
entry point, or a type in its header is unknown. `Item.rejections` reads these off the tree, given
the names that are taken where the item stands.

The mark of an item has a scope if the item is not rejected, and none if it is
(`Declarations.records_ofProgram`). The same then holds of all its nodes (`Item.Covered.nodes`).
-/

namespace Primer

variable {L I : Type}

/-! ## On the tree -/

namespace Item

/-- The mark of an item. -/
def mark : Item L I → I
  | .function f => f.mark
  | .main e => e.mark

theorem mark_mem_nodes (i : Item L I) : i.mark ∈ i.nodes := by
  cases i <;> exact List.mem_cons_self

/-- The mistakes for which an item is rejected as a whole, where `taken` are the names of the items
so far. Mistakes inside of an item do not count. -/
def rejections (taken : List String) : Item L I → List (Located L DeclarationError)
  | .function f =>
    match f.body with
    | none => [⟨f.name.place, .missingBody f.name.text⟩]
    | some _ =>
      if f.name.text ∈ taken then [⟨f.name.place, .duplicateFunction f.name.text⟩]
      else f.typeMistakes
  | .main e => if "main" ∈ taken then [⟨e.place, .duplicateMain⟩] else []

/-- The items, each with the names that are taken where it stands: a rejected item takes no name. -/
def inTurn (taken : List String) : List (Item L I) → List (List String × Item L I)
  | [] => []
  | i :: items =>
    (taken, i) :: inTurn (if (i.rejections taken).isEmpty then i.name :: taken else taken) items

/-- Nothing is left of an item that is rejected. -/
theorem sift_of_rejected {taken : List String} {i : Item L I} (h : i.rejections taken ≠ []) :
    i.sift taken = ⟨[], i.rejections taken⟩ := by
  cases i with
  | function f =>
    cases hbody : f.body with
    | none => simp only [rejections, sift, hbody]
    | some body =>
      simp only [rejections, sift, hbody] at h ⊢
      -- A header without mistakes is not rejected, so this case is one that the hypothesis rules
      -- out.
      split_ifs at h ⊢ with htaken htypes
      · rfl
      · exact absurd (List.isEmpty_iff.mp htypes) h
      · rfl
  | main e =>
    simp only [rejections, sift] at h ⊢
    split_ifs at h ⊢ with htaken
    · rfl
    · exact absurd rfl h

/-- Of any other item there is one left, and it has the same name. -/
theorem sift_of_not_rejected {taken : List String} {i : Item L I} (h : i.rejections taken = []) :
    i.name ∉ taken ∧ (i.sift taken).kept.map Item.name = [i.name] := by
  cases i with
  | function f =>
    cases hbody : f.body with
    | none => simp [rejections, hbody] at h
    | some body =>
      simp only [rejections, sift, hbody] at h ⊢
      split_ifs at h ⊢ with htaken htypes
      · exact ⟨htaken, rfl⟩
      · exact absurd (List.isEmpty_iff.mpr h) htypes
  | main e =>
    simp only [rejections, sift] at h ⊢
    split_ifs at h ⊢ with htaken
    exact ⟨htaken, rfl⟩

end Item

/-! ## One item -/

namespace Declarations

variable {d : Declarations L} {items : List (Item L NodeId)} {taken : List String}

/-- The names that are taken after an item. -/
theorem Binds.item (ht : d.table.Arranged items) (h : d.Binds Table.global taken)
    (i : Item L NodeId) : (d.item i).Binds Table.global
      (if (i.rejections taken).isEmpty then i.name :: taken else taken) := by
  have hbinds := (siftsItems_item ht h i).2
  split_ifs with hrejected
  · rw [(Item.sift_of_not_rejected (List.isEmpty_iff.mp hrejected)).2] at hbinds
    exact hbinds
  · rw [Item.sift_of_rejected fun hnil => hrejected (List.isEmpty_iff.mpr hnil)] at hbinds
    exact hbinds

/-- A rejected item leaves the recorded scopes as they are, and its mistakes are reported. -/
theorem item_of_rejected (ht : d.table.Arranged items) (h : d.Binds Table.global taken)
    {i : Item L NodeId} (hrejected : i.rejections taken ≠ []) :
    (d.item i).scopes = d.scopes ∧ (d.item i).findings = d.findings ++ i.rejections taken := by
  have hsifts := (siftsItems_item ht h i).1
  rw [Item.sift_of_rejected hrejected] at hsifts
  exact ⟨(congrArg Declarations.scopes hsifts.cleared).symm, hsifts.findings⟩

/-- The scope of a function that is not rejected is recorded before its body is declared. -/
private theorem get?_mark_function (ht : d.table.Arranged items) (h : d.Binds Table.global taken)
    {f : Function L NodeId} (hnodes : (Item.function f).nodes.Nodup)
    (haccepted : (Item.function f).rejections taken = []) :
    ∃ s, (d.function f).scopes.get? f.mark = some s := by
  have htaken : f.name.text ∉ taken := (Item.sift_of_not_rejected haccepted).1
  cases hbody : f.body with
  | none => simp [Item.rejections, hbody] at haccepted
  | some body =>
    have htypes : f.typeMistakes = [] := by simpa [Item.rejections, hbody, htaken] using haccepted
    have hmark : f.mark ∉ body.nodes := by
      have := (List.nodup_cons.mp hnodes).1
      simpa [hbody] using this
    have hfunction : d.hasFunction f.name.text = false := by
      simpa using fun hm => htaken ((h.hasFunction_iff ht f.name.text).mp hm)
    have hfree := h.free htaken
    rw [function_of_types hbody hfunction htypes, accept_of_free h.lt_size hfree]
    let d₁ := (d.define Table.global (.fn ⟨f.name.text, typeNamed f.returns, []⟩)).2
    let x : SymbolId := ⟨d.table.symbols.size⟩
    let s : ScopeId := ⟨d₁.table.scopes.size⟩
    have hopen := prepares_openFor (d := d) (g := ⟨f.name.text, typeNamed f.returns, []⟩) f.mark
      (some x) h.lt_size hfree
    -- Parameters have no nodes, and the body has others.
    have hparameters := extends_parameters s 0 (d₁.openFor f.mark Table.global (some x)).2 x
      (Nat.zero_le _) ((f.parameters.map (·.name)).zip (f.parameters.map (typeNamed ·.type)))
      (Nat.zero_le _) (fun q hq => by
        obtain ⟨p, hp, he⟩ := List.mem_map.mp (List.of_mem_zip hq).2
        exact he ▸ Ty.named?_mem (named?_of_typeMistake? (typeMistake?_parameter htypes hp)))
    have hs := Nat.lt_of_lt_of_le hopen.lt_size hparameters.scopes_le
    have hlater := body.extends_declarations s s _ hs (Nat.zero_le _)
    refine ⟨s, ?_⟩
    rw [hlater.recorded f.mark hmark, hparameters.recorded f.mark List.not_mem_nil]
    exact hopen.recorded

private theorem get?_mark_entryPoint (ht : d.table.Arranged items)
    (h : d.Binds Table.global taken) {e : EntryPoint L NodeId}
    (hnodes : (Item.main e).nodes.Nodup) (haccepted : (Item.main e).rejections taken = []) :
    ∃ s, (d.entryPoint e).scopes.get? e.mark = some s := by
  obtain ⟨htaken, -⟩ := Item.sift_of_not_rejected haccepted
  have hmain : d.hasFunction "main" = false := by
    simpa using fun hm => htaken ((h.hasFunction_iff ht "main").mp hm)
  let d₁ := (d.define Table.global (.fn ⟨"main", .void, []⟩)).2
  let s : ScopeId := ⟨d₁.table.scopes.size⟩
  have hopen := prepares_openFor (d := d) (g := ⟨"main", .void, []⟩) e.mark none h.lt_size
    (h.free htaken)
  have hlater := e.body.extends_declarations s s _ hopen.lt_size (Nat.zero_le _)
  rw [entryPoint_of_free hmain]
  exact ⟨s, (hlater.recorded e.mark (List.nodup_cons.mp hnodes).1).trans hopen.recorded⟩

theorem get?_mark_of_not_rejected (ht : d.table.Arranged items) (h : d.Binds Table.global taken)
    {i : Item L NodeId} (hnodes : i.nodes.Nodup) (haccepted : i.rejections taken = []) :
    ∃ s, (d.item i).scopes.get? i.mark = some s := by
  cases i with
  | function f => exact get?_mark_function ht h hnodes haccepted
  | main e => exact get?_mark_entryPoint ht h hnodes haccepted

/-! ## All items -/

/-- What is recorded of an item and reported about it, where it is known whether it is rejected. -/
structure Records (d : Declarations L) (taken : List String) (i : Item L NodeId) : Prop where
  accepted : i.rejections taken = [] → ∃ s, d.scopes.get? i.mark = some s
  rejected : i.rejections taken ≠ [] → d.scopes.get? i.mark = none
  reported : ∀ e ∈ i.rejections taken, e ∈ d.findings

/-- Items that follow leave it as it is. -/
theorem Records.extend {o : ScopeId} {k : Nat} {nodes : List NodeId} {d' : Declarations L}
    {i : Item L NodeId} (h : d.Records taken i) (hkeep : Extends o k nodes d d')
    (hmark : i.mark ∉ nodes) : d'.Records taken i := by
  have hrecorded := hkeep.recorded i.mark hmark
  obtain ⟨new, hnew⟩ := hkeep.findings
  refine ⟨fun ha => ?_, fun hr => hrecorded.trans (h.rejected hr), fun e he => ?_⟩
  · rw [hrecorded]
    exact h.accepted ha
  · rw [hnew]
    exact List.mem_append_left _ (h.reported e he)

theorem records_item (ht : d.table.Arranged items) (h : d.Binds Table.global taken)
    {i : Item L NodeId} (hnodes : i.nodes.Nodup) (hfresh : d.scopes.get? i.mark = none) :
    (d.item i).Records taken i := by
  refine ⟨get?_mark_of_not_rejected ht h hnodes, fun hrejected => ?_, fun e he => ?_⟩
  · rw [(item_of_rejected ht h hrejected).1, hfresh]
  · rw [(item_of_rejected ht h fun hnil => by simp [hnil] at he).2]
    exact List.mem_append_right _ he

private theorem records_items (ht : d.table.Arranged items) (h : d.Binds Table.global taken)
    (is : List (Item L NodeId)) (his : ∀ i ∈ is, i ∈ items)
    (hnodes : (is.flatMap Item.nodes).Nodup)
    (hfresh : ∀ node ∈ is.flatMap Item.nodes, d.scopes.get? node = none) :
    ∀ taken' i, (taken', i) ∈ Item.inTurn taken is → (is.foldl item d).Records taken' i := by
  induction is generalizing d taken with
  | nil => exact fun _ _ hi => absurd hi List.not_mem_nil
  | cons first rest ih =>
    rw [List.flatMap_cons] at hnodes hfresh
    obtain ⟨hfirst, hrest, hdisjoint⟩ := List.nodup_append'.mp hnodes
    have hstep := extends_item (k := 0) d first h.lt_size (Nat.zero_le _)
    have hbinds := h.item ht first
    have ht' : (d.item first).table.Arranged items :=
      arranged_items ht [first] fun i hi => by
        rw [List.mem_singleton.mp hi]
        exact his first List.mem_cons_self
    intro taken' i hi
    rcases List.mem_cons.mp hi with hi | hi
    · -- The first item: what follows has other nodes.
      obtain ⟨rfl, rfl⟩ := Prod.mk.inj hi
      have hmark := i.mark_mem_nodes
      exact (records_item ht h hfirst (hfresh _ (List.mem_append_left _ hmark))).extend
        (extends_items (k := 0) _ rest hbinds.lt_size (Nat.zero_le _)) fun hm => hdisjoint hmark hm
    · refine ih ht' hbinds (fun i hi => his i (List.mem_cons_of_mem _ hi)) hrest
        (fun node hn => ?_) taken' i hi
      rw [hstep.recorded node fun hm => hdisjoint hm hn]
      exact hfresh node (List.mem_append_right _ hn)

/-- Whether something is recorded of an item of a program depends on whether it is rejected. -/
theorem records_ofProgram {p : Program L} (hp : p.Distinct) {i : Item L NodeId}
    (hi : (taken, i) ∈ Item.inTurn [] p.items) : (ofProgram p).Records taken i := by
  obtain ⟨hroot, hitems⟩ := List.nodup_cons.mp hp
  refine records_items Table.arranged_empty (binds_empty p.root) p.items (fun _ h => h) hitems ?_
    taken i hi
  intro node hn
  -- Before the items are declared only the root has a scope.
  have hne : node ≠ p.root := fun he => hroot (he ▸ hn)
  simp [record, empty, ScopeMap.get?_record, hne]

end Declarations

theorem Item.mem_of_mem_inTurn {taken taken' : List String} {items : List (Item L I)}
    {i : Item L I} (h : (taken', i) ∈ Item.inTurn taken items) : i ∈ items := by
  induction items generalizing taken with
  | nil => exact absurd h List.not_mem_nil
  | cons first rest ih =>
    rcases List.mem_cons.mp h with h | h
    · exact (Prod.mk.inj h).2 ▸ List.mem_cons_self
    · exact List.mem_cons_of_mem _ (ih h)

end Primer
