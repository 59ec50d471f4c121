import Primer.Proofs.Machine.Routine

/-!
# Slots of variables

The slots behind the arguments belong to variables, without a gap between them (`Grows.covered`),
and emitted code addresses a variable only by the slot that it has at the end, with the kind of its
type (`Stmt.Emits.addressed`). Both hold for every tree, and with it `Outline.Yields.laidOut`, which
says all of this of a routine.
-/

namespace Primer

open Machine

variable {L : Type}

namespace Machine

/-! ## No gaps -/

namespace Frame

variable {t : Table} {f g : Frame} {base : Nat}

/-- Every slot from `base` on that is in use is one of a variable. -/
def Covered (t : Table) (base : Nat) (f : Frame) : Prop :=
  ∀ n, base ≤ n → n < f.nextSlot →
    ∃ x start, f.locals.lookup x = some start ∧ start ≤ n ∧ n < start + width t x

theorem covered_start (t : Table) (base : Nat) : Covered t base (.start base) := by
  intro n hbase hn
  exact absurd hn (Nat.not_lt_of_le hbase)

/-- A new variable takes the slots right behind the others. -/
theorem Covered.slot (h : Covered t base f) (x : SymbolId) :
    Covered t base (f.slot x (t.typeOf x)).2 := by
  cases hx : f.locals.lookup x with
  | some start => simpa [Frame.slot, hx] using h
  | none =>
    intro n hbase hn
    by_cases hlt : n < f.nextSlot
    · obtain ⟨y, start, hy, hle, hend⟩ := h n hbase hlt
      have hne : y ≠ x := by
        rintro rfl
        rw [hx] at hy
        cases hy
      exact ⟨y, start, (lookup_slot_of_ne hne _).trans hy, hle, hend⟩
    · refine ⟨x, f.nextSlot, ?_, Nat.le_of_not_lt hlt, ?_⟩
      · simp [Frame.slot, hx]
      · simpa [Frame.slot, hx, width] using hn

theorem Grows.covered (hg : Grows t f g) (h : Covered t base f) : Covered t base g := by
  induction hg with
  | refl => exact h
  | slot f x => exact h.slot x
  | labels f n => exact h
  | trans _ _ ihfg ihgh => exact ihgh (ihfg h)

end Frame

/-! ## Accesses -/

/-- The kind and the slot with which an instruction accesses a variable. -/
def Instruction.local? : Instruction → Option (Kind × Nat)
  | .load kind slot | .store kind slot => some (kind, slot)
  | _ => none

/-- The kind and the position with which an instruction accesses an argument. -/
def Instruction.argument? : Instruction → Option (Kind × Nat)
  | .loadArgument kind position | .storeArgument kind position => some (kind, position)
  | _ => none

/-- An instruction accesses variables where the frame has them and arguments by their positions,
both with the kind of their types. -/
structure Instruction.Addressed (c : Context) (g : Frame) (i : Instruction) : Prop where
  slot : ∀ kind n, i.local? = some (kind, n) →
    ∃ x, g.locals.lookup x = some n ∧ kind = Kind.ofTy (c.table.typeOf x)
  argument : ∀ kind n, i.argument? = some (kind, n) →
    ∃ x, c.arguments.idxOf? x = some n ∧ kind = Kind.ofTy (c.table.typeOf x)

/-- All instructions of the code do so. -/
def Code.Addressed (c : Context) (g : Frame) (code : Code) : Prop :=
  ∀ i ∈ code, i.Addressed c g

open Machine.Frame

variable {c : Context} {s : ScopeId} {f g : Frame}

/-- An instruction that accesses nothing. -/
theorem Instruction.Addressed.of_none {i : Instruction} (hlocal : i.local? = none)
    (hargument : i.argument? = none) : i.Addressed c g where
  slot kind n h := by
    rw [hlocal] at h
    cases h
  argument kind n h := by
    rw [hargument] at h
    cases h

theorem Instruction.Addressed.of_isPlain {i : Instruction} (h : i.isPlain = true) :
    i.Addressed c g := by
  have hnone : i.local? = none ∧ i.argument? = none := by
    cases i <;> simp_all [isPlain, local?, argument?]
  exact .of_none hnone.1 hnone.2

namespace Code.Addressed

variable {a b : Code}

theorem nil : Code.Addressed c g [] := fun _ hi => absurd hi List.not_mem_nil

theorem append (ha : a.Addressed c g) (hb : b.Addressed c g) : (a ++ b).Addressed c g := by
  intro i hi
  rcases List.mem_append.mp hi with hi | hi
  · exact ha i hi
  · exact hb i hi

theorem one {i : Instruction} (h : i.Addressed c g) : Code.Addressed c g [i] :=
  fun _ hj => List.mem_singleton.mp hj ▸ h

/-- A single instruction that accesses nothing. -/
theorem plain {i : Instruction} (hlocal : i.local? = none) (hargument : i.argument? = none) :
    Code.Addressed c g [i] :=
  one (.of_none hlocal hargument)

/-- An instruction that is left out if there is nothing to build it from. -/
theorem optional {α : Type} {build : α → Instruction} (hlocal : ∀ x, (build x).local? = none)
    (hargument : ∀ x, (build x).argument? = none) (x : Option α) :
    Code.Addressed c g (x.toList.map build) := by
  cases x with
  | none => exact nil
  | some x => exact plain (hlocal x) (hargument x)

end Code.Addressed

/-- A variable that has a slot is accessed there. -/
theorem addressed_store (x : SymbolId) {n : Nat} (h : g.locals.lookup x = some n) :
    (Instruction.store (Kind.ofTy (c.table.typeOf x)) n).Addressed c g where
  slot kind m h' := by
    obtain ⟨rfl, rfl⟩ := Prod.mk.inj (Option.some.inj h')
    exact ⟨x, h, rfl⟩
  argument kind m h' := by cases h'

/-- Where a variable is kept, it is accessed with the kind of its type. -/
theorem Context.addressed_storage? {name : String} {storage : Storage} {type : Ty} {f' : Frame}
    (h : c.storage? s name f = (some (storage, type), f')) (hg : Grows c.table f' g) :
    (storage.load (Kind.ofTy type)).Addressed c g ∧
      (storage.store (Kind.ofTy type)).Addressed c g := by
  unfold storage? at h
  cases hx : c.table.resolve s name with
  | none => simp [hx] at h
  | some x =>
    -- A name is an argument or a local, and each kind of access leaves the other condition void.
    cases hposition : c.arguments.idxOf? x with
    | some position =>
      simp only [hx, hposition, Prod.mk.injEq, Option.some.injEq] at h
      obtain ⟨⟨rfl, rfl⟩, rfl⟩ := h
      constructor
      all_goals
        refine ⟨fun kind n hn => (by cases hn), fun kind n hn => ?_⟩
        obtain ⟨rfl, rfl⟩ := Prod.mk.inj (Option.some.inj hn)
        exact ⟨x, hposition, rfl⟩
    | none =>
      simp only [hx, hposition, Prod.mk.injEq, Option.some.injEq] at h
      obtain ⟨⟨rfl, rfl⟩, rfl⟩ := h
      -- The frame only grows after the access, so the slot is still the one of the variable.
      have hslot := hg.lookup (lookup_slot x (c.table.typeOf x))
      constructor
      all_goals
        refine ⟨fun kind n hn => ?_, fun kind n hn => (by cases hn)⟩
        obtain ⟨rfl, rfl⟩ := Prod.mk.inj (Option.some.inj hn)
        exact ⟨x, hslot, rfl⟩

theorem Context.addressed_load (name : String) (hg : Grows c.table (c.load s name f).frame g) :
    (c.load s name f).code.Addressed c g := by
  unfold load at hg ⊢
  split at hg
  next hstorage => exact .one (addressed_storage? hstorage hg).1
  next => exact .nil

theorem Context.addressed_store (name : String) (hg : Grows c.table (c.store s name f).2 g) :
    (c.store s name f).1.Addressed c g := by
  unfold store at hg ⊢
  split at hg
  next hstorage => exact .one (addressed_storage? hstorage hg).2
  next => exact .nil

/-- The code of an expression loads variables from where they are in every later frame. -/
theorem Composed.addressed {code : Code} {f' : Frame} (h : Composed c s f code f')
    (hg : Grows c.table f' g) : code.Addressed c g := by
  induction h with
  | nil => exact .nil
  | plain _ hplain => exact .one (.of_isPlain hplain)
  | load _ name => exact Context.addressed_load name hg
  | compare f kind condition =>
    intro i hi
    simp only [Machine.compare, List.mem_cons, List.not_mem_nil, or_false] at hi
    rcases hi with rfl | rfl | rfl | rfl | rfl | rfl <;> exact .of_none rfl rfl
  | append _ hb iha ihb => exact (iha (hb.grows.trans hg)).append (ihb hg)

/-! ## Arguments -/

theorem Context.getElem?_of_idxOf? {x : SymbolId} {position : Nat}
    (h : c.arguments.idxOf? x = some position) : c.arguments[position]? = some x := by
  obtain ⟨hlt, heq, -⟩ := List.findIdx?_eq_some_iff_getElem.mp h
  rw [List.getElem?_eq_getElem hlt, eq_of_beq heq]

/-- The signature gives an argument the type of its symbol. -/
theorem Context.parameter_of_idxOf? {signature : Signature}
    (h : signature.parameters = c.arguments.map c.table.typeOf ∨ c.arguments = []) {x : SymbolId}
    {position : Nat} (hx : c.arguments.idxOf? x = some position) :
    signature.parameters[position]? = some (c.table.typeOf x) := by
  rcases h with h | h
  · rw [h, List.getElem?_map, getElem?_of_idxOf? hx]
    rfl
  · rw [h] at hx
    cases hx

end Machine

section Statements

open Machine.Frame

variable {c : Context} {m : ScopeMap}

theorem Expr.addressed_emit {s : ScopeId} (e : Expr L) {f g : Frame}
    (hg : Grows c.table (e.emit c s f).frame g) : (e.emit c s f).code.Addressed c g :=
  (e.composed_emit f).addressed hg

mutual

/-- The code of a statement accesses variables where they are in every later frame. -/
theorem Stmt.Emits.addressed {s : ScopeId} {f f' g : Frame} {code : Code} :
    {st : Stmt L NodeId} → st.Emits c m s f code f' → Grows c.table f' g → code.Addressed c g
  | _, .undeclared _, _ => .nil
  | _, .declare _, _ => .nil
  | _, @Stmt.Emits.declareWith _ _ _ _ _ _ _ value _ x _, hg => by
    have hvalue := value.grows_emit (c := c) (s := s) (f.slot x (c.table.typeOf x)).2
    -- The slot that was given first is still the one of the variable.
    exact (value.addressed_emit hg).append
      (.one (addressed_store x ((hvalue.trans hg).lookup (lookup_slot x _))))
  | _, .assign, hg =>
    (Expr.addressed_emit _ ((Context.grows_store _ _).trans hg)).append
      (Context.addressed_store _ hg)
  | _, .assignAt h₁ h₂, hg => by
    subst h₁ h₂
    -- The frames are nested in the order of evaluation: target, position, value.
    have hposition := (Expr.grows_emit _ _).trans hg
    exact (((Context.addressed_load _ ((Expr.grows_emit _ _).trans hposition)).append
      (Expr.addressed_emit _ hposition)).append (Expr.addressed_emit _ hg)).append
      (.optional (fun _ => rfl) (fun _ => rfl) _)
  | _, .ifThen h₁ hyes, hg => by
    subst h₁
    exact (((Expr.addressed_emit _ (hyes.grows.trans hg)).append (.plain rfl rfl)).append
      (hyes.addressed hg)).append (.plain rfl rfl)
  | _, .ifElse h₁ hyes hno, hg => by
    subst h₁
    -- Handing out a label leaves the locals alone.
    have hrest := (Grows.labels _ 1).trans (hno.grows.trans hg)
    have hpair : ∀ l l', Code.Addressed c g [.jump l, .label l'] :=
      fun l l' => Code.Addressed.append (.plain rfl rfl) (.plain rfl rfl)
    exact (((((Expr.addressed_emit _ (hyes.grows.trans hrest)).append (.plain rfl rfl)).append
      (hyes.addressed hrest)).append (hpair _ _)).append (hno.addressed hg)).append (.plain rfl rfl)
  | _, .loop h₁ hbody, hg => by
    subst h₁
    have hpair : ∀ l l', Code.Addressed c g [.jump l, .label l'] :=
      fun l l' => Code.Addressed.append (.plain rfl rfl) (.plain rfl rfl)
    have hcondition := Expr.addressed_emit _ (hbody.grows.trans hg)
    exact (((Code.Addressed.append (.plain rfl rfl) hcondition).append (.plain rfl rfl)).append
      (hbody.addressed hg)).append (hpair _ _)
  | _, .ret, _ => .plain rfl rfl
  | _, .newline, _ => .plain rfl rfl
  | _, .retValue, hg => (Expr.addressed_emit _ hg).append (.plain rfl rfl)
  | _, .print, hg => (Expr.addressed_emit _ hg).append (.plain rfl rfl)
  | _, @Stmt.Emits.call _ _ _ _ _ callee arguments _ type transfer hcall, hg => by
    have htransfer := (composed_callOf (c := c) (s := s) c.table s callee.text arguments.length
      (Expr.emitAll c s arguments f).2)
    rw [hcall] at htransfer
    -- A call that returns a value leaves it on the stack, and the statement pops it.
    refine (((Expr.composed_emitAll arguments f).append htransfer).addressed hg).append ?_
    split_ifs
    · exact .nil
    · exact .plain rfl rfl

theorem Block.Emits.addressed {f f' g : Frame} {code : Code} :
    {b : Block L NodeId} → b.Emits c m f code f' → Grows c.table f' g → code.Addressed c g
  | _, .mk _ hsts, hg => hsts.addressed hg

theorem Block.EmitsAll.addressed {s : ScopeId} {f f' g : Frame} {code : Code} :
    {sts : List (Stmt L NodeId)} → Block.EmitsAll c m s sts f code f' → Grows c.table f' g →
      code.Addressed c g
  | _, .nil, _ => .nil
  | _, .cons hst hsts, hg => (hst.addressed (hsts.grows.trans hg)).append (hsts.addressed hg)

end

end Statements

/-! ## Routines -/

/-- The slots of a routine: variables have slots behind the arguments, without overlaps and gaps,
and every access of a variable or an argument has the kind of its type. -/
structure Machine.Routine.LaidOut (t : Table) (r : Routine) (slot? : SymbolId → Option Nat) :
    Prop where
  lower : ∀ x n, slot? x = some n → r.signature.argumentSlots ≤ n
  upper : ∀ x n, slot? x = some n → n + (Kind.ofTy (t.typeOf x)).width ≤ r.slots
  apart : ∀ x y n n', slot? x = some n → slot? y = some n' → x ≠ y →
    n + (Kind.ofTy (t.typeOf x)).width ≤ n' ∨ n' + (Kind.ofTy (t.typeOf y)).width ≤ n
  covered : ∀ n, r.signature.argumentSlots ≤ n → n < r.slots →
    ∃ x start, slot? x = some start ∧ start ≤ n ∧ n < start + (Kind.ofTy (t.typeOf x)).width
  access : ∀ i ∈ r.body, ∀ kind n, i.local? = some (kind, n) →
    ∃ x, slot? x = some n ∧ kind = Kind.ofTy (t.typeOf x)
  argument : ∀ i ∈ r.body, ∀ kind n, i.argument? = some (kind, n) →
    ∃ type, r.signature.parameters[n]? = some type ∧ kind = Kind.ofTy type

/-- Accesses that overlap are of the same slot and have the same kind. -/
theorem Machine.Routine.LaidOut.eq_of_overlap {t : Table} {r : Routine}
    {slot? : SymbolId → Option Nat} (h : r.LaidOut t slot?) {i j : Instruction} (hi : i ∈ r.body)
    (hj : j ∈ r.body) {kind kind' : Kind} {n n' : Nat} (haccess : i.local? = some (kind, n))
    (haccess' : j.local? = some (kind', n')) (hn : n < n' + kind'.width)
    (hn' : n' < n + kind.width) : n = n' ∧ kind = kind' := by
  obtain ⟨x, hx, rfl⟩ := h.access i hi kind n haccess
  obtain ⟨y, hy, rfl⟩ := h.access j hj kind' n' haccess'
  by_cases hxy : x = y
  · subst hxy
    exact ⟨Option.some.inj (hx.symm.trans hy), rfl⟩
  · -- Different variables do not overlap.
    rcases h.apart x y n n' hx hy hxy with h | h
    · exact absurd h (Nat.not_le_of_lt hn')
    · exact absurd h (Nat.not_le_of_lt hn)

theorem Outline.Yields.laidOut {t : Table} {m : ScopeMap} {o : Outline L} {r : Routine}
    {code : Code} {f : Frame} (h : o.Yields t m r code f) :
    r.LaidOut t fun x => f.locals.lookup x := by
  have hgrows := h.emits.grows
  have hlaid : f.Laid t r.signature.argumentSlots := by
    rw [h.signature]
    exact hgrows.laid (Frame.laid_start t _)
  have hcovered : f.Covered t r.signature.argumentSlots := by
    rw [h.signature]
    exact hgrows.covered (Frame.covered_start t _)
  have haddressed : r.body.Addressed (o.context t) f := by
    rw [h.body]
    refine (h.emits.addressed (.refl f)).append ?_
    unfold ending
    split_ifs
    · exact .plain rfl rfl
    · exact .nil
  refine ⟨hlaid.lower, ?_, hlaid.apart, ?_, ?_, ?_⟩
  · rw [h.slots]
    exact hlaid.upper
  · rw [h.slots]
    exact hcovered
  · intro i hi kind n haccess
    exact (haddressed i hi).slot kind n haccess
  · intro i hi kind n haccess
    obtain ⟨x, hx, rfl⟩ := (haddressed i hi).argument kind n haccess
    -- The arguments are the parameters of the signature, one by one.
    have hparameter := Context.parameter_of_idxOf? (c := o.context t) h.parameters hx
    exact ⟨_, h.signature ▸ hparameter, rfl⟩

end Primer
