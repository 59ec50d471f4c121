import Primer.Log.Generation
import Primer.Proofs.Log.Passes
import Primer.Proofs.Machine.Frame

/-!
# Generators with a log generate the same

A generator with a log infers types on the way. Nothing is told by that, so the script comes out as
it does without a log (`Program.toScriptM_eq`).

Machine code comes out the same too, with an event for each function (`Function.emitM?_eq`). Here
the counts of a frame are looked at in every step, and there only in the end. This makes no
difference since they never go down: if they overflow in a step, they are still out of range in
the end (`Frame.Grows.inRange`).
-/

namespace Primer

open Machine

variable {L : Type}

/-! ## Scripts -/

section Scripts

variable (t : Table) (m : ScopeMap)

private theorem Expr.toScriptAllM_of (s : ScopeId) {es : List (Expr L)}
    (ih : ∀ e ∈ es, e.toScriptM t s = pure (e.toScript t s)) :
    Expr.toScriptAllM t s es = pure (Expr.toScriptAll t s es) := by
  induction es with
  | nil => rfl
  | cons e es ihs =>
    obtain ⟨he, hes⟩ := List.forall_mem_cons.mp ih
    simp [Expr.toScriptAllM, Expr.toScriptAll, he, ihs hes]

/-- Writing an expression tells the log nothing, though it may infer types. -/
theorem Expr.toScriptM_eq (s : ScopeId) (e : Expr L) : e.toScriptM t s = pure (e.toScript t s) := by
  induction e using Expr.inductionOn with
  | int _ _ | float _ _ | bool _ _ | char _ _ | str _ _ | read _ _ => rfl
  | call _ callee arguments ih => simp [Expr.toScriptM, Expr.toScript, Expr.toScriptAllM_of t s ih]
  | array _ elements ih => simp [Expr.toScriptM, Expr.toScript, Expr.toScriptAllM_of t s ih]
  | index _ _ _ ih | length _ _ ih | paren _ _ ih | negate _ _ ih | newArray _ _ _ ih =>
    simp [Expr.toScriptM, Expr.toScript, ih]
  | binary _ op lhs rhs ihl ihr =>
    by_cases hdiv : op = .div
    · simp [Expr.toScriptM, Expr.toScript, ihl, ihr, hdiv, Expr.typeInM_eq]
    · simp [Expr.toScriptM, Expr.toScript, ihl, ihr, hdiv]

theorem Expr.mapM_toScriptM (s : ScopeId) (value : Option (Expr L)) :
    value.mapM (·.toScriptM t s) = pure (value.map (·.toScript t s)) := by
  cases value with
  | none => rfl
  | some e => simp [Expr.toScriptM_eq]

private theorem Block.toScriptM_of {b : Block L NodeId}
    (ih : ∀ st ∈ b.statements, ∀ s, st.toScriptM t m s = pure (st.toScript t m s)) :
    b.toScriptM t m = pure (b.toScript t m) := by
  -- Once the scope is known, the statements follow one after the other.
  have hall : ∀ (s : ScopeId) (sts : List (Stmt L NodeId)),
      (∀ st ∈ sts, st.toScriptM t m s = pure (st.toScript t m s)) →
        Block.toScriptAllM t m s sts = pure (Block.toScriptAll t m s sts) := by
    intro s sts hsts
    induction sts with
    | nil => rfl
    | cons st sts ihs =>
      obtain ⟨hst, hsts⟩ := List.forall_mem_cons.mp hsts
      simp [Block.toScriptAllM, Block.toScriptAll, hst, ihs hsts]
  obtain ⟨node, sts⟩ := b
  -- An empty block is written without a look at its scope.
  cases sts with
  | nil => rfl
  | cons st sts =>
    obtain ⟨hst, hsts⟩ := List.forall_mem_cons.mp ih
    rw [Block.toScriptM, Block.toScript]
    cases m.get? node with
    | none => rfl
    | some s => simp [hst s, hall s sts fun st hmem => hsts st hmem s]

theorem Stmt.toScriptM_eq (s : ScopeId) (st : Stmt L NodeId) :
    st.toScriptM t m s = pure (st.toScript t m s) := by
  induction st using Stmt.inductionOn generalizing s with
  | declare _ type name value | ret _ node value | print _ newline value =>
    simp [Stmt.toScriptM, Stmt.toScript, Expr.mapM_toScriptM]
  | assign _ target value => simp [Stmt.toScriptM, Stmt.toScript, Expr.toScriptM_eq]
  | assignAt _ target position value => simp [Stmt.toScriptM, Stmt.toScript, Expr.toScriptM_eq]
  | call _ callee arguments =>
    simp [Stmt.toScriptM, Stmt.toScript, Expr.toScriptM_eq, Expr.toScript]
  | ifThen _ condition yes ih | loop _ condition yes ih =>
    simp [Stmt.toScriptM, Stmt.toScript, Expr.toScriptM_eq, Block.toScriptM_of t m ih]
  | ifElse _ condition yes no ihy ihn =>
    simp [Stmt.toScriptM, Stmt.toScript, Expr.toScriptM_eq, Block.toScriptM_of t m ihy,
      Block.toScriptM_of t m ihn]

theorem Block.toScriptM_eq (b : Block L NodeId) : b.toScriptM t m = pure (b.toScript t m) :=
  Block.toScriptM_of t m fun st _ s => st.toScriptM_eq t m s

theorem Function.toScriptM?_eq (f : Function L NodeId) :
    f.toScriptM? t m = pure (f.toScript? t m) := by
  rw [Function.toScriptM?, Function.toScript?]
  cases f.body with
  | none => rfl
  | some body =>
    cases m.get? f.mark with
    | none => rfl
    | some s =>
      cases hs : t.functionOf s with
      | none => simp [hs]
      | some x => simp [hs, Block.toScriptM_eq]

theorem EntryPoint.toScriptM?_eq (e : EntryPoint L NodeId) :
    e.toScriptM? t m = pure (e.toScript? t m) := by
  rw [EntryPoint.toScriptM?, EntryPoint.toScript?]
  cases m.get? e.mark with
  | none => rfl
  | some s => simp [Block.toScriptM_eq]

/-- The script of a program is the same with a log, and the log is told nothing while it is made. -/
theorem Program.toScriptM_eq (p : Program L) : p.toScriptM t m = pure (p.toScript t m) := by
  have hfunctions : (fun f : Function L NodeId => f.toScriptM? t m) =
      fun f => pure (f.toScript? t m) := funext fun f => f.toScriptM?_eq t m
  have hmains : (fun e : EntryPoint L NodeId => e.toScriptM? t m) =
      fun e => pure (e.toScript? t m) := funext fun e => e.toScriptM?_eq t m
  rw [Program.toScriptM, hfunctions, hmains]
  simp [Program.toScript, List.filterMap_map]

end Scripts

/-! ## Counts of a frame -/

namespace Machine.Frame

variable {t : Table} {f g : Frame} {α β : Type} {a : α} {b : β}

/-- Counts never go down. -/
theorem Grows.inRange (h : Grows t f g) : g.InRange → f.InRange := by
  -- Only two rules change a count, and both add to it.
  induction h with
  | refl f => exact id
  | slot f x =>
    rintro ⟨hslots, hlabels⟩
    unfold Frame.slot at hslots hlabels
    cases hx : f.locals.lookup x with
    | some n =>
      simp only [hx] at hslots hlabels
      exact ⟨hslots, hlabels⟩
    | none =>
      simp only [hx] at hslots hlabels
      exact ⟨by omega, hlabels⟩
  | labels f n =>
    rintro ⟨hslots, hlabels⟩
    have hlabels : f.nextLabel + n ≤ 4294967295 := hlabels
    exact ⟨hslots, by omega⟩
  | trans _ _ ihf ihg => exact fun h => ihf (ihg h)

theorem finish_of_inRange (h : f.InRange) (a : α) : f.finish a = .ok a :=
  if_pos h

/-- Goes on with what was made. Counts that have overflowed are out of range in the end too. -/
theorem finish_bind {next : α → Logged β} (hrange : g.InRange → f.InRange)
    (hnext : f.InRange → next a = liftM (g.finish b)) :
    ((liftM (f.finish a) : Logged α) >>= next) = liftM (g.finish b) := by
  by_cases hf : f.InRange
  · rw [finish_of_inRange hf, ← hnext hf]
    rfl
  · have hg : ¬g.InRange := fun h => hf (hrange h)
    rw [finish, finish, if_neg hf, if_neg hg]
    rfl

theorem finish_map (f : Frame) (a : α) (h : α → β) :
    ((liftM (f.finish a) : Logged α) >>= fun x => pure (h x)) = liftM (f.finish (h a)) :=
  finish_bind id fun hf => by rw [finish_of_inRange hf]; rfl

theorem pure_eq_finish (h : f.InRange) (a : α) : (pure a : Logged α) = liftM (f.finish a) := by
  rw [finish_of_inRange h]
  rfl

end Machine.Frame

/-! ## Machine code -/

section Emission

open Machine.Frame

variable {c : Context} {m : ScopeMap} {s : ScopeId}

private theorem Expr.emitAllM_of {es : List (Expr L)}
    (ih : ∀ e ∈ es, ∀ {f : Frame}, f.InRange → e.emitM c s f = (e.emit c s f).finish) {f : Frame}
    (hf : f.InRange) :
    Expr.emitAllM c s es f =
      liftM ((Expr.emitAll c s es f).2.finish (Expr.emitAll c s es f)) := by
  induction es generalizing f with
  | nil => exact pure_eq_finish hf _
  | cons e es ihs =>
    obtain ⟨he, hes⟩ := List.forall_mem_cons.mp ih
    rw [Expr.emitAllM, he hf]
    refine finish_bind (Expr.grows_emitAll es _).inRange fun hfirst => ?_
    rw [ihs hes hfirst]
    exact finish_map _ _ _

private theorem Expr.emitElementsM_of (element : Element) {es : List (Expr L)}
    (ih : ∀ e ∈ es, ∀ {f : Frame}, f.InRange → e.emitM c s f = (e.emit c s f).finish) (n : Nat)
    {f : Frame} (hf : f.InRange) :
    Expr.emitElementsM c s element n es f =
      liftM ((Expr.emitElements c s element n es f).2.finish
        (Expr.emitElements c s element n es f)) := by
  induction es generalizing n f with
  | nil => exact pure_eq_finish hf _
  | cons e es ihs =>
    obtain ⟨he, hes⟩ := List.forall_mem_cons.mp ih
    rw [Expr.emitElementsM, he hf]
    refine finish_bind (Expr.grows_emitElements element (n + 1) es _).inRange fun hfirst => ?_
    rw [ihs hes (n + 1) hfirst]
    exact finish_map _ _ _

/-- Emitting an expression step by step gives what it gives at once, if the counts do not overflow
in the end. -/
theorem Expr.emitM_eq (e : Expr L) {f : Frame} (hf : f.InRange) :
    e.emitM c s f = (e.emit c s f).finish := by
  induction e using Expr.inductionOn generalizing f with
  | int _ _ | float _ _ | bool _ _ | char _ _ | str _ _ => exact pure_eq_finish hf _
  | read _ name => rfl
  | paren _ operand ih => exact ih hf
  | call _ callee arguments ih =>
    rw [Expr.emitM, Expr.emitAllM_of ih hf]
    exact finish_map _ _ _
  | index _ base position ih =>
    rw [Expr.emitM]
    -- The base may take a slot, so the position is emitted only if that one was left.
    refine finish_bind (position.grows_emit _).inRange fun hbase => ?_
    rw [ih hbase]
    exact finish_map _ _ _
  | length _ operand ih =>
    rw [Expr.emitM, ih hf]
    exact finish_map _ _ _
  | negate _ operand ih =>
    rw [Expr.emitM, ih hf]
    exact finish_map _ _ _
  | binary _ op lhs rhs ihl ihr =>
    rw [Expr.emitM, ihl hf]
    -- Whatever comes after the left operand only adds to the counts.
    refine finish_bind ((rhs.grows_emit _).trans (grows_operator c.table op _ _)).inRange
      fun hlhs => ?_
    rw [ihr hlhs]
    refine finish_bind (grows_operator c.table op _ _).inRange fun _ => ?_
    exact finish_map _ _ _
  | array _ elements ih =>
    -- The first element is inferred in silence, so the type is there at no cost.
    have htype : elements.head?.mapM (·.typeInM c.table s) =
        (pure (elements.head?.map (·.typeIn c.table s)) : Logged _) := by
      cases elements.head? with
      | none => rfl
      | some first => simp [Expr.typeInM_eq]
    rw [Expr.emitM, htype, pure_bind, Expr.emit]
    generalize (elements.head?.map fun e => e.typeIn c.table s).getD Ty.error = type
    dsimp only
    cases Element.ofTy? type with
    | none => exact pure_eq_finish hf _
    | some element =>
      dsimp only
      rw [Expr.emitElementsM_of element ih 0 hf]
      exact finish_map _ _ _
  | newArray _ element size ih =>
    rw [Expr.emitM, ih hf]
    exact finish_map _ _ _

/-! ### Statements -/

/-- The code of a statement, unless the counts of its frame overflowed. -/
def Machine.settle (r : Except Fault (Code × Frame)) : Except Fault (Code × Frame) := do
  let made ← r
  made.2.finish made

/-- Emission step by step agrees with emission at once, from a given frame. If the counts of that
frame have overflowed already, nothing but an overflow comes out at once. -/
structure Machine.SameOutcome (f : Frame) (r : Except Fault (Code × Frame))
    (x : Logged (Code × Frame)) : Prop where
  inRange : f.InRange → x = liftM (settle r)
  overflow : ¬f.InRange → settle r = .error .frameOverflow

namespace Machine.SameOutcome

variable {t : Table} {f g : Frame} {r : Except Fault (Code × Frame)} {x : Logged (Code × Frame)}

protected theorem pure (f : Frame) (code : Code) :
    SameOutcome f (.ok (code, f)) (pure (code, f)) where
  inRange hf := pure_eq_finish hf _
  overflow hf := if_neg hf

/-- The rest is not looked at if the counts have overflowed, but they stay so anyway. -/
theorem finish_bind {α : Type} {a : α} {next : α → Logged (Code × Frame)}
    (hnext : SameOutcome g r (next a)) :
    ((liftM (g.finish a) : Logged α) >>= next) = liftM (settle r) := by
  by_cases hrange : g.InRange
  · rw [finish_of_inRange hrange, ← hnext.inRange hrange]
    rfl
  · rw [hnext.overflow hrange, finish, if_neg hrange]
    rfl

/-- A step that makes the frame grow, and then the rest. -/
theorem step {α : Type} {a : α} {next : α → Logged (Code × Frame)} (hg : Grows t f g)
    (hnext : SameOutcome g r (next a)) :
    SameOutcome f r ((liftM (g.finish a) : Logged α) >>= next) where
  inRange _ := hnext.finish_bind
  overflow hf := hnext.overflow fun h => hf (hg.inRange h)

/-- An expression, and then the rest. -/
theorem emit (e : Expr L) {next : Emitted → Logged (Code × Frame)}
    (hnext : SameOutcome (e.emit c s f).frame r (next (e.emit c s f))) :
    SameOutcome f r (e.emitM c s f >>= next) where
  inRange hf := by
    rw [e.emitM_eq hf]
    exact (step (e.grows_emit f) hnext).inRange hf
  overflow hf := hnext.overflow fun h => hf ((e.grows_emit f).inRange h)

/-- A statement or a block, and then the rest. -/
protected theorem bind {rest : Code × Frame → Except Fault (Code × Frame)}
    {next : Code × Frame → Logged (Code × Frame)} (hx : SameOutcome f r x)
    (hnext : ∀ code g, SameOutcome g (rest (code, g)) (next (code, g))) :
    SameOutcome f (r >>= rest) (x >>= next) := by
  -- If the first part has no code, both stop at its fault, unless an overflow came before.
  cases r with
  | error fault =>
    refine ⟨fun hf => ?_, fun hf => hx.overflow hf⟩
    rw [hx.inRange hf]
    rfl
  | ok made =>
    obtain ⟨code, g⟩ := made
    refine ⟨fun hf => ?_, fun hf => (hnext code g).overflow fun hg => ?_⟩
    · rw [hx.inRange hf]
      exact (hnext code g).finish_bind
    -- The first part overflows if the frame is out of range, so its own frame is too.
    · have hover : g.finish (code, g) = .error .frameOverflow := hx.overflow hf
      rw [finish_of_inRange hg] at hover
      cases hover

end Machine.SameOutcome

private theorem Block.sameOutcome_of {b : Block L NodeId}
    (ih : ∀ st ∈ b.statements, ∀ s f, SameOutcome f (st.emit c m s f) (st.emitM c m s f))
    (f : Frame) : SameOutcome f (b.emit c m f) (b.emitM c m f) := by
  obtain ⟨node, sts⟩ := b
  rw [Block.emit, Block.emitM]
  cases m.scopeOf node with
  | error fault =>
    -- Without a scope for the block there is no code, but an overflow comes first.
    constructor
    · intro hf
      have hfault : f.firstFault fault = fault := if_pos hf
      simp only [Except.mapError, hfault]
      rfl
    · intro hf
      have hfault : f.firstFault fault = .frameOverflow := if_neg hf
      simp only [Except.mapError, hfault]
      rfl
  | ok s =>
    change SameOutcome f (Block.emitAll c m s sts f) (Block.emitAllM c m s sts f)
    induction sts generalizing f with
    | nil => exact .pure f []
    | cons st sts ihs =>
      obtain ⟨hst, hsts⟩ := List.forall_mem_cons.mp ih
      exact (hst s f).bind fun first g => (ihs g hsts).bind fun rest g => .pure g _

/-- Emitting a statement step by step agrees with emitting it at once. -/
theorem Stmt.sameOutcome_emit (st : Stmt L NodeId) (s : ScopeId) (f : Frame) :
    SameOutcome f (st.emit c m s f) (st.emitM c m s f) := by
  induction st using Stmt.inductionOn generalizing s f with
  | declare _ type name value =>
    rw [Stmt.emit, Stmt.emitM]
    -- A name that is not declared here takes no slot.
    cases c.table.localResolve s name.text with
    | none => exact .pure f []
    | some x =>
      refine .step (.slot (t := c.table) f x) ?_
      cases value with
      | none => exact .pure _ _
      | some value => exact .emit value (.pure _ _)
  | assign _ target value =>
    exact .emit value (.step (Context.grows_store _ _) (.pure _ _))
  | assignAt _ target position value =>
    exact .step (Context.grows_load _ _) (.emit position (.emit value (.pure _ _)))
  | ifThen _ condition yes ih =>
    refine .step (.labels (t := c.table) f 1) (.emit condition ?_)
    exact (Block.sameOutcome_of ih _).bind fun code g => .pure g _
  | ifElse _ condition yes no ihy ihn =>
    refine .step (.labels (t := c.table) f 1) (.emit condition ?_)
    -- The second label comes between the blocks, where `g` is the frame.
    refine (Block.sameOutcome_of ihy _).bind fun code g => .step (.labels (t := c.table) g 1) ?_
    exact (Block.sameOutcome_of ihn _).bind fun code g => .pure g _
  | loop _ condition body ih =>
    refine .step (.labels (t := c.table) f 2) (.emit condition ?_)
    exact (Block.sameOutcome_of ih _).bind fun code g => .pure g _
  | ret _ node value =>
    cases value with
    | none => exact .pure f _
    | some value => exact .emit value (.pure _ _)
  | print _ newline value =>
    cases value with
    | none => exact .pure f _
    | some value => exact .emit value (.pure _ _)
  | call p callee arguments => exact .emit (Expr.call p callee arguments) (.pure _ _)

theorem Block.sameOutcome_emit (b : Block L NodeId) (f : Frame) :
    SameOutcome f (b.emit c m f) (b.emitM c m f) :=
  Block.sameOutcome_of (fun st _ s f => st.sameOutcome_emit s f) f

/-! ### Items -/

/-- What is made of the code of a block from the first frame on. -/
private theorem Block.startM_bind (b : Block L NodeId) (signature : Signature) {α : Type}
    (next : Code × Frame → Logged α) :
    (do
      let frame ← Frame.startM signature
      let made ← b.emitM c m frame
      next made) = (do
      let made ← settle (b.emit c m (.start signature.argumentSlots))
      next made) := by
  rw [← bind_assoc]
  exact congrArg (· >>= next) (b.sameOutcome_emit _).finish_bind

/-- It makes no difference whether the counts are looked at before or after something is made of the
code. -/
private theorem settle_bind {α β : Type} (r : Except Fault (Code × Frame)) (made : Code × Frame → α)
    {next : Code × Frame → Logged β} {next' : α → Logged β}
    (hnext : ∀ x, next x = next' (made x)) :
    ((liftM (settle r) : Logged (Code × Frame)) >>= next) =
      ((liftM (r >>= fun x => x.2.finish (made x)) : Logged α) >>= next') := by
  cases r with
  | error fault => rfl
  | ok x =>
    change ((liftM (x.2.finish x) : Logged _) >>= next) =
      ((liftM (x.2.finish (made x)) : Logged _) >>= next')
    by_cases hrange : x.2.InRange
    · rw [finish_of_inRange hrange, finish_of_inRange hrange]
      exact hnext x
    · rw [finish, finish, if_neg hrange, if_neg hrange]
      rfl

/-- A function is emitted as it is without a log, and the log is told of its routine. -/
theorem Function.emitM?_eq (t : Table) (m : ScopeMap) (f : Function L NodeId) :
    f.emitM? t m = (do
      let routine ← f.emit? t m
      routine.forM Routine.tell
      return routine) := by
  unfold Function.emitM? Function.emit?
  generalize (m.get? f.mark).bind t.functionOf = found
  cases f.body with
  | none => rfl
  | some body =>
    cases found with
    | none => rfl
    | some symbol => exact (body.startM_bind _ _).trans (settle_bind _ _ fun _ => rfl)

theorem EntryPoint.emitM?_eq (t : Table) (m : ScopeMap) (e : EntryPoint L NodeId) :
    e.emitM? t m = liftM (e.emit? t m) := by
  unfold EntryPoint.emitM? EntryPoint.emit?
  cases m.get? e.mark with
  | none => rfl
  | some _ =>
    refine (e.body.startM_bind _ _).trans (Eq.trans ?_ (bind_pure _))
    exact settle_bind _ _ fun _ => rfl

end Emission

end Primer
