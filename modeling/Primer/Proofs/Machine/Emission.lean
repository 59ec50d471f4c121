import Primer.Proofs.Typing.Acceptance

/-!
# What the emission of statements yields

`Stmt.Emits` says which code and which frame a statement yields, with one rule for each form of
statement. The emitting function follows these rules (`Stmt.Emits.emit_eq`) and yields nothing else
(`Stmt.emits_of_emit`), and it does not fail on a well-typed statement
(`Stmt.WellTyped.exists_emits`). Facts about emitted code are proved by recursion on the rules.
-/

namespace Primer

open Machine

variable {L : Type}

mutual

/-- The code of a statement that is emitted in a frame, and the frame afterwards. -/
inductive Stmt.Emits (c : Context) (m : ScopeMap) :
    ScopeId → Stmt L NodeId → Frame → Code → Frame → Prop where
  /-- A variable that the scope does not bind is passed over. -/
  | undeclared {s p type name value f} (hlocal : c.table.localResolve s name.text = none) :
      Stmt.Emits c m s (.declare p type name value) f [] f
  | declare {s p type name f x} (hlocal : c.table.localResolve s name.text = some x) :
      Stmt.Emits c m s (.declare p type name none) f [] (f.slot x (c.table.typeOf x)).2
  | declareWith {s p type name value f x} (hlocal : c.table.localResolve s name.text = some x) :
      Stmt.Emits c m s (.declare p type name (some value)) f
        ((value.emit c s (f.slot x (c.table.typeOf x)).2).code ++
          [.store (Kind.ofTy (c.table.typeOf x)) (f.slot x (c.table.typeOf x)).1])
        (value.emit c s (f.slot x (c.table.typeOf x)).2).frame
  | assign {s p target value f} :
      Stmt.Emits c m s (.assign p target value) f
        ((value.emit c s f).code ++ (c.store s target.text (value.emit c s f).frame).1)
        (c.store s target.text (value.emit c s f).frame).2
  | assignAt {s p target position value f f₁ f₂} (h₁ : f₁ = (c.load s target.text f).frame)
      (h₂ : f₂ = (position.emit c s f₁).frame) :
      Stmt.Emits c m s (.assignAt p target position value) f
        ((c.load s target.text f).code ++ (position.emit c s f₁).code ++
          (value.emit c s f₂).code ++
          ((c.load s target.text f).type.element?.bind Element.ofTy?).toList.map .arrayStore)
        (value.emit c s f₂).frame
  | ifThen {s p condition yes f f₁ code f'} (h₁ : f₁ = (condition.emit c s (f.skipLabels 1)).frame)
      (hyes : Block.Emits c m yes f₁ code f') :
      Stmt.Emits c m s (.ifThen p condition yes) f
        ((condition.emit c s (f.skipLabels 1)).code ++ [.jumpIfFalse f.label] ++ code ++
          [.label f.label]) f'
  | ifElse {s p condition yes no f f₁ code f₂ code' f'}
      (h₁ : f₁ = (condition.emit c s (f.skipLabels 1)).frame)
      (hyes : Block.Emits c m yes f₁ code f₂)
      (hno : Block.Emits c m no (f₂.skipLabels 1) code' f') :
      Stmt.Emits c m s (.ifElse p condition yes no) f
        ((condition.emit c s (f.skipLabels 1)).code ++ [.jumpIfFalse f.label] ++ code ++
          [.jump f₂.label, .label f.label] ++ code' ++ [.label f₂.label]) f'
  | loop {s p condition body f f₁ code f'} (h₁ : f₁ = (condition.emit c s (f.skipLabels 2)).frame)
      (hbody : Block.Emits c m body f₁ code f') :
      Stmt.Emits c m s (.loop p condition body) f
        ([.label f.label] ++ (condition.emit c s (f.skipLabels 2)).code ++
          [.jumpIfFalse (f.skipLabels 1).label] ++ code ++
          [.jump f.label, .label (f.skipLabels 1).label]) f'
  | ret {s p node f} : Stmt.Emits c m s (.ret p node none) f [.ret none] f
  | retValue {s p node value f} :
      Stmt.Emits c m s (.ret p node (some value)) f
        ((value.emit c s f).code ++ [.ret (some (Kind.ofTy (value.emit c s f).type))])
        (value.emit c s f).frame
  | newline {s p newline f} :
      Stmt.Emits c m s (.print p newline none) f [.print none newline] f
  | print {s p newline value f} :
      Stmt.Emits c m s (.print p newline (some value)) f
        ((value.emit c s f).code ++ [.print (some (value.emit c s f).type) newline])
        (value.emit c s f).frame
  | call {s p callee arguments f type transfer}
      (hcall : callOf c.table s callee.text arguments.length = (type, transfer)) :
      Stmt.Emits c m s (.call p callee arguments) f
        ((Expr.emitAll c s arguments f).1 ++ transfer ++
          if type = .void then [] else [.pop (Kind.ofTy type)])
        (Expr.emitAll c s arguments f).2

/-- The code of a block, in the scope recorded for it. -/
inductive Block.Emits (c : Context) (m : ScopeMap) :
    Block L NodeId → Frame → Code → Frame → Prop where
  | mk {node s sts f code f'} (hnode : m.get? node = some s)
      (hsts : Block.EmitsAll c m s sts f code f') : Block.Emits c m (.mk node sts) f code f'

/-- The code of statements in order. -/
inductive Block.EmitsAll (c : Context) (m : ScopeMap) :
    ScopeId → List (Stmt L NodeId) → Frame → Code → Frame → Prop where
  | nil {s f} : Block.EmitsAll c m s [] f [] f
  | cons {s st sts f code f₁ code' f'} (hst : Stmt.Emits c m s st f code f₁)
      (hsts : Block.EmitsAll c m s sts f₁ code' f') :
      Block.EmitsAll c m s (st :: sts) f (code ++ code') f'

end

section Graph

variable {c : Context} {m : ScopeMap}

mutual

/-- The emitting function yields what the rules say. -/
theorem Stmt.Emits.emit_eq {s : ScopeId} {f f' : Frame} {code : Code} :
    {st : Stmt L NodeId} → st.Emits c m s f code f' → st.emit c m s f = .ok (code, f')
  | _, .undeclared hlocal => by simp [Stmt.emit, hlocal]
  | _, .declare hlocal => by simp [Stmt.emit, hlocal]
  | _, .declareWith hlocal => by simp [Stmt.emit, hlocal]
  | _, .assign => by simp [Stmt.emit]
  | _, .assignAt h₁ h₂ => by
    -- The frames in between are variables of the rule, so that it can be applied; here they go.
    subst h₁ h₂
    simp [Stmt.emit]
  | _, .ifThen h₁ hyes => by
    subst h₁
    simp [Stmt.emit, hyes.emit_eq, bind, Except.bind, pure, Except.pure]
  | _, .ifElse h₁ hyes hno => by
    subst h₁
    simp [Stmt.emit, hyes.emit_eq, hno.emit_eq, bind, Except.bind, pure, Except.pure]
  | _, .loop h₁ hbody => by
    subst h₁
    simp [Stmt.emit, hbody.emit_eq, bind, Except.bind, pure, Except.pure]
  | _, .ret => by simp [Stmt.emit]
  | _, .retValue => by simp [Stmt.emit]
  | _, .newline => by simp [Stmt.emit]
  | _, .print => by simp [Stmt.emit]
  | _, .call hcall => by simp [Stmt.emit, hcall]

theorem Block.Emits.emit_eq {f f' : Frame} {code : Code} :
    {b : Block L NodeId} → b.Emits c m f code f' → b.emit c m f = .ok (code, f')
  | _, .mk hnode hsts => by
    simp [Block.emit, ScopeMap.scopeOf, hnode, hsts.emit_eq, bind, Except.bind, Except.mapError]

theorem Block.EmitsAll.emit_eq {s : ScopeId} {f f' : Frame} {code : Code} :
    {sts : List (Stmt L NodeId)} → Block.EmitsAll c m s sts f code f' →
      Block.emitAll c m s sts f = .ok (code, f')
  | _, .nil => by simp [Block.emitAll]
  | _, .cons hst hsts => by
    simp [Block.emitAll, hst.emit_eq, hsts.emit_eq, bind, Except.bind, pure, Except.pure]

end

/-- A computation with a result has one in each of its steps. -/
theorem exists_of_bind_eq_ok {ε α β : Type} {x : Except ε α} {g : α → Except ε β} {r : β}
    (h : x >>= g = .ok r) : ∃ a, x = .ok a ∧ g a = .ok r := by
  cases x with
  | error e => cases h
  | ok a => exact ⟨a, rfl, h⟩

mutual

/-- What the emitting function yields follows the rules, for any tree. -/
theorem Stmt.emits_of_emit {s : ScopeId} {f f' : Frame} {code : Code} :
    {st : Stmt L NodeId} → st.emit c m s f = .ok (code, f') → st.Emits c m s f code f'
  | .declare _ _ name value, h => by
    unfold Stmt.emit at h
    -- The variable is looked up before the value is looked at, hence the order of the splits.
    split at h
    next hlocal =>
      cases h
      exact .undeclared hlocal
    next x hlocal =>
      cases value with
      | none =>
        cases h
        exact .declare hlocal
      | some value =>
        cases h
        exact .declareWith hlocal
  | .assign .., h => by
    unfold Stmt.emit at h
    cases h
    exact .assign
  | .assignAt .., h => by
    unfold Stmt.emit at h
    cases h
    exact .assignAt rfl rfl
  | .ifThen _ _ yes, h => by
    unfold Stmt.emit at h
    -- Each bind of the generator is peeled off and gives the premise for one block.
    obtain ⟨⟨codeYes, g⟩, hyes, h⟩ := exists_of_bind_eq_ok h
    cases h
    exact .ifThen rfl (Block.emits_of_emit hyes)
  | .ifElse _ _ yes no, h => by
    unfold Stmt.emit at h
    obtain ⟨⟨codeYes, g⟩, hyes, h⟩ := exists_of_bind_eq_ok h
    obtain ⟨⟨codeNo, g'⟩, hno, h⟩ := exists_of_bind_eq_ok h
    cases h
    exact .ifElse rfl (Block.emits_of_emit hyes) (Block.emits_of_emit hno)
  | .loop _ _ body, h => by
    unfold Stmt.emit at h
    obtain ⟨⟨codeBody, g⟩, hbody, h⟩ := exists_of_bind_eq_ok h
    cases h
    exact .loop rfl (Block.emits_of_emit hbody)
  | .ret _ _ none, h => by
    unfold Stmt.emit at h
    cases h
    exact .ret
  | .ret _ _ (some _), h => by
    unfold Stmt.emit at h
    cases h
    exact .retValue
  | .print _ _ none, h => by
    unfold Stmt.emit at h
    cases h
    exact .newline
  | .print _ _ (some _), h => by
    unfold Stmt.emit at h
    cases h
    exact .print
  | .call .., h => by
    unfold Stmt.emit at h
    cases h
    exact .call rfl

theorem Block.emits_of_emit {f f' : Frame} {code : Code} :
    {b : Block L NodeId} → b.emit c m f = .ok (code, f') → b.Emits c m f code f'
  | .mk node sts, h => by
    unfold Block.emit at h
    obtain ⟨s, hnode, h⟩ := exists_of_bind_eq_ok h
    cases hget : m.get? node with
    | none => simp [ScopeMap.scopeOf, hget, Except.mapError] at hnode
    | some s' =>
      obtain rfl : s' = s := by simpa [ScopeMap.scopeOf, hget, Except.mapError] using hnode
      exact .mk hget (Block.emitsAll_of_emitAll h)

theorem Block.emitsAll_of_emitAll {s : ScopeId} {f f' : Frame} {code : Code} :
    {sts : List (Stmt L NodeId)} → Block.emitAll c m s sts f = .ok (code, f') →
      Block.EmitsAll c m s sts f code f'
  | [], h => by
    unfold Block.emitAll at h
    cases h
    exact .nil
  | st :: sts, h => by
    unfold Block.emitAll at h
    obtain ⟨⟨first, g⟩, hst, h⟩ := exists_of_bind_eq_ok h
    obtain ⟨⟨rest, g'⟩, hsts, h⟩ := exists_of_bind_eq_ok h
    cases h
    exact .cons (Stmt.emits_of_emit hst) (Block.emitsAll_of_emitAll hsts)

end

/-- Statements in order, if each of them is emitted in every frame. -/
private theorem Block.exists_emitsAll {s : ScopeId} {sts : List (Stmt L NodeId)}
    (h : ∀ st ∈ sts, ∀ f, ∃ code f', Stmt.Emits c m s st f code f') (f : Frame) :
    ∃ code f', Block.EmitsAll c m s sts f code f' := by
  induction sts generalizing f with
  | nil => exact ⟨_, _, .nil⟩
  | cons st sts ih =>
    obtain ⟨code, f₁, hst⟩ := h st List.mem_cons_self f
    obtain ⟨code', f', hsts⟩ := ih (fun st hm => h st (List.mem_cons_of_mem _ hm)) f₁
    exact ⟨_, _, .cons hst hsts⟩

mutual

/-- A well-typed statement is emitted. -/
theorem Stmt.WellTyped.exists_emits {arguments : List SymbolId} {returns : Option Ty}
    {s : ScopeId} : {st : Stmt L NodeId} → st.WellTyped c.table m arguments returns s →
      ∀ f, ∃ code f', Stmt.Emits c m s st f code f'
  | .declare _ _ _ none, .declare hlocal _ _, _ => ⟨_, _, .declare hlocal⟩
  | .declare _ _ _ (some _), .declare hlocal _ _, _ => ⟨_, _, .declareWith hlocal⟩
  | _, .assign _ _, _ => ⟨_, _, .assign⟩
  | _, .assignAt _ _ _ _ _, _ => ⟨_, _, .assignAt rfl rfl⟩
  | _, .ifThen _ hyes, _ =>
    -- The frame in which the block starts is the one after the condition; unification finds it.
    have ⟨_, _, hcode⟩ := hyes.exists_emits _
    ⟨_, _, .ifThen rfl hcode⟩
  | _, .ifElse _ hyes hno, _ =>
    have ⟨_, _, hcode⟩ := hyes.exists_emits _
    have ⟨_, _, hcode'⟩ := hno.exists_emits _
    ⟨_, _, .ifElse rfl hcode hcode'⟩
  | _, .loop _ hbody, _ =>
    have ⟨_, _, hcode⟩ := hbody.exists_emits _
    ⟨_, _, .loop rfl hcode⟩
  | _, .ret _, _ => ⟨_, _, .ret⟩
  | _, .retValue _ _ _, _ => ⟨_, _, .retValue⟩
  | _, .newline, _ => ⟨_, _, .newline⟩
  | _, .print _ _ _, _ => ⟨_, _, .print⟩
  | _, .call _ _ _ _, _ => ⟨_, _, .call rfl⟩

theorem Block.WellTyped.exists_emits {arguments : List SymbolId} {returns : Option Ty} :
    {b : Block L NodeId} → b.WellTyped c.table m arguments returns →
      ∀ f, ∃ code f', Block.Emits c m b f code f'
  | _, .mk hnode hsts, f =>
    have ⟨_, _, hcode⟩ := Block.exists_emitsAll (fun st hst => (hsts st hst).exists_emits) f
    ⟨_, _, .mk hnode hcode⟩

end

end Graph

end Primer
