import Primer.Proofs.Machine.Capacity
import Primer.Proofs.Semantics.Execution

/-!
# Control flow

Which positions of a routine control can reach, if every condition can go either way. After each
instruction comes the next one, or the label that it jumps to, or nothing if it returns
(`Code.Next`).

The code of a construct jumps only to labels of its own, so control that gets into it leaves it at
its end (`Code.Leads.leaves`). Whether it gets there can be read off the tree: a block can be passed
if none of its statements always returns (`Block.passable`). From one lemma for each way of putting
code together, `Block.Emits.passes` says this of emitted code.

A routine without result has a return at its end. A routine with one has not, and nothing is asked
of the block of a function that has a result: control reaches the end of the routine, where there is
no instruction, exactly if that block can be passed (`Program.leads_end_iff_fallsOff`).
-/

namespace Primer

open Machine

variable {L I : Type}

/-! ## Ways through code -/

namespace Machine.Code

/-- Position `k` can come directly after position `n`, whichever way a condition goes. -/
inductive Next (code : Code) (n : Nat) : Nat → Prop where
  | fall {i : Instruction} (hi : code[n]? = some i) (hfall : i.fallsThrough = true) :
      Next code n (n + 1)
  | jump {i : Instruction} {l : Label} {k : Nat} (hi : code[n]? = some i)
      (hl : i.target? = some l) (hk : position? code l = some k) : Next code n k

/-- Control can come from one position to another. -/
def Leads (code : Code) : Nat → Nat → Prop :=
  Relation.ReflTransGen (Next code)

theorem getElem?_of_position? {code : Code} {l : Label} {k : Nat}
    (h : position? code l = some k) : code[k]? = some (.label l) := by
  obtain ⟨hk, hlabel, -⟩ := List.findIdx?_eq_some_iff_getElem.mp h
  rw [List.getElem?_eq_getElem hk, eq_of_beq hlabel]

theorem Next.le_length {code : Code} {n k : Nat} (h : Next code n k) : k ≤ code.length := by
  cases h with
  | fall hi _ => exact (List.getElem?_eq_some_iff.mp hi).1
  | jump _ _ hk => exact Nat.le_of_lt (List.getElem?_eq_some_iff.mp (getElem?_of_position? hk)).1

theorem Leads.le_length {code : Code} {n k : Nat} (h : Leads code n k) (hn : n ≤ code.length) :
    k ≤ code.length := by
  cases h with
  | refl => exact hn
  | tail _ h => exact h.le_length

/-- What can come after a known instruction. -/
theorem Next.cases {code : Code} {n k : Nat} {i : Instruction} (h : Next code n k)
    (hi : code[n]? = some i) :
    (i.fallsThrough = true ∧ k = n + 1) ∨
      ∃ l, i.target? = some l ∧ position? code l = some k := by
  cases h with
  | fall hj hfall =>
    obtain rfl := Option.some.inj (hj.symm.trans hi)
    exact .inl ⟨hfall, rfl⟩
  | jump hj hl hk =>
    obtain rfl := Option.some.inj (hj.symm.trans hi)
    exact .inr ⟨_, hl, hk⟩

/-- Only a return ends the way. -/
theorem exists_next {code : Code} (hclosed : Closed code) {n : Nat} (hn : n < code.length) :
    (∃ kind, code[n]? = some (.ret kind)) ∨ ∃ k, Next code n k := by
  have hi : code[n]? = some code[n] := List.getElem?_eq_getElem hn
  cases hfall : code[n].fallsThrough with
  | true => exact .inr ⟨_, .fall hi hfall⟩
  | false =>
    -- Only a return and a plain jump do not fall through.
    cases hinstruction : code[n] with
    | ret kind => exact .inl ⟨kind, hi.trans (congrArg some hinstruction)⟩
    | jump l =>
      have hmem := hclosed _ (List.getElem_mem hn) l (by rw [hinstruction]; rfl)
      -- The code is closed, so the target of the jump stands in it.
      have hsome : (position? code l).isSome := by
        unfold position?
        rw [List.isSome_idxOf?]
        exact hmem
      obtain ⟨k, hk⟩ := Option.isSome_iff_exists.mp hsome
      exact .inr ⟨k, .jump hi (by rw [hinstruction]; rfl) hk⟩
    | _ => simp [hinstruction, Instruction.fallsThrough] at hfall

/-! ## Pieces of code -/

section Pieces

variable {body : Code} {i : Nat} {code : Code}

/-- One step inside a piece of code stays in it or goes to its end. -/
theorem Next.inside (hlabels : (labels body).Nodup) (hat : At body i code)
    (hclosed : Closed code) {n k : Nat} (h : Next body n k) (hn : i ≤ n)
    (hlt : n < i + code.length) : i ≤ k ∧ k ≤ i + code.length := by
  have hx : body[n]? = some code[n - i] := by
    have hpiece := hat (n - i) code[n - i] (List.getElem?_eq_getElem (by omega))
    rwa [Nat.add_sub_cancel' hn] at hpiece
  rcases h.cases hx with ⟨-, rfl⟩ | ⟨l, hl, hk⟩
  · omega
  · -- The label is one of the piece, and no other position sets it.
    obtain ⟨j, hj, hlabel⟩ := List.getElem_of_mem (hclosed _ (List.getElem_mem _) l hl)
    have hset := hat j _ (List.getElem?_eq_getElem hj)
    rw [hlabel] at hset
    obtain rfl := Option.some.inj (hk.symm.trans (position?_eq hlabels hset))
    omega

/-- Control that leaves a piece of code leaves it at its end. -/
theorem Leads.leaves (hlabels : (labels body).Nodup) (hat : At body i code)
    (hclosed : Closed code) {n k : Nat} (h : Leads body n k) (hn : i ≤ n)
    (hle : n ≤ i + code.length) (hk : i + code.length ≤ k) :
    Leads body n (i + code.length) ∧ Leads body (i + code.length) k := by
  induction h using Relation.ReflTransGen.head_induction_on with
  | refl =>
    obtain rfl : k = i + code.length := by omega
    exact ⟨.refl, .refl⟩
  | @head n n' hnext h ih =>
    rcases Nat.lt_or_eq_of_le hle with hlt | rfl
    · obtain ⟨hlow, hhigh⟩ := hnext.inside hlabels hat hclosed hn hlt
      obtain ⟨hend, hrest⟩ := ih hlow hhigh
      exact ⟨hend.head hnext, hrest⟩
    · exact ⟨.refl, h.head hnext⟩

end Pieces

/-- Control can come from the start of the code to its end exactly if `b` says so, wherever the code
stands. -/
def Passes (code : Code) (b : Bool) : Prop :=
  ∀ (body : Code) (i : Nat), (labels body).Nodup → At body i code →
    (Leads body i (i + code.length) ↔ b = true)

namespace Passes

variable {a b : Code} {x y : Bool}

theorem nil : Passes [] true :=
  fun _ _ _ _ => ⟨fun _ => rfl, fun _ => .refl⟩

theorem append (ha : a.Passes x) (hclosed : Closed a) (hb : b.Passes y) :
    (a ++ b).Passes (x && y) := by
  intro body i hlabels hat
  have hfirst := ha body i hlabels hat.left
  have hsecond := hb body _ hlabels hat.right
  rw [List.length_append, ← Nat.add_assoc, Bool.and_eq_true, ← hfirst, ← hsecond]
  constructor
  · intro h
    exact h.leaves hlabels hat.left hclosed (Nat.le_refl _) (Nat.le_add_right _ _)
      (Nat.le_add_right _ _)
  · rintro ⟨h, h'⟩
    exact h.trans h'

/-- Code that can be passed, and then more such code. -/
theorem andThen (ha : a.Passes true) (hb : b.Passes true) : (a ++ b).Passes true := by
  intro body i hlabels hat
  rw [List.length_append, ← Nat.add_assoc]
  have hfirst := (ha body i hlabels hat.left).mpr rfl
  have hsecond := (hb body _ hlabels hat.right).mpr rfl
  exact ⟨fun _ => rfl, fun _ => hfirst.trans hsecond⟩

theorem one {i : Instruction} (h : i.fallsThrough = true) : Passes [i] true := by
  intro body n _ hat
  have hi : body[n]? = some i := hat 0 i rfl
  exact ⟨fun _ => rfl, fun _ => .single (.fall hi h)⟩

/-- An instruction that is left out if there is nothing to build it from. -/
theorem optional {α : Type} {build : α → Instruction} (h : ∀ x, (build x).fallsThrough = true)
    (x : Option α) : Passes (x.toList.map build) true := by
  cases x with
  | none => exact nil
  | some x => exact one (h x)

theorem ret (kind : Option Kind) : Passes [.ret kind] false := by
  intro body n _ hat
  have hi : body[n]? = some (.ret kind) := hat 0 _ rfl
  refine ⟨fun h => ?_, fun h => by cases h⟩
  rcases Relation.ReflTransGen.cases_head h with heq | ⟨k, hnext, -⟩
  · simp at heq
  · rcases hnext.cases hi with ⟨hfall, -⟩ | ⟨l, hl, -⟩
    · cases hfall
    · cases hl

section Jumps

variable {condition yes no : Code} {l l' : Label}

theorem compare (kind : Kind) (c : Condition) (yes done : Label) :
    Passes (Machine.compare kind c yes done) true := by
  intro body i hlabels hat
  refine ⟨fun _ => rfl, fun _ => ?_⟩
  have hdone := position?_eq hlabels (hat 5 (.label done) rfl)
  -- The way on which the comparison fails.
  have hfirst : Next body i (i + 1) := .fall (hat 0 _ rfl) rfl
  have hzero : Next body (i + 1) (i + 2) := .fall (hat 1 _ rfl) rfl
  have hjump : Next body (i + 2) (i + 5) := .jump (hat 2 _ rfl) rfl hdone
  have hlast : Next body (i + 5) (i + 6) := .fall (hat 5 _ rfl) rfl
  exact (((Relation.ReflTransGen.single hfirst).tail hzero).tail hjump).tail hlast

/-- Code that is skipped if a condition fails can be passed. -/
theorem skip (hcondition : condition.Passes true) :
    Passes (condition ++ [.jumpIfFalse l] ++ yes ++ [.label l]) true := by
  intro body i hlabels hat
  refine ⟨fun _ => rfl, fun _ => ?_⟩
  have htest := hat.left.left.right 0 (.jumpIfFalse l) rfl
  have hlabel := hat.right 0 (.label l) rfl
  have hthrough := (hcondition body i hlabels hat.left.left.left).mpr rfl
  have hjump := Next.jump htest rfl (position?_eq hlabels hlabel)
  rw [List.length_append, ← Nat.add_assoc]
  exact (hthrough.tail hjump).tail (.fall hlabel rfl)

/-- Code that is repeated as long as a condition holds can be passed. -/
theorem loop (hcondition : condition.Passes true) :
    Passes ([.label l] ++ condition ++ [.jumpIfFalse l'] ++ yes ++ [.jump l, .label l']) true := by
  intro body i hlabels hat
  refine ⟨fun _ => rfl, fun _ => ?_⟩
  have hfront := (one (i := .label l) rfl).andThen hcondition
  have hthrough := (hfront body i hlabels hat.left.left.left).mpr rfl
  have htest := hat.left.left.right 0 (.jumpIfFalse l') rfl
  have hlabel := hat.right 1 (.label l') rfl
  have hjump := Next.jump htest rfl (position?_eq hlabels hlabel)
  rw [List.length_append, ← Nat.add_assoc]
  exact (hthrough.tail hjump).tail (.fall hlabel rfl)

/-- Two pieces of code, of which a condition chooses one, can be passed if one of them can. -/
theorem choice (hcondition : condition.Passes true) (hclosed : Closed condition)
    (hyes : yes.Passes x) (hyesClosed : Closed yes) (hno : no.Passes y)
    (hnoClosed : Closed no) :
    Passes (condition ++ [.jumpIfFalse l] ++ yes ++ [.jump l', .label l] ++ no ++ [.label l'])
      (x || y) := by
  intro body i hlabels hat
  have hatCondition := hat.left.left.left.left.left
  have hatYes := hat.left.left.left.right
  have hatNo := hat.left.right
  have htest := hat.left.left.left.left.right 0 (.jumpIfFalse l) rfl
  have hjump := hat.left.left.right 0 (.jump l') rfl
  have hskip := hat.left.left.right 1 (.label l) rfl
  have hdone := hat.right 0 (.label l') rfl
  have hthrough := (hcondition body i hlabels hatCondition).mpr rfl
  simp only [List.length_append, List.length_cons, List.length_nil, Nat.zero_add, Nat.add_zero,
    ← Nat.add_assoc] at hatYes hatNo htest hjump hskip hdone ⊢
  have hskipAt := position?_eq hlabels hskip
  have hdoneAt := position?_eq hlabels hdone
  rw [Bool.or_eq_true, ← hyes body _ hlabels hatYes, ← hno body _ hlabels hatNo]
  constructor
  · intro h
    -- Control leaves the condition, goes one of two ways, and has to leave the piece on that way.
    obtain ⟨-, h⟩ := h.leaves hlabels hatCondition hclosed (Nat.le_refl _) (Nat.le_add_right _ _)
      (by omega)
    rcases Relation.ReflTransGen.cases_head h with heq | ⟨k, hnext, h⟩
    · omega
    rcases hnext.cases htest with ⟨-, rfl⟩ | ⟨target, htarget, hk⟩
    · exact .inl (Leads.leaves hlabels hatYes hyesClosed h (Nat.le_refl _)
        (Nat.le_add_right _ _) (by omega)).1
    · obtain rfl := Option.some.inj htarget
      obtain rfl := Option.some.inj (hskipAt.symm.trans hk)
      rcases Relation.ReflTransGen.cases_head h with heq | ⟨k, hnext, h⟩
      · omega
      rcases hnext.cases hskip with ⟨-, rfl⟩ | ⟨target, htarget, -⟩
      · exact .inr (Leads.leaves hlabels hatNo hnoClosed h (Nat.le_refl _)
          (Nat.le_add_right _ _) (by omega)).1
      · cases htarget
  · rintro (h | h)
    · exact (((hthrough.tail (.fall htest rfl)).trans h).tail (.jump hjump rfl hdoneAt)).tail
        (.fall hdone rfl)
    · exact (((hthrough.tail (.jump htest rfl hskipAt)).tail (.fall hskip rfl)).trans h).tail
        (.fall hdone rfl)

end Jumps

end Passes

end Machine.Code

/-! ## Expressions -/

open Machine.Code

section Expressions

variable {c : Context} {s : ScopeId}

theorem Machine.Context.passes_load (name : String) (f : Frame) :
    Passes (c.load s name f).code true := by
  unfold load
  split
  next storage type g _ => exact .one (by cases storage <;> rfl)
  next => exact .nil

theorem Machine.Context.passes_store (name : String) (f : Frame) :
    Passes (c.store s name f).1 true := by
  unfold store
  split
  next storage type g _ => exact .one (by cases storage <;> rfl)
  next => exact .nil

theorem Machine.Composed.passes {f g : Frame} {code : Code} (h : Composed c s f code g) :
    Passes code true := by
  induction h with
  | nil => exact .nil
  | @plain f i hplain =>
    apply Passes.one
    cases i <;> simp_all [Instruction.isPlain, Instruction.fallsThrough]
  | load f name => exact Context.passes_load name f
  | compare f kind condition => exact .compare kind condition _ _
  | append _ _ iha ihb => exact iha.andThen ihb

namespace Expr

/-- The code of an expression can be passed. -/
theorem passes_emit (e : Expr L) (f : Frame) : Passes (e.emit c s f).code true :=
  (e.composed_emit f).passes

theorem passes_emitAll (es : List (Expr L)) (f : Frame) : Passes (emitAll c s es f).1 true :=
  (composed_emitAll es f).passes

end Expr

end Expressions

/-! ## Statements -/

mutual

/-- Whether control can come to the end of a statement. The condition of a loop or a conditional can
go either way. -/
def Stmt.passable : Stmt L I → Bool
  | .ret .. => false
  | .ifElse _ _ yes no => yes.passable || no.passable
  | .declare .. | .assign .. | .assignAt .. | .ifThen .. | .loop .. | .print .. | .call .. => true

/-- Whether control can come to the end of a block. -/
def Block.passable : Block L I → Bool
  | .mk _ statements => Block.passableAll statements

/-- Whether control can come to the end of all statements. -/
def Block.passableAll : List (Stmt L I) → Bool
  | [] => true
  | st :: sts => st.passable && Block.passableAll sts

end

section Statements

variable {c : Context} {m : ScopeMap}

mutual

/-- The code of a statement can be passed exactly if the statement can. -/
theorem Stmt.Emits.passes {s : ScopeId} {f f' : Frame} {code : Code} :
    {st : Stmt L NodeId} → st.Emits c m s f code f' → code.Passes st.passable
  | _, .undeclared _ => .nil
  | _, .declare _ => .nil
  | _, .declareWith _ => (Expr.passes_emit _ _).andThen (.one rfl)
  | _, .assign => (Expr.passes_emit _ f).andThen (Context.passes_store _ _)
  | _, .assignAt _ _ =>
    (((Context.passes_load _ f).andThen (Expr.passes_emit _ _)).andThen
      (Expr.passes_emit _ _)).andThen (.optional (fun _ => rfl) _)
  -- The block may be skipped, so whether it can be passed does not matter.
  | _, .ifThen _ _ => .skip (Expr.passes_emit _ _)
  | _, .ifElse _ hyes hno =>
    .choice (Expr.passes_emit _ _) (Expr.numbered_emit _ _).closed hyes.passes hyes.numbered.closed
      hno.passes hno.numbered.closed
  | _, .loop _ _ => .loop (Expr.passes_emit _ _)
  | _, .ret => .ret none
  | _, .retValue => (Expr.passes_emit _ f).append (Expr.numbered_emit _ f).closed (.ret _)
  | _, .newline => .one rfl
  | _, .print => (Expr.passes_emit _ f).andThen (.one rfl)
  | _, @Stmt.Emits.call _ _ _ _ _ callee arguments _ type transfer hcall => by
    have htransfer := (composed_callOf (c := c) (s := s) c.table s callee.text arguments.length
      (Expr.emitAll c s arguments f).2).passes
    rw [hcall] at htransfer
    -- The value of a call statement is popped, which falls through.
    refine ((Expr.passes_emitAll arguments f).andThen htransfer).andThen ?_
    split_ifs
    · exact .nil
    · exact .one rfl

theorem Block.Emits.passes {f f' : Frame} {code : Code} :
    {b : Block L NodeId} → b.Emits c m f code f' → code.Passes b.passable
  | _, .mk _ hsts => hsts.passes

theorem Block.EmitsAll.passes {s : ScopeId} {f f' : Frame} {code : Code} :
    {sts : List (Stmt L NodeId)} → Block.EmitsAll c m s sts f code f' →
      code.Passes (Block.passableAll sts)
  | _, .nil => .nil
  | _, .cons hst hsts => hst.passes.append hst.numbered.closed hsts.passes

end

end Statements

/-! ## Routines -/

/-- Whether a function has a result, and control can come to the end of its block without returning
one. -/
def Item.fallsOff : Item L I → Bool
  | .function f => Ty.named? f.returns.text ≠ some .void && f.body.any Block.passable
  | .main _ => false

namespace Outline

variable {t : Table} {m : ScopeMap} {o : Outline L} {r : Routine}

/-- What is added to the block of a routine without result is a return. -/
theorem passes_ending (o : Outline L) :
    o.ending.Passes (decide (o.signature.returns ≠ .void)) := by
  unfold ending
  split_ifs with hvoid
  · simpa [hvoid] using Passes.ret none
  · simpa [hvoid] using Passes.nil

theorem Assembled.passes (h : o.Assembled t m r) :
    r.body.Passes (o.body.passable && decide (o.signature.returns ≠ .void)) := by
  obtain ⟨code, f, hcode, hbody⟩ := h.emits
  rw [hbody]
  exact hcode.passes.append hcode.numbered.closed o.passes_ending

theorem Assembled.closed (h : o.Assembled t m r) : Closed r.body := by
  obtain ⟨code, f, hcode, hbody⟩ := h.emits
  rw [hbody]
  exact (hcode.wired.append (o.wired_ending _)).numbered.closed

end Outline

/-- Control comes to the end of the routine of an item exactly if the item falls off. -/
theorem Item.Assembled.leads_end_iff {t : Table} {m : ScopeMap} {i : Item L NodeId} {r : Routine}
    (h : i.Assembled t m r) : Leads r.body 0 r.body.length ↔ i.fallsOff = true := by
  obtain ⟨o, ho, hreturns, hr⟩ := h
  have hends := hr.passes r.body 0 hr.nodup_labels fun n x hx => by rwa [Nat.zero_add]
  rw [Nat.zero_add] at hends
  rw [hends]
  cases i with
  | function f =>
    obtain ⟨body, hbody, hmap⟩ := Option.bind_eq_some_iff.mp ho
    obtain ⟨symbol, -, rfl⟩ := Option.map_eq_some_iff.mp hmap
    have hreturns : Ty.named? f.returns.text = _ := hreturns
    simp [Item.fallsOff, hbody, hreturns, and_comm]
  | main e =>
    obtain ⟨s, -, rfl⟩ := Option.map_eq_some_iff.mp ho
    simp [Item.fallsOff, Signature.ofMain]

/-- Follow the instructions of a routine of an accepted program from its first position on, either
way at every condition. Control stays in the routine or comes to its end; it can go on at every
position that holds no return; and it comes to the end, where there is no instruction, exactly if
the routine is that of a function which has a result and a block that can be passed. There are such
routines unless a frame overflows. -/
theorem Program.leads_end_iff_fallsOff {p : Program Location} {a : Analysis} (hp : p.Distinct)
    (ha : p.analyze = .ok a) (haccepted : a.isAccepted = true) (name : String) :
    a.Assembles p name fun u => List.Forall₂ (fun i r =>
      (∀ n, Leads r.body 0 n → n ≤ r.body.length ∧ (n < r.body.length →
        (∃ kind, r.body[n]? = some (.ret kind)) ∨ ∃ k, Next r.body n k)) ∧
      (Leads r.body 0 r.body.length ↔ i.fallsOff = true)) p.items u.functions := by
  refine Program.assembles hp ha haccepted name fun u hu => ?_
  refine (Program.assembled_of_codeUnit hp ha hu).imp fun i r hr =>
    ⟨fun n hn => ?_, hr.2.leads_end_iff⟩
  obtain ⟨-, o, -, -, hassembled⟩ := hr
  exact ⟨hn.le_length (Nat.zero_le _), exists_next hassembled.closed⟩

/-- A function that always returns, one that does not, one without result and an entry point:
`int sign(int n) { if (n > 0) { return 1; } else { while (n < 0) { return -1; } return 0; } }`,
`int guess(int n) { while (n > 0) { return 1; } }`, `void rest() {}`,
`main { print(sign(2)); print(guess(2)); }` -/
def Program.signs : Program Location :=
  let written (text : String) : Name (Option Location) := ⟨text, none⟩
  let n : Expr (Option Location) := .read none (written "n")
  let compared (op : BinOp) : Expr (Option Location) := .binary none op n (.int none 0)
  let returned (value : Expr (Option Location)) : Draft Stmt := .ret none none (some value)
  let function (name : String) (body : List (Draft Stmt)) : Draft Item :=
    .function ⟨none, none, written "int", written name, [⟨written "int", written "n"⟩],
      some (.mk none body)⟩
  let printed (name : String) : Draft Stmt :=
    .print none false (some (.call none (written name) [.int none 2]))
  Program.ofDraft
    [function "sign"
        [.ifElse none (compared .greater) (.mk none [returned (.int none 1)])
          (.mk none
            [.loop none (compared .less)
                (.mk none [returned (.negate none (.int none 1))]),
              returned (.int none 0)])],
      function "guess" [.loop none (compared .greater) (.mk none [returned (.int none 1)])],
      .function ⟨none, none, written "void", written "rest", [], some (.mk none [])⟩,
      .main ⟨none, none, .mk none [printed "sign", printed "guess"]⟩]

/-- Of the four routines only the second one runs to its end. -/
theorem Program.leads_end_iff_fallsOff_signs :
    Program.signs.Distinct ∧ ∃ a u, Program.signs.analyze = .ok a ∧ a.isAccepted = true ∧
      a.codeUnit Program.signs "Unit" = .ok u ∧
      List.Forall₂ (fun b r => Leads r.body 0 r.body.length ↔ b = true)
        [false, true, false, false] u.functions := by
  have hdistinct : Program.signs.Distinct := Program.distinct_ofDraft _ (by decide)
  obtain ⟨a, ha, haccepted, -⟩ := Program.exists_accepted (p := Program.signs) (fun _ => true)
    (by decide +kernel)
  obtain ⟨u, hu, hall⟩ :=
    (Program.leads_end_iff_fallsOff hdistinct ha haccepted "Unit").fits (by decide)
  have hfalls : Program.signs.items.map Item.fallsOff = [false, true, false, false] := by
    decide +kernel
  refine ⟨hdistinct, a, u, ha, haccepted, hu, ?_⟩
  rw [← hfalls, List.forall₂_map_left_iff]
  exact hall.imp fun i r h => h.2

/-- `int guess(bool b) { if (b) { return 1; } }`, `main { print(guess(false)); }` -/
def Program.guess : Program Location :=
  let written (text : String) : Name (Option Location) := ⟨text, none⟩
  Program.ofDraft
    [.function ⟨none, none, written "int", written "guess", [⟨written "bool", written "b"⟩],
        some (.mk none
          [.ifThen none (.read none (written "b"))
            (.mk none [.ret none none (some (.int none 1))])])⟩,
      .main ⟨none, none, .mk none
        [.print none false (some (.call none (written "guess") [.bool none false]))]⟩]

/-- If the condition fails, control goes to the label, and from there to the end of the routine,
where no return follows. -/
theorem Program.guess_leads_to_end :
    ∃ a u r, Program.guess.analyze = .ok a ∧ a.isAccepted = true ∧
      a.codeUnit Program.guess "Unit" = .ok u ∧ r ∈ u.functions ∧
      r.body = [.loadArgument .int 0, .jumpIfFalse ⟨0⟩, .push (.int 1), .ret (some .int),
        .label ⟨0⟩] ∧
      Leads r.body 0 r.body.length := by
  refine ⟨_, _, _, rfl, rfl, rfl, List.mem_cons_self, rfl, ?_⟩
  let code : Code :=
    [.loadArgument .int 0, .jumpIfFalse ⟨0⟩, .push (.int 1), .ret (some .int), .label ⟨0⟩]
  have hload : Next code 0 1 := .fall rfl rfl
  have hjump : Next code 1 4 := .jump rfl rfl rfl
  have hlabel : Next code 4 5 := .fall rfl rfl
  exact ((Relation.ReflTransGen.single hload).tail hjump).tail hlabel

end Primer
