import Primer.Proofs.Machine.Capacity
import Primer.Proofs.Machine.Heading

/-!
# Calls and the routines they reach

A call instruction carries the name of its target and the signature that the symbol of the target
has in the table. The routine of the target takes its own name and signature from the item that
declares it. `Program.calls_link` says when the two meet: in an accepted program every call finds a
routine of its unit, and the signatures agree for every function. They do not agree for the entry
point, whose symbol takes no arguments while its routine takes the command line.

From the call site to the table: whatever the scope, a call means the function of the program with
that name, because only functions of the program can be called and they are all in the outermost
layer (`Program.HasBlock.callee?_eq`). From the table to the unit: names of items differ, so a
routine is found by its name (`Program.routines_of_codeUnit`).
-/

namespace Primer

open Machine

variable {L : Type}

/-! ## Calls in code -/

/-- Every call in the code has a target and a signature that satisfy `P`. -/
def Machine.Code.Calls (P : String → Signature → Prop) (code : Code) : Prop :=
  ∀ callee signature, .call callee signature ∈ code → P callee signature

namespace Machine.Code.Calls

variable {P : String → Signature → Prop} {a b : Code}

theorem append (ha : Calls P a) (hb : Calls P b) : Calls P (a ++ b) := by
  intro callee signature hm
  rcases List.mem_append.mp hm with hm | hm
  · exact ha callee signature hm
  · exact hb callee signature hm

/-- Code without calls. -/
theorem of_forall_ne (h : ∀ i ∈ a, ∀ callee signature, i ≠ .call callee signature) : Calls P a :=
  fun callee signature hm => absurd rfl (h _ hm callee signature)

theorem nil : Calls P [] :=
  of_forall_ne fun _ hm => absurd hm List.not_mem_nil

theorem singleton {i : Instruction} (h : ∀ callee signature, i ≠ .call callee signature) :
    Calls P [i] :=
  of_forall_ne fun _ hm => List.mem_singleton.mp hm ▸ h

end Machine.Code.Calls

section Emission

variable {P : String → Signature → Prop} {c : Context} {s : ScopeId}

theorem Machine.Context.calls_load (name : String) (f : Frame) :
    Code.Calls P (c.load s name f).code := by
  unfold load
  split
  next storage type f' _ => exact .singleton fun _ _ => by cases storage <;> simp [Storage.load]
  · exact .nil

theorem Machine.Context.calls_store (name : String) (f : Frame) :
    Code.Calls P (c.store s name f).1 := by
  unfold store
  split
  next storage type f' _ => exact .singleton fun _ _ => by cases storage <;> simp [Storage.store]
  · exact .nil

/-- A call carries the signature of the function that the name means in the scope. -/
theorem Machine.calls_callOf {callee : String} {arguments : Nat}
    (h : ∀ g, c.table.callee? s callee = some g → P callee (signatureOf c.table g)) :
    Code.Calls P (callOf c.table s callee arguments).2 := by
  unfold callOf
  cases hcallee : c.table.callee? s callee with
  | none => exact .nil
  | some g =>
    simp only
    split_ifs
    · intro other signature hm
      obtain ⟨rfl, rfl⟩ := Instruction.call.inj (List.mem_singleton.mp hm)
      exact h g hcallee
    · exact .nil

theorem Machine.calls_elementOf (base : Ty) : Code.Calls P (elementOf base).2 := by
  unfold elementOf
  split_ifs
  · exact .singleton (by simp)
  · exact .of_forall_ne (by simp)

private theorem Expr.calls_all {es : List (Expr L)}
    (ih : ∀ e ∈ es, ∀ f, Code.Calls P (e.emit c s f).code) (f : Frame) :
    Code.Calls P (Expr.emitAll c s es f).1 := by
  induction es generalizing f with
  | nil => exact .nil
  | cons e es ihs =>
    exact (ih e List.mem_cons_self f).append
      (ihs (fun e he => ih e (List.mem_cons_of_mem _ he)) _)

private theorem Expr.calls_elements {es : List (Expr L)}
    (ih : ∀ e ∈ es, ∀ f, Code.Calls P (e.emit c s f).code) (element : Element) (position : Nat)
    (f : Frame) : Code.Calls P (Expr.emitElements c s element position es f).1 := by
  induction es generalizing position f with
  | nil => exact .nil
  | cons e es ihs =>
    have hfirst := ih e List.mem_cons_self f
    have hrest := ihs (fun e he => ih e (List.mem_cons_of_mem _ he)) (position + 1)
      (e.emit c s f).frame
    have hplace : Code.Calls P [.dup, .push (.int position)] := .of_forall_ne (by simp)
    exact ((hplace.append hfirst).append (.singleton (by simp))).append hrest

/-- The calls of an expression carry the signatures of the functions that are meant in its scope.
-/
theorem Expr.calls_emit
    (h : ∀ name g, c.table.callee? s name = some g → P name (signatureOf c.table g))
    (e : Expr L) (f : Frame) : Code.Calls P (e.emit c s f).code := by
  induction e using Expr.inductionOn generalizing f with
  | int | float | bool | char | str => exact .singleton (by simp)
  | read p name => exact Context.calls_load name.text f
  | call p callee arguments ih => exact (Expr.calls_all ih f).append (calls_callOf (h callee.text))
  | index p base position ih =>
    exact ((Context.calls_load base.text f).append (ih _)).append (calls_elementOf _)
  | length p operand ih =>
    -- Strings and arrays have different instructions, and neither of them is a call.
    refine (ih f).append (.singleton ?_)
    split_ifs <;> simp
  | paren p operand ih => exact ih f
  | negate p operand ih => exact (ih f).append (.singleton (by simp))
  | binary p op lhs rhs ihl ihr =>
    refine ((ihl f).append (ihr _)).append ?_
    -- A comparison is compiled into jumps.
    cases op with
    | add | sub | mul | div => exact .singleton (by simp)
    | less | greater | equal | notEqual =>
      exact .of_forall_ne (by simp [operator, operation, Machine.compare])
  | array p elements ih =>
    unfold Expr.emit
    simp only
    split
    · exact .nil
    next element _ =>
      have hfresh : Code.Calls P [.push (.int elements.length), .newArray element] :=
        .of_forall_ne (by simp)
      exact hfresh.append (Expr.calls_elements ih element 0 f)
  | newArray p element size ih => exact (ih f).append (.of_forall_ne (by simp))

theorem Expr.calls_emitAll
    (h : ∀ name g, c.table.callee? s name = some g → P name (signatureOf c.table g))
    (es : List (Expr L)) (f : Frame) : Code.Calls P (Expr.emitAll c s es f).1 :=
  Expr.calls_all (fun e _ => e.calls_emit h) f

end Emission

/-! ## What a call means -/

theorem Layer.meaning_append (locals layers : List Layer) (name : String) :
    Layer.meaning (locals ++ layers) name =
      (Layer.meaning locals name).or (Layer.meaning layers name) := by
  simp [Layer.meaning, List.findSome?_append]

/-- Around a block there are layers of variables, and behind them the functions of the program. -/
theorem Program.HasBlock.exists_locals {p : Program L} {layers : List Layer} {k : Nat}
    {b : Block L NodeId} (h : p.HasBlock layers k b) :
    ∃ locals : List Layer, layers = locals ++ [Item.layer p.numberedItems] ∧
      ∀ layer ∈ locals, ∀ x ∈ layer, x.2.isFunction = false := by
  induction h with
  | @function k f body hitem hbody =>
    -- From the inside: the body, then the parameters; neither layer declares a function.
    refine ⟨[Block.layer (k + 1 + f.parameters.length) body.statements,
      Parameter.layer (k + 1) f.parameters], rfl, ?_⟩
    intro layer hlayer x hx
    rcases List.mem_cons.mp hlayer with rfl | hlayer
    · exact Block.isFunction_layer hx
    · obtain rfl := List.mem_singleton.mp hlayer
      obtain ⟨name, declared⟩ := x
      obtain ⟨j, q, -, -, rfl⟩ := Parameter.mem_layer hx
      rfl
  | @main k e hitem =>
    refine ⟨[Block.layer (k + 1) e.body.statements], rfl, ?_⟩
    intro layer hlayer x hx
    obtain rfl := List.mem_singleton.mp hlayer
    exact Block.isFunction_layer hx
  | @nested layers k b k₁ st k₂ b' _ hst hb' ih =>
    -- A nested block puts its own layer in front of those of the block around it.
    obtain ⟨locals, rfl, hlocals⟩ := ih
    refine ⟨Block.layer k₂ b'.statements :: locals, rfl, ?_⟩
    intro layer hlayer x hx
    rcases List.mem_cons.mp hlayer with rfl | hlayer
    · exact Block.isFunction_layer hx
    · exact hlocals layer hlayer x hx

/-- In every block a call by a name means the function of the program that has it. -/
theorem Program.HasBlock.callee?_eq {p : Program L} (hp : p.Distinct)
    (hclean : (Declarations.ofProgram p).findings = []) {layers : List Layer} {k : Nat}
    {b : Block L NodeId} (hb : p.HasBlock layers k b) {s : ScopeId}
    (hs : (Declarations.ofProgram p).scopes.get? b.mark = some s) (name : String) :
    (Declarations.ofProgram p).table.callee? s name =
      ((Item.layer p.numberedItems).lookup name).bind fun x =>
        (Declarations.ofProgram p).table.function? x.symbol := by
  obtain ⟨s', hsees⟩ := hb.sees hp hclean
  obtain rfl : s' = s := Option.some.inj (hsees.mark.symm.trans hs)
  obtain ⟨locals, rfl, hlocals⟩ := hb.exists_locals
  rw [Table.callee?, Table.resolveCallee, Program.localResolve_global hp hclean,
    hsees.reads.resolve, Layer.meaning_append]
  cases hglobal : (Item.layer p.numberedItems).lookup name with
  | some x => simp
  | none =>
    -- Only a variable can have the name then, and a variable is not called.
    have houter : Layer.meaning [Item.layer p.numberedItems] name = none := by
      simp [Layer.meaning, hglobal]
    rw [houter, Option.or_none, Option.map_none, Option.none_or, Option.bind_none]
    cases hlocal : Layer.meaning locals name with
    | none => rfl
    | some x =>
      obtain ⟨layer, hlayer, hlookup⟩ := List.exists_of_findSome?_eq_some hlocal
      obtain ⟨before, after, hsplit, -⟩ := List.lookup_eq_some_iff.mp hlookup
      have hvariable : x.isFunction = false :=
        hlocals layer hlayer (name, x) (by rw [hsplit]; simp)
      obtain ⟨τ, -, hsymbol⟩ := hsees.reads.described name x (by
        rw [Layer.meaning_append, hlocal]
        rfl)
      rw [hvariable] at hsymbol
      have hsymbol : (Declarations.ofProgram p).table.symbol? x.symbol = some (.var name τ) := by
        simpa using hsymbol
      simp [Table.function?, hsymbol, Symbol.function?]

/-- In the blocks of the program, functions that can be called satisfy `P`. -/
def Program.CallsOnly (P : String → Signature → Prop) (t : Table) (m : ScopeMap) (p : Program L) :
    Prop :=
  ∀ (layers : List Layer) (k : Nat) (b : Block L NodeId) (s : ScopeId), p.HasBlock layers k b →
    m.get? b.mark = some s → ∀ name g, t.callee? s name = some g → P name (signatureOf t g)

section Statements

variable {P : String → Signature → Prop} {c : Context} {p : Program L} {m : ScopeMap}

mutual

/-- The calls of a statement of the program mean functions of the program. -/
theorem Stmt.Emits.calls (hp : p.CallsOnly P c.table m) {layers : List Layer} {k k' : Nat}
    {b : Block L NodeId} {s : ScopeId} (hb : p.HasBlock layers k b) (hs : m.get? b.mark = some s)
    {f f' : Frame} {code : Code} : {st : Stmt L NodeId} →
      (k', st) ∈ Block.numbered k b.statements → Stmt.Emits c m s st f code f' → Code.Calls P code
  | _, _, .undeclared _ => .nil
  | _, _, .declare _ => .nil
  | _, _, .declareWith _ =>
    (Expr.calls_emit (hp _ _ _ _ hb hs) _ _).append (.singleton (by simp))
  | _, _, .assign =>
    (Expr.calls_emit (hp _ _ _ _ hb hs) _ _).append (Context.calls_store _ _)
  | _, _, .assignAt _ _ =>
    (((Context.calls_load _ _).append (Expr.calls_emit (hp _ _ _ _ hb hs) _ _)).append
      (Expr.calls_emit (hp _ _ _ _ hb hs) _ _)).append (.of_forall_ne (by simp))
  | _, hst, .ifThen _ hyes =>
    -- The block of a branch is nested in the one at hand, which gives it the layers it sees.
    (((Expr.calls_emit (hp _ _ _ _ hb hs) _ _).append (.singleton (by simp))).append
      (hyes.calls hp (.nested hb hst List.mem_cons_self))).append (.singleton (by simp))
  | _, hst, .ifElse _ hyes hno =>
    (((((Expr.calls_emit (hp _ _ _ _ hb hs) _ _).append (.singleton (by simp))).append
      (hyes.calls hp (.nested hb hst List.mem_cons_self))).append (.of_forall_ne (by simp))).append
      (hno.calls hp (.nested hb hst (List.mem_cons_of_mem _ List.mem_cons_self)))).append
      (.singleton (by simp))
  | _, hst, .loop _ hbody =>
    ((((Code.Calls.singleton (by simp)).append (Expr.calls_emit (hp _ _ _ _ hb hs) _ _)).append
      (.singleton (by simp))).append (hbody.calls hp (.nested hb hst List.mem_cons_self))).append
      (.of_forall_ne (by simp))
  | _, _, .ret => .singleton (by simp)
  | _, _, .retValue => (Expr.calls_emit (hp _ _ _ _ hb hs) _ _).append (.singleton (by simp))
  | _, _, .newline => .singleton (by simp)
  | _, _, .print => (Expr.calls_emit (hp _ _ _ _ hb hs) _ _).append (.singleton (by simp))
  | _, _, .call hcall => by
    -- The call itself is the only place where an instruction of this kind comes from.
    have htransfer : Code.Calls P _ :=
      congrArg Prod.snd hcall ▸ calls_callOf (hp _ _ _ _ hb hs _)
    refine ((Expr.calls_emitAll (hp _ _ _ _ hb hs) _ _).append htransfer).append ?_
    split_ifs
    · exact .nil
    · exact .singleton (by simp)

theorem Block.Emits.calls (hp : p.CallsOnly P c.table m) {layers : List Layer} {k : Nat}
    {f f' : Frame} {code : Code} : {b : Block L NodeId} → p.HasBlock layers k b →
      b.Emits c m f code f' → Code.Calls P code
  | _, hb, .mk hnode hsts =>
    hsts.calls hp hb hnode fun _ hst =>
      have ⟨k', _, hmem⟩ := Block.exists_mem_numbered hst
      ⟨k', hmem⟩

theorem Block.EmitsAll.calls (hp : p.CallsOnly P c.table m) {layers : List Layer} {k : Nat}
    {b : Block L NodeId} {s : ScopeId} (hb : p.HasBlock layers k b) (hs : m.get? b.mark = some s)
    {f f' : Frame} {code : Code} : {sts : List (Stmt L NodeId)} →
      (∀ st ∈ sts, ∃ k', (k', st) ∈ Block.numbered k b.statements) →
      Block.EmitsAll c m s sts f code f' → Code.Calls P code
  | _, _, .nil => .nil
  | _, hnumbered, .cons hst hsts =>
    have ⟨_, hfirst⟩ := hnumbered _ List.mem_cons_self
    (hst.calls hp hb hs hfirst).append
      (hsts.calls hp hb hs fun st hm => hnumbered st (List.mem_cons_of_mem _ hm))

end

end Statements

/-! ## Routines by name -/

/-- The symbol of a declared item, and when the routine has its signature. -/
theorem Item.Entered.signature_of_heading? {t : Table} {m : ScopeMap} {k : Nat} {i : Item L NodeId}
    {r : Routine} (hi : i.Entered t m k) (hr : i.heading? = some r.heading) :
    ∃ g, t.function? ⟨k⟩ = some g ∧ (r.signature = signatureOf t g ↔ ∃ f, i = .function f) := by
  cases i with
  | function f =>
    obtain ⟨body, s, returns, types, hf⟩ := hi
    refine ⟨⟨f.name.text, returns, SymbolId.block (k + 1) f.parameters.length⟩, ?_,
      iff_of_true ?_ ⟨f, rfl⟩⟩
    · simp [Table.function?, hf.symbol, Symbol.function?]
    · have hheading := Option.some.inj (hr.symm.trans hf.heading?_eq)
      rw [show r.signature = ⟨types, returns⟩ from congrArg Heading.signature hheading,
        signatureOf, hf.map_typeOf]
  | main e =>
    obtain ⟨s, he⟩ := hi
    refine ⟨⟨"main", .void, []⟩, ?_, iff_of_false ?_ (by simp)⟩
    · simp [Table.function?, he.symbol, Symbol.function?]
    · -- The symbol has no parameters, the routine has one.
      have hsignature : r.signature = ⟨[.args], .void⟩ :=
        congrArg Heading.signature (Option.some.inj hr).symm
      simp [hsignature, signatureOf]

private theorem exists_of_forall₂ {α β : Type} {R : α → β → Prop} {xs : List α} {ys : List β}
    (h : List.Forall₂ R xs ys) :
    (∀ x ∈ xs, ∃ y ∈ ys, R x y) ∧ ∀ y ∈ ys, ∃ x ∈ xs, R x y := by
  induction h with
  | nil => simp
  | cons hxy _ ih =>
    obtain ⟨hleft, hright⟩ := ih
    constructor
    · intro x hx
      rcases List.mem_cons.mp hx with rfl | hx
      · exact ⟨_, List.mem_cons_self, hxy⟩
      · obtain ⟨y, hy, hR⟩ := hleft x hx
        exact ⟨y, List.mem_cons_of_mem _ hy, hR⟩
    · intro y hy
      rcases List.mem_cons.mp hy with rfl | hy
      · exact ⟨_, List.mem_cons_self, hxy⟩
      · obtain ⟨x, hx, hR⟩ := hright y hy
        exact ⟨x, List.mem_cons_of_mem _ hx, hR⟩

section Accepted

variable {p : Program Location} {a : Analysis}

/-- The calls in the routine of an item mean functions of the program. -/
theorem Item.Assembled.calls (hp : p.Distinct) (ha : p.analyze = .ok a)
    (haccepted : a.isAccepted = true) {i : Item Location NodeId} (hi : i ∈ p.items) {r : Routine}
    (hr : i.Assembled a.table a.scopes r) :
    Code.Calls (fun callee signature => ∃ x g, (Item.layer p.numberedItems).lookup callee = some x ∧
      a.table.function? x.symbol = some g ∧ signature = signatureOf a.table g) r.body := by
  obtain ⟨htable, hscopes, hclean, -, -⟩ := Program.of_isAccepted ha haccepted
  obtain ⟨o, ho, -, hassembled⟩ := hr
  obtain ⟨code, f, hcode, hbody⟩ := hassembled.emits
  obtain ⟨k, hk⟩ := Item.exists_mem_numbered (k := 0) hi
  -- The body of the item is one of the blocks of the program.
  obtain ⟨layers, k', hblock⟩ : ∃ layers k', p.HasBlock layers k' o.body := by
    cases i with
    | function f =>
      obtain ⟨body, hf, hmap⟩ := Option.bind_eq_some_iff.mp ho
      obtain ⟨symbol, -, rfl⟩ := Option.map_eq_some_iff.mp hmap
      exact ⟨_, _, .function hk hf⟩
    | main e =>
      obtain ⟨s, -, rfl⟩ := Option.map_eq_some_iff.mp ho
      exact ⟨_, _, .main hk⟩
  rw [hbody]
  refine (Block.Emits.calls (p := p) (m := a.scopes) ?_ hblock hcode).append ?_
  -- A callee is looked up through all the layers, but only the outermost one has functions.
  · intro layers k b s hb hs name g hg
    change a.table.callee? s name = some g at hg
    rw [htable, hb.callee?_eq hp hclean (hscopes ▸ hs)] at hg
    obtain ⟨x, hx, hg⟩ := Option.bind_eq_some_iff.mp hg
    exact ⟨x, g, hx, htable ▸ hg, rfl⟩
  -- The ending is at most one return.
  · unfold Outline.ending
    split_ifs
    · exact .singleton (by simp)
    · exact .nil

/-- Every item of an accepted program has a routine that is found by the name of the item. -/
theorem Program.routines_of_codeUnit (hp : p.Distinct) (ha : p.analyze = .ok a) {name : String}
    {u : CodeUnit} (hu : a.codeUnit p name = .ok u) :
    (∀ r ∈ u.functions, ∃ i ∈ p.items, i.Assembled a.table a.scopes r) ∧
      ∀ k i, (k, i) ∈ p.numberedItems → ∃ r g, u.function? i.name = some r ∧
        a.table.function? ⟨k⟩ = some g ∧
        (r.signature = signatureOf a.table g ↔ ∃ f, i = .function f) := by
  obtain ⟨haccepted, -⟩ := Analysis.exists_mapM_of_codeUnit hu
  obtain ⟨htable, hscopes, hclean, -, -⟩ := Program.of_isAccepted ha haccepted
  obtain ⟨-, hitem⟩ := exists_of_forall₂ (Program.assembled_of_codeUnit hp ha hu)
  constructor
  · intro r hr
    obtain ⟨i, hi, -, hassembled⟩ := hitem r hr
    exact ⟨i, hi, hassembled⟩
  intro k i hi
  -- The unit is searched by name, and the names of the items are distinct.
  obtain ⟨hroutine, -⟩ :=
    exists_of_forall₂ ((Program.headed_of_codeUnit hp ha hu).forall₂_function? u.name)
  obtain ⟨r, -, -, hheading, hfind⟩ := hroutine i (Item.mem_of_mem_numbered hi)
  -- The symbol of the item was entered under its own index.
  have hentered : i.Entered a.table a.scopes k := by
    rw [htable, hscopes]
    exact Program.entered_item hp hclean hi
  obtain ⟨g, hg, hsignature⟩ := hentered.signature_of_heading? hheading
  exact ⟨r, g, hfind, hg, hsignature⟩

/-- Every call of an accepted program reaches a routine of its unit. The signatures agree unless the
target is the entry point. There is a unit unless a frame overflows. -/
theorem Program.calls_link (hp : p.Distinct) (ha : p.analyze = .ok a)
    (haccepted : a.isAccepted = true) (name : String) :
    a.Assembles p name fun u => ∀ r ∈ u.functions, ∀ callee signature,
      .call callee signature ∈ r.body → ∃ g, u.function? callee = some g ∧
        (g.signature = signature ↔ ¬(callee = "main" ∧ ∃ e, .main e ∈ p.items)) := by
  obtain ⟨-, -, hclean, -, -⟩ := Program.of_isAccepted ha haccepted
  have hnames := ((clean_iff_wellDeclared hp).mp hclean).names
  refine Program.assembles hp ha haccepted name fun u hu => ?_
  obtain ⟨hitem, hroutine⟩ := Program.routines_of_codeUnit hp ha hu
  intro r hr callee signature hcall
  obtain ⟨i, hi, hassembled⟩ := hitem r hr
  obtain ⟨x, g, hlookup, hg, rfl⟩ := hassembled.calls hp ha haccepted hi callee signature hcall
  -- The name is that of an item, and the routine of that item is the one found by the name.
  obtain ⟨k, j, hj, rfl, hdeclared⟩ := Item.exists_of_lookup_layer hlookup
  obtain ⟨target, g', htarget, hg', hsignature⟩ := hroutine k j hj
  have hsymbol : x.symbol = ⟨k⟩ := by rw [← j.declared_symbol k, hdeclared]
  obtain rfl : g' = g := Option.some.inj (hg'.symm.trans (hsymbol ▸ hg))
  refine ⟨target, htarget, hsignature.trans ⟨?_, ?_⟩⟩
  · rintro ⟨f, rfl⟩ ⟨hmain, e, he⟩
    have hsame := List.inj_on_of_nodup_map hnames (Item.mem_of_mem_numbered hj) he hmain
    cases hsame
  · intro hnot
    cases j with
    | function f => exact ⟨f, rfl⟩
    | main e => exact absurd ⟨rfl, e, Item.mem_of_mem_numbered hj⟩ hnot

end Accepted

/-- Two functions that call each other, one of them before it is declared, and an entry point that
calls one of them and itself:
`bool odd(int n) { if (n == 0) { return false; } return even(n - 1); }`,
`bool even(int n) { if (n == 0) { return true; } return odd(n - 1); }`,
`main { if (even(4)) { main(); } }` -/
def Program.parity : Program Location :=
  let written (text : String) : Name (Option Location) := ⟨text, none⟩
  let n : Expr (Option Location) := .read none (written "n")
  let body (zero : Bool) (other : String) : Draft Block := .mk none
    [.ifThen none (.binary none .equal n (.int none 0))
        (.mk none [.ret none none (some (.bool none zero))]),
      .ret none none
        (some (.call none (written other) [.binary none .sub n (.int none 1)]))]
  let function (name other : String) (zero : Bool) : Draft Item :=
    .function ⟨none, none, written "bool", written name, [⟨written "int", written "n"⟩],
      some (body zero other)⟩
  Program.ofDraft
    [function "odd" "even" false, function "even" "odd" true,
      .main ⟨none, none, .mk none
        [.ifThen none (.call none (written "even") [.int none 4])
          (.mk none [.call none (written "main") []])]⟩]

/-- Both calls between the functions link, the one of `main` does not. -/
theorem Program.calls_link_parity :
    Program.parity.Distinct ∧ ∃ a u, Program.parity.analyze = .ok a ∧ a.isAccepted = true ∧
      a.codeUnit Program.parity "Unit" = .ok u ∧
      (∀ callee ∈ ["even", "odd"], ∃ r ∈ u.functions, .call callee ⟨[.int], .bool⟩ ∈ r.body ∧
        ∃ g, u.function? callee = some g ∧ g.signature = ⟨[.int], .bool⟩) ∧
      ∃ r ∈ u.functions, .call "main" ⟨[], .void⟩ ∈ r.body ∧
        ∃ g, u.function? "main" = some g ∧ g.signature ≠ ⟨[], .void⟩ := by
  have hdistinct : Program.parity.Distinct := Program.distinct_ofDraft _ (by decide)
  let calls (u : CodeUnit) (callee : String) (signature : Signature) : Bool :=
    u.functions.any fun r => r.body.contains (.call callee signature)
  obtain ⟨a, ha, haccepted, hcheck⟩ := Program.exists_accepted (p := Program.parity)
    (fun a => (a.codeUnit Program.parity "Unit").toOption.any fun u =>
      calls u "even" ⟨[.int], .bool⟩ && calls u "odd" ⟨[.int], .bool⟩ &&
        calls u "main" ⟨[], .void⟩) (by decide +kernel)
  -- The theorem gives the linked routine; that each call is there is read off the unit.
  obtain ⟨u, hu, hlink⟩ := (Program.calls_link hdistinct ha haccepted "Unit").fits (by decide)
  simp only [hu, Except.toOption, Option.any_some, Bool.and_eq_true, calls, List.any_eq_true,
    List.contains_iff_mem] at hcheck
  obtain ⟨⟨⟨r₁, hr₁, heven⟩, r₂, hr₂, hodd⟩, r₃, hr₃, hmain⟩ := hcheck
  refine ⟨hdistinct, a, u, ha, haccepted, hu, ?_, r₃, hr₃, hmain, ?_⟩
  · intro callee hcallee
    rcases List.mem_cons.mp hcallee with rfl | hcallee
    · obtain ⟨g, hg, hiff⟩ := hlink r₁ hr₁ _ _ heven
      exact ⟨r₁, hr₁, heven, g, hg, hiff.mpr (by simp)⟩
    · obtain rfl := List.mem_singleton.mp hcallee
      obtain ⟨g, hg, hiff⟩ := hlink r₂ hr₂ _ _ hodd
      exact ⟨r₂, hr₂, hodd, g, hg, hiff.mpr (by simp)⟩
  -- The heading of `main` takes the arguments of the command line, its symbol takes none.
  · obtain ⟨g, hg, hiff⟩ := hlink r₃ hr₃ _ _ hmain
    refine ⟨g, hg, fun hsame => hiff.mp hsame ⟨rfl, ?_⟩⟩
    exact ⟨_, List.mem_cons_of_mem _ (List.mem_cons_of_mem _ List.mem_cons_self)⟩

/-- `main { main(); }` -/
def Program.selfCall : Program Location :=
  Program.ofDraft [.main ⟨none, none, .mk none [.call none ⟨"main", none⟩ []]⟩]

/-- The entry point is called without arguments, but its routine takes the command line. -/
theorem Program.selfCall_does_not_link :
    ∃ a u, Program.selfCall.analyze = .ok a ∧ a.isAccepted = true ∧
      a.codeUnit Program.selfCall "Unit" = .ok u ∧
      ∃ r ∈ u.functions, .call "main" ⟨[], .void⟩ ∈ r.body ∧
        u.function? "main" = some r ∧ r.signature = ⟨[.args], .void⟩ :=
  ⟨_, _, rfl, rfl, rfl, _, List.mem_cons_self, List.mem_cons_self, rfl, rfl⟩

end Primer
