import Primer.Proofs.Declaration.Entry

/-!
# Names mean what lexical scoping says

In the scope that is recorded for a block, looking a name up gives the declaration that the layers
of the tree give (`Layer.meaning`). The proof goes down the tree: `Block.Sees` says that a block has
a scope in which every name has its lexical meaning, bodies have it because of how items are
entered, and a block passes it on to the blocks inside (`Block.Sees.nested`).
-/

namespace Primer

variable {L : Type}

/-- The symbol of a declaration has the declared name and the declared type. -/
def Table.Describes (t : Table) (name : String) (x : Declared) : Prop :=
  ∃ τ, Ty.named? x.type = some τ ∧
    if x.isFunction then ∃ parameters, t.symbol? x.symbol = some (.fn ⟨name, τ, parameters⟩)
    else t.symbol? x.symbol = some (.var name τ)

/-- In the scope `s` every name means what it means in the layers. -/
structure Table.Reads (t : Table) (s : ScopeId) (layers : List Layer) : Prop where
  resolve : ∀ name, t.resolve s name = (Layer.meaning layers name).map Declared.symbol
  described : ∀ name x, Layer.meaning layers name = some x → t.Describes name x

/-- A scope that binds a layer, inside one that reads the layers around it. -/
theorem Table.Reads.cons {t : Table} (ht : t.Descends) {s parent : ScopeId} {layer : Layer}
    {layers : List Layer} (h : t.Reads parent layers) (hparent : t.parent? s = some parent)
    (hbinds : ∀ name, t.localResolve s name = (layer.lookup name).map Declared.symbol)
    (hlayer : ∀ name x, (name, x) ∈ layer → t.Describes name x) : t.Reads s (layer :: layers) where
  resolve name := by
    rw [Table.resolve_eq ht, hbinds, hparent, Layer.meaning_cons, Option.bind_some, h.resolve]
    cases layer.lookup name <;> rfl
  described name x hx := by
    rw [Layer.meaning_cons] at hx
    -- The innermost layer that has the name decides.
    rcases Option.or_eq_some_iff.mp hx with hlocal | ⟨-, houter⟩
    · obtain ⟨before, after, rfl, -⟩ := List.lookup_eq_some_iff.mp hlocal
      exact hlayer name x (by simp)
    · exact h.described name x houter

/-! ## The layers of the tree -/

theorem Parameter.mem_layer {k : Nat} {ps : List (Parameter L)} {name : String} {x : Declared}
    (h : (name, x) ∈ Parameter.layer k ps) :
    ∃ (j : Nat) (p : Parameter L), ps[j]? = some p ∧ name = p.name.text ∧
      x = ⟨⟨k + j⟩, p.type.text, false⟩ := by
  induction ps generalizing k with
  | nil => exact absurd h List.not_mem_nil
  | cons p ps ih =>
    rcases List.mem_cons.mp h with heq | h
    · obtain ⟨rfl, rfl⟩ := Prod.mk.inj heq
      exact ⟨0, p, rfl, rfl, rfl⟩
    · obtain ⟨j, q, hq, hname, rfl⟩ := ih h
      exact ⟨j + 1, q, hq, hname, by rw [Nat.add_assoc, Nat.add_comm 1 j]⟩

/-- Blocks declare variables only. -/
theorem Block.isFunction_layer {k : Nat} {sts : List (Stmt L NodeId)} {x : String × Declared}
    (h : x ∈ Block.layer k sts) : x.2.isFunction = false := by
  obtain ⟨⟨k', st⟩, -, hx⟩ := List.mem_flatMap.mp h
  cases st with
  | declare p type name value => rw [List.mem_singleton.mp hx]
  | _ => exact absurd hx List.not_mem_nil

/-- The variables of a block are in the table as they are declared. -/
theorem Block.describes_layer {t : Table} {m : ScopeMap} {s : ScopeId} {k : Nat}
    {sts : List (Stmt L NodeId)}
    (hsts : ∀ k' st, (k', st) ∈ Block.numbered k sts → Stmt.Bound t m s k' st) {name : String}
    {x : Declared} (h : (name, x) ∈ Block.layer k sts) : t.Describes name x := by
  obtain ⟨⟨k', st⟩, hst, hx⟩ := List.mem_flatMap.mp h
  cases hsts k' st hst with
  -- Only a declaration puts something into the layer of its block.
  | @declare _ _ p type written value τ htype hsymbol _ =>
    obtain ⟨rfl, rfl⟩ := Prod.mk.inj (List.mem_singleton.mp hx)
    exact ⟨τ, htype, hsymbol⟩
  | assign | assignAt | ifThen | ifElse | loop | ret | print | call =>
    exact absurd hx List.not_mem_nil

/-- The parameters of a function are in the table as they are declared. -/
theorem Function.Entered.describes_parameter {t : Table} {m : ScopeMap} {k : Nat}
    {f : Function L NodeId} {body : Block L NodeId} {s : ScopeId} {returns : Ty} {types : List Ty}
    (hf : f.Entered t m k body s returns types) {name : String} {x : Declared}
    (h : (name, x) ∈ Parameter.layer (k + 1) f.parameters) : t.Describes name x := by
  obtain ⟨j, p, hp, rfl, rfl⟩ := Parameter.mem_layer h
  have htype : (types.map some)[j]? = some (Ty.named? p.type.text) := by
    rw [← hf.types_named, List.getElem?_map, hp]
    rfl
  rw [List.getElem?_map] at htype
  obtain ⟨τ, hτ, hnamed⟩ := Option.map_eq_some_iff.mp htype
  exact ⟨τ, hnamed.symm, hf.parameter j p τ hp hτ⟩

/-- Every item is in the table as the function that it declares. -/
theorem Item.Entered.describes {t : Table} {m : ScopeMap} {k : Nat} {i : Item L NodeId}
    (hi : i.Entered t m k) : t.Describes (i.declared k).1 (i.declared k).2 := by
  cases i with
  | function f =>
    obtain ⟨body, s, returns, types, hf⟩ := hi
    exact ⟨returns, hf.returns_named, _, hf.symbol⟩
  | main e =>
    obtain ⟨s, he⟩ := hi
    exact ⟨.void, rfl, _, he.symbol⟩

/-! ## Down the tree -/

/-- The block has a scope that reads the layers, and its statements are placed and bound there. -/
structure Block.Sees (t : Table) (m : ScopeMap) (layers : List Layer) (k : Nat)
    (b : Block L NodeId) (s : ScopeId) : Prop where
  mark : m.get? b.mark = some s
  reads : t.Reads s layers
  placed : ∃ owner, ∀ st ∈ b.statements, Stmt.Placed t m owner s st
  bound : ∀ k' st, (k', st) ∈ Block.numbered k b.statements → Stmt.Bound t m s k' st

/-- A block below a scope that reads the layers adds its own layer in front. -/
theorem Block.sees_of_reads {t : Table} (ht : t.Descends) {m : ScopeMap} {layers : List Layer}
    {parent : ScopeId} (h : t.Reads parent layers) {k : Nat} {b : Block L NodeId}
    {owner : Option SymbolId} (hplaced : Block.Placed t m owner parent b)
    (hbound : Block.Bound t m parent k b) :
    ∃ s, b.Sees t m (Block.layer k b.statements :: layers) k s := by
  cases hplaced with
  | @mk _ s node sts hnode hparent howner hsts =>
    cases hbound with
    | @mk _ s' _ _ _ hnode' _ _ hbinds hbound =>
      -- Where the scope is and what it binds are known of one and the same scope.
      obtain rfl : s = s' := Option.some.inj (hnode.symm.trans hnode')
      exact ⟨s, hnode, h.cons ht hparent hbinds fun name x hx => Block.describes_layer hbound hx,
        ⟨owner, hsts⟩, hbound⟩

/-- The blocks of a statement are placed and bound where the statement is. -/
theorem Stmt.placed_bound_blocks {t : Table} {m : ScopeMap} {owner : Option SymbolId} {s : ScopeId}
    {k k' : Nat} {st : Stmt L NodeId} {b : Block L NodeId} (hplaced : Stmt.Placed t m owner s st)
    (hbound : Stmt.Bound t m s k st) (hb : (k', b) ∈ st.numberedBlocks k) :
    Block.Placed t m owner s b ∧ Block.Bound t m s k' b := by
  -- The two derivations follow the tree, so they can be taken apart side by side.
  cases hplaced with
  | declare | assign | assignAt | ret | print | call => exact absurd hb List.not_mem_nil
  | ifThen hyes =>
    cases hbound with
    | ifThen hyes' =>
      obtain ⟨rfl, rfl⟩ := Prod.mk.inj (List.mem_singleton.mp hb)
      exact ⟨hyes, hyes'⟩
  | loop hbody =>
    cases hbound with
    | loop hbody' =>
      obtain ⟨rfl, rfl⟩ := Prod.mk.inj (List.mem_singleton.mp hb)
      exact ⟨hbody, hbody'⟩
  | ifElse hyes hno =>
    cases hbound with
    | ifElse hyes' hno' =>
      rcases List.mem_cons.mp hb with heq | hb
      · obtain ⟨rfl, rfl⟩ := Prod.mk.inj heq
        exact ⟨hyes, hyes'⟩
      · obtain ⟨rfl, rfl⟩ := Prod.mk.inj (List.mem_singleton.mp hb)
        exact ⟨hno, hno'⟩

/-- The blocks inside a block see one layer more. -/
theorem Block.Sees.nested {t : Table} (ht : t.Descends) {m : ScopeMap} {layers : List Layer}
    {k k₁ k₂ : Nat} {b b' : Block L NodeId} {s : ScopeId} {st : Stmt L NodeId}
    (h : b.Sees t m layers k s) (hst : (k₁, st) ∈ Block.numbered k b.statements)
    (hb' : (k₂, b') ∈ st.numberedBlocks k₁) :
    ∃ s', b'.Sees t m (Block.layer k₂ b'.statements :: layers) k₂ s' := by
  obtain ⟨owner, hplaced⟩ := h.placed
  obtain ⟨hplaced', hbound'⟩ := Stmt.placed_bound_blocks
    (hplaced st (Block.mem_of_mem_numbered hst)) (h.bound k₁ st hst) hb'
  exact Block.sees_of_reads ht h.reads hplaced' hbound'

/-- The global scope reads the functions of the program. -/
theorem Program.reads_global {p : Program L} (hp : p.Distinct)
    (hclean : (Declarations.ofProgram p).findings = []) :
    (Declarations.ofProgram p).table.Reads Table.global [Item.layer p.numberedItems] where
  resolve name := by
    rw [Table.resolve_global (Declarations.descends_ofProgram p),
      Program.localResolve_global hp hclean, Layer.meaning_cons]
    simp [Layer.meaning]
  -- What is looked up is some entry of the layer, and every entry comes from an item.
  described name x hx := by
    have hlookup : (Item.layer p.numberedItems).lookup name = some x := by
      simpa [Layer.meaning] using hx
    obtain ⟨before, after, hlayer, -⟩ := List.lookup_eq_some_iff.mp hlookup
    have hmem : (name, x) ∈ Item.layer p.numberedItems := by rw [hlayer]; simp
    obtain ⟨⟨k, i⟩, hi, heq⟩ := List.mem_map.mp hmem
    have hdescribes := (Program.entered_item hp hclean hi).describes
    simp only at heq
    rw [heq] at hdescribes
    exact hdescribes

/-- Every block of a program sees its layers. -/
theorem Program.HasBlock.sees {p : Program L} (hp : p.Distinct)
    (hclean : (Declarations.ofProgram p).findings = []) {layers : List Layer} {k : Nat}
    {b : Block L NodeId} (hb : p.HasBlock layers k b) :
    ∃ s, b.Sees (Declarations.ofProgram p).table (Declarations.ofProgram p).scopes layers k s := by
  have ht := Declarations.descends_ofProgram p
  have hglobal := Program.reads_global hp hclean
  induction hb with
  | @function k f body hitem hbody =>
    obtain ⟨body', s, returns, types, hf⟩ := Program.entered_item hp hclean hitem
    obtain rfl : body' = body := Option.some.inj (hf.body_eq.symm.trans hbody)
    -- Two layers around the body: the parameters, and the functions of the program.
    have hparameters := hglobal.cons ht hf.parent hf.bindings fun name x hx =>
      hf.describes_parameter hx
    exact Block.sees_of_reads ht hparameters hf.placed hf.bound
  | @main k e hitem =>
    obtain ⟨s, he⟩ := Program.entered_item hp hclean hitem
    -- The scope of an entry point binds nothing, so names are looked up in the global one.
    have hscope : (Declarations.ofProgram p).table.Reads s [Item.layer p.numberedItems] := by
      refine ⟨fun name => ?_, hglobal.described⟩
      rw [Table.resolve_eq ht, he.bindings, he.parent, Option.none_or, Option.bind_some,
        hglobal.resolve]
    exact Block.sees_of_reads ht hscope he.placed he.bound
  | nested hb hst hb' ih =>
    obtain ⟨s, hs⟩ := ih
    exact hs.nested ht hst hb'

/-- Name resolution is lexical scoping: in the scope recorded for a block every name resolves to the
declaration that the tree gives it, with the declared type, and the returns of the block have that
same scope. -/
theorem Program.resolve_eq_meaning {p : Program L} (hp : p.Distinct)
    (hclean : (Declarations.ofProgram p).findings = []) {layers : List Layer} {k : Nat}
    {b : Block L NodeId} (hb : p.HasBlock layers k b) :
    ∃ s, (Declarations.ofProgram p).scopes.get? b.mark = some s ∧
      (∀ name, (Declarations.ofProgram p).table.resolve s name =
        (Layer.meaning layers name).map Declared.symbol) ∧
      (∀ name x, Layer.meaning layers name = some x →
        (Declarations.ofProgram p).table.Describes name x) ∧
      ∀ place node value, Stmt.ret place node value ∈ b.statements →
        (Declarations.ofProgram p).scopes.get? node = some s := by
  obtain ⟨s, hs⟩ := hb.sees hp hclean
  refine ⟨s, hs.mark, hs.reads.resolve, hs.reads.described, ?_⟩
  intro place node value hret
  obtain ⟨owner, hplaced⟩ := hs.placed
  cases hplaced _ hret with
  | ret hnode => exact hnode

/-- The inner block of `f` declares its own `y`, which hides the outer one:
`int f(int x) { int y = x; if (true) { float y; return x; } return y; }`, and an empty entry point.
-/
def Program.shadowing : Program Unit :=
  let written (text : String) : Name Unit := ⟨text, ()⟩
  let inner : Block Unit NodeId := .mk ⟨0⟩
    [.declare () (written "float") (written "y") none,
      .ret () ⟨1⟩ (some (.read () (written "x")))]
  let body : Block Unit NodeId := .mk ⟨4⟩
    [.declare () (written "int") (written "y") (some (.read () (written "x"))),
      .ifThen () (.bool () true) inner,
      .ret () ⟨2⟩ (some (.read () (written "y")))]
  { root := ⟨7⟩
    items :=
      [.function ⟨(), ⟨3⟩, written "int", written "f", [⟨written "int", written "x"⟩], some body⟩,
        .main ⟨(), ⟨5⟩, .mk ⟨6⟩ []⟩]
    nodeCount := 8 }

theorem Program.resolve_eq_meaning_shadowing :
    Program.shadowing.Distinct ∧ (Declarations.ofProgram Program.shadowing).findings = [] ∧
      ∃ s, (Declarations.ofProgram Program.shadowing).scopes.get? ⟨0⟩ = some s ∧
        (Declarations.ofProgram Program.shadowing).table.resolve s "y" = some ⟨3⟩ ∧
        (Declarations.ofProgram Program.shadowing).table.symbol? ⟨3⟩ = some (.var "y" .float) ∧
        (Declarations.ofProgram Program.shadowing).table.resolve s "x" = some ⟨1⟩ ∧
        (Declarations.ofProgram Program.shadowing).table.resolve s "main" = some ⟨4⟩ ∧
        (Declarations.ofProgram Program.shadowing).table.resolve s "z" = none ∧
        (Declarations.ofProgram Program.shadowing).scopes.get? ⟨1⟩ = some s := by
  have hdistinct : Program.shadowing.Distinct := by
    unfold Program.Distinct
    decide
  have hclean : (Declarations.ofProgram Program.shadowing).findings = [] := rfl
  -- The block is the one inside the function, two steps down.
  obtain ⟨s, hs, hresolve, hdescribed, hret⟩ := Program.resolve_eq_meaning hdistinct hclean
    (.nested (.function (List.mem_cons_self) rfl) (List.mem_cons_of_mem _ List.mem_cons_self)
      (List.mem_singleton_self _))
  obtain ⟨τ, hτ, hy⟩ := hdescribed "y" ⟨⟨3⟩, "float", false⟩ rfl
  obtain rfl : Ty.float = τ := Option.some.inj hτ
  exact ⟨hdistinct, hclean, s, hs, hresolve "y", hy, hresolve "x", hresolve "main", hresolve "z",
    hret () ⟨1⟩ _ (List.mem_cons_of_mem _ List.mem_cons_self)⟩

end Primer
