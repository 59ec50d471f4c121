import Primer.Proofs.Declaration.Resolution
import Primer.Proofs.Typing.Agreement

/-!
# Uses and declarations in order

The table of a program is complete before any name is looked up, so the order of a use and of a
declaration in the same block does not matter: a use means what the innermost block around it
declares under its name, in front of the use, in the same statement, or behind it.

`Program.HasStatement` lists, for a statement of the program, what every block around it declares in
front of the statement and from there on, from the innermost block outwards; the parameters of the
function stand in front of everything. `Program.use_resolves_innermost` says which of these
declarations a use in the statement resolves to, and when it is one in front of the use. It need not
be: `Program.early_use_accepted` is a program that is accepted and loads a variable before anything
is stored there.
-/

namespace Primer

variable {L : Type}

/-! ## On the tree -/

/-- What a block or a parameter list around a statement declares, in front of the statement and from
there on. -/
structure SplitLayer where
  before : Layer
  after : Layer

/-- All that is declared, on both sides. -/
def SplitLayer.whole (l : SplitLayer) : Layer :=
  l.before ++ l.after

/-- What a block declares, split in front of one of its statements. -/
def Block.splitLayer (k : Nat) (front rest : List (Stmt L NodeId)) : SplitLayer :=
  ⟨Block.layer k front, Block.layer (k + Block.variableCountAll front) rest⟩

/-- The statements of a program: what is declared around the statement, the number of the first
variable that it can declare, and the block that it stands in. -/
inductive Program.HasStatement (p : Program L) :
    List SplitLayer → Nat → Block L NodeId → Stmt L NodeId → Prop where
  | function {k f body front st rest} (hitem : (k, Item.function f) ∈ p.numberedItems)
      (hbody : f.body = some body) (hst : body.statements = front ++ st :: rest) :
      HasStatement p
        [Block.splitLayer (k + 1 + f.parameters.length) front (st :: rest),
          ⟨Parameter.layer (k + 1) f.parameters, []⟩]
        (k + 1 + f.parameters.length + Block.variableCountAll front) body st
  | main {k e front st rest} (hitem : (k, Item.main e) ∈ p.numberedItems)
      (hst : e.body.statements = front ++ st :: rest) :
      HasStatement p [Block.splitLayer (k + 1) front (st :: rest)]
        (k + 1 + Block.variableCountAll front) e.body st
  | nested {layers k b st k' b' front st' rest} (h : HasStatement p layers k b st)
      (hb' : (k', b') ∈ st.numberedBlocks k) (hst : b'.statements = front ++ st' :: rest) :
      HasStatement p (Block.splitLayer k' front (st' :: rest) :: layers)
        (k' + Block.variableCountAll front) b' st'

/-- A statement reads, indexes or assigns a variable itself, not only in the blocks inside it. -/
inductive Stmt.Uses (name : Name L) : Stmt L NodeId → Prop where
  | read {st whole place} (hwhole : whole ∈ st.expressions)
      (h : (Expr.read place name).OccursIn whole) : Stmt.Uses name st
  | index {st whole place position} (hwhole : whole ∈ st.expressions)
      (h : (Expr.index place name position).OccursIn whole) : Stmt.Uses name st
  | assign {place value} : Stmt.Uses name (.assign place name value)
  | assignAt {place position value} : Stmt.Uses name (.assignAt place name position value)

/-! ## Statements and the blocks they stand in -/

theorem Block.numbered_append (k : Nat) (front rest : List (Stmt L NodeId)) :
    Block.numbered k (front ++ rest) =
      Block.numbered k front ++ Block.numbered (k + Block.variableCountAll front) rest := by
  induction front generalizing k with
  | nil => rfl
  | cons st front ih =>
    simp [Block.numbered, Block.variableCountAll, ih, Nat.add_assoc]

theorem Block.whole_splitLayer (k : Nat) (front rest : List (Stmt L NodeId)) :
    (Block.splitLayer k front rest).whole = Block.layer k (front ++ rest) := by
  simp [Block.splitLayer, SplitLayer.whole, Block.layer, Block.numbered_append]

/-- The statement at the head of the rest has the number at which the rest starts. -/
theorem Block.mem_numbered_append (k : Nat) (front : List (Stmt L NodeId)) (st : Stmt L NodeId)
    (rest : List (Stmt L NodeId)) :
    (k + Block.variableCountAll front, st) ∈ Block.numbered k (front ++ st :: rest) := by
  rw [Block.numbered_append]
  exact List.mem_append_right _ List.mem_cons_self

/-- A statement stands in a block that sees what is declared around the statement, on both sides,
and the functions of the program. -/
theorem Program.HasStatement.hasBlock {p : Program L} {layers : List SplitLayer} {k : Nat}
    {b : Block L NodeId} {st : Stmt L NodeId} (h : p.HasStatement layers k b st) :
    ∃ k₀, p.HasBlock (layers.map SplitLayer.whole ++ [Item.layer p.numberedItems]) k₀ b ∧
      (k, st) ∈ Block.numbered k₀ b.statements := by
  induction h with
  | function hitem hbody hst =>
    refine ⟨_, ?_, hst ▸ Block.mem_numbered_append _ _ _ _⟩
    have hblock := Program.HasBlock.function hitem hbody
    -- A layer that is split at a statement is the whole layer once its halves are put together.
    rw [hst, ← Block.whole_splitLayer] at hblock
    simpa [SplitLayer.whole] using hblock
  | main hitem hst =>
    refine ⟨_, ?_, hst ▸ Block.mem_numbered_append _ _ _ _⟩
    have hblock := Program.HasBlock.main hitem
    rw [hst, ← Block.whole_splitLayer] at hblock
    exact hblock
  | nested h hb' hst ih =>
    obtain ⟨k₀, hblock, hmem⟩ := ih
    refine ⟨_, ?_, hst ▸ Block.mem_numbered_append _ _ _ _⟩
    -- The statement around it is known by its number, which is where the inner block starts.
    have hinner := hblock.nested hmem hb'
    rw [hst, ← Block.whole_splitLayer] at hinner
    exact hinner

/-! ## Numbers tell the sides apart -/

theorem Block.variableCountAll_append (front rest : List (Stmt L NodeId)) :
    Block.variableCountAll (front ++ rest) =
      Block.variableCountAll front + Block.variableCountAll rest := by
  induction front with
  | nil => simp [Block.variableCountAll]
  | cons st front ih => simp [Block.variableCountAll, ih, Nat.add_assoc]

theorem Block.variableCount_eq (b : Block L NodeId) :
    b.variableCount = Block.variableCountAll b.statements := by
  cases b
  rfl

/-- A statement declares at most one variable itself, and that one has the statement's number. -/
theorem Stmt.index_of_mem_layer {k : Nat} {st : Stmt L NodeId} {x : String × Declared}
    (h : x ∈ st.layer k) : x.2.symbol.index = k ∧ st.variableCount = 1 := by
  cases st with
  | declare place type name value =>
    rw [List.mem_singleton.mp h]
    exact ⟨rfl, rfl⟩
  | _ => exact absurd h List.not_mem_nil

/-- The variables of a block have the numbers that are set aside for it. -/
theorem Block.index_of_mem_layer {k : Nat} {sts : List (Stmt L NodeId)} {x : String × Declared}
    (h : x ∈ Block.layer k sts) :
    k ≤ x.2.symbol.index ∧ x.2.symbol.index < k + Block.variableCountAll sts := by
  induction sts generalizing k with
  | nil => exact absurd h List.not_mem_nil
  | cons st sts ih =>
    rw [Block.layer_cons] at h
    rw [Block.variableCountAll]
    rcases List.mem_append.mp h with hfirst | hrest
    · have := Stmt.index_of_mem_layer hfirst
      omega
    · have := ih hrest
      omega

/-- A statement with blocks inside declares nothing itself, and the numbers of each of its blocks
are among its own. -/
theorem Stmt.bounds_of_mem_numberedBlocks {k k' : Nat} {st : Stmt L NodeId} {b : Block L NodeId}
    (h : (k', b) ∈ st.numberedBlocks k) :
    st.layer k = [] ∧ k ≤ k' ∧
      k' + Block.variableCountAll b.statements ≤ k + st.variableCount := by
  rw [← Block.variableCount_eq]
  cases st with
  | declare | assign | assignAt | ret | print | call => exact absurd h List.not_mem_nil
  | ifThen | loop =>
    obtain ⟨rfl, rfl⟩ := Prod.mk.inj (List.mem_singleton.mp h)
    exact ⟨rfl, Nat.le_refl _, Nat.le_refl _⟩
  | ifElse place condition yes no =>
    rw [Stmt.variableCount]
    -- The second block starts where the variables of the first end.
    rcases List.mem_cons.mp h with hyes | hno
    · obtain ⟨rfl, rfl⟩ := Prod.mk.inj hyes
      exact ⟨rfl, Nat.le_refl _, by omega⟩
    · obtain ⟨rfl, rfl⟩ := Prod.mk.inj (List.mem_singleton.mp hno)
      exact ⟨rfl, Nat.le_add_right _ _, by omega⟩

/-- The numbers on the two sides of a statement: those in front are below the statement's own, and
those from there on are of the statement itself or above all that it contains. -/
structure SplitLayer.SplitAt (l : SplitLayer) (k : Nat) (st : Stmt L NodeId) : Prop where
  before : ∀ x ∈ l.before, x.2.symbol.index < k
  after : ∀ x ∈ l.after, x ∈ st.layer k ∨ k + st.variableCount ≤ x.2.symbol.index

theorem Block.splitAt_splitLayer (k : Nat) (front : List (Stmt L NodeId)) (st : Stmt L NodeId)
    (rest : List (Stmt L NodeId)) :
    (Block.splitLayer k front (st :: rest)).SplitAt (k + Block.variableCountAll front) st where
  before x hx := (Block.index_of_mem_layer hx).2
  after x hx := by
    rw [Block.splitLayer, Block.layer_cons] at hx
    rcases List.mem_append.mp hx with hown | hrest
    · exact .inl hown
    · exact .inr (Block.index_of_mem_layer hrest).1

theorem Parameter.splitAt_layer {k k' : Nat} {ps : List (Parameter L)} (h : k + ps.length ≤ k')
    (st : Stmt L NodeId) : SplitLayer.SplitAt ⟨Parameter.layer k ps, []⟩ k' st where
  before x hx := by
    obtain ⟨j, p, hj, -, hx⟩ := Parameter.mem_layer hx
    have hlt : j < ps.length := (List.getElem?_eq_some_iff.mp hj).1
    rw [hx]
    show k + j < k'
    omega
  after x hx := absurd hx List.not_mem_nil

/-- What is split at a statement is split at every statement of its blocks. -/
theorem SplitLayer.SplitAt.nested {l : SplitLayer} {k k' : Nat} {st st' : Stmt L NodeId}
    {b : Block L NodeId} {front rest : List (Stmt L NodeId)} (h : l.SplitAt k st)
    (hb : (k', b) ∈ st.numberedBlocks k) (hst : b.statements = front ++ st' :: rest) :
    l.SplitAt (k' + Block.variableCountAll front) st' := by
  obtain ⟨hlayer, hle, hbound⟩ := Stmt.bounds_of_mem_numberedBlocks hb
  rw [hst, Block.variableCountAll_append, Block.variableCountAll] at hbound
  constructor
  · intro x hx
    have := h.before x hx
    omega
  · intro x hx
    rcases h.after x hx with hown | habove
    · rw [hlayer] at hown
      exact absurd hown List.not_mem_nil
    · exact .inr (by omega)

/-- All that is declared around a statement is split at the statement. -/
theorem Program.HasStatement.splitAt {p : Program L} {layers : List SplitLayer} {k : Nat}
    {b : Block L NodeId} {st : Stmt L NodeId} (h : p.HasStatement layers k b st) :
    ∀ l ∈ layers, l.SplitAt k st := by
  induction h with
  | function hitem hbody hst =>
    intro l hl
    rcases List.mem_cons.mp hl with rfl | hl
    · exact Block.splitAt_splitLayer _ _ _ _
    -- Parameters come before all variables of the body.
    · rw [List.mem_singleton.mp hl]
      exact Parameter.splitAt_layer (by omega) _
  | main hitem hst =>
    intro l hl
    rw [List.mem_singleton.mp hl]
    exact Block.splitAt_splitLayer _ _ _ _
  | nested h hb' hst ih =>
    intro l hl
    rcases List.mem_cons.mp hl with rfl | hl
    · exact Block.splitAt_splitLayer _ _ _ _
    -- Layers further out were split at the statement that contains the block.
    · exact (ih l hl).nested hb' hst

/-- No declaration stands both in front of a statement and behind, be it in two layers. -/
theorem SplitLayer.SplitAt.not_mem_after {l l' : SplitLayer} {k : Nat} {st : Stmt L NodeId}
    (h : l.SplitAt k st) (h' : l'.SplitAt k st) {x : String × Declared} (hx : x ∈ l.before) :
    x ∉ l'.after := by
  intro hx'
  have hlt := h.before x hx
  rcases h'.after x hx' with hown | habove
  · exact Nat.ne_of_lt hlt (Stmt.index_of_mem_layer hown).1
  · omega

/-! ## What a use means -/

/-- A variable that a well-typed statement uses has a type. -/
theorem Stmt.WellTyped.varType?_of_uses {t : Table} {m : ScopeMap} {arguments : List SymbolId}
    {returns : Option Ty} {s : ScopeId} {st : Stmt L NodeId} {name : Name L}
    (h : st.WellTyped t m arguments returns s) (huse : st.Uses name) :
    ∃ τ, t.varType? s name.text = some τ := by
  cases huse with
  | read hwhole hoccurs =>
    obtain ⟨τ, hτ⟩ := h.hasType hwhole
    obtain ⟨σ, hσ⟩ := hoccurs.hasType hτ
    cases hσ with | read hvar => exact ⟨_, hvar⟩
  | index hwhole hoccurs =>
    obtain ⟨τ, hτ⟩ := h.hasType hwhole
    obtain ⟨σ, hσ⟩ := hoccurs.hasType hτ
    cases hσ with | index hvar _ _ => exact ⟨_, hvar⟩
  | assign => cases h with | assign htarget _ => exact ⟨_, htarget⟩
  | assignAt => cases h with | assignAt htarget => exact ⟨_, htarget⟩

/-- A declaration whose symbol is a variable declares that variable. -/
theorem Table.Describes.variable {t : Table} {name n : String} {x : Declared} {τ : Ty}
    (h : t.Describes name x) (hsymbol : t.symbol? x.symbol = some (.var n τ)) :
    x.isFunction = false ∧ ∃ σ, t.symbol? x.symbol = some (.var name σ) := by
  obtain ⟨σ, -, hσ⟩ := h
  cases hfunction : x.isFunction with
  | false => exact ⟨rfl, σ, by simpa [hfunction] using hσ⟩
  | true =>
    rw [if_pos hfunction] at hσ
    obtain ⟨parameters, hfn⟩ := hσ
    cases hsymbol.symm.trans hfn

/-- A name that means a variable is declared in one of the layers below the functions, and in none
inside that one. -/
theorem Layer.exists_innermost {layers : List SplitLayer} {items : List (Nat × Item L NodeId)}
    {name : String} {x : Declared} (hx : x.isFunction = false)
    (h : Layer.meaning (layers.map SplitLayer.whole ++ [Item.layer items]) name = some x) :
    ∃ inner l outer, layers = inner ++ l :: outer ∧
      (∀ l' ∈ inner, ∀ y, (name, y) ∉ l'.whole) ∧ (name, x) ∈ l.whole := by
  rw [Layer.meaning, List.findSome?_append, List.findSome?_map] at h
  rcases Option.or_eq_some_iff.mp h with hlayers | ⟨-, hitems⟩
  · obtain ⟨inner, l, outer, hsplit, hfound, hinner⟩ := List.findSome?_eq_some_iff.mp hlayers
    refine ⟨inner, l, outer, hsplit, ?_, ?_⟩
    · intro l' hl' y hy
      have hnone := List.lookup_eq_none_iff.mp (hinner l' hl') _ hy
      simp at hnone
    · obtain ⟨before, after, hwhole, -⟩ := List.lookup_eq_some_iff.mp hfound
      rw [hwhole]
      simp
  · -- The items of a program are functions.
    rw [List.findSome?_singleton] at hitems
    obtain ⟨before, after, hlayer, -⟩ := List.lookup_eq_some_iff.mp hitems
    have hmem : (name, x) ∈ Item.layer items := by rw [hlayer]; simp
    obtain ⟨⟨k, i⟩, -, hi⟩ := List.mem_map.mp hmem
    cases i <;> (cases hi; cases hx)

/-- A use of a variable resolves to what the innermost block around it declares under its name, the
parameters standing around all blocks, wherever in that block the declaration is. It stands in front
of the use exactly unless the block declares it from the statement of the use on. -/
theorem Program.use_resolves_innermost {p : Program Location} {a : Analysis} (hp : p.Distinct)
    (ha : p.analyze = .ok a) (haccepted : a.isAccepted = true) {layers : List SplitLayer} {k : Nat}
    {b : Block Location NodeId} {st : Stmt Location NodeId} (hst : p.HasStatement layers k b st)
    {name : Name Location} (huse : st.Uses name) :
    ∃ s x inner l outer, a.scopes.get? b.mark = some s ∧
      a.table.resolve s name.text = some x.symbol ∧
      (∃ τ, a.table.symbol? x.symbol = some (.var name.text τ)) ∧
      layers = inner ++ l :: outer ∧
      (∀ l' ∈ inner, ∀ y, (name.text, y) ∉ l'.whole) ∧ (name.text, x) ∈ l.whole ∧
      ((∃ l' ∈ layers, (name.text, x) ∈ l'.before) ↔ (name.text, x) ∉ l.after) := by
  obtain ⟨k₀, hb, hmem⟩ := hst.hasBlock
  obtain ⟨htable, hscopes, hclean, -, -⟩ := Program.of_isAccepted ha haccepted
  obtain ⟨s, hsees⟩ := hb.sees hp hclean
  rw [← htable, ← hscopes] at hsees
  obtain ⟨arguments, returns, hwell⟩ := hb.wellTyped hp ha haccepted
  cases hwell with
  | mk hnode hsts =>
    -- The checker and the table speak of one and the same scope.
    obtain rfl := Option.some.inj (hnode.symm.trans hsees.mark)
    obtain ⟨τ, hτ⟩ := (hsts st (Block.mem_of_mem_numbered hmem)).varType?_of_uses huse
    obtain ⟨symbol, n, hresolve, hsymbol⟩ := Table.varType?_eq_some_iff.mp hτ
    rw [hsees.reads.resolve] at hresolve
    obtain ⟨x, hx, rfl⟩ := Option.map_eq_some_iff.mp hresolve
    obtain ⟨hvariable, hvar⟩ := (hsees.reads.described _ x hx).variable hsymbol
    obtain ⟨inner, l, outer, hlayers, hinner, hl⟩ := Layer.exists_innermost hvariable hx
    refine ⟨_, x, inner, l, outer, hnode, ?_, hvar, hlayers, hinner, hl, ?_⟩
    · rw [hsees.reads.resolve, hx, Option.map_some]
    have hin : l ∈ layers := by simp [hlayers]
    constructor
    · rintro ⟨l', hl', hbefore⟩
      exact (hst.splitAt l' hl').not_mem_after (hst.splitAt l hin) hbefore
    · intro hafter
      exact ⟨l, hin, (List.mem_append.mp hl).resolve_right hafter⟩

/-- `main { int x = 1; if (true) { print(x); int x = 2; } }` -/
def Program.captured : Program Location :=
  let written (text : String) : Name (Option Location) := ⟨text, none⟩
  let declared (value : Int) : Draft Stmt :=
    .declare none (written "int") (written "x") (some (.int none value))
  Program.ofDraft [.main ⟨none, none, .mk none
    [declared 1,
      .ifThen none (.bool none true)
        (.mk none [.print none false (some (.read none (written "x"))), declared 2])]⟩]

/-- `print(x);` -/
def Stmt.printing (name : String) : Stmt Location NodeId :=
  .print .unknown false (some (.read .unknown ⟨name, .unknown⟩))

theorem Stmt.uses_printing (name : String) : (Stmt.printing name).Uses ⟨name, .unknown⟩ :=
  .read (List.mem_singleton_self _) .here

/-- The print means the `x` behind it, and not the one that is declared in front of the block. -/
theorem Program.use_resolves_innermost_captured :
    Program.captured.Distinct ∧ ∃ a layers k b s, Program.captured.analyze = .ok a ∧
      a.isAccepted = true ∧ Program.captured.HasStatement layers k b (Stmt.printing "x") ∧
      (Stmt.printing "x").Uses ⟨"x", .unknown⟩ ∧
      layers = [⟨[], [("x", ⟨⟨2⟩, "int", false⟩)]⟩, ⟨[("x", ⟨⟨1⟩, "int", false⟩)], []⟩] ∧
      a.scopes.get? b.mark = some s ∧ a.table.resolve s "x" = some ⟨2⟩ := by
  have hdistinct : Program.captured.Distinct := Program.distinct_ofDraft _ (by decide)
  obtain ⟨a, ha, haccepted⟩ : ∃ a, Program.captured.analyze = .ok a ∧ a.isAccepted = true :=
    ⟨_, rfl, rfl⟩
  have hmain := HasStatement.main (p := Program.captured) (List.mem_singleton_self _)
    (show _ = [_] ++ _ :: [] from rfl)
  have hst := hmain.nested (List.mem_singleton_self _)
    (show _ = [] ++ Stmt.printing "x" :: [_] from rfl)
  obtain ⟨s, x, inner, l, outer, hs, hresolve, -, hlayers, hinner, hl, -⟩ :=
    Program.use_resolves_innermost hdistinct ha haccepted hst (Stmt.uses_printing "x")
  refine ⟨hdistinct, a, _, _, _, s, ha, haccepted, hst, Stmt.uses_printing "x", rfl, hs, ?_⟩
  -- The inner block declares the name, so that no block lies inside the one that decides.
  cases inner with
  | nil =>
    obtain rfl := (List.cons.inj hlayers).1
    cases List.mem_singleton.mp hl
    exact hresolve
  | cons first inner =>
    obtain rfl := (List.cons.inj hlayers).1
    exact absurd (List.mem_singleton_self _) (hinner _ List.mem_cons_self ⟨⟨2⟩, "int", false⟩)

/-- `main { print(x); int x = 1; }` -/
def Program.early : Program Location :=
  let written (text : String) : Name (Option Location) := ⟨text, none⟩
  Program.ofDraft [.main ⟨none, none, .mk none
    [.print none false (some (.read none (written "x"))),
      .declare none (written "int") (written "x") (some (.int none 1))]⟩]

/-- The program is accepted, although nothing is declared in front of the use of `x`: it means the
declaration behind it, and the code loads the variable before it stores a value. -/
theorem Program.early_use_accepted :
    Program.early.Distinct ∧ ∃ a l k b s, Program.early.analyze = .ok a ∧ a.isAccepted = true ∧
      Program.early.HasStatement [l] k b (Stmt.printing "x") ∧
      (Stmt.printing "x").Uses ⟨"x", .unknown⟩ ∧
      l = ⟨[], [("x", ⟨⟨1⟩, "int", false⟩)]⟩ ∧
      a.scopes.get? b.mark = some s ∧ a.table.resolve s "x" = some ⟨1⟩ ∧
      a.codeUnit Program.early "Unit" = .ok ⟨"Unit",
        [⟨"main", .ofMain, .ofMain, 2,
          [.load .int 1, .print (some .int) false, .push (.int 1), .store .int 1, .ret none]⟩]⟩ :=
  ⟨Program.distinct_ofDraft _ (by decide), _, _, _, _, ⟨2⟩, rfl, rfl,
    .main (List.mem_singleton_self _) (show _ = [] ++ Stmt.printing "x" :: [_] from rfl),
    Stmt.uses_printing "x", rfl, rfl, rfl, rfl⟩

end Primer
