import Primer.Proofs.Tree.Nodes

/-!
# Trees with other labels

The labels of a tree are its places and its marks. Replacing them by functions keeps everything else
of the tree (`Expr.map`, `Stmt.map`, `Item.map`), and what is left when all labels are forgotten is
the *shape* of a program.

Two programs of the same shape differ by their labels only. If the nodes of one have distinct
numbers, then a function on numbers leads from each of its nodes to the corresponding node of the
other (`Program.exists_relabels`).
-/

namespace Primer

variable {L L' I J : Type}

/-! ## Replacing labels -/

/-- A name at another place. -/
def Name.map (f : L → L') (n : Name L) : Name L' :=
  ⟨n.text, f n.place⟩

@[simp]
theorem Name.text_map (f : L → L') (n : Name L) : (n.map f).text = n.text := rfl

@[simp]
theorem Name.place_map (f : L → L') (n : Name L) : (n.map f).place = f n.place := rfl

mutual

/-- An expression with other places. -/
def Expr.map (f : L → L') : Expr L → Expr L'
  | .int p value => .int (f p) value
  | .float p bits => .float (f p) bits
  | .bool p value => .bool (f p) value
  | .char p value => .char (f p) value
  | .str p value => .str (f p) value
  | .read p name => .read (f p) (name.map f)
  | .call p callee arguments => .call (f p) (callee.map f) (Expr.mapAll f arguments)
  | .index p base position => .index (f p) (base.map f) (position.map f)
  | .length p operand => .length (f p) (operand.map f)
  | .paren p operand => .paren (f p) (operand.map f)
  | .negate p operand => .negate (f p) (operand.map f)
  | .binary p op lhs rhs => .binary (f p) op (lhs.map f) (rhs.map f)
  | .array p elements => .array (f p) (Expr.mapAll f elements)
  | .newArray p element size => .newArray (f p) (element.map f) (size.map f)

/-- Several expressions with other places. -/
def Expr.mapAll (f : L → L') : List (Expr L) → List (Expr L')
  | [] => []
  | e :: es => e.map f :: Expr.mapAll f es

end

theorem Expr.mapAll_eq_map (f : L → L') (es : List (Expr L)) :
    Expr.mapAll f es = es.map (Expr.map f) := by
  induction es with
  | nil => rfl
  | cons e es ih => simp [Expr.mapAll, ih]

@[simp]
theorem Expr.length_mapAll (f : L → L') (es : List (Expr L)) :
    (Expr.mapAll f es).length = es.length := by
  rw [Expr.mapAll_eq_map, List.length_map]

@[simp]
theorem Expr.place_map (f : L → L') (e : Expr L) : (e.map f).place = f e.place := by
  cases e <;> rfl

@[simp]
theorem Expr.isNewArray_map (f : L → L') (e : Expr L) : (e.map f).isNewArray = e.isNewArray := by
  cases e <;> rfl

mutual

/-- A statement with other places and marks. -/
def Stmt.map (f : L → L') (g : I → J) : Stmt L I → Stmt L' J
  | .declare p type name value => .declare (f p) (type.map f) (name.map f) (value.map (Expr.map f))
  | .assign p target value => .assign (f p) (target.map f) (value.map f)
  | .assignAt p target position value =>
    .assignAt (f p) (target.map f) (position.map f) (value.map f)
  | .ifThen p condition yes => .ifThen (f p) (condition.map f) (yes.map f g)
  | .ifElse p condition yes no => .ifElse (f p) (condition.map f) (yes.map f g) (no.map f g)
  | .loop p condition body => .loop (f p) (condition.map f) (body.map f g)
  | .ret p mark value => .ret (f p) (g mark) (value.map (Expr.map f))
  | .print p newline value => .print (f p) newline (value.map (Expr.map f))
  | .call p callee arguments => .call (f p) (callee.map f) (Expr.mapAll f arguments)

/-- A block with other places and marks. -/
def Block.map (f : L → L') (g : I → J) : Block L I → Block L' J
  | .mk mark statements => .mk (g mark) (Block.mapAll f g statements)

/-- The statements of a block with other places and marks. -/
def Block.mapAll (f : L → L') (g : I → J) : List (Stmt L I) → List (Stmt L' J)
  | [] => []
  | st :: sts => st.map f g :: Block.mapAll f g sts

end

theorem Block.mapAll_eq_map (f : L → L') (g : I → J) (sts : List (Stmt L I)) :
    Block.mapAll f g sts = sts.map (Stmt.map f g) := by
  induction sts with
  | nil => rfl
  | cons st sts ih => simp [Block.mapAll, ih]

/-- A parameter at another place. -/
def Parameter.map (f : L → L') (q : Parameter L) : Parameter L' :=
  ⟨q.type.map f, q.name.map f⟩

/-- A function with other places and marks. -/
def Function.map (f : L → L') (g : I → J) (h : Function L I) : Function L' J where
  place := f h.place
  mark := g h.mark
  returns := h.returns.map f
  name := h.name.map f
  parameters := h.parameters.map (Parameter.map f)
  body := h.body.map (Block.map f g)

/-- An entry point with other places and marks. -/
def EntryPoint.map (f : L → L') (g : I → J) (e : EntryPoint L I) : EntryPoint L' J :=
  ⟨f e.place, g e.mark, e.body.map f g⟩

/-- An item with other places and marks. -/
def Item.map (f : L → L') (g : I → J) : Item L I → Item L' J
  | .function h => .function (h.map f g)
  | .main e => .main (e.map f g)

/-- A program without its places and without the numbers of its nodes. -/
def Program.shape (p : Program L) : List (Item Unit Unit) :=
  p.items.map (Item.map (fun _ => ()) (fun _ => ()))

/-! ## Nodes -/

section Nodes

variable (f : L → L') (g : I → J)

private theorem Block.nodes_map_of {b : Block L I}
    (ih : ∀ st ∈ b.statements, (st.map f g).nodes = st.nodes.map g) :
    (b.map f g).nodes = b.nodes.map g := by
  obtain ⟨mark, sts⟩ := b
  have hsts : (Block.mapAll f g sts).flatMap Stmt.nodes = (sts.flatMap Stmt.nodes).map g := by
    rw [Block.mapAll_eq_map, List.flatMap_map, List.map_flatMap]
    exact List.flatMap_congr ih
  simp only [Block.map, Block.nodes, Block.nodesAll_eq_flatMap, List.map_cons, hsts]

theorem Stmt.nodes_map (st : Stmt L I) : (st.map f g).nodes = st.nodes.map g := by
  induction st using Stmt.inductionOn with
  | declare p type name value => rfl
  | assign p target value => rfl
  | assignAt p target position value => rfl
  | print p newline value => rfl
  | call p callee arguments => rfl
  | ret p mark value => rfl
  | ifThen p condition yes ih => exact Block.nodes_map_of f g ih
  | loop p condition body ih => exact Block.nodes_map_of f g ih
  | ifElse p condition yes no ihy ihn =>
    simp only [Stmt.map, Stmt.nodes, List.map_append, Block.nodes_map_of f g ihy,
      Block.nodes_map_of f g ihn]

theorem Block.nodes_map (b : Block L I) : (b.map f g).nodes = b.nodes.map g :=
  Block.nodes_map_of f g fun st _ => st.nodes_map f g

theorem Item.nodes_map (i : Item L I) : (i.map f g).nodes = i.nodes.map g := by
  cases i with
  | function h =>
    cases hbody : h.body with
    | none => simp [Item.map, Function.map, Item.nodes, hbody]
    | some body => simp [Item.map, Function.map, Item.nodes, hbody, Block.nodes_map]
  | main e => simp [Item.map, EntryPoint.map, Item.nodes, Block.nodes_map]

end Nodes

/-! ## Shapes -/

section Shapes

variable {K L₁ L₂ I₁ I₂ : Type} {f₁ : L₁ → K} {f₂ : L₂ → K} {g₁ : I₁ → J} {g₂ : I₂ → J}

/-- Forgets a mark. -/
private abbrev forget {α : Type} : α → Unit := fun _ => ()

/-- Constructs with as many nodes each share their nodes one by one. -/
private theorem nodes_inj {as₁ bs₁ : List I₁} {as₂ bs₂ : List I₂}
    (hlength : as₁.map forget = as₂.map forget)
    (h : (as₁ ++ bs₁).map g₁ = (as₂ ++ bs₂).map g₂) :
    as₁.map g₁ = as₂.map g₂ ∧ bs₁.map g₁ = bs₂.map g₂ := by
  rw [List.map_append, List.map_append] at h
  refine List.append_inj h ?_
  simpa using congrArg List.length hlength

private theorem Block.map_eq_of {b₁ : Block L₁ I₁}
    (ih : ∀ st₁ ∈ b₁.statements, ∀ st₂ : Stmt L₂ I₂, st₁.map f₁ forget = st₂.map f₂ forget →
      st₁.nodes.map g₁ = st₂.nodes.map g₂ → st₁.map f₁ g₁ = st₂.map f₂ g₂)
    {b₂ : Block L₂ I₂} (hshape : b₁.map f₁ forget = b₂.map f₂ forget)
    (hnodes : b₁.nodes.map g₁ = b₂.nodes.map g₂) : b₁.map f₁ g₁ = b₂.map f₂ g₂ := by
  obtain ⟨mark₁, sts₁⟩ := b₁
  obtain ⟨mark₂, sts₂⟩ := b₂
  simp only [Block.nodes, List.map_cons, List.cons.injEq] at hnodes
  simp only [Block.map, Block.mk.injEq, true_and] at hshape ⊢
  refine ⟨hnodes.1, ?_⟩
  replace hnodes := hnodes.2
  -- Statement by statement: those that correspond have the same shape, so as many nodes each.
  induction sts₁ generalizing sts₂ with
  | nil =>
    cases sts₂ with
    | nil => rfl
    | cons st₂ sts₂ => simp [Block.mapAll] at hshape
  | cons st₁ sts₁ ihs =>
    cases sts₂ with
    | nil => simp [Block.mapAll] at hshape
    | cons st₂ sts₂ =>
      simp only [Block.mapAll, List.cons.injEq, Block.nodesAll] at hshape hnodes ⊢
      have hlength : st₁.nodes.map forget = st₂.nodes.map forget := by
        rw [← Stmt.nodes_map f₁, ← Stmt.nodes_map f₂, hshape.1]
      obtain ⟨hfirst, hrest⟩ := nodes_inj hlength hnodes
      exact ⟨ih st₁ List.mem_cons_self st₂ hshape.1 hfirst,
        ihs (fun st hst => ih st (List.mem_cons_of_mem _ hst)) sts₂ hshape.2 hrest⟩

/-- Statements of the same shape with the same nodes are the same. -/
theorem Stmt.map_eq_of_shape (st₁ : Stmt L₁ I₁) (st₂ : Stmt L₂ I₂)
    (hshape : st₁.map f₁ (fun _ => ()) = st₂.map f₂ (fun _ => ()))
    (hnodes : st₁.nodes.map g₁ = st₂.nodes.map g₂) : st₁.map f₁ g₁ = st₂.map f₂ g₂ := by
  induction st₁ using Stmt.inductionOn generalizing st₂ with
  | declare p type name value =>
    -- Trees of one shape start with the same constructor; here it has no node.
    cases st₂ with
    | declare => simpa only [Stmt.map, Stmt.declare.injEq] using hshape
    | _ => simp only [Stmt.map, reduceCtorEq] at hshape
  | assign p target value =>
    cases st₂ with
    | assign => simpa only [Stmt.map, Stmt.assign.injEq] using hshape
    | _ => simp only [Stmt.map, reduceCtorEq] at hshape
  | assignAt p target position value =>
    cases st₂ with
    | assignAt => simpa only [Stmt.map, Stmt.assignAt.injEq] using hshape
    | _ => simp only [Stmt.map, reduceCtorEq] at hshape
  | print p newline value =>
    cases st₂ with
    | print => simpa only [Stmt.map, Stmt.print.injEq] using hshape
    | _ => simp only [Stmt.map, reduceCtorEq] at hshape
  | call p callee arguments =>
    cases st₂ with
    | call => simpa only [Stmt.map, Stmt.call.injEq] using hshape
    | _ => simp only [Stmt.map, reduceCtorEq] at hshape
  | ret p mark value =>
    cases st₂ with
    | ret p₂ mark₂ value₂ =>
      simp only [Stmt.map, Stmt.ret.injEq, true_and] at hshape ⊢
      -- The shape forgets the node of the statement, and the list of nodes gives it back.
      exact ⟨hshape.1, List.singleton_inj.mp hnodes, hshape.2⟩
    | _ => simp only [Stmt.map, reduceCtorEq] at hshape
  | ifThen p condition yes ih =>
    cases st₂ with
    | ifThen p₂ condition₂ yes₂ =>
      simp only [Stmt.map, Stmt.ifThen.injEq] at hshape ⊢
      exact ⟨hshape.1, hshape.2.1, Block.map_eq_of ih hshape.2.2 hnodes⟩
    | _ => simp only [Stmt.map, reduceCtorEq] at hshape
  | loop p condition body ih =>
    cases st₂ with
    | loop p₂ condition₂ body₂ =>
      simp only [Stmt.map, Stmt.loop.injEq] at hshape ⊢
      exact ⟨hshape.1, hshape.2.1, Block.map_eq_of ih hshape.2.2 hnodes⟩
    | _ => simp only [Stmt.map, reduceCtorEq] at hshape
  | ifElse p condition yes no ihy ihn =>
    cases st₂ with
    | ifElse p₂ condition₂ yes₂ no₂ =>
      simp only [Stmt.map, Stmt.ifElse.injEq] at hshape ⊢
      obtain ⟨hp, hcondition, hyes, hno⟩ := hshape
      -- The shape of the first branch says where its nodes end and those of the second begin.
      have hlength : yes.nodes.map forget = yes₂.nodes.map forget := by
        rw [← Block.nodes_map f₁, ← Block.nodes_map f₂, hyes]
      obtain ⟨hnodesYes, hnodesNo⟩ := nodes_inj hlength hnodes
      exact ⟨hp, hcondition, Block.map_eq_of ihy hyes hnodesYes, Block.map_eq_of ihn hno hnodesNo⟩
    | _ => simp only [Stmt.map, reduceCtorEq] at hshape

theorem Block.map_eq_of_shape (b₁ : Block L₁ I₁) (b₂ : Block L₂ I₂)
    (hshape : b₁.map f₁ (fun _ => ()) = b₂.map f₂ (fun _ => ()))
    (hnodes : b₁.nodes.map g₁ = b₂.nodes.map g₂) : b₁.map f₁ g₁ = b₂.map f₂ g₂ :=
  Block.map_eq_of (fun st₁ _ st₂ => st₁.map_eq_of_shape st₂) hshape hnodes

theorem Item.map_eq_of_shape (i₁ : Item L₁ I₁) (i₂ : Item L₂ I₂)
    (hshape : i₁.map f₁ (fun _ => ()) = i₂.map f₂ (fun _ => ()))
    (hnodes : i₁.nodes.map g₁ = i₂.nodes.map g₂) : i₁.map f₁ g₁ = i₂.map f₂ g₂ := by
  cases i₁ with
  | function h₁ =>
    cases i₂ with
    | main e₂ => cases hshape
    | function h₂ =>
      simp only [Item.map, Function.map, Item.function.injEq, Function.mk.injEq, true_and]
        at hshape ⊢
      simp only [Item.nodes, List.map_cons, List.cons.injEq] at hnodes
      obtain ⟨hplace, hreturns, hname, hparameters, hbody⟩ := hshape
      refine ⟨hplace, hnodes.1, hreturns, hname, hparameters, ?_⟩
      -- Whether there is a body is part of the shape.
      cases hb₁ : h₁.body with
      | none =>
        have hb₂ : h₂.body = none := by simpa [hb₁] using hbody.symm
        rw [hb₂]
        rfl
      | some b₁ =>
        cases hb₂ : h₂.body with
        | none => simp [hb₁, hb₂] at hbody
        | some b₂ =>
          rw [hb₁, hb₂] at hbody hnodes
          exact congrArg some (Block.map_eq_of_shape b₁ b₂ (Option.some.inj hbody) hnodes.2)
  | main e₁ =>
    cases i₂ with
    | function h₂ => cases hshape
    | main e₂ =>
      simp only [Item.map, EntryPoint.map, Item.main.injEq, EntryPoint.mk.injEq] at hshape ⊢
      simp only [Item.nodes, List.map_cons, List.cons.injEq] at hnodes
      exact ⟨hshape.1, hnodes.1, Block.map_eq_of_shape _ _ hshape.2.2 hnodes.2⟩

/-- Items of the same shapes with the same nodes are the same. -/
theorem Item.map_eq_map_of_shape (items₁ : List (Item L₁ I₁)) (items₂ : List (Item L₂ I₂))
    (hshape : items₁.map (Item.map f₁ fun _ => ()) = items₂.map (Item.map f₂ fun _ => ()))
    (hnodes : (items₁.flatMap Item.nodes).map g₁ = (items₂.flatMap Item.nodes).map g₂) :
    items₁.map (Item.map f₁ g₁) = items₂.map (Item.map f₂ g₂) := by
  induction items₁ generalizing items₂ with
  | nil =>
    cases items₂ with
    | nil => rfl
    | cons i₂ items₂ => cases hshape
  | cons i₁ items₁ ih =>
    cases items₂ with
    | nil => cases hshape
    | cons i₂ items₂ =>
      simp only [List.map_cons, List.cons.injEq, List.flatMap_cons] at hshape hnodes ⊢
      -- The shape says how many nodes belong to the first item.
      have hlength : i₁.nodes.map forget = i₂.nodes.map forget := by
        rw [← Item.nodes_map f₁, ← Item.nodes_map f₂, hshape.1]
      obtain ⟨hfirst, hrest⟩ := nodes_inj hlength hnodes
      exact ⟨i₁.map_eq_of_shape i₂ hshape.1 hfirst, ih items₂ hshape.2 hrest⟩

end Shapes

/-! ## Programs -/

/-- `q` is `p` with its places and the numbers of its nodes replaced, so that distinct nodes of `p`
stay distinct. -/
structure Program.Relabels (f : L → L') (g : NodeId → NodeId) (p : Program L) (q : Program L') :
    Prop where
  root : q.root = g p.root
  items : q.items = p.items.map (Item.map f g)
  injective : ∀ m ∈ p.nodes, ∀ n ∈ p.nodes, g m = g n → m = n

theorem Program.Relabels.nodes_eq {f : L → L'} {g : NodeId → NodeId} {p : Program L}
    {q : Program L'} (h : p.Relabels f g q) : q.nodes = p.nodes.map g := by
  rw [Program.nodes, h.root, h.items, Program.nodes, List.map_cons, List.flatMap_map,
    List.map_flatMap]
  simp only [Item.nodes_map]

/-- A list without repetitions is led to any other list of its length by some function. -/
private theorem exists_map_eq {xs ys : List NodeId} (hxs : xs.Nodup)
    (hlength : xs.length = ys.length) : ∃ g, xs.map g = ys := by
  induction xs generalizing ys with
  | nil => exact ⟨id, (List.length_eq_zero_iff.mp hlength.symm).symm⟩
  | cons x xs ih =>
    cases ys with
    | nil => cases hlength
    | cons y ys =>
      obtain ⟨hx, hxs⟩ := List.nodup_cons.mp hxs
      obtain ⟨g, hg⟩ := ih hxs (Nat.succ.inj hlength)
      refine ⟨fun z => if z = x then y else g z, ?_⟩
      rw [List.map_cons, if_pos rfl, ← hg]
      refine congrArg (y :: ·) (List.map_congr_left fun z hz => if_neg ?_)
      rintro rfl
      exact hx hz

/-- Programs of the same shape, each with distinct nodes, are without their places the same program
but for the numbers of the nodes. -/
theorem Program.exists_relabels {p : Program L} {q : Program L'} (hp : p.Distinct)
    (hq : q.Distinct) (h : p.shape = q.shape) :
    ∃ (r : Program Unit) (g : NodeId → NodeId), p.Relabels (fun _ => ()) g r ∧
      q.Relabels (fun _ => ()) id r ∧ p.nodes.map g = q.nodes := by
  -- Nodes are listed in the order of the tree, so those at the same position correspond.
  have hlength : p.nodes.length = q.nodes.length := by
    have hnodes := congrArg (fun is => (is.flatMap Item.nodes).length) h
    simp only [Program.shape, List.flatMap_map, Item.nodes_map] at hnodes
    simpa [Program.nodes, List.length_flatMap, List.map_map] using hnodes
  obtain ⟨g, hg⟩ := exists_map_eq hp hlength
  obtain ⟨hroot, hitems⟩ := List.cons.inj hg
  refine ⟨⟨q.root, q.items.map (Item.map (fun _ => ()) id), q.nodeCount⟩, g, ?_, ?_, hg⟩
  · refine ⟨hroot.symm, ?_, ?_⟩
    · refine (Item.map_eq_map_of_shape p.items q.items h ?_).symm
      rw [List.map_id]
      exact hitems
    · -- Two nodes with the same new number would repeat a node of `q`.
      exact List.inj_on_of_nodup_map (hg ▸ hq)
  · exact ⟨rfl, rfl, fun m _ n _ he => he⟩

end Primer
