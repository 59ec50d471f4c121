import Primer.Proofs.Tree.Relabeling

/-!
# Places in a tree

The places of a program, in reading order: those of its items, statements, expressions and names.
Replacing places depends on nothing but them (`Item.map_congr`), so that a place comes out of the
tree only if it is one of these.
-/

namespace Primer

variable {L L' I J : Type}

/-! ## Places -/

mutual

/-- The places in an expression. -/
def Expr.places : Expr L → List L
  | .int p _ | .float p _ | .bool p _ | .char p _ | .str p _ => [p]
  | .read p name => [p, name.place]
  | .call p callee arguments => p :: callee.place :: Expr.placesAll arguments
  | .index p base position => p :: base.place :: position.places
  | .length p operand | .paren p operand | .negate p operand => p :: operand.places
  | .binary p _ lhs rhs => p :: (lhs.places ++ rhs.places)
  | .array p elements => p :: Expr.placesAll elements
  | .newArray p element size => p :: element.place :: size.places

/-- The places in several expressions. -/
def Expr.placesAll : List (Expr L) → List L
  | [] => []
  | e :: es => e.places ++ Expr.placesAll es

end

theorem Expr.placesAll_eq_flatMap (es : List (Expr L)) :
    Expr.placesAll es = es.flatMap Expr.places := by
  induction es with
  | nil => rfl
  | cons e es ih => simp [Expr.placesAll, ih]

/-- The places in an expression that may be absent. -/
def Expr.placesOption : Option (Expr L) → List L
  | none => []
  | some e => e.places

mutual

/-- The places in a statement. -/
def Stmt.places : Stmt L I → List L
  | .declare p type name value => p :: type.place :: name.place :: Expr.placesOption value
  | .assign p target value => p :: target.place :: value.places
  | .assignAt p target position value => p :: target.place :: (position.places ++ value.places)
  | .ifThen p condition yes => p :: (condition.places ++ yes.places)
  | .ifElse p condition yes no => p :: (condition.places ++ (yes.places ++ no.places))
  | .loop p condition body => p :: (condition.places ++ body.places)
  | .ret p _ value => p :: Expr.placesOption value
  | .print p _ value => p :: Expr.placesOption value
  | .call p callee arguments => p :: callee.place :: Expr.placesAll arguments

/-- The places in a block. -/
def Block.places : Block L I → List L
  | .mk _ statements => Block.placesAll statements

/-- The places in the statements of a block. -/
def Block.placesAll : List (Stmt L I) → List L
  | [] => []
  | st :: sts => st.places ++ Block.placesAll sts

end

theorem Block.placesAll_eq_flatMap (sts : List (Stmt L I)) :
    Block.placesAll sts = sts.flatMap Stmt.places := by
  induction sts with
  | nil => rfl
  | cons st sts ih => simp [Block.placesAll, ih]

/-- The places in a parameter. -/
def Parameter.places (q : Parameter L) : List L :=
  [q.type.place, q.name.place]

/-- The places in an item. -/
def Item.places : Item L I → List L
  | .function h =>
    h.place :: h.returns.place :: h.name.place ::
      (h.parameters.flatMap Parameter.places ++ (h.body.map Block.places).getD [])
  | .main e => e.place :: e.body.places

/-- The places in a program. -/
def Program.places (p : Program L) : List L :=
  p.items.flatMap Item.places

/-! ## Replacing places -/

section Congr

variable {f g : L → L'}

theorem Name.map_congr {n : Name L} (h : f n.place = g n.place) : n.map f = n.map g := by
  rw [Name.map, h, Name.map]

private theorem Expr.mapAll_congr_of {es : List (Expr L)}
    (ih : ∀ e ∈ es, (∀ l ∈ e.places, f l = g l) → e.map f = e.map g)
    (h : ∀ l ∈ Expr.placesAll es, f l = g l) : Expr.mapAll f es = Expr.mapAll g es := by
  rw [Expr.placesAll_eq_flatMap] at h
  rw [Expr.mapAll_eq_map, Expr.mapAll_eq_map]
  exact List.map_congr_left fun e he =>
    ih e he fun l hl => h l (List.mem_flatMap.mpr ⟨e, he, hl⟩)

theorem Expr.map_congr (e : Expr L) (h : ∀ l ∈ e.places, f l = g l) : e.map f = e.map g := by
  -- In every case `h` is split the way the places are put together.
  induction e using Expr.inductionOn with
  | int p n | float p bits | bool p b | char p c | str p s =>
    simp only [Expr.map, h p List.mem_cons_self]
  | read p name =>
    simp only [Expr.places, List.forall_mem_cons] at h
    obtain ⟨hp, hname, -⟩ := h
    simp only [Expr.map, hp, Name.map_congr hname]
  | call p callee arguments ih =>
    simp only [Expr.places, List.forall_mem_cons] at h
    obtain ⟨hp, hcallee, harguments⟩ := h
    simp only [Expr.map, hp, Name.map_congr hcallee, Expr.mapAll_congr_of ih harguments]
  | index p base position ih =>
    simp only [Expr.places, List.forall_mem_cons] at h
    obtain ⟨hp, hbase, hposition⟩ := h
    simp only [Expr.map, hp, Name.map_congr hbase, ih hposition]
  | length p operand ih | paren p operand ih | negate p operand ih =>
    simp only [Expr.places, List.forall_mem_cons] at h
    obtain ⟨hp, hoperand⟩ := h
    simp only [Expr.map, hp, ih hoperand]
  | binary p op lhs rhs ihl ihr =>
    simp only [Expr.places, List.forall_mem_cons, List.forall_mem_append] at h
    obtain ⟨hp, hl, hr⟩ := h
    simp only [Expr.map, hp, ihl hl, ihr hr]
  | array p elements ih =>
    simp only [Expr.places, List.forall_mem_cons] at h
    obtain ⟨hp, helements⟩ := h
    simp only [Expr.map, hp, Expr.mapAll_congr_of ih helements]
  | newArray p element size ih =>
    simp only [Expr.places, List.forall_mem_cons] at h
    obtain ⟨hp, helement, hsize⟩ := h
    simp only [Expr.map, hp, Name.map_congr helement, ih hsize]

theorem Expr.mapAll_congr {es : List (Expr L)} (h : ∀ l ∈ Expr.placesAll es, f l = g l) :
    Expr.mapAll f es = Expr.mapAll g es :=
  Expr.mapAll_congr_of (fun e _ => e.map_congr) h

theorem Expr.map_option_congr {e : Option (Expr L)}
    (h : ∀ l ∈ Expr.placesOption e, f l = g l) : e.map (Expr.map f) = e.map (Expr.map g) := by
  cases e with
  | none => rfl
  | some e => exact congrArg some (e.map_congr h)

variable (k : I → J)

private theorem Block.map_congr_of {b : Block L I}
    (ih : ∀ st ∈ b.statements, (∀ l ∈ st.places, f l = g l) → st.map f k = st.map g k)
    (h : ∀ l ∈ b.places, f l = g l) : b.map f k = b.map g k := by
  obtain ⟨mark, sts⟩ := b
  rw [Block.places, Block.placesAll_eq_flatMap] at h
  rw [Block.map, Block.map, Block.mapAll_eq_map, Block.mapAll_eq_map]
  refine congrArg (Block.mk (k mark)) (List.map_congr_left fun st hst => ?_)
  exact ih st hst fun l hl => h l (List.mem_flatMap.mpr ⟨st, hst, hl⟩)

theorem Stmt.map_congr (st : Stmt L I) (h : ∀ l ∈ st.places, f l = g l) :
    st.map f k = st.map g k := by
  induction st using Stmt.inductionOn with
  | declare p type name value =>
    -- The places are listed constructor by constructor, which splits the hypothesis alike.
    simp only [Stmt.places, List.forall_mem_cons] at h
    obtain ⟨hp, htype, hname, hvalue⟩ := h
    simp only [Stmt.map, hp, Name.map_congr htype, Name.map_congr hname,
      Expr.map_option_congr hvalue]
  | assign p target value =>
    simp only [Stmt.places, List.forall_mem_cons] at h
    obtain ⟨hp, htarget, hvalue⟩ := h
    simp only [Stmt.map, hp, Name.map_congr htarget, value.map_congr hvalue]
  | assignAt p target position value =>
    simp only [Stmt.places, List.forall_mem_cons, List.forall_mem_append] at h
    obtain ⟨hp, htarget, hposition, hvalue⟩ := h
    simp only [Stmt.map, hp, Name.map_congr htarget, position.map_congr hposition,
      value.map_congr hvalue]
  | ret p mark value | print p newline value =>
    simp only [Stmt.places, List.forall_mem_cons] at h
    obtain ⟨hp, hvalue⟩ := h
    simp only [Stmt.map, hp, Expr.map_option_congr hvalue]
  | call p callee arguments =>
    simp only [Stmt.places, List.forall_mem_cons] at h
    obtain ⟨hp, hcallee, harguments⟩ := h
    simp only [Stmt.map, hp, Name.map_congr hcallee, Expr.mapAll_congr harguments]
  | ifThen p condition yes ih | loop p condition yes ih =>
    simp only [Stmt.places, List.forall_mem_cons, List.forall_mem_append] at h
    obtain ⟨hp, hcondition, hyes⟩ := h
    simp only [Stmt.map, hp, condition.map_congr hcondition, Block.map_congr_of k ih hyes]
  | ifElse p condition yes no ihy ihn =>
    simp only [Stmt.places, List.forall_mem_cons, List.forall_mem_append] at h
    obtain ⟨hp, hcondition, hyes, hno⟩ := h
    simp only [Stmt.map, hp, condition.map_congr hcondition, Block.map_congr_of k ihy hyes,
      Block.map_congr_of k ihn hno]

theorem Block.map_congr (b : Block L I) (h : ∀ l ∈ b.places, f l = g l) : b.map f k = b.map g k :=
  Block.map_congr_of k (fun st _ => st.map_congr k) h

theorem Parameter.map_congr {q : Parameter L} (h : ∀ l ∈ q.places, f l = g l) :
    q.map f = q.map g := by
  simp only [Parameter.places, List.forall_mem_cons] at h
  obtain ⟨htype, hname, -⟩ := h
  simp only [Parameter.map, Name.map_congr htype, Name.map_congr hname]

/-- Only the places of an item matter when its places are replaced. -/
theorem Item.map_congr (i : Item L I) (h : ∀ l ∈ i.places, f l = g l) : i.map f k = i.map g k := by
  cases i with
  | function fn =>
    simp only [Item.places, List.forall_mem_cons, List.forall_mem_append] at h
    obtain ⟨hplace, hreturns, hname, hparameters, hbody⟩ := h
    have hparameters' : fn.parameters.map (Parameter.map f) = fn.parameters.map (Parameter.map g) :=
      List.map_congr_left fun q hq =>
        Parameter.map_congr fun l hl => hparameters l (List.mem_flatMap.mpr ⟨q, hq, hl⟩)
    -- A header without body has no places to agree on.
    have hbody' : fn.body.map (Block.map f k) = fn.body.map (Block.map g k) := by
      cases hb : fn.body with
      | none => rfl
      | some body =>
        rw [hb] at hbody
        exact congrArg some (body.map_congr k hbody)
    simp only [Item.map, Function.map, hplace, Name.map_congr hreturns, Name.map_congr hname,
      hparameters', hbody']
  | main e =>
    simp only [Item.places, List.forall_mem_cons] at h
    obtain ⟨hplace, hbody⟩ := h
    simp only [Item.map, EntryPoint.map, hplace, e.body.map_congr k hbody]

end Congr

end Primer
