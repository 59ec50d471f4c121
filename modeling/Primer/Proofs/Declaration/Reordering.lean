import Primer.Proofs.Analysis.Likeness
import Primer.Proofs.Declaration.Resolution
import Primer.Proofs.Declaration.WellDeclared
import Primer.Proofs.Typing.Acceptance
import Primer.Proofs.Typing.Environment
import Mathlib.Data.List.Nodup
import Mathlib.Data.Option.Basic

/-!
# Items in another order

If the items of a program change places, each of them is declared as before, but its symbols have
other numbers: those of an item are shifted together. The declarations of the two programs
correspond by the item that they belong to and their place in it (`Program.Corresponds`), and this
is a renaming of the one table into the other (`Program.isRenaming`) in which all nodes of the items
have scopes that are alike (`Program.alikeAt`).
-/

namespace Primer

variable {L : Type}

/-! ## Shifted layers -/

/-- A declaration with a number that is larger by `k`. -/
def Declared.shift (k : Nat) (x : Declared) : Declared :=
  { x with symbol := ⟨k + x.symbol.index⟩ }

/-- A layer in which all numbers are larger by `k`. -/
def Layer.shift (k : Nat) (layer : Layer) : Layer :=
  layer.map fun (name, x) => (name, x.shift k)

theorem Layer.lookup_shift (k : Nat) (layer : Layer) (name : String) :
    (layer.shift k).lookup name = (layer.lookup name).map (Declared.shift k) := by
  induction layer with
  | nil => rfl
  | cons entry layer ih =>
    obtain ⟨other, x⟩ := entry
    change List.lookup name ((other, x.shift k) :: Layer.shift k layer) = _
    rw [List.lookup_cons, List.lookup_cons, ih]
    cases name == other <;> rfl

theorem Stmt.layer_add (k n : Nat) (st : Stmt L NodeId) :
    st.layer (k + n) = Layer.shift k (st.layer n) := by
  cases st <;> rfl

theorem Block.layer_add (k n : Nat) (sts : List (Stmt L NodeId)) :
    Block.layer (k + n) sts = Layer.shift k (Block.layer n sts) := by
  induction sts generalizing n with
  | nil => rfl
  | cons st sts ih =>
    rw [Block.layer_cons, Block.layer_cons, Stmt.layer_add, Nat.add_assoc, ih]
    exact (List.map_append).symm

theorem Parameter.layer_add (k n : Nat) (ps : List (Parameter L)) :
    Parameter.layer (k + n) ps = Layer.shift k (Parameter.layer n ps) := by
  induction ps generalizing n with
  | nil => rfl
  | cons p ps ih =>
    rw [Parameter.layer, Parameter.layer, Nat.add_assoc, ih]
    rfl

/-- The numbers of a block stay below the next one that is free. -/
theorem Block.lt_of_mem_layer {n : Nat} {sts : List (Stmt L NodeId)} {name : String} {x : Declared}
    (h : (name, x) ∈ Block.layer n sts) : x.symbol.index < n + Block.variableCountAll sts := by
  induction sts generalizing n with
  | nil => exact absurd h List.not_mem_nil
  | cons st sts ih =>
    rw [Block.layer_cons] at h
    rcases List.mem_append.mp h with h | h
    · cases st with
      | declare p type written value =>
        obtain ⟨-, rfl⟩ := Prod.mk.inj (List.mem_singleton.mp h)
        simp only [Block.variableCountAll, Stmt.variableCount]
        omega
      | _ => exact absurd h List.not_mem_nil
    · have := ih h
      simp only [Block.variableCountAll]
      omega

/-- A statement of a block has the same offset wherever the numbers of the block start. -/
theorem Block.exists_offset {st : Stmt L NodeId} {sts : List (Stmt L NodeId)} (h : st ∈ sts) :
    ∃ d, d + st.variableCount ≤ Block.variableCountAll sts ∧
      ∀ k, (k + d, st) ∈ Block.numbered k sts := by
  induction sts with
  | nil => exact absurd h List.not_mem_nil
  | cons first sts ih =>
    rcases List.mem_cons.mp h with rfl | h
    · exact ⟨0, by simp [Block.variableCountAll], fun k => List.mem_cons_self⟩
    · obtain ⟨d, hd, hmem⟩ := ih h
      refine ⟨first.variableCount + d, by simp only [Block.variableCountAll]; omega, fun k => ?_⟩
      have := hmem (k + first.variableCount)
      rw [Nat.add_assoc] at this
      exact List.mem_cons_of_mem _ this

/-! ## Going down a tree -/

/-- Corresponding numbers whose symbols stand for the same. -/
def Table.Counterparts (C : SymbolId → SymbolId → Prop) (t t' : Table) (x x' : SymbolId) : Prop :=
  C x x' ∧ Option.Rel (Symbol.Alike t t') (t.symbol? x) (t'.symbol? x')

section Descent

variable {C : SymbolId → SymbolId → Prop} {t t' : Table} {m m' : ScopeMap}

/-- A variable that is declared alike in both tables. -/
theorem Table.Describes.alike {name : String} {x x' : Declared} (h : t.Describes name x)
    (h' : t'.Describes name x') (htype : x.type = x'.type) (hx : x.isFunction = false)
    (hx' : x'.isFunction = false) :
    Option.Rel (Symbol.Alike t t') (t.symbol? x.symbol) (t'.symbol? x'.symbol) := by
  obtain ⟨τ, hτ, hsymbol⟩ := h
  obtain ⟨τ', hτ', hsymbol'⟩ := h'
  obtain rfl : τ = τ' := Option.some.inj (hτ.symm.trans (htype ▸ hτ'))
  simp only [hx, hx', Bool.false_eq_true, if_false] at hsymbol hsymbol'
  rw [hsymbol, hsymbol']
  exact .some .var

/-- Variables of a layer that is declared in both tables, from numbers `k` and `k'` on. -/
theorem Layer.rel_lookup {layer : Layer} {k k' : Nat}
    (hdescribes : ∀ name x, (name, x) ∈ layer.shift k → t.Describes name x)
    (hdescribes' : ∀ name x, (name, x) ∈ layer.shift k' → t'.Describes name x)
    (hlayer : ∀ name x, (name, x) ∈ layer → x.isFunction = false ∧
      C ⟨k + x.symbol.index⟩ ⟨k' + x.symbol.index⟩) (name : String) :
    Option.Rel (Table.Counterparts C t t') (((layer.shift k).lookup name).map Declared.symbol)
      (((layer.shift k').lookup name).map Declared.symbol) := by
  rw [Layer.lookup_shift, Layer.lookup_shift]
  cases hx : layer.lookup name with
  | none => exact .none
  | some x =>
    -- The entry is found in the layer itself, and the shift moves only its number.
    obtain ⟨before, after, hsplit, -⟩ := List.lookup_eq_some_iff.mp hx
    have hmem : (name, x) ∈ layer := by rw [hsplit]; simp
    have hshift : ∀ n, (name, x.shift n) ∈ layer.shift n := fun n =>
      List.mem_map.mpr ⟨(name, x), hmem, rfl⟩
    obtain ⟨hvar, hC⟩ := hlayer name x hmem
    exact .some ⟨hC, (hdescribes name _ (hshift k)).alike (hdescribes' name _ (hshift k')) rfl
      hvar hvar⟩

/-- A scope is like another if what it binds, its parent and its owner are. -/
theorem Table.Alike.of_parent {R : SymbolId → SymbolId → Prop} {s s' r r' : ScopeId}
    (ht : t.Descends) (ht' : t'.Descends)
    (hparent : t.parent? r = some s) (hparent' : t'.parent? r' = some s')
    (hresolve : ∀ name, Option.Rel R (t.resolve s name) (t'.resolve s' name))
    (hfunctions : ∀ name,
      Option.Rel R (t.localResolve Table.global name) (t'.localResolve Table.global name))
    (hlocal : ∀ name, Option.Rel R (t.localResolve r name) (t'.localResolve r' name))
    (howner : Option.Rel R (t.owner? r) (t'.owner? r')) : Table.Alike R t t' r r' where
  resolve name := by
    rw [Table.resolve_eq ht, Table.resolve_eq ht', hparent, hparent']
    exact (hlocal name).or (hresolve name)
  localResolve := hlocal
  functions := hfunctions
  owner := howner
  -- A scope with a parent has a number above zero, so it is not the global one.
  global := by
    have hr := ht r s hparent
    have hr' := ht' r' s' hparent'
    constructor
    · rintro rfl
      exact absurd hr (Nat.not_lt_zero _)
    · rintro rfl
      exact absurd hr' (Nat.not_lt_zero _)

variable {owner owner' : Option SymbolId}

private theorem Block.alikeAt_of {b : Block L NodeId} (ht : t.Descends) (ht' : t'.Descends)
    (howners : Option.Rel (Table.Counterparts C t t') owner owner')
    (ih : ∀ st ∈ b.statements, ∀ s s' k k', Table.Alike (Table.Counterparts C t t') t t' s s' →
      st.Placed t m owner s → st.Placed t' m' owner' s' → st.Bound t m s k → st.Bound t' m' s' k' →
      (∀ j < st.variableCount, C ⟨k + j⟩ ⟨k' + j⟩) →
      ∀ node ∈ st.nodes, Table.AlikeAt (Table.Counterparts C t t') t t' m m' node)
    {s s' : ScopeId} {k k' : Nat} (h : Table.Alike (Table.Counterparts C t t') t t' s s')
    (hplaced : b.Placed t m owner s) (hplaced' : b.Placed t' m' owner' s')
    (hbound : b.Bound t m s k) (hbound' : b.Bound t' m' s' k')
    (hC : ∀ j < b.variableCount, C ⟨k + j⟩ ⟨k' + j⟩) :
    ∀ node ∈ b.nodes, Table.AlikeAt (Table.Counterparts C t t') t t' m m' node := by
  cases hplaced with
  | @mk _ r node sts hnode hparent howner hsts =>
  cases hplaced' with
  | @mk _ r' _ _ hnode' hparent' howner' hsts' =>
  cases hbound with
  | @mk _ q _ _ _ hq _ _ hbinds hstsBound =>
  cases hbound' with
  | @mk _ q' _ _ _ hq' _ _ hbinds' hstsBound' =>
  obtain rfl : r = q := Option.some.inj (hnode.symm.trans hq)
  obtain rfl : r' = q' := Option.some.inj (hnode'.symm.trans hq')
  -- A layer is the same in both programs but for where its numbers start.
  have hlayer : ∀ n, Block.layer n sts = Layer.shift n (Block.layer 0 sts) :=
    fun n => Block.layer_add n 0 sts
  -- The scopes of the block are alike, since their parents are and they bind the same names.
  have halike : Table.Alike (Table.Counterparts C t t') t t' r r' := by
    refine .of_parent ht ht' hparent hparent' h.resolve h.functions (fun name => ?_)
      (howner ▸ howner' ▸ howners)
    rw [hbinds, hbinds', hlayer k, hlayer k']
    refine Layer.rel_lookup (fun name x hx => ?_) (fun name x hx => ?_) (fun name x hx => ?_) name
    · exact Block.describes_layer hstsBound (hlayer k ▸ hx)
    · exact Block.describes_layer hstsBound' (hlayer k' ▸ hx)
    · refine ⟨Block.isFunction_layer hx, hC _ ?_⟩
      have := Block.lt_of_mem_layer hx
      rwa [Nat.zero_add] at this
  intro n hn
  rcases List.mem_cons.mp hn with rfl | hn
  · exact ⟨r, r', hnode, hnode', halike⟩
  · rw [Block.nodesAll_eq_flatMap] at hn
    obtain ⟨st, hst, hn⟩ := List.mem_flatMap.mp hn
    -- Inside the block a statement starts at the same distance from the first number in both.
    obtain ⟨d, hd, hmem⟩ := Block.exists_offset hst
    refine ih st hst r r' (k + d) (k' + d) halike (hsts st hst) (hsts' st hst)
      (hstsBound _ st (hmem k)) (hstsBound' _ st (hmem k')) (fun j hj => ?_) n hn
    rw [Nat.add_assoc, Nat.add_assoc]
    exact hC (d + j) (by change d + j < Block.variableCountAll sts; omega)

/-- The nodes of a statement that is declared in both tables have scopes that are alike. -/
theorem Stmt.alikeAt (ht : t.Descends) (ht' : t'.Descends)
    (howners : Option.Rel (Table.Counterparts C t t') owner owner') {st : Stmt L NodeId}
    {s s' : ScopeId} {k k' : Nat} (h : Table.Alike (Table.Counterparts C t t') t t' s s')
    (hplaced : st.Placed t m owner s) (hplaced' : st.Placed t' m' owner' s')
    (hbound : st.Bound t m s k) (hbound' : st.Bound t' m' s' k')
    (hC : ∀ j < st.variableCount, C ⟨k + j⟩ ⟨k' + j⟩) :
    ∀ node ∈ st.nodes, Table.AlikeAt (Table.Counterparts C t t') t t' m m' node := by
  induction st using Stmt.inductionOn generalizing s s' k k' with
  | declare | assign | assignAt | print | call => exact fun _ hn => absurd hn List.not_mem_nil
  -- A return is recorded with the scope of its block.
  | ret p node value =>
    intro n hn
    obtain rfl := List.mem_singleton.mp hn
    cases hplaced with
    | ret hnode =>
      cases hplaced' with
      | ret hnode' => exact ⟨s, s', hnode, hnode', h⟩
  | ifThen p condition yes ih =>
    cases hplaced with | ifThen hyes =>
    cases hplaced' with | ifThen hyes' =>
    cases hbound with | ifThen hbound =>
    cases hbound' with | ifThen hbound' =>
    exact Block.alikeAt_of ht ht' howners (fun st hst s s' k k' => ih st hst) h hyes hyes'
      hbound hbound' hC
  | loop p condition body ih =>
    cases hplaced with | loop hbody =>
    cases hplaced' with | loop hbody' =>
    cases hbound with | loop hbound =>
    cases hbound' with | loop hbound' =>
    exact Block.alikeAt_of ht ht' howners (fun st hst s s' k k' => ih st hst) h hbody hbody'
      hbound hbound' hC
  | ifElse p condition yes no ihy ihn =>
    cases hplaced with | ifElse hyes hno =>
    cases hplaced' with | ifElse hyes' hno' =>
    cases hbound with | ifElse hbound hboundNo =>
    cases hbound' with | ifElse hbound' hboundNo' =>
    refine List.forall_mem_append.mpr ⟨?_, ?_⟩
    · exact Block.alikeAt_of ht ht' howners (fun st hst s s' k k' => ihy st hst) h hyes hyes'
        hbound hbound' fun j hj => hC j (Nat.lt_of_lt_of_le hj (Nat.le_add_right _ _))
    · refine Block.alikeAt_of ht ht' howners (fun st hst s s' k k' => ihn st hst) h hno hno'
        hboundNo hboundNo' fun j hj => ?_
      -- The numbers of the second block come after those of the first.
      rw [Nat.add_assoc, Nat.add_assoc]
      exact hC (yes.variableCount + j) (Nat.add_lt_add_left hj _)

theorem Block.alikeAt (ht : t.Descends) (ht' : t'.Descends)
    (howners : Option.Rel (Table.Counterparts C t t') owner owner') {b : Block L NodeId}
    {s s' : ScopeId} {k k' : Nat} (h : Table.Alike (Table.Counterparts C t t') t t' s s')
    (hplaced : b.Placed t m owner s) (hplaced' : b.Placed t' m' owner' s')
    (hbound : b.Bound t m s k) (hbound' : b.Bound t' m' s' k')
    (hC : ∀ j < b.variableCount, C ⟨k + j⟩ ⟨k' + j⟩) :
    ∀ node ∈ b.nodes, Table.AlikeAt (Table.Counterparts C t t') t t' m m' node :=
  Block.alikeAt_of ht ht' howners
    (fun _ _ _ _ _ _ h => Stmt.alikeAt ht ht' howners h) h hplaced hplaced' hbound hbound' hC

/-! ## Items -/

/-- What a function is declared with does not depend on the table. -/
theorem Function.Entered.unique {k k' : Nat} {f : Function L NodeId} {body body' : Block L NodeId}
    {s s' : ScopeId} {returns returns' : Ty} {types types' : List Ty}
    (hf : f.Entered t m k body s returns types)
    (hf' : f.Entered t' m' k' body' s' returns' types') :
    body = body' ∧ returns = returns' ∧ types = types' :=
  ⟨Option.some.inj (hf.body_eq.symm.trans hf'.body_eq),
    Option.some.inj (hf.returns_named.symm.trans hf'.returns_named),
    List.map_injective_iff.mpr (Option.some_injective Ty)
      (hf.types_named.symm.trans hf'.types_named)⟩

theorem SymbolId.forall₂_block {R : SymbolId → SymbolId → Prop} {k k' n : Nat}
    (h : ∀ j < n, R ⟨k + j⟩ ⟨k' + j⟩) : List.Forall₂ R (block k n) (block k' n) := by
  induction n generalizing k k' with
  | zero => exact .nil
  | succ n ih =>
    refine .cons (h 0 (Nat.succ_pos n)) (ih fun j hj => ?_)
    rw [Nat.add_assoc, Nat.add_assoc, Nat.add_comm 1 j]
    exact h (j + 1) (Nat.succ_lt_succ hj)

/-- The parameters of a function that is declared in both tables. -/
theorem Function.Entered.forall₂_parameters {k k' : Nat} {f : Function L NodeId}
    {body : Block L NodeId} {s s' : ScopeId} {returns : Ty} {types : List Ty}
    (hf : f.Entered t m k body s returns types) (hf' : f.Entered t' m' k' body s' returns types)
    (hC : ∀ j < (Item.function f).symbolCount, C ⟨k + j⟩ ⟨k' + j⟩) :
    List.Forall₂ (Table.Counterparts C t t') (SymbolId.block (k + 1) f.parameters.length)
      (SymbolId.block (k' + 1) f.parameters.length) := by
  refine SymbolId.forall₂_block fun j hj => ⟨?_, ?_⟩
  · rw [Nat.add_assoc, Nat.add_assoc]
    exact hC (1 + j) (by simp only [Item.symbolCount]; omega)
  · have hlength : f.parameters.length = types.length := by
      simpa using congrArg List.length hf.types_named
    have hp := List.getElem?_eq_getElem hj
    have hτ := List.getElem?_eq_getElem (hlength ▸ hj)
    rw [hf.parameter j _ _ hp hτ, hf'.parameter j _ _ hp hτ]
    exact .some .var

/-- The symbol of an item stands for the same function in both tables. -/
theorem Item.Entered.symbol_alike {k k' : Nat} {i : Item L NodeId} (hi : i.Entered t m k)
    (hi' : i.Entered t' m' k') :
    Option.Rel (Symbol.Alike t t') (t.symbol? ⟨k⟩) (t'.symbol? ⟨k'⟩) := by
  cases i with
  | function f =>
    obtain ⟨body, s, returns, types, hf⟩ := hi
    obtain ⟨body', s', returns', types', hf'⟩ := hi'
    obtain ⟨-, rfl, rfl⟩ := hf.unique hf'
    rw [hf.symbol, hf'.symbol]
    exact .some (.fn ⟨rfl, rfl, hf.map_typeOf.trans hf'.map_typeOf.symm⟩)
  | main e =>
    obtain ⟨s, he⟩ := hi
    obtain ⟨s', he'⟩ := hi'
    rw [he.symbol, he'.symbol]
    exact .some (.fn ⟨rfl, rfl, rfl⟩)

/-- The nodes of an item that is declared in both tables have scopes that are alike. -/
theorem Item.Entered.alikeAt (ht : t.Descends) (ht' : t'.Descends) {k k' : Nat}
    {i : Item L NodeId} (hi : i.Entered t m k) (hi' : i.Entered t' m' k')
    (hfunctions : ∀ name, Option.Rel (Table.Counterparts C t t') (t.localResolve Table.global name)
      (t'.localResolve Table.global name))
    (hC : ∀ j < i.symbolCount, C ⟨k + j⟩ ⟨k' + j⟩) :
    ∀ node ∈ i.nodes, Table.AlikeAt (Table.Counterparts C t t') t t' m m' node := by
  have hsymbol := hi.symbol_alike hi'
  have hglobal : ∀ name, Option.Rel (Table.Counterparts C t t') (t.resolve Table.global name)
      (t'.resolve Table.global name) := fun name => by
    rw [Table.resolve_global ht, Table.resolve_global ht']
    exact hfunctions name
  cases i with
  | function f =>
    obtain ⟨body, s, returns, types, hf⟩ := hi
    obtain ⟨body', s', returns', types', hf'⟩ := hi'
    obtain ⟨rfl, -, -⟩ := hf.unique hf'
    simp only [Item.symbolCount, hf.body_eq, Option.map_some, Option.getD_some] at hC
    -- The first number is that of the function, the next ones are those of its parameters.
    have howners : Option.Rel (Table.Counterparts C t t') (some ⟨k⟩) (some ⟨k'⟩) :=
      .some ⟨hC 0 (by omega), hsymbol⟩
    have hlayer : ∀ n, Parameter.layer (n + 1) f.parameters =
        Layer.shift n (Parameter.layer 1 f.parameters) := fun n => Parameter.layer_add n 1 _
    have halike : Table.Alike (Table.Counterparts C t t') t t' s s' := by
      refine .of_parent ht ht' hf.parent hf'.parent hglobal hfunctions (fun name => ?_)
        (hf.owner ▸ hf'.owner ▸ howners)
      rw [hf.bindings, hf'.bindings, hlayer k, hlayer k']
      refine Layer.rel_lookup (fun name x hx => hf.describes_parameter (hlayer k ▸ hx))
        (fun name x hx => hf'.describes_parameter (hlayer k' ▸ hx)) (fun name x hx => ?_) name
      obtain ⟨j, p, hp, -, rfl⟩ := Parameter.mem_layer hx
      have hj : j < f.parameters.length := (List.getElem?_eq_some_iff.mp hp).1
      exact ⟨rfl, hC (1 + j) (by omega)⟩
    have hbody := Block.alikeAt ht ht' howners halike hf.placed hf'.placed hf.bound hf'.bound
      fun j hj => by
        rw [Nat.add_assoc, Nat.add_assoc, Nat.add_assoc, Nat.add_assoc]
        exact hC (1 + (f.parameters.length + j)) (by omega)
    intro node hn
    simp only [Item.nodes, hf.body_eq, Option.map_some, Option.getD_some] at hn
    rcases List.mem_cons.mp hn with rfl | hn
    · exact ⟨s, s', hf.mark, hf'.mark, halike⟩
    · exact hbody node hn
  | main e =>
    obtain ⟨s, he⟩ := hi
    obtain ⟨s', he'⟩ := hi'
    -- An entry point owns nothing and binds nothing.
    have halike : Table.Alike (Table.Counterparts C t t') t t' s s' := by
      refine .of_parent ht ht' he.parent he'.parent hglobal hfunctions (fun name => ?_) ?_
      · rw [he.bindings, he'.bindings]
        exact .none
      · rw [he.owner, he'.owner]
        exact .none
    have hbody := Block.alikeAt ht ht' .none halike he.placed he'.placed he.bound he'.bound
      fun j hj => by
        rw [Nat.add_assoc, Nat.add_assoc]
        exact hC (1 + j) (Nat.add_lt_add_left hj 1)
    intro node hn
    rcases List.mem_cons.mp hn with rfl | hn
    · exact ⟨s, s', he.mark, he'.mark, halike⟩
    · exact hbody node hn

end Descent

/-! ## Programs -/

theorem Item.le_of_mem_numbered {n k : Nat} {i : Item L NodeId} {items : List (Item L NodeId)}
    (h : (k, i) ∈ Item.numbered n items) : n ≤ k := by
  induction items generalizing n with
  | nil => exact absurd h List.not_mem_nil
  | cons first items ih =>
    rcases List.mem_cons.mp h with heq | h
    · obtain ⟨rfl, -⟩ := Prod.mk.inj heq
      exact Nat.le_refl _
    · exact Nat.le_trans (Nat.le_add_right _ _) (ih h)

/-- Every number belongs to one item at most. -/
theorem Item.eq_of_mem_numbered {n k₁ k₂ j₁ j₂ : Nat} {i₁ i₂ : Item L NodeId}
    {items : List (Item L NodeId)} (h₁ : (k₁, i₁) ∈ Item.numbered n items)
    (h₂ : (k₂, i₂) ∈ Item.numbered n items) (hj₁ : j₁ < i₁.symbolCount)
    (hj₂ : j₂ < i₂.symbolCount) (heq : k₁ + j₁ = k₂ + j₂) : k₁ = k₂ ∧ i₁ = i₂ := by
  induction items generalizing n with
  | nil => exact absurd h₁ List.not_mem_nil
  | cons first items ih =>
    -- The numbers of the first item are below those of all others.
    rcases List.mem_cons.mp h₁ with h₁ | h₁ <;> rcases List.mem_cons.mp h₂ with h₂ | h₂
    · exact Prod.mk.inj (h₁.trans h₂.symm)
    · obtain ⟨rfl, rfl⟩ := Prod.mk.inj h₁
      have := Item.le_of_mem_numbered h₂
      omega
    · obtain ⟨rfl, rfl⟩ := Prod.mk.inj h₂
      have := Item.le_of_mem_numbered h₁
      omega
    · exact ih h₁ h₂

/-- The name of an item is found among the functions. -/
theorem Item.exists_lookup_layer {n : Nat} {i : Item L NodeId} {items : List (Item L NodeId)}
    (h : i ∈ items) : ∃ x, (Item.layer (Item.numbered n items)).lookup i.name = some x := by
  obtain ⟨k, hk⟩ := Item.exists_mem_numbered (k := n) h
  have hmem : i.declared k ∈ Item.layer (Item.numbered n items) :=
    List.mem_map.mpr ⟨(k, i), hk, rfl⟩
  cases hx : (Item.layer (Item.numbered n items)).lookup i.name with
  | some x => exact ⟨x, rfl⟩
  | none =>
    have hne := List.lookup_eq_none_iff.mp hx _ hmem
    simp [Item.declared_fst] at hne

namespace Program

variable {p p' : Program L}

/-- Two declarations at the same place of an item that both programs have. -/
def Corresponds (p p' : Program L) (x x' : SymbolId) : Prop :=
  ∃ i k k' j, (k, i) ∈ p.numberedItems ∧ (k', i) ∈ p'.numberedItems ∧ j < i.symbolCount ∧
    x = ⟨k + j⟩ ∧ x' = ⟨k' + j⟩

/-- A program with distinct nodes does not have an item twice. -/
theorem Distinct.nodup_items (hp : p.Distinct) : p.items.Nodup := by
  have hnodes : (p.items.flatMap Item.nodes).Nodup := (List.nodup_cons.mp hp).2
  refine (List.nodup_flatMap.mp hnodes).2.imp fun {i i'} hdisjoint heq => ?_
  subst heq
  cases i with
  | function f => exact hdisjoint List.mem_cons_self List.mem_cons_self
  | main e => exact hdisjoint List.mem_cons_self List.mem_cons_self

/-- Each item has one number. -/
theorem Distinct.number_unique (hp : p.Distinct) {k k' : Nat} {i : Item L NodeId}
    (h : (k, i) ∈ p.numberedItems) (h' : (k', i) ∈ p.numberedItems) : k = k' := by
  have hnodup : (p.numberedItems.map Prod.snd).Nodup := by
    rw [Program.numberedItems, Item.map_snd_numbered]
    exact hp.nodup_items
  exact congrArg Prod.fst (List.inj_on_of_nodup_map hnodup h h' rfl)

theorem Corresponds.symm {x x' : SymbolId} (h : p.Corresponds p' x x') :
    p'.Corresponds p x' x := by
  obtain ⟨i, k, k', j, hi, hi', hj, hx, hx'⟩ := h
  exact ⟨i, k', k, j, hi', hi, hj, hx', hx⟩

/-- A declaration corresponds to one at most. -/
theorem Corresponds.right_unique (hp' : p'.Distinct) {x y z : SymbolId}
    (hy : p.Corresponds p' x y) (hz : p.Corresponds p' x z) : y = z := by
  obtain ⟨i, k, k₁, j, hi, hi₁, hj, rfl, rfl⟩ := hy
  obtain ⟨i₂, k₂, k₃, j₂, hi₂, hi₃, hj₂, hx, rfl⟩ := hz
  have hsum : k + j = k₂ + j₂ := congrArg SymbolId.index hx
  obtain ⟨rfl, rfl⟩ := Item.eq_of_mem_numbered hi hi₂ hj hj₂ hsum
  obtain rfl : k₁ = k₃ := hp'.number_unique hi₁ hi₃
  obtain rfl : j = j₂ := by omega
  rfl

/-- Corresponding declarations whose symbols stand for the same in the tables of the programs. -/
def Renames (p p' : Program L) : SymbolId → SymbolId → Prop :=
  Table.Counterparts (p.Corresponds p') (Declarations.ofProgram p).table
    (Declarations.ofProgram p').table

/-- The scopes of a node in the two programs are alike. -/
def AlikeAt (p p' : Program L) (node : NodeId) : Prop :=
  Table.AlikeAt (p.Renames p') (Declarations.ofProgram p).table (Declarations.ofProgram p').table
    (Declarations.ofProgram p).scopes (Declarations.ofProgram p').scopes node

/-- The correspondence of declarations renames the one table into the other. -/
theorem isRenaming (hp : p.Distinct) (hp' : p'.Distinct) :
    (Declarations.ofProgram p).table.Renaming (Declarations.ofProgram p').table
      (p.Renames p') where
  symbol _ _ h := h.2
  unique := ⟨fun _ _ _ hx hy => Corresponds.right_unique hp hx.1.symm hy.1.symm,
    fun _ _ _ hy hz => Corresponds.right_unique hp' hy.1 hz.1⟩

section Permuted

variable (hp : p.Distinct) (hp' : p'.Distinct)
  (hclean : (Declarations.ofProgram p).findings = [])
  (hclean' : (Declarations.ofProgram p').findings = []) (hitems : p.items.Perm p'.items)

include hp hp' hclean hclean'

/-- The symbols of an item that both programs have. -/
theorem renames_item {k k' : Nat} {i : Item L NodeId} (hi : (k, i) ∈ p.numberedItems)
    (hi' : (k', i) ∈ p'.numberedItems) : p.Renames p' ⟨k⟩ ⟨k'⟩ := by
  have hcount : 0 < i.symbolCount := by
    cases i <;> simp only [Item.symbolCount] <;> omega
  exact ⟨⟨i, k, k', 0, hi, hi', hcount, rfl, rfl⟩,
    (entered_item hp hclean hi).symbol_alike (entered_item hp' hclean' hi')⟩

include hitems

/-- A name is that of corresponding functions, or of none in both programs. -/
theorem rel_functions (name : String) :
    Option.Rel (p.Renames p')
      ((Declarations.ofProgram p).table.localResolve Table.global name)
      ((Declarations.ofProgram p').table.localResolve Table.global name) := by
  have hnames : (p'.items.map Item.name).Nodup := ((clean_iff_wellDeclared hp').mp hclean').names
  rw [localResolve_global hp hclean, localResolve_global hp' hclean']
  cases hx : (Item.layer p.numberedItems).lookup name with
  | none =>
    cases hx' : (Item.layer p'.numberedItems).lookup name with
    | none => exact .none
    | some x' =>
      -- The item of that name would be found in the first program as well.
      obtain ⟨k', i, hi', rfl, -⟩ := Item.exists_of_lookup_layer hx'
      obtain ⟨x, hfound⟩ := Item.exists_lookup_layer
        (hitems.mem_iff.mpr (Item.mem_of_mem_numbered hi'))
      cases hx.symm.trans hfound
  | some x =>
    obtain ⟨k, i, hi, rfl, hdeclared⟩ := Item.exists_of_lookup_layer hx
    have hmem : i ∈ p'.items := hitems.mem_iff.mp (Item.mem_of_mem_numbered hi)
    obtain ⟨x', hx'⟩ := Item.exists_lookup_layer hmem
    -- Names are unique, so what is found is the same item.
    obtain ⟨k', i', hi', hname, hdeclared'⟩ := Item.exists_of_lookup_layer hx'
    obtain rfl : i' = i :=
      List.inj_on_of_nodup_map hnames (Item.mem_of_mem_numbered hi') hmem hname
    have hsymbol : x.symbol = ⟨k⟩ := by rw [← i'.declared_symbol k, hdeclared]
    have hsymbol' : x'.symbol = ⟨k'⟩ := by rw [← i'.declared_symbol k', hdeclared']
    rw [show (Item.layer p'.numberedItems).lookup i'.name = some x' from hx', Option.map_some,
      Option.map_some, hsymbol, hsymbol']
    exact .some (renames_item hp hp' hclean hclean' hi hi')

/-- The nodes of every item have scopes that are alike. -/
theorem alikeAt {i : Item L NodeId} (hi : i ∈ p.items) : ∀ node ∈ i.nodes, p.AlikeAt p' node := by
  obtain ⟨k, hk⟩ := Item.exists_mem_numbered (k := 0) hi
  obtain ⟨k', hk'⟩ := Item.exists_mem_numbered (k := 0) (hitems.mem_iff.mp hi)
  exact (entered_item hp hclean hk).alikeAt (Declarations.descends_ofProgram p)
    (Declarations.descends_ofProgram p') (entered_item hp' hclean' hk')
    (rel_functions hp hp' hclean hclean' hitems) fun j hj =>
      ⟨i, k, k', j, hk, hk', hj, rfl, rfl⟩

end Permuted

end Program

end Primer
