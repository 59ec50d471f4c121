import Primer.Proofs.Declaration.Resolution
import Primer.Proofs.Typing.System

/-!
# Scopes and environments

In the scope that is recorded for a block, names mean what the tree says (`Table.Matches`): the
types of variables and the signatures of functions that the table gives are those of the
environment in which the rules judge the block. The proof goes down the tree as environments do:
the global scope matches the functions of the program, and a scope that binds a layer inside a scope
that matches an environment matches the environment with that layer (`Table.Matches.enter`).
-/

namespace Primer

variable {L I : Type}

/-! ## Layers without numbers -/

/-- The names of a layer with the names of their types. -/
def Layer.names (layer : Layer) : List (String × String) :=
  layer.map fun x => (x.1, x.2.type)

theorem Layer.lookup_names (layer : Layer) (name : String) :
    layer.names.lookup name = (layer.lookup name).map Declared.type := by
  induction layer with
  | nil => rfl
  | cons x layer ih =>
    obtain ⟨other, declared⟩ := x
    change List.lookup name ((other, declared.type) :: Layer.names layer) = _
    rw [List.lookup_cons, List.lookup_cons]
    cases name == other
    · exact ih
    · rfl

theorem Block.names_layer (k : Nat) (b : Block L I) :
    (Block.layer k b.statements).names = b.declaredNames := by
  obtain ⟨mark, sts⟩ := b
  change (Block.layer k sts).names = sts.filterMap Stmt.declaredName?
  induction sts generalizing k with
  | nil => rfl
  | cons st sts ih =>
    rw [Block.layer_cons, Layer.names, List.map_append]
    have hrest : (Block.layer (k + st.variableCount) sts).map (fun x => (x.1, x.2.type)) = _ :=
      ih (k + st.variableCount)
    rw [hrest]
    cases st <;> rfl

theorem Function.names_layer (k : Nat) (f : Function L I) :
    (Parameter.layer k f.parameters).names = f.declaredNames := by
  unfold Function.declaredNames
  generalize f.parameters = ps
  induction ps generalizing k with
  | nil => rfl
  | cons p ps ih => exact congrArg _ (ih (k + 1))

/-! ## Scopes that match -/

namespace Table.Matches

variable {t : Table} {s r : ScopeId} {Γ : Typing.Env}

/-- A scope that binds nothing matches what the scope around it matches. -/
theorem inner (h : t.Matches s Γ) (hresolve : ∀ name, t.resolve r name = t.resolve s name) :
    t.Matches r Γ where
  varType name := by
    rw [← h.varType, varType?, varType?, hresolve]
  signature name := by
    rw [← h.signature, callee?, callee?, resolveCallee, resolveCallee, hresolve]
  globally name := by
    rw [hresolve]
    exact h.globally name

/-- A scope that binds the variables of a layer. -/
theorem enter (ht : t.Descends) (h : t.Matches s Γ) {layer : Layer}
    (hparent : t.parent? r = some s)
    (hbinds : ∀ name, t.localResolve r name = (layer.lookup name).map Declared.symbol)
    (hlayer : ∀ name x, (name, x) ∈ layer → t.Describes name x ∧ x.isFunction = false) :
    t.Matches r (Γ.enter layer.names) := by
  -- A name of the layer stands for a variable of the declared type.
  have hlocal : ∀ name x, layer.lookup name = some x →
      ∃ τ, Ty.named? x.type = some τ ∧ t.resolve r name = some x.symbol ∧
        t.symbol? x.symbol = some (.var name τ) := by
    intro name x hx
    obtain ⟨before, after, hsplit, -⟩ := List.lookup_eq_some_iff.mp hx
    obtain ⟨⟨τ, hτ, hsymbol⟩, hvariable⟩ := hlayer name x (by simp [hsplit])
    rw [hvariable] at hsymbol
    exact ⟨τ, hτ, by simp [resolve_eq ht r name, hbinds, hx], hsymbol⟩
  -- Any other name stands for what it stands for outside.
  have houter : ∀ name, layer.lookup name = none → t.resolve r name = t.resolve s name := by
    intro name hx
    simp [resolve_eq ht r name, hbinds, hx, hparent]
  refine ⟨fun name => ?_, fun name => ?_, fun name hglobal => ?_⟩
  · rw [Typing.Env.varType?_enter, Layer.lookup_names]
    cases hx : layer.lookup name with
    | none => rw [varType?, houter name hx, Option.map_none, ← h.varType, varType?]
    | some x =>
      obtain ⟨τ, hτ, hresolve, hsymbol⟩ := hlocal name x hx
      simp [varType?, hresolve, hsymbol, hτ]
  · change _ = Γ.signature? name
    rw [← h.signature]
    congr 1
    unfold callee? resolveCallee
    cases hglobal : t.localResolve global name with
    | some y => simp
    | none =>
      cases hx : layer.lookup name with
      | none => simp [houter name hx]
      | some x =>
        -- The variable hides nothing that could be called.
        obtain ⟨τ, -, hresolve, hsymbol⟩ := hlocal name x hx
        simpa [hresolve, function?, hsymbol, Symbol.function?] using (h.globally name hglobal).symm
  · cases hx : layer.lookup name with
    | none =>
      rw [houter name hx]
      exact h.globally name hglobal
    | some x =>
      obtain ⟨τ, -, hresolve, hsymbol⟩ := hlocal name x hx
      simp [hresolve, function?, hsymbol, Symbol.function?]

end Table.Matches

/-- A block below a scope that matches an environment: its own scope matches what it declares. -/
theorem Block.exists_matches {t : Table} (ht : t.Descends) {m : ScopeMap} {s : ScopeId}
    {Γ : Typing.Env} (h : t.Matches s Γ) {owner : Option SymbolId} {k : Nat} {b : Block L NodeId}
    (hplaced : b.Placed t m owner s) (hbound : b.Bound t m s k) :
    ∃ r, m.get? b.mark = some r ∧ t.owner? r = owner ∧ t.Matches r (Γ.enter b.declaredNames) ∧
      (∀ st ∈ b.statements, st.Placed t m owner r) ∧
      ∀ k' st, (k', st) ∈ Block.numbered k b.statements → st.Bound t m r k' := by
  cases hplaced with
  | @mk _ r node sts hnode hparent howner hsts =>
    cases hbound with
    | @mk _ r' _ _ _ hnode' _ _ hbinds hbound =>
      obtain rfl : r = r' := Option.some.inj (hnode.symm.trans hnode')
      refine ⟨r, hnode, howner, ?_, hsts, hbound⟩
      rw [← Block.names_layer k (.mk node sts)]
      refine h.enter ht hparent hbinds fun name x hx => ⟨Block.describes_layer hbound hx, ?_⟩
      -- Only declarations of variables put something into the layer of a block.
      obtain ⟨⟨k', st⟩, -, hx⟩ := List.mem_flatMap.mp hx
      cases st with
      | declare p type name value =>
        obtain ⟨-, rfl⟩ := Prod.mk.inj (List.mem_singleton.mp hx)
        rfl
      | _ => exact absurd hx List.not_mem_nil

theorem Stmt.exists_mem_numberedBlocks {k : Nat} {st : Stmt L I} {b : Block L I}
    (h : b ∈ st.blocks) : ∃ k', (k', b) ∈ st.numberedBlocks k := by
  cases st with
  | ifThen p condition yes =>
    obtain rfl := List.mem_singleton.mp h
    exact ⟨k, List.mem_singleton_self _⟩
  | loop p condition body =>
    obtain rfl := List.mem_singleton.mp h
    exact ⟨k, List.mem_singleton_self _⟩
  | ifElse p condition yes no =>
    rcases List.mem_cons.mp h with rfl | h
    · exact ⟨k, List.mem_cons_self⟩
    · obtain rfl := List.mem_singleton.mp h
      exact ⟨k + yes.variableCount, List.mem_cons_of_mem _ (List.mem_singleton_self _)⟩
  | _ => exact absurd h List.not_mem_nil

/-! ## The scopes of a program -/

theorem mapM_eq_some_of_map {α β : Type} {f : α → Option β} {xs : List α} {ys : List β}
    (h : xs.map f = ys.map some) : xs.mapM f = some ys := by
  induction xs generalizing ys with
  | nil =>
    obtain rfl : ys = [] := by simpa using h.symm
    rfl
  | cons x xs ih =>
    cases ys with
    | nil => cases h
    | cons y ys =>
      obtain ⟨hx, hxs⟩ := List.cons.inj h
      simp [List.mapM_cons, hx, ih hxs]

/-- The parameters of a function have the declared types. -/
theorem Function.Entered.map_typeOf {t : Table} {m : ScopeMap} {k : Nat} {f : Function L NodeId}
    {body : Block L NodeId} {s : ScopeId} {returns : Ty} {types : List Ty}
    (hf : f.Entered t m k body s returns types) :
    (SymbolId.block (k + 1) f.parameters.length).map t.typeOf = types := by
  have hlength : f.parameters.length = types.length := by
    simpa using congrArg List.length hf.types_named
  refine List.ext_getElem? fun j => ?_
  rcases Nat.lt_or_ge j f.parameters.length with hj | hj
  · have hj' : j < types.length := hlength ▸ hj
    have hsymbol := hf.parameter j _ _ (List.getElem?_eq_getElem hj) (List.getElem?_eq_getElem hj')
    simp [SymbolId.block, hj, hj', Table.typeOf, hsymbol, Symbol.type]
  · simp [SymbolId.block, hj, hlength ▸ hj]

theorem Item.map_snd_numbered (k : Nat) (items : List (Item L I)) :
    (Item.numbered k items).map Prod.snd = items := by
  induction items generalizing k with
  | nil => rfl
  | cons i items ih => exact congrArg (i :: ·) (ih _)

namespace Program

variable {p : Program L} (hp : p.Distinct) (hclean : (Declarations.ofProgram p).findings = [])

include hp hclean

/-- The symbol of an item has the signature that the item gives itself. -/
theorem signature_item {k : Nat} {i : Item L NodeId} (hi : (k, i) ∈ p.numberedItems) :
    ∃ g, (Declarations.ofProgram p).table.function? (i.declared k).2.symbol = some g ∧
      i.signature = ((i.declared k).1,
        some (g.parameters.map (Declarations.ofProgram p).table.typeOf, g.returns)) := by
  cases i with
  | function f =>
    obtain ⟨body, s, returns, types, hf⟩ := Program.entered_item hp hclean hi
    refine ⟨⟨f.name.text, returns, SymbolId.block (k + 1) f.parameters.length⟩, ?_, ?_⟩
    · simp [Item.declared, Table.function?, hf.symbol, Symbol.function?]
    · simp [Item.signature, Item.declared, mapM_eq_some_of_map hf.types_named,
        hf.returns_named, hf.map_typeOf]
  | main e =>
    obtain ⟨s, he⟩ := Program.entered_item hp hclean hi
    exact ⟨⟨"main", .void, []⟩,
      by simp [Item.declared, Table.function?, he.symbol, Symbol.function?], rfl⟩

/-- A name has the signature of the first item that declares it. -/
theorem signature?_env (name : String) :
    p.env.signature? name =
      (((Item.layer p.numberedItems).lookup name).bind fun x =>
        (Declarations.ofProgram p).table.function? x.symbol).map fun g =>
          (g.parameters.map (Declarations.ofProgram p).table.typeOf, g.returns) := by
  have hitems : p.items = p.numberedItems.map Prod.snd := (Item.map_snd_numbered 0 p.items).symm
  have hall := fun k i => signature_item (k := k) (i := i) hp hclean
  rw [Program.env, hitems]
  -- The lookup goes through the list, so the items are generalized, and what is known of each.
  generalize p.numberedItems = items at hall ⊢
  simp only [Item.layer]
  induction items with
  | nil => rfl
  | cons x items ih =>
    obtain ⟨k, i⟩ := x
    obtain ⟨g, hg, hsignature⟩ := hall k i List.mem_cons_self
    have hrest := ih fun k i hi => hall k i (List.mem_cons_of_mem _ hi)
    generalize hdeclared : i.declared k = declared at hg hsignature
    obtain ⟨other, x⟩ := declared
    simp only [List.map_cons, hsignature, hdeclared, List.lookup_cons]
    -- The first item of the name is found on both sides.
    cases name == other with
    | true => simp [hg]
    | false => exact hrest

/-- The functions of a program are what the global scope binds. -/
theorem matches_global : (Declarations.ofProgram p).table.Matches Table.global p.env := by
  have hreads := Program.reads_global hp hclean
  have hlocal := Program.localResolve_global hp hclean
  have hresolve : ∀ name, (Declarations.ofProgram p).table.resolve Table.global name =
      ((Item.layer p.numberedItems).lookup name).map Declared.symbol := by
    intro name
    rw [hreads.resolve]
    simp [Layer.meaning]
  refine ⟨fun name => ?_, fun name => ?_, fun name hnone => ?_⟩
  · -- What the global scope binds are functions, not variables.
    change _ = none
    rw [Table.varType?, hresolve]
    cases hx : (Item.layer p.numberedItems).lookup name with
    | none => rfl
    | some x =>
      obtain ⟨before, after, hsplit, -⟩ := List.lookup_eq_some_iff.mp hx
      obtain ⟨⟨k, i⟩, hi, heq⟩ := List.mem_map.mp
        (show (name, x) ∈ Item.layer p.numberedItems by simp [hsplit])
      obtain ⟨g, hg, -⟩ := signature_item hp hclean hi
      obtain rfl : (i.declared k).2 = x := congrArg Prod.snd heq
      obtain ⟨y, hy, hfunction⟩ := Option.bind_eq_some_iff.mp hg
      cases y with
      | var n τ => cases hfunction
      | fn g' => simp [hy]
  · rw [signature?_env hp hclean, Table.callee?, Table.resolveCallee, hlocal, hresolve]
    cases (Item.layer p.numberedItems).lookup name <;> rfl
  · rw [hlocal] at hnone
    rw [hresolve, hnone]
    rfl

/-- Where the parameters of a function are bound. -/
theorem matches_function {k : Nat} {f : Function L NodeId} {body : Block L NodeId} {s : ScopeId}
    {returns : Ty} {types : List Ty}
    (hf : f.Entered (Declarations.ofProgram p).table (Declarations.ofProgram p).scopes k body s
      returns types) :
    (Declarations.ofProgram p).table.Matches s (p.env.enter f.declaredNames) := by
  rw [← f.names_layer (k + 1)]
  refine (matches_global hp hclean).enter (Declarations.descends_ofProgram p) hf.parent hf.bindings
    fun name x hx => ⟨hf.describes_parameter hx, ?_⟩
  obtain ⟨j, q, -, -, rfl⟩ := Parameter.mem_layer hx
  rfl

/-- The scope of an entry point binds nothing. -/
theorem matches_main {k : Nat} {e : EntryPoint L NodeId} {s : ScopeId}
    (he : e.Entered (Declarations.ofProgram p).table (Declarations.ofProgram p).scopes k s) :
    (Declarations.ofProgram p).table.Matches s p.env := by
  refine (matches_global hp hclean).inner fun name => ?_
  rw [Table.resolve_eq (Declarations.descends_ofProgram p) s, he.bindings, he.parent]
  rfl

end Program

end Primer
