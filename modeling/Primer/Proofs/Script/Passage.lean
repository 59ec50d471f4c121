import Primer.Script
import Mathlib.Tactic.SplitIfs

/-!
# Passages and clauses

The layout of a script is taken in two steps that each lose nothing.

* A *passage* is a statement as a reader of the text sees it: a line whose content is opaque, or a
  condition with the passages under it.
* A *clause* is a line with the block under it. A conditional is written as several clauses: one for
  `if`, one for each `elif`, one for `else`.

`Stmt.layout_eq` says that the layout of a statement writes the clauses of its passage line by line,
and that it fails only if a line is indented too far. This holds for statements that stem from
blocks with a scope (`Stmt.isScoped`).
-/

namespace Primer.Script

/-! ## Clauses -/

/-- A line with the block under it. -/
inductive Clause where
  | mk (text : String) (suite : List Clause)

namespace Clause

mutual

/-- The lines of a clause at a given depth. -/
def lines (depth : Nat) : Clause → List Line
  | .mk text suite => ⟨depth, text⟩ :: linesAll (depth + 1) suite

/-- The lines of several clauses. -/
def linesAll (depth : Nat) : List Clause → List Line
  | [] => []
  | c :: cs => c.lines depth ++ linesAll depth cs

end

theorem linesAll_append (depth : Nat) (cs cs' : List Clause) :
    linesAll depth (cs ++ cs') = linesAll depth cs ++ linesAll depth cs' := by
  induction cs with
  | nil => rfl
  | cons c cs ih => simp [linesAll, ih]

theorem linesAll_singleton (depth : Nat) (text : String) (suite : List Clause) :
    linesAll depth [⟨text, suite⟩] = ⟨depth, text⟩ :: linesAll (depth + 1) suite := by
  simp [linesAll, lines]

end Clause

/-! ## Passages -/

/-- A statement as its text shows it. -/
inductive Passage where
  | line (text : String)
  | ifThen (condition : String) (yes : List Passage)
  | ifElse (condition : String) (yes no : List Passage)
  | loop (condition : String) (body : List Passage)

namespace Passage

mutual

/-- The clauses that write a passage. -/
def clauses : Passage → List Clause
  | .line text => [⟨text, []⟩]
  | .ifThen condition yes => [⟨"if " ++ condition ++ ":", suite yes⟩]
  | .ifElse condition yes no => ⟨"if " ++ condition ++ ":", suite yes⟩ :: elseClauses no
  | .loop condition body => [⟨"while " ++ condition ++ ":", suite body⟩]

/-- The clauses that write a block. -/
def suite : List Passage → List Clause
  | [] => [⟨"pass", []⟩]
  | p :: ps => p.clauses ++ clausesAll ps

/-- The clauses that write passages, one after the other. -/
def clausesAll : List Passage → List Clause
  | [] => []
  | p :: ps => p.clauses ++ clausesAll ps

/-- The clauses that write the part after `else`. -/
def elseClauses : List Passage → List Clause
  | [.ifThen condition yes] => [⟨"elif " ++ condition ++ ":", suite yes⟩]
  | [.ifElse condition yes no] =>
    ⟨"elif " ++ condition ++ ":", suite yes⟩ :: elseClauses no
  | [] => [⟨"else:", [⟨"pass", []⟩]⟩]
  | p :: ps => [⟨"else:", p.clauses ++ clausesAll ps⟩]

end

end Passage

/-! ## Statements as passages -/

mutual

/-- The passage of a statement. -/
def Stmt.passage : Stmt → Passage
  | .assign target value => .line (target ++ " = " ++ value.text)
  | .assignAt target position value =>
    .line (target ++ "[" ++ position.text ++ "] = " ++ value.text)
  | .ret none => .line "return"
  | .ret (some value) => .line ("return " ++ value.text)
  | .print newline value => .line (printText newline value)
  | .eval value => .line value.text
  | .ifThen condition yes => .ifThen condition.text (Stmt.passages yes)
  | .ifElse condition yes no => .ifElse condition.text (Stmt.passages yes) (Stmt.passages no)
  | .loop condition body => .loop condition.text (Stmt.passages body)
  -- Nothing is written for such a statement, so any passage does.
  | .unscoped _ => .line ""

/-- The passages of several statements. -/
def Stmt.passages : List Stmt → List Passage
  | [] => []
  | s :: ss => s.passage :: Stmt.passages ss

end

theorem Stmt.passages_eq_nil_iff {sts : List Stmt} : Stmt.passages sts = [] ↔ sts = [] := by
  cases sts <;> simp [Stmt.passages]

/-- Only conditionals have conditional passages. -/
theorem Stmt.passage_eq_ifThen {st : Stmt} {condition : String} {yes : List Passage}
    (h : st.passage = .ifThen condition yes) : ∃ c y, st = .ifThen c y := by
  cases st with
  | ifThen c y => exact ⟨c, y, rfl⟩
  | ret value => cases value <;> cases h
  | _ => cases h

theorem Stmt.passage_eq_ifElse {st : Stmt} {condition : String} {yes no : List Passage}
    (h : st.passage = .ifElse condition yes no) : ∃ c y n, st = .ifElse c y n := by
  cases st with
  | ifElse c y n => exact ⟨c, y, n, rfl⟩
  | ret value => cases value <;> cases h
  | _ => cases h

mutual

/-- Whether a statement stems from a block that has a scope, and so do all statements in it. -/
def Stmt.isScoped : Stmt → Bool
  | .assign .. | .assignAt .. | .ret .. | .print .. | .eval .. => true
  | .ifThen _ yes => Stmt.areScoped yes
  | .ifElse _ yes no => Stmt.areScoped yes && Stmt.areScoped no
  | .loop _ body => Stmt.areScoped body
  | .unscoped _ => false

/-- Whether all statements stem from blocks that have scopes. -/
def Stmt.areScoped : List Stmt → Bool
  | [] => true
  | s :: ss => s.isScoped && Stmt.areScoped ss

end

/-! ## Lines that fit -/

/-- No line is indented too far. -/
def Fits (ls : List Line) : Prop :=
  ∀ l ∈ ls, l.depth * indentStep ≤ Fault.widestField

instance (ls : List Line) : Decidable (Fits ls) :=
  inferInstanceAs (Decidable (∀ l ∈ ls, _))

theorem fits_append {as bs : List Line} : Fits (as ++ bs) ↔ Fits as ∧ Fits bs := by
  simp [Fits, or_imp, forall_and]

/-- Lines, unless one of them is indented too far. -/
def checked (ls : List Line) : Except Fault (List Line) :=
  if Fits ls then .ok ls else .error .widthOutOfRange

theorem line_eq_checked (depth : Nat) (text : String) :
    line depth text = checked [⟨depth, text⟩] := by
  by_cases h : depth * indentStep ≤ Fault.widestField <;>
    simp [line, checked, Fits, Fault.checkWidth, h, bind, Except.bind, pure, Except.pure]

theorem checked_bind {α : Type} (ls : List Line) (f : List Line → Except Fault α) :
    (checked ls >>= f) = if Fits ls then f ls else .error .widthOutOfRange := by
  unfold checked
  split_ifs <;> rfl

/-- One part after the other. -/
theorem checked_append (as bs : List Line) :
    (do let a ← checked as
        let b ← checked bs
        return a ++ b) = checked (as ++ bs) := by
  simp only [checked_bind]
  by_cases ha : Fits as <;> by_cases hb : Fits bs <;>
    simp [checked, fits_append, ha, hb, pure, Except.pure]

theorem checked_append_append (as bs cs : List Line) :
    (do let a ← checked as
        let b ← checked bs
        let c ← checked cs
        return a ++ b ++ c) = checked (as ++ bs ++ cs) := by
  simp only [checked_bind]
  by_cases ha : Fits as <;> by_cases hb : Fits bs <;> by_cases hc : Fits cs <;>
    simp [checked, fits_append, ha, hb, hc, pure, Except.pure]

/-- Many parts, one after the other. -/
theorem mapM_checked {α : Type} {xs : List α} {f : α → Except Fault (List Line)}
    {g : α → List Line} (h : ∀ x ∈ xs, f x = checked (g x)) :
    xs.mapM f = if Fits (xs.flatMap g) then .ok (xs.map g) else .error .widthOutOfRange := by
  induction xs with
  | nil => simp [Fits, pure, Except.pure]
  | cons x xs ih =>
    rw [List.mapM_cons, ih fun y hy => h y (List.mem_cons_of_mem _ hy), h x List.mem_cons_self,
      checked_bind, List.flatMap_cons]
    by_cases hx : Fits (g x) <;> by_cases hxs : Fits (xs.flatMap g) <;>
      simp [fits_append, hx, hxs, bind, Except.bind, pure, Except.pure]

/-! ## Layout writes clauses -/

mutual

/-- The layout of a statement writes the clauses of its passage. -/
theorem Stmt.layout_eq (depth : Nat) (st : Stmt) (h : st.isScoped = true) :
    st.layout depth = checked (Clause.linesAll depth st.passage.clauses) := by
  cases st with
  | assign target value => exact line_eq_checked _ _
  | assignAt target position value => exact line_eq_checked _ _
  | ret value => cases value <;> exact line_eq_checked _ _
  | print newline value => exact line_eq_checked _ _
  | eval value => exact line_eq_checked _ _
  -- A statement whose scope is missing has no layout, and this one has all its scopes.
  | unscoped node => cases h
  | ifThen condition yes =>
    rw [Stmt.isScoped] at h
    -- The suite is one step deeper; that the whole fits is that its two parts fit.
    rw [Stmt.layout, line_eq_checked, Stmt.layoutBlock_eq (depth + 1) yes h, checked_append]
    rw [Stmt.passage, Passage.clauses, Clause.linesAll_singleton]
    rfl
  | loop condition body =>
    rw [Stmt.isScoped] at h
    rw [Stmt.layout, line_eq_checked, Stmt.layoutBlock_eq (depth + 1) body h, checked_append]
    rw [Stmt.passage, Passage.clauses, Clause.linesAll_singleton]
    rfl
  | ifElse condition yes no =>
    rw [Stmt.isScoped, Bool.and_eq_true] at h
    -- Three parts here: the header, its suite and whatever follows `else`.
    rw [Stmt.layout, line_eq_checked, Stmt.layoutBlock_eq (depth + 1) yes h.1,
      Stmt.layoutElse_eq depth no h.2, checked_append_append]
    rfl

/-- The layout of a block. -/
theorem Stmt.layoutBlock_eq (depth : Nat) (sts : List Stmt) (h : Stmt.areScoped sts = true) :
    Stmt.layoutBlock depth sts =
      checked (Clause.linesAll depth (Passage.suite (Stmt.passages sts))) := by
  cases sts with
  | nil => exact line_eq_checked _ _
  | cons st sts =>
    rw [Stmt.areScoped, Bool.and_eq_true] at h
    rw [Stmt.layoutBlock, Stmt.layout_eq depth st h.1, Stmt.layoutAll_eq depth sts h.2,
      checked_append, Stmt.passages, Passage.suite, Clause.linesAll_append]

/-- The layout of statements, one after the other. -/
theorem Stmt.layoutAll_eq (depth : Nat) (sts : List Stmt) (h : Stmt.areScoped sts = true) :
    Stmt.layoutAll depth sts =
      checked (Clause.linesAll depth (Passage.clausesAll (Stmt.passages sts))) := by
  cases sts with
  | nil => rfl
  | cons st sts =>
    rw [Stmt.areScoped, Bool.and_eq_true] at h
    rw [Stmt.layoutAll, Stmt.layout_eq depth st h.1, Stmt.layoutAll_eq depth sts h.2,
      checked_append, Stmt.passages, Passage.clausesAll, Clause.linesAll_append]

/-- The layout of the part after `else`. -/
theorem Stmt.layoutElse_eq (depth : Nat) (sts : List Stmt) (h : Stmt.areScoped sts = true) :
    Stmt.layoutElse depth sts =
      checked (Clause.linesAll depth (Passage.elseClauses (Stmt.passages sts))) := by
  unfold Stmt.layoutElse
  split
  next condition yes =>
    rw [Stmt.areScoped, Stmt.areScoped, Bool.and_true, Stmt.isScoped] at h
    rw [line_eq_checked, Stmt.layoutBlock_eq (depth + 1) yes h, checked_append]
    rw [Stmt.passages, Stmt.passages, Stmt.passage, Passage.elseClauses, Clause.linesAll_singleton]
    rfl
  next condition yes no =>
    rw [Stmt.areScoped, Stmt.areScoped, Bool.and_true, Stmt.isScoped, Bool.and_eq_true] at h
    rw [line_eq_checked, Stmt.layoutBlock_eq (depth + 1) yes h.1, Stmt.layoutElse_eq depth no h.2,
      checked_append_append]
    rfl
  next =>
    rw [line_eq_checked, line_eq_checked, checked_append]
    rfl
  next st sts hthen helse =>
    rw [Stmt.areScoped, Bool.and_eq_true] at h
    rw [line_eq_checked, Stmt.layout_eq (depth + 1) st h.1, Stmt.layoutAll_eq (depth + 1) sts h.2,
      checked_append_append]
    rw [Stmt.passages, Passage.elseClauses, Clause.linesAll_singleton, Clause.linesAll_append]
    · rfl
    -- The passages are no single conditional either.
    · intro condition yes hst hsts
      obtain ⟨c, y, rfl⟩ := Stmt.passage_eq_ifThen hst
      exact hthen c y rfl (Stmt.passages_eq_nil_iff.mp hsts)
    · intro condition yes no hst hsts
      obtain ⟨c, y, n, rfl⟩ := Stmt.passage_eq_ifElse hst
      exact helse c y n rfl (Stmt.passages_eq_nil_iff.mp hsts)

end

/-! ## Scripts -/

/-- The header of a function. -/
def Function.header (f : Function) : String :=
  "def " ++ f.name ++ "(" ++ Text.commaSeparated f.parameters ++ "):"

/-- The lines of a function, however far they are indented. -/
def Function.lines (f : Function) : List Line :=
  Clause.linesAll 0 [⟨f.header, Passage.suite (Stmt.passages f.body)⟩] ++ [⟨0, ""⟩]

theorem Function.layout_eq (f : Function) (h : Stmt.areScoped f.body = true) :
    f.layout = checked f.lines := by
  have hblank : checked [⟨0, ""⟩] = .ok [⟨0, ""⟩] := rfl
  have hall := checked_append_append [⟨0, f.header⟩]
    (Clause.linesAll 1 (Passage.suite (Stmt.passages f.body))) [⟨0, ""⟩]
  rw [hblank] at hall
  rw [Function.layout, line_eq_checked, Stmt.layoutBlock_eq 1 f.body h, Function.lines,
    Clause.linesAll_singleton]
  exact hall

/-- Whether all statements of a script stem from blocks that have scopes. -/
def isScoped (s : Script) : Bool :=
  s.functions.all (Stmt.areScoped ·.body) && s.mains.all Stmt.areScoped

/-- The lines of a script, however far they are indented. -/
def lines (s : Script) : List Line :=
  s.functions.flatMap Function.lines ++
    s.mains.flatMap fun sts => Clause.linesAll 0 (Passage.suite (Stmt.passages sts))

theorem layout_eq (s : Script) (h : s.isScoped = true) : s.layout = checked s.lines := by
  obtain ⟨hfunctions, hmains⟩ := Bool.and_eq_true_iff.mp h
  have hf : ∀ f ∈ s.functions, f.layout = checked f.lines :=
    fun f hf => f.layout_eq (List.all_eq_true.mp hfunctions f hf)
  have hm : ∀ sts ∈ s.mains, Stmt.layoutBlock 0 sts =
      checked (Clause.linesAll 0 (Passage.suite (Stmt.passages sts))) :=
    fun sts hsts => Stmt.layoutBlock_eq 0 sts (List.all_eq_true.mp hmains sts hsts)
  rw [layout, mapM_checked hf, mapM_checked hm, checked, lines]
  -- The functions come first, so their failure is found before the one of the main part.
  by_cases hfits : Fits (s.functions.flatMap Function.lines)
  · by_cases hfits' : Fits (s.mains.flatMap fun sts =>
        Clause.linesAll 0 (Passage.suite (Stmt.passages sts)))
    · rw [if_pos hfits, if_pos hfits', if_pos (fits_append.mpr ⟨hfits, hfits'⟩)]
      rfl
    · rw [if_pos hfits, if_neg hfits', if_neg fun hboth => hfits' (fits_append.mp hboth).2]
      rfl
  · rw [if_neg hfits, if_neg fun hboth => hfits (fits_append.mp hboth).1]
    rfl

/-- The text of a script is that of its lines, if all of them fit. -/
theorem text_eq (s : Script) (h : s.isScoped = true) :
    s.text =
      if Fits s.lines then .ok (String.join (s.lines.map Line.render))
      else .error .widthOutOfRange := by
  rw [Script.text, layout_eq s h, checked_bind]
  rfl

end Primer.Script

/-! ## From programs -/

namespace Primer

variable {L : Type}

theorem Block.toScriptAll_eq_map (t : Table) (m : ScopeMap) (s : ScopeId)
    (sts : List (Stmt L NodeId)) : Block.toScriptAll t m s sts = sts.map (·.toScript t m s) := by
  induction sts with
  | nil => rfl
  | cons st sts ih => simp [Block.toScriptAll, ih]

/-- The script of a block that has a scope. -/
theorem Block.toScript_of_get? {t : Table} {m : ScopeMap} {node : NodeId} {s : ScopeId}
    (h : m.get? node = some s) (sts : List (Stmt L NodeId)) :
    (Block.mk node sts).toScript t m = sts.map (·.toScript t m s) := by
  cases sts with
  | nil => rfl
  | cons st sts => simp [Block.toScript, h, Block.toScriptAll_eq_map]

end Primer
