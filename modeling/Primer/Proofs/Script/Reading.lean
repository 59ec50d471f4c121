import Primer.Proofs.Script.Identifier
import Primer.Proofs.Script.Passage
import Mathlib.Data.List.Basic

/-!
# Reading scripts by indentation

A reader that knows nothing about programs. It goes from text to lines, from lines to clauses, and
from clauses to passages.

* A line is what stands between two line breaks. Its indentation has to be a whole number of steps,
  and lines without content are passed over.
* The lines that follow a line and are indented further are the block under it; they start exactly
  one step further right.
* The first word of a line says what it is. `if`, `elif`, `else`, `while` and `def` are headers:
  they end in a colon and have a block, which is not empty. A line of `pass` is a block without
  statements. All other lines are simple: they have no block, and their content is not looked at.
* `elif` is read as an `else` with just that `if` in its block.

`Legible.read?_render` says that the reader gets back what was laid out, provided that the lines are
legible.
-/

namespace Primer.Script

/-! ## Lines -/

/-- Whether a character ends a line. -/
def isLineBreak (c : Char) : Bool :=
  c = '\n' || c = '\r'

/-- A line from its characters, if it is indented by whole steps. -/
def readLine? (chars : List Char) : Option Line :=
  let width := (chars.takeWhile (· = ' ')).length
  if width % indentStep = 0 then
    some ⟨width / indentStep, String.ofList (chars.dropWhile (· = ' '))⟩
  else none

/-- The lines of a text that have content. -/
def readLines? (text : String) : Option (List Line) :=
  ((text.toList.splitOnP isLineBreak).filter fun chars => !chars.all (· = ' ')).mapM readLine?

/-- The text has no line break in it. -/
def OneLine (text : String) : Prop :=
  ∀ c ∈ text.toList, isLineBreak c = false

instance (text : String) : Decidable (OneLine text) :=
  List.decidableBAll (isLineBreak · = false) text.toList

/-- A line that can be told from its neighbours and from its indentation. -/
structure Line.Legible (l : Line) : Prop where
  oneLine : OneLine l.text
  start : l.text.toList.head? ≠ some ' '

/-- The characters of a line without its end. -/
def Line.chars (l : Line) : List Char :=
  List.replicate (l.depth * indentStep) ' ' ++ l.text.toList

theorem Line.toList_render (l : Line) : l.render.toList = l.chars ++ ['\n'] := by
  simp [Line.render, Line.chars, Text.blanks, Text.fill]

theorem Line.chars_oneLine {l : Line} (h : OneLine l.text) :
    ∀ c ∈ l.chars, isLineBreak c = false := by
  intro c hc
  rcases List.mem_append.mp hc with hc | hc
  · obtain rfl := List.eq_of_mem_replicate hc
    decide
  · exact h c hc

/-- Rendered lines are told apart by their line breaks. Nothing follows the last one. -/
theorem splitOnP_render {ls : List Line} (h : ∀ l ∈ ls, OneLine l.text) :
    (String.join (ls.map Line.render)).toList.splitOnP isLineBreak = ls.map Line.chars ++ [[]] := by
  rw [String.toList_join, List.flatMap_map]
  induction ls with
  | nil => rfl
  | cons l ls ih =>
    rw [List.flatMap_cons, Line.toList_render, List.append_assoc, List.singleton_append,
      List.splitOnP_append_cons_of_forall_mem (Line.chars_oneLine (h l List.mem_cons_self)) _
        (by decide),
      ih fun l hl => h l (List.mem_cons_of_mem _ hl)]
    rfl

namespace Line.Legible

variable {l : Line} (hl : l.Legible)

include hl

/-- The blanks of the indentation, and no other, stand in front of the content. -/
theorem span_chars : l.chars.takeWhile (· = ' ') = List.replicate (l.depth * indentStep) ' ' ∧
    l.chars.dropWhile (· = ' ') = l.text.toList := by
  have hblanks : ∀ c ∈ List.replicate (l.depth * indentStep) ' ', decide (c = ' ') = true :=
    fun c hc => decide_eq_true (List.eq_of_mem_replicate hc)
  rw [Line.chars, List.takeWhile_append_of_pos hblanks, List.dropWhile_append_of_pos hblanks]
  cases h : l.text.toList with
  | nil => simp
  | cons c cs =>
    have hc : c ≠ ' ' := fun he => hl.start (by rw [h, he]; rfl)
    simp [hc]

theorem readLine?_chars : readLine? l.chars = some l := by
  simp [readLine?, hl.span_chars.1, hl.span_chars.2, indentStep]

/-- A line has nothing but blanks exactly if it has no content. -/
theorem all_chars : l.chars.all (· = ' ') = decide (l.text = "") := by
  rw [Bool.eq_iff_iff, List.all_eq_true, decide_eq_true_iff]
  constructor
  · intro hall
    cases htext : l.text.toList with
    | nil => exact String.toList_eq_nil_iff.mp htext
    | cons c cs =>
      have hc : c = ' ' := of_decide_eq_true (hall c (by simp [Line.chars, htext]))
      exact absurd (by rw [htext, hc]; rfl) hl.start
  · intro htext c hc
    rw [Line.chars, htext, List.mem_append] at hc
    exact decide_eq_true (List.eq_of_mem_replicate (hc.resolve_right List.not_mem_nil))

end Line.Legible

/-- The lines of a text that is made of legible lines. -/
theorem readLines?_render {ls : List Line} (h : ∀ l ∈ ls, l.Legible) :
    readLines? (String.join (ls.map Line.render)) = some (ls.filter (·.text ≠ "")) := by
  rw [readLines?, splitOnP_render fun l hl => (h l hl).oneLine, List.filter_append, List.filter_map]
  -- The blank lines go on both sides: those without text are the ones of blanks only.
  have hcontent : ls.filter ((fun chars => !chars.all (· = ' ')) ∘ Line.chars) =
      ls.filter (·.text ≠ "") := by
    refine List.filter_congr fun l hl => ?_
    simp [(h l hl).all_chars]
  rw [hcontent]
  have hread : ∀ l ∈ ls.filter (·.text ≠ ""), readLine? l.chars = some l :=
    fun l hl => (h l (List.mem_filter.mp hl).1).readLine?_chars
  -- From here on it only matters that every line is read back, not where the lines come from.
  generalize ls.filter (·.text ≠ "") = ls at hread
  induction ls with
  | nil => rfl
  | cons l ls ih =>
    have hrest := ih fun l hl => hread l (List.mem_cons_of_mem _ hl)
    simp only [List.map_cons, List.cons_append, List.mapM_cons, hread l List.mem_cons_self, hrest]
    rfl

/-! ## Clauses -/

/-- The clauses that start at a given depth. A line takes the lines below it that are indented
further as its block. -/
def readClauses? (depth : Nat) : List Line → Option (List Clause)
  | [] => some []
  | l :: ls =>
    if l.depth = depth then do
      let suite ← readClauses? (depth + 1) (ls.takeWhile (depth < ·.depth))
      let rest ← readClauses? depth (ls.dropWhile (depth < ·.depth))
      return ⟨l.text, suite⟩ :: rest
    else none
termination_by ls => ls.length
decreasing_by
  · exact Nat.lt_succ_of_le (List.takeWhile_sublist _).length_le
  · exact Nat.lt_succ_of_le (List.dropWhile_sublist _).length_le

namespace Clause

mutual

theorem depth_le_of_mem_lines {depth : Nat} :
    ∀ c : Clause, ∀ l ∈ c.lines depth, depth ≤ l.depth
  | .mk text suite => by
    intro l hl
    rcases List.mem_cons.mp hl with rfl | hl
    · exact Nat.le_refl depth
    · exact Nat.le_of_succ_le (depth_le_of_mem_linesAll suite l hl)

theorem depth_le_of_mem_linesAll {depth : Nat} :
    ∀ cs : List Clause, ∀ l ∈ linesAll depth cs, depth ≤ l.depth
  | [] => by
    intro l hl
    cases hl
  | c :: cs => by
    intro l hl
    rcases List.mem_append.mp hl with hl | hl
    · exact depth_le_of_mem_lines c l hl
    · exact depth_le_of_mem_linesAll cs l hl

end

/-- The block of a clause ends where a line is not indented further than the clause. -/
theorem span_linesAll (depth : Nat) (suite rest : List Clause) :
    (linesAll (depth + 1) suite ++ linesAll depth rest).takeWhile (depth < ·.depth) =
        linesAll (depth + 1) suite ∧
      (linesAll (depth + 1) suite ++ linesAll depth rest).dropWhile (depth < ·.depth) =
        linesAll depth rest := by
  have hsuite : ∀ l ∈ linesAll (depth + 1) suite, decide (depth < l.depth) = true :=
    fun l hl => decide_eq_true (depth_le_of_mem_linesAll suite l hl)
  rw [List.takeWhile_append_of_pos hsuite, List.dropWhile_append_of_pos hsuite]
  cases rest with
  | nil => simp [linesAll]
  | cons c cs =>
    obtain ⟨text, suite'⟩ := c
    simp [linesAll, lines]

end Clause

/-- Indentation keeps the clauses. -/
theorem readClauses?_linesAll (depth : Nat) :
    ∀ cs : List Clause, readClauses? depth (Clause.linesAll depth cs) = some cs
  | [] => by
    rw [Clause.linesAll, readClauses?]
  | .mk text suite :: cs => by
    rw [Clause.linesAll, Clause.lines, List.cons_append, readClauses?, if_pos rfl,
      (Clause.span_linesAll depth suite cs).1, (Clause.span_linesAll depth suite cs).2,
      readClauses?_linesAll (depth + 1) suite, readClauses?_linesAll depth cs]
    rfl

/-! ## Kinds of lines -/

/-- What a line is. -/
inductive LineKind where
  | simple
  | pass
  | ifThen (condition : String)
  | elif (condition : String)
  | otherwise
  | loop (condition : String)
  | define (signature : String)
deriving DecidableEq

/-- The words that start a line which is not simple. -/
def lineWords : List String :=
  ["if", "elif", "else", "while", "def", "pass"]

/-- What stands between the first word of a header and its colon. -/
def headed? : List Char → Option String
  | ' ' :: cs => if cs.getLast? = some ':' then some (String.ofList cs.dropLast) else none
  | _ => none

/-- The kind of a line. -/
def LineKind.ofText? (text : String) : Option LineKind :=
  let word := firstWord text.toList
  let rest := afterWord text.toList
  if word = "if" then (headed? rest).map .ifThen
  else if word = "elif" then (headed? rest).map .elif
  else if word = "while" then (headed? rest).map .loop
  else if word = "def" then (headed? rest).map .define
  else if word = "else" then if rest = [':'] then some .otherwise else none
  else if word = "pass" then if rest = [] then some .pass else none
  else some .simple

/-- A header: a word, a blank, some content and a colon. -/
theorem headed?_header {line word content : String}
    (hword : isIdentifier word = true)
    (hline : line.toList = word.toList ++ ' ' :: (content.toList ++ [':'])) :
    firstWord line.toList = word ∧ headed? (afterWord line.toList) = some content := by
  have hchars := isWordChar_of_isIdentifier hword
  have hrest : EndsWord (' ' :: (content.toList ++ [':'])) := endsWord_cons (by decide) _
  rw [hline, firstWord_append hchars hrest, afterWord_append hchars hrest]
  simp [headed?]

namespace LineKind

theorem ofText?_if (condition : String) :
    ofText? ("if " ++ condition ++ ":") = some (.ifThen condition) := by
  have hline : ("if " ++ condition ++ ":").toList =
      "if".toList ++ ' ' :: (condition.toList ++ [':']) := by simp
  obtain ⟨hword, hcondition⟩ := headed?_header (by decide) hline
  simp only [ofText?, hword, hcondition, if_true, Option.map_some]

theorem ofText?_elif (condition : String) :
    ofText? ("elif " ++ condition ++ ":") = some (.elif condition) := by
  have hline : ("elif " ++ condition ++ ":").toList =
      "elif".toList ++ ' ' :: (condition.toList ++ [':']) := by simp
  obtain ⟨hword, hcondition⟩ := headed?_header (by decide) hline
  simp only [ofText?, hword, hcondition, String.reduceEq, if_true, if_false, Option.map_some]

theorem ofText?_while (condition : String) :
    ofText? ("while " ++ condition ++ ":") = some (.loop condition) := by
  have hline : ("while " ++ condition ++ ":").toList =
      "while".toList ++ ' ' :: (condition.toList ++ [':']) := by simp
  obtain ⟨hword, hcondition⟩ := headed?_header (by decide) hline
  simp only [ofText?, hword, hcondition, String.reduceEq, if_true, if_false, Option.map_some]

theorem ofText?_def (signature : String) :
    ofText? ("def " ++ signature ++ ":") = some (.define signature) := by
  have hline : ("def " ++ signature ++ ":").toList =
      "def".toList ++ ' ' :: (signature.toList ++ [':']) := by simp
  obtain ⟨hword, hsignature⟩ := headed?_header (by decide) hline
  simp only [ofText?, hword, hsignature, String.reduceEq, if_true, if_false, Option.map_some]

theorem ofText?_else : ofText? "else:" = some .otherwise := by
  decide

theorem ofText?_pass : ofText? "pass" = some .pass := by
  decide

theorem ofText?_of_firstWord {text : String} (h : firstWord text.toList ∉ lineWords) :
    ofText? text = some .simple := by
  simp only [lineWords, List.mem_cons, List.not_mem_nil, or_false, not_or] at h
  obtain ⟨hif, helif, helse, hwhile, hdef, hpass⟩ := h
  simp only [ofText?, hif, helif, helse, hwhile, hdef, hpass, if_false]

end LineKind

/-! ## Passages -/

/-- Clauses that were read: the passages they write, after what continues a conditional in front of
them. -/
structure Continued where
  pending : Option (List Passage)
  passages : List Passage

/-- A conditional with the part that follows it. -/
def Passage.conditional (condition : String) (yes : List Passage) :
    Option (List Passage) → Passage
  | none => .ifThen condition yes
  | some no => .ifElse condition yes no

mutual

/-- Reads clauses from the last to the first. -/
def readPassages? : List Clause → Option Continued
  | [] => some ⟨none, []⟩
  | c :: cs => do c.readBefore? (← readPassages? cs)

/-- Reads a clause that stands in front of others. -/
def Clause.readBefore? (next : Continued) : Clause → Option Continued
  | .mk text suite => do
    let block ← readPassages? suite
    -- A suite that starts with a dangling `else` is no block.
    let isBlock := !suite.isEmpty && block.pending.isNone
    match ← LineKind.ofText? text with
    | .simple =>
      if suite.isEmpty && next.pending.isNone then
        some ⟨none, .line text :: next.passages⟩ else none
    | .pass => if suite.isEmpty && next.pending.isNone then some next else none
    | .ifThen condition =>
      if isBlock then
        some ⟨none, .conditional condition block.passages next.pending :: next.passages⟩ else none
    | .elif condition =>
      if isBlock then
        some ⟨some [.conditional condition block.passages next.pending], next.passages⟩ else none
    | .otherwise =>
      if isBlock && next.pending.isNone then
        some ⟨some block.passages, next.passages⟩ else none
    | .loop condition =>
      if isBlock && next.pending.isNone then
        some ⟨none, .loop condition block.passages :: next.passages⟩ else none
    | .define _ => none

end

/-- The passages of a block. -/
def readBlock? (suite : List Clause) : Option (List Passage) := do
  let block ← readPassages? suite
  if !suite.isEmpty && block.pending.isNone then some block.passages else none

/-! ### What is written is read -/

/-- The text of a line that has content. -/
structure LineText (text : String) : Prop where
  oneLine : OneLine text
  start : ∃ c, text.toList.head? = some c ∧ c ≠ ' '

/-- The text of a line that is simple. -/
structure SimpleLine (text : String) : Prop extends LineText text where
  word : firstWord text.toList ∉ lineWords

/-- A passage whose simple lines and conditions have given properties, with blocks that nest at most
`n` deep. -/
inductive Passage.Each (simple condition : String → Prop) : Nat → Passage → Prop where
  | line {n text} (htext : simple text) : Each simple condition n (.line text)
  | ifThen {n text yes} (hcondition : condition text)
      (hyes : ∀ p ∈ yes, Each simple condition n p) :
      Each simple condition (n + 1) (.ifThen text yes)
  | ifElse {n text yes no} (hcondition : condition text)
      (hyes : ∀ p ∈ yes, Each simple condition n p) (hno : ∀ p ∈ no, Each simple condition n p) :
      Each simple condition (n + 1) (.ifElse text yes no)
  | loop {n text body} (hcondition : condition text)
      (hbody : ∀ p ∈ body, Each simple condition n p) :
      Each simple condition (n + 1) (.loop text body)

/-- A passage that can be told from its text, with blocks that nest at most `n` deep. -/
abbrev Passage.Legible : Nat → Passage → Prop :=
  Passage.Each SimpleLine OneLine

/-- The clauses form the block of the given passages. -/
structure Reads (suite : List Clause) (ps : List Passage) : Prop where
  read : readPassages? suite = some ⟨none, ps⟩
  nonempty : suite.isEmpty = false

namespace Clause

variable {suite : List Clause} {ps : List Passage} {next : Continued}

theorem readBefore?_if (h : Reads suite ps) (condition : String) :
    (Clause.mk ("if " ++ condition ++ ":") suite).readBefore? next =
      some ⟨none, .conditional condition ps next.pending :: next.passages⟩ := by
  simp [readBefore?, h.read, h.nonempty, LineKind.ofText?_if]

theorem readBefore?_elif (h : Reads suite ps) (condition : String) :
    (Clause.mk ("elif " ++ condition ++ ":") suite).readBefore? next =
      some ⟨some [.conditional condition ps next.pending], next.passages⟩ := by
  simp [readBefore?, h.read, h.nonempty, LineKind.ofText?_elif]

theorem readBefore?_while (h : Reads suite ps) (condition : String) (rest : List Passage) :
    (Clause.mk ("while " ++ condition ++ ":") suite).readBefore? ⟨none, rest⟩ =
      some ⟨none, .loop condition ps :: rest⟩ := by
  simp [readBefore?, h.read, h.nonempty, LineKind.ofText?_while]

theorem readBefore?_else (h : Reads suite ps) (rest : List Passage) :
    (Clause.mk "else:" suite).readBefore? ⟨none, rest⟩ = some ⟨some ps, rest⟩ := by
  simp [readBefore?, h.read, h.nonempty, LineKind.ofText?_else]

theorem readBefore?_simple {text : String} (h : SimpleLine text) (rest : List Passage) :
    (Clause.mk text []).readBefore? ⟨none, rest⟩ = some ⟨none, .line text :: rest⟩ := by
  simp [readBefore?, readPassages?, LineKind.ofText?_of_firstWord h.word]

end Clause

theorem reads_pass : Reads [⟨"pass", []⟩] [] where
  read := by simp [readPassages?, Clause.readBefore?, LineKind.ofText?_pass]
  nonempty := rfl

namespace Passage

theorem clauses_ne_nil (p : Passage) : p.clauses ≠ [] := by
  cases p <;> simp [clauses]

mutual

/-- A passage is read back, whatever follows it. -/
theorem readPassages?_clauses {n : Nat} {p : Passage} (hp : p.Legible n) {cs : List Clause}
    {rest : List Passage} (hcs : readPassages? cs = some ⟨none, rest⟩) :
    readPassages? (p.clauses ++ cs) = some ⟨none, p :: rest⟩ := by
  cases p with
  | line text =>
    cases hp with
    | line htext =>
      rw [clauses, List.singleton_append, readPassages?, hcs]
      exact Clause.readBefore?_simple htext rest
  | ifThen condition yes =>
    cases hp with
    | ifThen _ hyes =>
      rw [clauses, List.singleton_append, readPassages?, hcs]
      exact Clause.readBefore?_if (reads_suite hyes) condition
  | ifElse condition yes no =>
    cases hp with
    | ifElse _ hyes hno =>
      -- The clauses behind `if` are read first; they are pending until the `if` takes them.
      rw [clauses, List.cons_append, readPassages?, readPassages?_elseClauses hno hcs]
      exact Clause.readBefore?_if (reads_suite hyes) condition
  | loop condition body =>
    cases hp with
    | loop _ hbody =>
      rw [clauses, List.singleton_append, readPassages?, hcs]
      exact Clause.readBefore?_while (reads_suite hbody) condition rest

theorem readPassages?_clausesAll {n : Nat} {ps : List Passage} (hps : ∀ p ∈ ps, p.Legible n) :
    readPassages? (clausesAll ps) = some ⟨none, ps⟩ := by
  cases ps with
  | nil => rfl
  | cons p ps =>
    rw [clausesAll]
    exact readPassages?_clauses (hps p List.mem_cons_self)
      (readPassages?_clausesAll fun q hq => hps q (List.mem_cons_of_mem _ hq))

/-- A block is read back. -/
theorem reads_suite {n : Nat} {ps : List Passage} (hps : ∀ p ∈ ps, p.Legible n) :
    Reads (suite ps) ps := by
  cases ps with
  | nil => exact reads_pass
  | cons p ps =>
    refine ⟨?_, ?_⟩
    · rw [suite]
      exact readPassages?_clauses (hps p List.mem_cons_self)
        (readPassages?_clausesAll fun q hq => hps q (List.mem_cons_of_mem _ hq))
    · simp [suite, clauses_ne_nil]

/-- The part after `else` is read back, whether it is written with `elif` or with `else`. -/
theorem readPassages?_elseClauses {n : Nat} {no : List Passage} (hno : ∀ p ∈ no, p.Legible n)
    {cs : List Clause} {rest : List Passage} (hcs : readPassages? cs = some ⟨none, rest⟩) :
    readPassages? (elseClauses no ++ cs) = some ⟨some no, rest⟩ := by
  -- The same four cases as in the definition: two kinds of `elif`, `pass` and a block.
  unfold elseClauses
  split
  next condition yes =>
    cases hno _ List.mem_cons_self with
    | ifThen _ hyes =>
      rw [List.singleton_append, readPassages?, hcs]
      exact Clause.readBefore?_elif (reads_suite hyes) condition
  next condition yes no =>
    cases hno _ List.mem_cons_self with
    | ifElse _ hyes hno' =>
      rw [List.cons_append, readPassages?, readPassages?_elseClauses hno' hcs]
      exact Clause.readBefore?_elif (reads_suite hyes) condition
  next =>
    rw [List.singleton_append, readPassages?, hcs]
    exact Clause.readBefore?_else reads_pass rest
  next p ps _ _ =>
    -- The block is not empty, or it would have been written as `pass`.
    have hblock : Reads (p.clauses ++ clausesAll ps) (p :: ps) :=
      ⟨readPassages?_clauses (hno p List.mem_cons_self)
        (readPassages?_clausesAll fun q hq => hno q (List.mem_cons_of_mem _ hq)),
        by simp [clauses_ne_nil]⟩
    rw [List.singleton_append, readPassages?, hcs]
    exact Clause.readBefore?_else hblock rest

end

end Passage

/-! ## Legible lines -/

theorem oneLine_append {a b : String} : OneLine (a ++ b) ↔ OneLine a ∧ OneLine b := by
  simp only [OneLine, String.toList_append, List.mem_append, or_imp, forall_and]

theorem LineText.legible {text : String} (h : LineText text) (depth : Nat) :
    Line.Legible ⟨depth, text⟩ where
  oneLine := h.oneLine
  start := by
    obtain ⟨c, hc, hblank⟩ := h.start
    rw [hc]
    exact fun he => hblank (Option.some.inj he)

theorem LineText.ne_empty {text : String} (h : LineText text) : text ≠ "" := by
  rintro rfl
  obtain ⟨c, hc, -⟩ := h.start
  cases hc

/-- A line whose text has a property and that is indented at most `limit` steps. -/
structure Line.Within (P : String → Prop) (limit : Nat) (l : Line) : Prop where
  text : P l.text
  depth : l.depth ≤ limit

theorem Line.Within.mono {P : String → Prop} {n n' : Nat} {l : Line} (h : l.Within P n)
    (hn : n ≤ n') : l.Within P n' :=
  ⟨h.text, Nat.le_trans h.depth hn⟩

/-- The lines of a clause and of the block under it. -/
theorem Clause.within_singleton {P : String → Prop} {depth limit : Nat} {text : String}
    {suite : List Clause} (htext : P text) (hdepth : depth ≤ limit)
    (hsuite : ∀ l ∈ linesAll (depth + 1) suite, l.Within P limit) :
    ∀ l ∈ linesAll depth [⟨text, suite⟩], l.Within P limit := by
  rw [linesAll_singleton, List.forall_mem_cons]
  exact ⟨⟨htext, hdepth⟩, hsuite⟩

/-- What simple lines and conditions are known to have gives all clauses of a passage a property. -/
structure Clause.Inherits (simple condition P : String → Prop) : Prop where
  simple : ∀ text, simple text → P text
  header : ∀ word ∈ ["if ", "elif ", "while "], ∀ text, condition text → P (word ++ text ++ ":")
  otherwise : P "else:"
  pass : P "pass"

/-- A header starts with its word. -/
theorem lineText_header {word content : String} (hword : LineText word)
    (hcontent : OneLine content) :
    LineText (word ++ content ++ ":") where
  oneLine := by
    have hcolon : OneLine ":" := by decide
    exact oneLine_append.mpr ⟨oneLine_append.mpr ⟨hword.oneLine, hcontent⟩, hcolon⟩
  start := by
    obtain ⟨c, hc, hblank⟩ := hword.start
    exact ⟨c, by simp [hc], hblank⟩

theorem lineText_def : LineText "def " := ⟨by decide, 'd', rfl, by decide⟩

/-- The clauses of a legible passage are lines with content. -/
theorem inherits_lineText : Clause.Inherits SimpleLine OneLine LineText where
  simple text htext := htext.toLineText
  header word hword text htext := by
    have hwords : ∀ word ∈ ["if ", "elif ", "while "], LineText word := by
      simp only [List.forall_mem_cons]
      exact ⟨⟨by decide, 'i', rfl, by decide⟩, ⟨by decide, 'e', rfl, by decide⟩,
        ⟨by decide, 'w', rfl, by decide⟩, fun word h => by cases h⟩
    exact lineText_header (hwords word hword) htext
  otherwise := ⟨by decide, 'e', rfl, by decide⟩
  pass := ⟨by decide, 'p', rfl, by decide⟩

namespace Passage

section Within

variable {simple condition P : String → Prop}

theorem within_pass (hP : Clause.Inherits simple condition P) (depth : Nat) {limit : Nat}
    (h : depth ≤ limit) :
    ∀ l ∈ Clause.linesAll depth [⟨"pass", []⟩], l.Within P limit :=
  Clause.within_singleton hP.pass h fun l hl => by cases hl

mutual

/-- The lines of a passage are no further right than its blocks nest. -/
theorem within_clauses (hP : Clause.Inherits simple condition P) {n : Nat} {p : Passage}
    (hp : p.Each simple condition n) (depth : Nat) :
    ∀ l ∈ Clause.linesAll depth p.clauses, l.Within P (depth + n) := by
  cases p with
  | line text =>
    cases hp with
    | line htext =>
      exact Clause.within_singleton (hP.simple text htext) (Nat.le_add_right _ _)
        fun l hl => by cases hl
  | ifThen text yes =>
    cases hp with
    | @ifThen n _ _ hcondition hyes =>
      refine Clause.within_singleton (hP.header "if " (by decide) text hcondition)
        (Nat.le_add_right _ _) fun l hl => ?_
      -- The suite is one step deeper and its passages are allowed one step less.
      exact (within_suite hP hyes (depth + 1) l hl).mono (by omega)
  | loop text body =>
    cases hp with
    | @loop n _ _ hcondition hbody =>
      refine Clause.within_singleton (hP.header "while " (by decide) text hcondition)
        (Nat.le_add_right _ _) fun l hl => ?_
      exact (within_suite hP hbody (depth + 1) l hl).mono (by omega)
  | ifElse text yes no =>
    cases hp with
    | @ifElse n _ _ _ hcondition hyes hno =>
      -- What follows `else` is laid out at the depth of the statement itself.
      rw [clauses, ← List.singleton_append, Clause.linesAll_append, List.forall_mem_append]
      refine ⟨Clause.within_singleton (hP.header "if " (by decide) text hcondition)
        (Nat.le_add_right _ _) fun l hl => ?_, within_elseClauses hP hno depth⟩
      exact (within_suite hP hyes (depth + 1) l hl).mono (by omega)

theorem within_clausesAll (hP : Clause.Inherits simple condition P) {n : Nat} {ps : List Passage}
    (hps : ∀ p ∈ ps, p.Each simple condition n) (depth : Nat) :
    ∀ l ∈ Clause.linesAll depth (clausesAll ps), l.Within P (depth + n) := by
  cases ps with
  | nil => exact fun l hl => by cases hl
  | cons p ps =>
    rw [clausesAll, Clause.linesAll_append, List.forall_mem_append]
    exact ⟨within_clauses hP (hps p List.mem_cons_self) depth,
      within_clausesAll hP (fun q hq => hps q (List.mem_cons_of_mem _ hq)) depth⟩

theorem within_suite (hP : Clause.Inherits simple condition P) {n : Nat} {ps : List Passage}
    (hps : ∀ p ∈ ps, p.Each simple condition n) (depth : Nat) :
    ∀ l ∈ Clause.linesAll depth (suite ps), l.Within P (depth + n) := by
  cases ps with
  | nil => exact within_pass hP depth (Nat.le_add_right _ _)
  | cons p ps =>
    rw [suite, Clause.linesAll_append, List.forall_mem_append]
    exact ⟨within_clauses hP (hps p List.mem_cons_self) depth,
      within_clausesAll hP (fun q hq => hps q (List.mem_cons_of_mem _ hq)) depth⟩

theorem within_elseClauses (hP : Clause.Inherits simple condition P) {n : Nat} {no : List Passage}
    (hno : ∀ p ∈ no, p.Each simple condition n) (depth : Nat) :
    ∀ l ∈ Clause.linesAll depth (elseClauses no), l.Within P (depth + (n + 1)) := by
  unfold elseClauses
  split
  next text yes =>
    cases hno _ List.mem_cons_self with
    | @ifThen n _ _ hcondition hyes =>
      refine Clause.within_singleton (hP.header "elif " (by decide) text hcondition)
        (Nat.le_add_right _ _) fun l hl => ?_
      exact (within_suite hP hyes (depth + 1) l hl).mono (by omega)
  next text yes no =>
    cases hno _ List.mem_cons_self with
    | @ifElse n _ _ _ hcondition hyes hno' =>
      rw [← List.singleton_append, Clause.linesAll_append, List.forall_mem_append]
      refine ⟨Clause.within_singleton (hP.header "elif " (by decide) text hcondition)
        (Nat.le_add_right _ _) fun l hl => ?_, fun l hl => ?_⟩
      · exact (within_suite hP hyes (depth + 1) l hl).mono (by omega)
      -- A chain of `elif` does not get deeper, so the bound is not used up.
      · exact (within_elseClauses hP hno' depth l hl).mono (by omega)
  next =>
    exact Clause.within_singleton hP.otherwise (Nat.le_add_right _ _)
      (within_pass hP (depth + 1) (by omega))
  next p ps _ _ =>
    refine Clause.within_singleton hP.otherwise (Nat.le_add_right _ _) fun l hl => ?_
    rw [Clause.linesAll_append, List.mem_append] at hl
    rcases hl with hl | hl
    · exact (within_clauses hP (hno p List.mem_cons_self) (depth + 1) l hl).mono (by omega)
    · exact (within_clausesAll hP (fun q hq => hno q (List.mem_cons_of_mem _ hq)) (depth + 1) l
        hl).mono (by omega)

end

end Within

end Passage

/-! ## Scripts -/

/-- A function as its text shows it. -/
structure Definition where
  name : String
  parameters : List String
  body : List Passage

/-- A script as its text shows it. -/
structure Reading where
  definitions : List Definition
  /-- The statements after the functions, if there are any lines. -/
  main : Option (List Passage)

/-- The parameters between the parentheses of a signature. -/
def readParameters (chars : List Char) : List String :=
  if chars.isEmpty then []
  else (chars.splitOn ',').map fun name => String.ofList (name.dropWhile (· = ' '))

/-- The name and the parameters of a function. -/
def readSignature? (signature : String) : Option (String × List String) :=
  match afterWord signature.toList with
  | '(' :: inner =>
    if inner.getLast? = some ')' then
      some (firstWord signature.toList, readParameters inner.dropLast)
    else none
  | _ => none

/-- Reads the functions of a script and what follows them. -/
def readScript? : List Clause → Option Reading
  | [] => some ⟨[], none⟩
  | .mk text suite :: cs =>
    match LineKind.ofText? text with
    | some (.define signature) => do
      let (name, parameters) ← readSignature? signature
      let body ← readBlock? suite
      let rest ← readScript? cs
      return { rest with definitions := ⟨name, parameters, body⟩ :: rest.definitions }
    | _ => do
      let main ← readBlock? (.mk text suite :: cs)
      return ⟨[], some main⟩

/-- Reads the text of a script. -/
def read? (text : String) : Option Reading := do
  let lines ← readLines? text
  let clauses ← readClauses? 0 lines
  readScript? clauses

/-! ### What is written is read -/

theorem toList_commaSeparated_cons (first : String) (rest : List String) :
    (Text.commaSeparated (first :: rest)).toList =
      first.toList ++ rest.flatMap fun part => ',' :: ' ' :: part.toList := by
  have hintercalate : ∀ (x : List Char) (xs : List (List Char)),
      List.intercalate [',', ' '] (x :: xs) = x ++ xs.flatMap fun y => ',' :: ' ' :: y := by
    intro x xs
    induction xs generalizing x with
    | nil => simp [List.intercalate]
    | cons y ys ih =>
      have hstep : List.intercalate [',', ' '] (x :: y :: ys) =
          x ++ ([',', ' '] ++ List.intercalate [',', ' '] (y :: ys)) := by
        simp [List.intercalate]
      rw [hstep, ih y]
      simp
  rw [Text.commaSeparated, String.toList_intercalate, List.map_cons]
  simpa [List.flatMap_map] using hintercalate first.toList (rest.map String.toList)

theorem splitOn_parameters {word : List Char} (hword : ',' ∉ word) {rest : List String}
    (hrest : ∀ name ∈ rest, ',' ∉ name.toList) :
    (word ++ rest.flatMap fun part => ',' :: ' ' :: part.toList).splitOn ',' =
      word :: rest.map fun part => ' ' :: part.toList := by
  have hnone : ∀ c ∈ word, (c == ',') = false :=
    fun c hc => beq_eq_false_iff_ne.mpr fun he => hword (he ▸ hc)
  induction rest generalizing word with
  | nil =>
    rw [List.flatMap_nil, List.append_nil]
    exact List.splitOnP_eq_singleton hnone
  | cons name rest ih =>
    -- The next word starts with the blank behind the comma.
    have hname : ',' ∉ ' ' :: name.toList := by
      simpa using hrest name List.mem_cons_self
    rw [List.flatMap_cons, List.cons_append, List.splitOn,
      List.splitOnP_append_cons_of_forall_mem hnone _ (by decide)]
    exact congrArg (word :: ·) (ih hname (fun q hq => hrest q (List.mem_cons_of_mem _ hq))
      fun c hc => beq_eq_false_iff_ne.mpr fun he => hname (he ▸ hc))

/-- A character that no identifier has. -/
theorem not_mem_of_isIdentifier {name : String} (h : isIdentifier name = true) {c : Char}
    (hc : isWordChar c = false) : c ∉ name.toList := by
  intro hmem
  rw [isWordChar_of_isIdentifier h c hmem] at hc
  cases hc

theorem readParameters_commaSeparated {names : List String}
    (h : ∀ name ∈ names, isIdentifier name = true) :
    readParameters (Text.commaSeparated names).toList = names := by
  -- A name does not start with a blank, so dropping blanks leaves it alone.
  have hdrop : ∀ name ∈ names, name.toList.dropWhile (· = ' ') = name.toList := by
    intro name hname
    obtain ⟨c, cs, hchars, -⟩ := isIdentifier_iff.mp (h name hname)
    have hblank := not_mem_of_isIdentifier (h name hname) (c := ' ') (by decide)
    rw [hchars, List.mem_cons, not_or] at hblank
    simp [hchars, Ne.symm hblank.1]
  cases names with
  | nil => rfl
  | cons first rest =>
    have hcomma : ∀ name ∈ first :: rest, ',' ∉ name.toList :=
      fun name hname => not_mem_of_isIdentifier (h name hname) (by decide)
    -- The text is not empty, so it is not the one of an empty list of parameters.
    obtain ⟨c, cs, hchars, -⟩ := isIdentifier_iff.mp (h first List.mem_cons_self)
    have hsplit := splitOn_parameters (hcomma first List.mem_cons_self)
      fun name hname => hcomma name (List.mem_cons_of_mem _ hname)
    have hnames : (rest.map fun part => ' ' :: part.toList).map
        (fun name => String.ofList (name.dropWhile (· = ' '))) = rest := by
      rw [List.map_map]
      refine (List.map_congr_left fun name hname => ?_).trans (List.map_id _)
      simp [hdrop name (List.mem_cons_of_mem _ hname)]
    rw [readParameters, toList_commaSeparated_cons, if_neg (by simp [hchars]), hsplit,
      List.map_cons, hdrop first List.mem_cons_self, String.ofList_toList, hnames]

namespace Function

/-- What stands between `def` and the colon. -/
def signature (f : Function) : String :=
  f.name ++ "(" ++ Text.commaSeparated f.parameters ++ ")"

theorem header_eq (f : Function) : f.header = "def " ++ f.signature ++ ":" := by
  rw [← String.toList_inj]
  simp [header, signature]

/-- The names of a function are identifiers. -/
structure IsNamed (f : Function) : Prop where
  name : isIdentifier f.name = true
  parameters : ∀ name ∈ f.parameters, isIdentifier name = true

theorem IsNamed.readSignature? {f : Function} (h : f.IsNamed) :
    readSignature? f.signature = some (f.name, f.parameters) := by
  have hchars : f.signature.toList =
      f.name.toList ++ '(' :: ((Text.commaSeparated f.parameters).toList ++ [')']) := by
    simp [signature]
  have hword := isWordChar_of_isIdentifier h.name
  have hrest : EndsWord ('(' :: ((Text.commaSeparated f.parameters).toList ++ [')'])) :=
    endsWord_cons (by decide) _
  rw [Script.readSignature?, hchars, afterWord_append hword hrest, firstWord_append hword hrest]
  simp [readParameters_commaSeparated h.parameters]

end Function

theorem Reads.readBlock? {suite : List Clause} {ps : List Passage} (h : Reads suite ps) :
    readBlock? suite = some ps := by
  simp [Script.readBlock?, h.read, h.nonempty]

/-- A block is not taken for a function. -/
theorem Reads.readScript? {suite : List Clause} {ps : List Passage} (h : Reads suite ps) :
    readScript? suite = some ⟨[], some ps⟩ := by
  cases suite with
  | nil => cases h.nonempty
  | cons c cs =>
    obtain ⟨text, sub⟩ := c
    have hread := h.read
    rw [Script.readScript?]
    split
    next signature hkind =>
      simp only [readPassages?, Clause.readBefore?, hkind, Option.bind_eq_bind,
        Option.bind_some, Option.bind_eq_some_iff] at hread
      obtain ⟨_, _, _, _, hnone⟩ := hread
      cases hnone
    next => simp [h.readBlock?]

theorem Clause.linesAll_flatMap {α : Type} (depth : Nat) (xs : List α) (g : α → List Clause) :
    linesAll depth (xs.flatMap g) = xs.flatMap fun x => linesAll depth (g x) := by
  induction xs with
  | nil => rfl
  | cons x xs ih => rw [List.flatMap_cons, linesAll_append, ih, List.flatMap_cons]

/-- The clause of a function. -/
def Function.clause (f : Function) : Clause :=
  ⟨f.header, Passage.suite (Stmt.passages f.body)⟩

/-- A function as its text shows it. -/
def Function.definition (f : Function) : Definition :=
  ⟨f.name, f.parameters, Stmt.passages f.body⟩

/-- The clauses of a script. -/
def clauses (s : Script) : List Clause :=
  (s.functions.flatMap fun f => [f.clause]) ++
    s.mains.flatMap fun sts => Passage.suite (Stmt.passages sts)

/-- A script as its text shows it. -/
def reading (s : Script) : Reading :=
  ⟨s.functions.map Function.definition, s.mains.head?.map Stmt.passages⟩

/-- A script that can be told from its text, with blocks that nest at most `n` deep below the bodies
of functions and the entry point. -/
structure Legible (n : Nat) (s : Script) : Prop where
  named : ∀ f ∈ s.functions, f.IsNamed
  functions : ∀ f ∈ s.functions, ∀ p ∈ Stmt.passages f.body, p.Legible n
  mains : ∀ sts ∈ s.mains, ∀ p ∈ Stmt.passages sts, p.Legible n
  /-- There is at most one entry point. -/
  main : s.mains.length ≤ 1

theorem oneLine_of_isIdentifier {name : String} (h : isIdentifier name = true) : OneLine name := by
  intro c hc
  have hword := isWordChar_of_isIdentifier h c hc
  rw [isLineBreak, Bool.or_eq_false_iff, decide_eq_false_iff_not, decide_eq_false_iff_not]
  constructor <;> rintro rfl <;> exact absurd hword (by decide)

theorem oneLine_commaSeparated {parts : List String} (h : ∀ part ∈ parts, OneLine part) :
    OneLine (Text.commaSeparated parts) := by
  cases parts with
  | nil => simp [OneLine, Text.commaSeparated]
  | cons first rest =>
    intro c hc
    rw [toList_commaSeparated_cons, List.mem_append] at hc
    rcases hc with hc | hc
    · exact h first List.mem_cons_self c hc
    · obtain ⟨part, hpart, hc⟩ := List.mem_flatMap.mp hc
      rcases List.mem_cons.mp hc with rfl | hc
      · decide
      · rcases List.mem_cons.mp hc with rfl | hc
        · decide
        · exact h part (List.mem_cons_of_mem _ hpart) c hc

theorem Function.IsNamed.lineText_header {f : Function} (h : f.IsNamed) : LineText f.header := by
  rw [f.header_eq]
  refine Script.lineText_header lineText_def ?_
  have hparameters := oneLine_commaSeparated fun name hname =>
    oneLine_of_isIdentifier (h.parameters name hname)
  simp only [signature, oneLine_append]
  exact ⟨⟨⟨oneLine_of_isIdentifier h.name, by decide⟩, hparameters⟩,
    by decide⟩

/-! ### Lines of scripts -/

section Within

variable {simple condition P : String → Prop} {n : Nat} {s : Script}

theorem Function.within_clause (hP : Clause.Inherits simple condition P) {f : Function}
    (hheader : P f.header) (hbody : ∀ p ∈ Stmt.passages f.body, p.Each simple condition n) :
    ∀ l ∈ Clause.linesAll 0 [f.clause], l.Within P (n + 1) :=
  Clause.within_singleton hheader (Nat.zero_le _) fun l hl =>
    (Passage.within_suite hP hbody 1 l hl).mono (Nat.le_of_eq (Nat.add_comm 1 n))

theorem within_main (hP : Clause.Inherits simple condition P) {sts : List Stmt}
    (hsts : ∀ p ∈ Stmt.passages sts, p.Each simple condition n) :
    ∀ l ∈ Clause.linesAll 0 (Passage.suite (Stmt.passages sts)), l.Within P (n + 1) :=
  fun l hl => (Passage.within_suite hP hsts 0 l hl).mono (by omega)

/-- Every line of a script is blank or a line of a clause. -/
theorem mem_lines_of_each (hP : Clause.Inherits simple condition P)
    (hheader : ∀ f ∈ s.functions, P f.header)
    (hfunctions : ∀ f ∈ s.functions, ∀ p ∈ Stmt.passages f.body, p.Each simple condition n)
    (hmains : ∀ sts ∈ s.mains, ∀ p ∈ Stmt.passages sts, p.Each simple condition n) {l : Line}
    (hl : l ∈ s.lines) : l = ⟨0, ""⟩ ∨ l.Within P (n + 1) := by
  rcases List.mem_append.mp hl with hl | hl
  · obtain ⟨f, hf, hl⟩ := List.mem_flatMap.mp hl
    rcases List.mem_append.mp hl with hl | hl
    · exact .inr (Function.within_clause hP (hheader f hf) (hfunctions f hf) l hl)
    · exact .inl (List.mem_singleton.mp hl)
  · obtain ⟨sts, hsts, hl⟩ := List.mem_flatMap.mp hl
    exact .inr (within_main hP (hmains sts hsts) l hl)

/-- The lines of a script fit if its blocks do not nest too deep. -/
theorem fits_of_each (hn : (n + 1) * indentStep ≤ Fault.widestField)
    (hfunctions : ∀ f ∈ s.functions, ∀ p ∈ Stmt.passages f.body, p.Each simple condition n)
    (hmains : ∀ sts ∈ s.mains, ∀ p ∈ Stmt.passages sts, p.Each simple condition n) :
    Fits s.lines := by
  have hany : Clause.Inherits simple condition fun _ => True :=
    ⟨fun _ _ => trivial, fun _ _ _ _ => trivial, trivial, trivial⟩
  intro l hl
  rcases mem_lines_of_each hany (fun _ _ => trivial) hfunctions hmains hl with rfl | hl
  · exact Nat.zero_le _
  · exact Nat.le_trans (Nat.mul_le_mul_right _ hl.depth) hn

end Within

namespace Legible

variable {n : Nat} {s : Script} (hs : s.Legible n)

include hs

theorem within_function {f : Function} (hf : f ∈ s.functions) :
    ∀ l ∈ Clause.linesAll 0 [f.clause], l.Within LineText (n + 1) :=
  Function.within_clause inherits_lineText (hs.named f hf).lineText_header (hs.functions f hf)

/-- The lines of a script are those of its clauses and the blank ones between functions. -/
theorem filter_lines : s.lines.filter (·.text ≠ "") = Clause.linesAll 0 s.clauses := by
  have hself : ∀ ls : List Line, (∀ l ∈ ls, l.Within LineText (n + 1)) →
      ls.filter (·.text ≠ "") = ls :=
    fun ls hls => List.filter_eq_self.mpr fun l hl => decide_eq_true (hls l hl).text.ne_empty
  rw [lines, clauses, List.filter_append, List.filter_flatMap, List.filter_flatMap,
    Clause.linesAll_append, Clause.linesAll_flatMap, Clause.linesAll_flatMap]
  congr 1
  · refine List.flatMap_congr fun f hf => ?_
    rw [Function.lines, List.filter_append]
    change List.filter _ (Clause.linesAll 0 [f.clause]) ++ [] = _
    rw [hself _ (hs.within_function hf), List.append_nil]
  · exact List.flatMap_congr fun sts hsts =>
      hself _ (within_main inherits_lineText (hs.mains sts hsts))

theorem fits (hn : (n + 1) * indentStep ≤ Fault.widestField) : Fits s.lines :=
  fits_of_each hn hs.functions hs.mains

theorem legible_of_mem_lines {l : Line} (hl : l ∈ s.lines) : l.Legible := by
  have hheader : ∀ f ∈ s.functions, LineText f.header :=
    fun f hf => (hs.named f hf).lineText_header
  rcases mem_lines_of_each inherits_lineText hheader hs.functions hs.mains hl with rfl | hl
  · exact ⟨fun c hc => (by cases hc), by simp⟩
  · exact hl.text.legible l.depth

theorem readScript?_clauses : readScript? s.clauses = some s.reading := by
  obtain ⟨functions, mains⟩ := s
  obtain ⟨hnamed, hfunctions, hmains, hmain⟩ := hs
  simp only at hnamed hfunctions hmains hmain
  induction functions with
  | nil =>
    -- What is left is the main part, and there is at most one.
    match mains, hmain with
    | [], _ => rfl
    | [sts], _ =>
      have hblock := Passage.reads_suite (hmains sts List.mem_cons_self)
      simpa [clauses, reading] using hblock.readScript?
  | cons f functions ih =>
    -- The definitions are read one by one, each in front of those that follow.
    have hrest := ih (fun g hg => hnamed g (List.mem_cons_of_mem _ hg))
      (fun g hg => hfunctions g (List.mem_cons_of_mem _ hg))
    have hkind : LineKind.ofText? f.header = some (.define f.signature) := by
      rw [f.header_eq, LineKind.ofText?_def]
    have hsignature := (hnamed f List.mem_cons_self).readSignature?
    have hbody := (Passage.reads_suite (hfunctions f List.mem_cons_self)).readBlock?
    simp only [clauses, List.flatMap_cons, List.cons_append, List.nil_append] at hrest ⊢
    rw [Function.clause, readScript?, hkind]
    simp only [hsignature, hbody, hrest, Option.bind_eq_bind, Option.bind_some]
    rfl

/-- A legible script is read back from its text. -/
theorem read?_render : read? (String.join (s.lines.map Line.render)) = some s.reading := by
  rw [read?, readLines?_render fun l hl => hs.legible_of_mem_lines hl, hs.filter_lines]
  simp only [Option.bind_eq_bind, Option.bind_some, readClauses?_linesAll, hs.readScript?_clauses]

end Legible

end Primer.Script
