import Primer.Proofs.Analysis.ItemOrder
import Primer.Proofs.Machine.Heading
import Mathlib.Data.List.Infix
import Mathlib.Tactic.Choose

/-!
# Every item is generated once

Both things that are generated from an accepted program have every item in them, once and in order
(`Program.items_generated`). The unit has a routine for each item, with the heading that the item
says. The script has a piece of text for each function, which starts with its `def` line.

A reader of the text can tell the `def` lines from the others if names are tame: without line
breaks, and not starting as `def` lines do. Nothing else could make another line look like one.
-/

namespace Primer

open Machine Script

variable {L I : Type}

/-! ## Lines that define functions -/

namespace Script

/-- Whether a line starts as one that defines a function. -/
def isDef (chars : List Char) : Bool :=
  "def ".toList.isPrefixOf chars

/-- The lines of a text that define functions. -/
def defLines (text : String) : List String :=
  ((text.toList.splitOnP isLineBreak).filter isDef).map String.ofList

/-- A text on one line that does not define a function. -/
def Tame (text : String) : Prop :=
  OneLine text ∧ isDef text.toList = false

instance (text : String) : Decidable (Tame text) :=
  inferInstanceAs (Decidable (_ ∧ _))

/-- No sign that follows a name goes on where a beginning of `def ` has stopped. -/
private theorem isDef_beginning {cs : List Char} (hcs : cs ∈ [[], ['d'], ['d', 'e']])
    {sign : String} (hsign : sign ∈ [" = ", "[", "("]) (rest : List Char) :
    isDef (cs ++ (sign.toList ++ rest)) = false := by
  simp only [List.mem_cons, List.not_mem_nil, or_false] at hcs hsign
  rcases hcs with rfl | rfl | rfl <;> rcases hsign with rfl | rfl | rfl <;> rfl

/-- A name of the program at the start of a line, with the sign that follows it. -/
theorem isDef_safeName {name sign : String} (hname : isDef name.toList = false)
    (hsign : sign ∈ [" = ", "[", "("]) (rest : List Char) :
    isDef ((safeName name ++ sign).toList ++ rest) = false := by
  unfold safeName
  split_ifs with hreserved
  · -- A reserved word is written behind `ofp_`, which is not how `def ` starts.
    rw [String.toList_append, String.toList_append]
    rfl
  · rw [Bool.eq_false_iff]
    intro hdef
    rw [String.toList_append, List.append_assoc] at hdef
    have hline := List.isPrefixOf_iff_prefix.mp hdef
    -- `def ` and the name start the same line, so one of them starts the other.
    rcases List.prefix_or_prefix_of_prefix hline (List.prefix_append _ _) with hlong | hshort
    · exact Bool.eq_false_iff.mp hname (List.isPrefixOf_iff_prefix.mpr hlong)
    · have hinits : name.toList ∈
          [[], ['d'], ['d', 'e']] ++ [['d', 'e', 'f'], ['d', 'e', 'f', ' ']] :=
        (List.mem_inits _ _).mpr hshort
      rcases List.mem_append.mp hinits with hbeginning | hwhole
      · rw [isDef_beginning hbeginning hsign] at hdef
        cases hdef
      · -- The word itself is reserved, and a name may not go on after it with a blank.
        rcases List.mem_pair.mp hwhole with hword | hblank
        · have hdefName : name = "def" := String.toList_inj.mp hword
          exact hreserved (hdefName ▸ by decide)
        · rw [hblank] at hname
          cases hname

section Conveys

variable {t : Table} {m : ScopeMap} {st : Primer.Stmt L NodeId} {s : ScopeId} {text : String}

/-- Names without line breaks make lines without line breaks. -/
theorem oneLine_of_passage (hnames : ∀ x ∈ st.names, OneLine x)
    (h : (st.toScript t m s).passage = .line text) : OneLine text := by
  rcases Stmt.exists_start hnames h with rfl | ⟨start, rest, rfl, hrest, hstart⟩
  · decide
  · refine oneLine_append.mpr ⟨?_, hrest⟩
    rcases hstart with hword | ⟨name, hname, sign, hsign, rfl⟩
    · have hwords : ∀ word ∈ ["return ", "print("], OneLine word := by decide
      exact hwords start hword
    · have hsigns : ∀ sign ∈ [" = ", "[", "("], OneLine sign := by decide
      exact oneLine_append.mpr ⟨oneLine_safeName (hnames name hname), hsigns sign hsign⟩

/-- Tame names make tame lines. -/
theorem tame_of_passage (hnames : ∀ x ∈ st.names, Tame x)
    (h : (st.toScript t m s).passage = .line text) : Tame text := by
  have hone : ∀ x ∈ st.names, OneLine x := fun x hx => (hnames x hx).1
  refine ⟨oneLine_of_passage hone h, ?_⟩
  rcases Stmt.exists_start hone h with rfl | ⟨start, rest, rfl, -, hstart⟩
  · rfl
  · rw [String.toList_append]
    rcases hstart with hword | ⟨name, hname, sign, hsign, rfl⟩
    · simp only [List.mem_cons, List.not_mem_nil, or_false] at hword
      rcases hword with rfl | rfl
      · rfl
      · rfl
    · exact isDef_safeName (hnames name hname).2 hsign _

theorem conveys_oneLine : Conveys L t m OneLine OneLine OneLine where
  simple _ _ _ hnames h := oneLine_of_passage hnames h
  condition _ _ hnames := Expr.oneLine_text hnames

theorem conveys_tame : Conveys L t m Tame Tame OneLine where
  simple _ _ _ hnames h := tame_of_passage hnames h
  condition _ _ hnames := Expr.oneLine_text fun x hx => (hnames x hx).1

end Conveys

theorem inherits_oneLine : Clause.Inherits OneLine OneLine OneLine where
  simple _ htext := htext
  header word hword text htext := by
    have hwords : ∀ word ∈ ["if ", "elif ", "while "], OneLine word := by decide
    exact oneLine_append.mpr ⟨oneLine_append.mpr ⟨hwords word hword, htext⟩, by decide⟩
  otherwise := by decide
  pass := by decide

/-- Only lines of functions define functions. -/
theorem inherits_tame : Clause.Inherits Tame OneLine Tame where
  simple _ htext := htext
  header word hword text htext := by
    refine ⟨inherits_oneLine.header word hword text htext, ?_⟩
    simp only [List.mem_cons, List.not_mem_nil, or_false] at hword
    rw [String.toList_append, String.toList_append]
    rcases hword with rfl | rfl | rfl
    · rfl
    · rfl
    · rfl
  otherwise := by decide
  pass := by decide

/-- Indentation keeps a line from defining a function. -/
theorem Line.isDef_chars {l : Line} (h : isDef l.text.toList = false) : isDef l.chars = false := by
  unfold Line.chars
  cases l.depth with
  | zero => simpa using h
  | succ n =>
    -- The first character is a blank, whatever follows.
    rw [Nat.succ_mul]
    rfl

theorem filter_isDef_chars {ls : List Line} (h : ∀ l ∈ ls, Tame l.text) :
    (ls.map Line.chars).filter isDef = [] := by
  rw [List.filter_eq_nil_iff, List.forall_mem_map]
  intro l hl
  rw [Line.isDef_chars (h l hl).2]
  decide

theorem Function.isDef_header (g : Function) : isDef g.header.toList = true := by
  rw [g.header_eq, isDef, String.toList_append, String.toList_append, List.append_assoc,
    List.isPrefixOf_iff_prefix]
  exact List.prefix_append _ _

section Render

variable {n : Nat}

/-- Of the lines of a function only the first one defines a function. -/
theorem Function.filter_isDef_lines {g : Function}
    (hbody : ∀ q ∈ Stmt.passages g.body, q.Each Tame OneLine n) :
    (g.lines.map Line.chars).filter isDef = [g.header.toList] := by
  have hlines : ∀ l ∈ Clause.linesAll 1 (Passage.suite (Stmt.passages g.body)) ++ [⟨0, ""⟩],
      Tame l.text := by
    rw [List.forall_mem_append]
    exact ⟨fun l hl => (Passage.within_suite inherits_tame hbody 1 l hl).text, by decide⟩
  have hheader : Line.chars ⟨0, g.header⟩ = g.header.toList := rfl
  rw [Function.lines, Clause.linesAll_singleton, List.cons_append, List.map_cons, hheader,
    List.filter_cons_of_pos g.isDef_header, filter_isDef_chars hlines]

/-- The `def` lines of a script are those of its functions. -/
theorem defLines_render {s : Script} (hheader : ∀ g ∈ s.functions, OneLine g.header)
    (hfunctions : ∀ g ∈ s.functions, ∀ q ∈ Stmt.passages g.body, q.Each Tame OneLine n)
    (hmains : ∀ sts ∈ s.mains, ∀ q ∈ Stmt.passages sts, q.Each Tame OneLine n) :
    defLines (String.join (s.lines.map Line.render)) = s.functions.map Function.header := by
  -- The text falls apart into its lines only if there are no line breaks in them.
  have hinherits : Clause.Inherits Tame OneLine OneLine :=
    { inherits_oneLine with simple := fun _ h => h.1 }
  have hlines : ∀ l ∈ s.lines, OneLine l.text := by
    intro l hl
    rcases mem_lines_of_each hinherits hheader hfunctions hmains hl with rfl | hl
    · decide
    · exact hl.text
  have hmain : ((s.mains.flatMap fun sts =>
      Clause.linesAll 0 (Passage.suite (Stmt.passages sts))).map Line.chars).filter isDef = [] := by
    refine filter_isDef_chars fun l hl => ?_
    obtain ⟨sts, hsts, hl⟩ := List.mem_flatMap.mp hl
    exact (within_main inherits_tame (hmains sts hsts) l hl).text
  have hfunction : ((s.functions.flatMap Function.lines).map Line.chars).filter isDef =
      s.functions.map fun g => g.header.toList := by
    rw [List.map_flatMap, List.filter_flatMap, List.map_eq_flatMap]
    exact List.flatMap_congr fun g hg => Function.filter_isDef_lines (hfunctions g hg)
  rw [defLines, splitOnP_render hlines, lines, List.map_append, List.filter_append,
    List.filter_append, hfunction, hmain]
  simp [isDef]

end Render

/-! ## Texts line by line -/

/-- The text of lines, with a line break after each. -/
def writeLines (contents : List String) : String :=
  String.join (contents.map (· ++ "\n"))

theorem writeLines_append (xs ys : List String) :
    writeLines (xs ++ ys) = writeLines xs ++ writeLines ys := by
  rw [writeLines, List.map_append, String.join_append]
  rfl

theorem writeLines_flatMap {α : Type} (xs : List α) (contents : α → List String) :
    writeLines (xs.flatMap contents) = String.join (xs.map fun x => writeLines (contents x)) :=
  join_map_flatMap xs contents _

theorem oneLine_blanks (n : Nat) : OneLine (Text.blanks n) := by
  intro c hc
  rw [Text.blanks, Text.fill, String.toList_ofList] at hc
  rw [List.eq_of_mem_replicate hc]
  decide

/-- What is written on a line, its indentation counted from a given depth on. -/
def Line.content (depth : Nat) (l : Line) : String :=
  Text.blanks ((l.depth - depth) * indentStep) ++ l.text

theorem Line.oneLine_content {l : Line} (h : OneLine l.text) (depth : Nat) :
    OneLine (l.content depth) :=
  oneLine_append.mpr ⟨oneLine_blanks _, h⟩

/-- One step of the indentation may be written apart. -/
theorem Line.content_of_depth_pos {l : Line} (h : 1 ≤ l.depth) :
    l.content 0 = "    " ++ l.content 1 := by
  obtain ⟨n, hn⟩ := Nat.exists_eq_add_of_le h
  rw [← String.toList_inj]
  simp [Line.content, Text.blanks, Text.fill, hn, Nat.add_mul, indentStep, List.replicate_add]

theorem join_render_eq (ls : List Line) :
    String.join (ls.map Line.render) = writeLines (ls.map (Line.content 0)) := by
  rw [writeLines, List.map_map]
  rfl

theorem Clause.linesAll_suite_ne_nil (depth : Nat) (ps : List Passage) :
    linesAll depth (Passage.suite ps) ≠ [] := by
  cases ps with
  | nil => simp [Passage.suite, linesAll, lines]
  | cons p ps =>
    -- A passage starts with a line of its own.
    cases p <;> simp [Passage.suite, Passage.clauses, linesAll, lines]

/-- The lines under the `def` line of a function. -/
def Function.bodyLines (g : Function) : List String :=
  (Clause.linesAll 1 (Passage.suite (Stmt.passages g.body))).map (Line.content 1)

theorem Function.bodyLines_ne_nil (g : Function) : g.bodyLines ≠ [] :=
  fun h => Clause.linesAll_suite_ne_nil 1 _ (List.map_eq_nil_iff.mp h)

theorem Function.oneLine_of_mem_bodyLines {g : Function} {n : Nat}
    (hbody : ∀ q ∈ Stmt.passages g.body, q.Each OneLine OneLine n) :
    ∀ line ∈ g.bodyLines, OneLine line :=
  List.forall_mem_map.mpr fun l hl =>
    Line.oneLine_content (Passage.within_suite inherits_oneLine hbody 1 l hl).text 1

/-- A function is written as its `def` line, indented lines and a blank line. -/
theorem Function.render_eq (g : Function) :
    String.join (g.lines.map Line.render) =
      writeLines (g.header :: g.bodyLines.map ("    " ++ ·) ++ [""]) := by
  have hbody : (Clause.linesAll 1 (Passage.suite (Stmt.passages g.body))).map (Line.content 0) =
      g.bodyLines.map ("    " ++ ·) := by
    rw [Function.bodyLines, List.map_map]
    exact List.map_congr_left fun l hl =>
      Line.content_of_depth_pos (Clause.depth_le_of_mem_linesAll _ l hl)
  rw [join_render_eq, Function.lines, Clause.linesAll_singleton, List.map_append, List.map_cons,
    hbody]
  rfl

/-- The lines of an entry point, which are not indented. -/
def mainContents (sts : List Stmt) : List String :=
  (mainLines sts).map (Line.content 0)

theorem mainContents_ne_nil (sts : List Stmt) : mainContents sts ≠ [] :=
  fun h => Clause.linesAll_suite_ne_nil 0 _ (List.map_eq_nil_iff.mp h)

theorem oneLine_of_mem_mainContents {sts : List Stmt} {n : Nat}
    (hbody : ∀ q ∈ Stmt.passages sts, q.Each OneLine OneLine n) :
    ∀ line ∈ mainContents sts, OneLine line :=
  List.forall_mem_map.mpr fun l hl =>
    Line.oneLine_content (within_main inherits_oneLine hbody l hl).text 0

end Script

/-- The `def` line of a function: its name and the names of its parameters, as a script writes them.
-/
def Function.defLine (f : Function L I) : String :=
  "def " ++ safeName f.name.text ++ "(" ++
    Text.commaSeparated (f.parameters.map fun q => safeName q.name.text) ++ "):"

theorem Function.ShownAs.header_eq {t : Table} {m : ScopeMap} {f : Function L NodeId}
    {g : Script.Function} (h : f.ShownAs t m g.definition) : g.header = f.defLine := by
  have hname : g.name = safeName f.name.text := h.name
  have hparameters : g.parameters = f.parameters.map fun q => safeName q.name.text := h.parameters
  rw [Script.Function.header, hname, hparameters, Function.defLine]

theorem Function.oneLine_defLine {f : Function L I} (hname : OneLine f.name.text)
    (hparameters : ∀ q ∈ f.parameters, OneLine q.name.text) : OneLine f.defLine := by
  have hlist : OneLine (Text.commaSeparated (f.parameters.map fun q => safeName q.name.text)) :=
    oneLine_commaSeparated (List.forall_mem_map.mpr fun q hq => oneLine_safeName (hparameters q hq))
  have hsigns : ∀ text ∈ ["def ", "(", "):"], OneLine text := by decide
  simp only [List.forall_mem_cons] at hsigns
  obtain ⟨hdef, hopen, hclose, -⟩ := hsigns
  simp only [Function.defLine, oneLine_append]
  exact ⟨⟨⟨⟨hdef, oneLine_safeName hname⟩, hopen⟩, hlist⟩, hclose⟩

/-! ## Whole programs -/

namespace Program

private theorem exists_nesting_le (items : List (Item L I)) :
    ∃ n, ∀ i ∈ items, i.nesting ≤ n + 1 := by
  induction items with
  | nil => exact ⟨0, fun i hi => by cases hi⟩
  | cons i items ih =>
    obtain ⟨n, hn⟩ := ih
    refine ⟨max i.nesting n, List.forall_mem_cons.mpr ⟨by omega, fun j hj => ?_⟩⟩
    have := hn j hj
    omega

/-- The unit has one routine for each item, in the order of items. It is the one that is emitted for
the item, it has the heading that the item says, and it is found by the name of the item. Nothing is
found by other names. -/
structure AssembledOnce (p : Program Location) (a : Analysis) (u : CodeUnit) : Prop where
  routines : List.Forall₂ (fun i r => i.emit? a.table a.scopes = .ok (some r) ∧
    i.heading? = some r.heading ∧ u.function? i.name = some r) p.items u.functions
  names : (u.functions.map Routine.name).Nodup
  others : ∀ other, (∀ i ∈ p.items, i.name ≠ other) → u.function? other = none

/-- The text has one piece for each function, in the order of items: its `def` line, one or more
indented lines and a blank line. After them come the lines of the entry point, of which there are
some exactly if the program has one. These are the lines that a reader of the text sees unless a
name has line breaks in it. If names are tame, there are no other `def` lines. -/
structure WrittenOnce (p : Program Location) (text : String) : Prop where
  pieces : ∃ (body : Function Location NodeId → List String) (main : List String),
    text = writeLines
      (p.functions.flatMap (fun f => f.defLine :: (body f).map ("    " ++ ·) ++ [""]) ++ main) ∧
    (∀ f ∈ p.functions, body f ≠ []) ∧ (main = [] ↔ p.entryPoints = []) ∧
    ((∀ x ∈ p.names, OneLine x) →
      (∀ f ∈ p.functions, ∀ line ∈ f.defLine :: body f, OneLine line) ∧ ∀ line ∈ main, OneLine line)
  lines : (∀ x ∈ p.names, Tame x) → defLines text = p.functions.map Function.defLine

section Accepted

variable {p : Program Location} {a : Analysis} (hp : p.Distinct) (ha : p.analyze = .ok a)
  (haccepted : a.isAccepted = true)

include hp ha haccepted

/-- Every function has a script, and it starts with its `def` line. -/
theorem exists_header {f : Function Location NodeId} (hf : f ∈ p.functions) :
    ∃ g, f.toScript? a.table a.scopes = some g ∧ g.header = f.defLine := by
  obtain ⟨htable, hscopes, hclean, -⟩ := of_isAccepted ha haccepted
  obtain ⟨n, hnesting⟩ := exists_nesting_le p.items
  obtain ⟨g, hg, -, -, hshown⟩ :=
    exists_toScript_function hp hclean conveys_true (fun _ _ => trivial) hnesting hf
  exact ⟨g, by rw [htable, hscopes, hg], hshown.header_eq⟩

theorem map_header_functions :
    (p.toScript a.table a.scopes).functions.map Script.Function.header =
      p.functions.map Function.defLine := by
  change (p.functions.filterMap _).map _ = _
  rw [List.map_filterMap, ← List.filterMap_eq_map]
  refine List.filterMap_congr fun f hf => ?_
  obtain ⟨g, hg, hheader⟩ := exists_header hp ha haccepted hf
  rw [hg, Option.map_some, hheader]
  rfl

/-- The `def` lines of the text, if all names are tame. -/
theorem defLines_scriptText {text : String} (htext : a.scriptText p = .ok text)
    (hnames : ∀ x ∈ p.names, Tame x) : defLines text = p.functions.map Function.defLine := by
  obtain ⟨htable, hscopes, hclean, -⟩ := of_isAccepted ha haccepted
  obtain ⟨n, hnesting⟩ := exists_nesting_le p.items
  obtain ⟨hfunctions, hmains⟩ := each_toScript hp hclean conveys_tame hnames hnesting
  rw [← htable, ← hscopes] at hfunctions hmains
  -- A name without line breaks leaves its header on one line.
  have hdefLine : ∀ f ∈ p.functions, OneLine f.defLine := by
    intro f hf
    obtain ⟨-, -, ⟨hname, hparameters⟩, -⟩ :=
      exists_toScript_function hp hclean conveys_tame hnames hnesting hf
    exact Function.oneLine_defLine hname.1 fun q hq => (hparameters q hq).1
  have hheader : ∀ g ∈ (p.toScript a.table a.scopes).functions, OneLine g.header := by
    rw [← List.forall_mem_map (f := Script.Function.header) (P := OneLine),
      map_header_functions hp ha haccepted, List.forall_mem_map]
    exact hdefLine
  rw [(of_scriptText_eq_ok hp ha haccepted htext).2, defLines_render hheader hfunctions hmains,
    map_header_functions hp ha haccepted]

/-- The text of a function: its `def` line and the lines under it. -/
theorem exists_bodyLines (hfits : Fits (p.toScript a.table a.scopes).lines)
    {f : Function Location NodeId} (hf : f ∈ p.functions) :
    ∃ body : List String, (f.chunk? a).getD "" =
        writeLines (f.defLine :: body.map ("    " ++ ·) ++ [""]) ∧
      body ≠ [] ∧ ((∀ x ∈ p.names, OneLine x) → ∀ line ∈ f.defLine :: body, OneLine line) := by
  obtain ⟨htable, hscopes, hclean, -⟩ := of_isAccepted ha haccepted
  obtain ⟨n, hnesting⟩ := exists_nesting_le p.items
  obtain ⟨g, hg, hchunk⟩ := exists_chunk?_function hp ha haccepted hfits hf
  obtain ⟨g', hg', hheader⟩ := exists_header hp ha haccepted hf
  -- What is written for `f` and what has the `def` line of `f` are one script.
  obtain rfl := Option.some.inj (hg.symm.trans hg')
  refine ⟨g.bodyLines, by rw [hchunk, Option.getD_some, g.render_eq, hheader], g.bodyLines_ne_nil,
    fun hnames => ?_⟩
  obtain ⟨g', hg', ⟨hname, hparameters⟩, hbody, -⟩ :=
    exists_toScript_function hp hclean conveys_oneLine hnames hnesting hf
  rw [← htable, ← hscopes] at hg'
  obtain rfl := Option.some.inj (hg.symm.trans hg')
  exact List.forall_mem_cons.mpr ⟨Function.oneLine_defLine hname hparameters,
    Script.Function.oneLine_of_mem_bodyLines hbody⟩

/-- The text of an entry point. -/
theorem exists_mainContents (hfits : Fits (p.toScript a.table a.scopes).lines)
    {e : EntryPoint Location NodeId} (he : e ∈ p.entryPoints) :
    ∃ main : List String, (e.chunk? a).getD "" = writeLines main ∧
      main ≠ [] ∧ ((∀ x ∈ p.names, OneLine x) → ∀ line ∈ main, OneLine line) := by
  obtain ⟨htable, hscopes, hclean, -⟩ := of_isAccepted ha haccepted
  obtain ⟨n, hnesting⟩ := exists_nesting_le p.items
  obtain ⟨sts, hsts, hchunk⟩ := exists_chunk?_entryPoint hp ha haccepted hfits he
  refine ⟨mainContents sts, by rw [hchunk, Option.getD_some, join_render_eq]; rfl,
    mainContents_ne_nil sts, fun hnames => ?_⟩
  obtain ⟨sts', hsts', hbody, -⟩ :=
    exists_toScript_main hp hclean conveys_oneLine hnames hnesting he
  rw [← htable, ← hscopes] at hsts'
  obtain rfl := Option.some.inj (hsts.symm.trans hsts')
  exact oneLine_of_mem_mainContents hbody

/-- The text is written item by item, whatever the names are. -/
theorem writtenOnce_of_scriptText {text : String} (htext : a.scriptText p = .ok text) :
    p.WrittenOnce text where
  lines := defLines_scriptText hp ha haccepted htext
  pieces := by
    obtain ⟨hfits, -⟩ := of_scriptText_eq_ok hp ha haccepted htext
    have hwritten := writtenAs_of_fits hp ha haccepted hfits
    have hbody := fun f hf => exists_bodyLines hp ha haccepted hfits (f := f) hf
    have hmain := fun e he => exists_mainContents hp ha haccepted hfits (e := e) he
    -- The lines of each piece are chosen once, so that they can be put together again.
    choose! body hchunk hsome hone using hbody
    choose! main hmainChunk hmainSome hmainOne using hmain
    refine ⟨body, p.entryPoints.flatMap main, ?_, hsome, ?_, fun hnames => ⟨fun f hf =>
      hone f hf hnames, fun line hline => ?_⟩⟩
    · rw [writeLines_append, writeLines_flatMap, writeLines_flatMap, ← List.map_congr_left hchunk,
        ← List.map_congr_left hmainChunk]
      exact Except.ok.inj (htext.symm.trans hwritten.text)
    -- An entry point has at least one line.
    · rw [List.flatMap_eq_nil_iff]
      exact ⟨fun h => List.eq_nil_iff_forall_not_mem.mpr fun e he => hmainSome e he (h e he),
        fun h e he => by rw [h] at he; cases he⟩
    · obtain ⟨e, he, hline⟩ := List.mem_flatMap.mp hline
      exact hmainOne e he hnames line hline

end Accepted

/-- Every item of an accepted program is generated once. There is no unit only if an item has more
variables or jumps than can be numbered, and no script only if blocks nest so deep that a line would
be indented too far. -/
theorem items_generated {p : Program Location} {a : Analysis} (hp : p.Distinct)
    (ha : p.analyze = .ok a) (haccepted : a.isAccepted = true) (name : String) :
    a.Assembles p name (p.AssembledOnce a) ∧
      (∀ text, a.scriptText p = .ok text → p.WrittenOnce text) ∧
      ∀ refusal, a.scriptText p = .error refusal →
        refusal = .fault .widthOutOfRange ∧ ∃ i ∈ p.items, 16384 ≤ i.nesting := by
  refine ⟨?_, fun text htext => ?_, fun refusal hrefusal => ?_⟩
  · refine assembles hp ha haccepted name fun u hu => ?_
    have hheaded := headed_of_codeUnit hp ha hu
    exact ⟨hheaded.forall₂_function? u.name, hheaded.names,
      fun other hother => hheaded.function?_eq_none u.name hother⟩
  · exact writtenOnce_of_scriptText hp ha haccepted htext
  · exact (of_scriptText_eq_error hp ha haccepted hrefusal).2

/-- A function whose name and parameter are reserved words has its `def` line with other names. -/
theorem items_generated_sortOut :
    sortOut.Distinct ∧ ∃ a u text, sortOut.analyze = .ok a ∧ a.isAccepted = true ∧
      a.codeUnit sortOut "Unit" = .ok u ∧ sortOut.AssembledOnce a u ∧
      a.scriptText sortOut = .ok text ∧ sortOut.WrittenOnce text ∧
      defLines text = ["def ofp_pass(ofp_if):"] := by
  have hp : sortOut.Distinct := distinct_ofDraft _ (by decide)
  obtain ⟨a, ha, haccepted, hwritten⟩ := exists_accepted (p := sortOut)
    (fun a => (a.scriptText sortOut).toOption.isSome) (by decide +kernel)
  obtain ⟨hunit, htexts, -⟩ := items_generated hp ha haccepted "Unit"
  obtain ⟨u, hu, hassembled⟩ := hunit.fits (by decide)
  cases htext : a.scriptText sortOut with
  | error refusal => simp [htext, Except.toOption] at hwritten
  | ok text =>
    have honce := htexts text htext
    exact ⟨hp, a, u, text, ha, haccepted, hu, hassembled, htext, honce, honce.lines (by decide)⟩

/-- An entry point with a variable whose name has the text of a function in it. -/
def disguised : Program Location :=
  Program.ofDraft [.main ⟨none, none, .mk none
    [.declare none ⟨"int", none⟩ ⟨"def g():\n    pass\nx", none⟩ (some (.int none 1))]⟩]

/-- Names that are not tame make `def` lines: the program has no function, and its text has one. -/
theorem defLines_disguised :
    disguised.Distinct ∧ disguised.functions = [] ∧ ∃ a text, disguised.analyze = .ok a ∧
      a.isAccepted = true ∧ a.scriptText disguised = .ok text ∧ defLines text = ["def g():"] := by
  have hp : disguised.Distinct := distinct_ofDraft _ (by decide)
  obtain ⟨a, ha, haccepted, hlines⟩ := exists_accepted (p := disguised)
    (fun a => (a.scriptText disguised).toOption.map defLines = some ["def g():"])
    (by decide +kernel)
  refine ⟨hp, rfl, a, ?_⟩
  cases htext : a.scriptText disguised with
  | error refusal => simp [htext, Except.toOption] at hlines
  | ok text => exact ⟨text, ha, haccepted, rfl, by simpa [htext, Except.toOption] using hlines⟩

end Program

end Primer
