import Primer.Generation
import Primer.Proofs.Analysis.Completion
import Primer.Proofs.Script.Reading
import Primer.Proofs.Tree.Names
import Primer.Proofs.Typing.Acceptance

/-!
# The text of a script shows its program

Reading the text of an accepted program by indentation gives the functions of the program in the
order of items, and then the statements of its entry point, each with the nesting and the order of
the tree (`Program.exists_read_scriptText`). The program has to use identifiers as names, and its
blocks may not nest so deep that a line gets too wide.

The content of lines is the only thing to look at here: no text of an expression has a line break,
and no simple statement starts with a word that makes a header.
-/

namespace Primer

variable {L : Type}

open Script

/-! ## Texts without line breaks -/

namespace Script

theorem isLineBreak_eq_false {c : Char} : isLineBreak c = false ↔ c ≠ '\n' ∧ c ≠ '\r' := by
  rw [isLineBreak, Bool.or_eq_false_iff, decide_eq_false_iff_not, decide_eq_false_iff_not]

theorem oneLine_ofList {cs : List Char} :
    OneLine (String.ofList cs) ↔ ∀ c ∈ cs, isLineBreak c = false := by
  rw [OneLine, String.toList_ofList]

theorem isLineBreak_of_mem_toDigits {n : Nat} {c : Char} (h : c ∈ Nat.toDigits 10 n) :
    isLineBreak c = false := by
  have hdigit := Nat.isDigit_of_mem_toDigits (by decide) (by decide) h
  rw [isLineBreak_eq_false]
  constructor <;> rintro rfl <;> exact absurd hdigit (by decide)

theorem oneLine_ofNat (n : Nat) : OneLine (Text.ofNat n) :=
  oneLine_ofList.mpr fun _ => isLineBreak_of_mem_toDigits

theorem oneLine_ofInt (n : Int) : OneLine (Text.ofInt n) := by
  cases n with
  | ofNat n => exact oneLine_ofNat n
  | negSucc n => exact oneLine_append.mpr ⟨by decide, oneLine_ofNat _⟩

theorem mem_positional {digits : List Char} {point : Int} {c : Char}
    (h : c ∈ positional digits point) : c ∈ digits ∨ c = '0' ∨ c = '.' := by
  simp only [positional] at h
  split_ifs at h
  · simp only [List.mem_append, List.mem_cons, List.not_mem_nil, List.mem_replicate, or_false] at h
    tauto
  · simp only [List.mem_append, List.mem_cons, List.not_mem_nil, List.mem_replicate, or_false] at h
    tauto
  · rcases List.mem_append.mp h with h | h
    · exact .inl (List.mem_of_mem_take h)
    · rcases List.mem_cons.mp h with h | h
      · exact .inr (.inr h)
      · exact .inl (List.mem_of_mem_drop h)

theorem mem_scientific {digits : List Char} {point : Int} {c : Char}
    (h : c ∈ scientific digits point) :
    c ∈ digits ∨ c = '.' ∨ c = 'e' ∨ c ∈ (Text.ofInt (point - 1)).toList := by
  simp only [scientific] at h
  rcases List.mem_append.mp h with h | h
  · rcases List.mem_append.mp h with h | h
    · exact .inl (List.mem_of_mem_take h)
    · split_ifs at h
      · cases h
      · rcases List.mem_cons.mp h with h | h
        · exact .inr (.inl h)
        · exact .inl (List.mem_of_mem_drop h)
  · rcases List.mem_cons.mp h with h | h
    · exact .inr (.inr (.inl h))
    · exact .inr (.inr (.inr h))

theorem isLineBreak_of_mem_decimalText {d : Decimal.Shortest} {c : Char} (h : c ∈ decimalText d) :
    isLineBreak c = false := by
  simp only [decimalText] at h
  split_ifs at h
  · rcases mem_positional h with h | rfl | rfl
    · exact isLineBreak_of_mem_toDigits h
    · decide
    · decide
  · rcases mem_scientific h with h | rfl | rfl | h
    · exact isLineBreak_of_mem_toDigits h
    · decide
    · decide
    · exact oneLine_ofInt _ c h

theorem oneLine_signed {text : String} (h : OneLine text) (negative : Bool) :
    OneLine (signed negative text) := by
  cases negative with
  | false => exact h
  | true => exact oneLine_append.mpr ⟨by decide, h⟩

theorem oneLine_floatText (bits : UInt64) : OneLine (floatText bits) := by
  unfold floatText
  cases Decimal.Double.ofBits bits with
  | notANumber => decide
  | infinite negative => exact oneLine_signed (by decide) negative
  | zero negative => exact oneLine_signed (by decide) negative
  | finite negative value =>
    refine oneLine_signed (oneLine_ofList.mpr fun c hc => ?_) negative
    cases hd : value.shortest? with
    | none => simp [hd] at hc
    | some d =>
      rw [hd] at hc
      exact isLineBreak_of_mem_decimalText hc

theorem isLineBreak_of_mem_encodeChar {c d : Char} (h : d ∈ Quoted.encodeChar c) :
    isLineBreak d = false := by
  unfold Quoted.encodeChar at h
  split_ifs at h with _ _ hn _ hr
  case neg =>
    obtain rfl := List.mem_singleton.mp h
    exact isLineBreak_eq_false.mpr ⟨hn, hr⟩
  all_goals
    rcases List.mem_pair.mp h with rfl | rfl <;> decide

theorem oneLine_quote (value : List Char) : OneLine (String.ofList (Quoted.quote value)) := by
  refine oneLine_ofList.mpr fun c hc => ?_
  rcases List.mem_append.mp hc with hc | hc
  · rcases List.mem_cons.mp hc with rfl | hc
    · decide
    · obtain ⟨d, -, hc⟩ := List.mem_flatMap.mp hc
      exact isLineBreak_of_mem_encodeChar hc
  · obtain rfl := List.mem_singleton.mp hc
    decide

theorem oneLine_safeName {name : String} (h : OneLine name) : OneLine (safeName name) := by
  unfold safeName
  split_ifs
  · exact oneLine_append.mpr ⟨by decide, h⟩
  · exact h

end Script

namespace Expr

variable {t : Table} {s : ScopeId}

/-- The texts of several expressions, with commas between them. -/
private theorem oneLine_texts {es : List (Expr L)}
    (ih : ∀ e ∈ es, (∀ name ∈ e.names, OneLine name) → OneLine (e.toScript t s).text)
    (h : ∀ name ∈ Expr.namesAll es, OneLine name) :
    OneLine (Text.commaSeparated (Script.Expr.texts (toScriptAll t s es))) := by
  refine oneLine_commaSeparated fun part hpart => ?_
  rw [Script.Expr.texts_eq_map, toScriptAll_eq_map, List.map_map] at hpart
  obtain ⟨e, he, rfl⟩ := List.mem_map.mp hpart
  refine ih e he fun name hname => h name ?_
  rw [namesAll_eq_flatMap]
  exact List.mem_flatMap.mpr ⟨e, he, hname⟩

/-- The text of an expression has no line break, unless one of its names has. -/
theorem oneLine_text {e : Expr L} (h : ∀ name ∈ e.names, OneLine name) :
    OneLine (e.toScript t s).text := by
  -- What is written around the parts has no line break either.
  have hsign : ∀ text ∈ ["(", ")", "[", "]", "-", " ", "int", "len"], OneLine text := by decide
  simp only [List.forall_mem_cons] at hsign
  obtain ⟨hopen, hclose, hopen', hclose', hminus, hblank, hint, hlen, -⟩ := hsign
  have hop : ∀ op : BinOp, OneLine op.text := by
    intro op
    cases op <;> decide
  induction e using Expr.inductionOn with
  | int p n => exact oneLine_ofInt n
  | float p bits => exact oneLine_floatText bits
  | bool p b => cases b <;> simp [toScript, Script.Expr.text, OneLine, isLineBreak]
  | char p c => exact oneLine_quote [c]
  | str p value => exact oneLine_quote value.toList
  | read p name => exact oneLine_safeName (h _ List.mem_cons_self)
  | call p callee arguments ih =>
    obtain ⟨hcallee, harguments⟩ := List.forall_mem_cons.mp h
    simp only [toScript, Script.Expr.text, oneLine_append]
    exact ⟨⟨⟨oneLine_safeName hcallee, hopen⟩, oneLine_texts ih harguments⟩, hclose⟩
  | index p base position ih =>
    obtain ⟨hbase, hposition⟩ := List.forall_mem_cons.mp h
    simp only [toScript, Script.Expr.text, oneLine_append]
    exact ⟨⟨⟨oneLine_safeName hbase, hopen'⟩, ih hposition⟩, hclose'⟩
  | length p operand ih =>
    simp only [toScript, Script.Expr.text, oneLine_append]
    refine ⟨⟨⟨hlen, hopen⟩, oneLine_commaSeparated ?_⟩, hclose⟩
    simpa [Script.Expr.texts] using ih h
  | paren p operand ih =>
    simp only [toScript, Script.Expr.text, oneLine_append]
    exact ⟨⟨hopen, ih h⟩, hclose⟩
  | negate p operand ih =>
    simp only [toScript, Script.Expr.text, oneLine_append]
    exact ⟨hminus, ih h⟩
  | binary p op lhs rhs ihl ihr =>
    obtain ⟨hl, hr⟩ := List.forall_mem_append.mp h
    -- The text of an operation is asked for twice: as it stands, and inside the call of `int`.
    have htext : ∀ op : BinOp,
        OneLine (Script.Expr.binary op (lhs.toScript t s) (rhs.toScript t s)).text := by
      intro op
      simp only [Script.Expr.text, oneLine_append]
      exact ⟨⟨⟨⟨ihl hl, hblank⟩, hop op⟩, hblank⟩, ihr hr⟩
    rw [toScript]
    split_ifs
    · simp only [Script.Expr.wholeQuotient, Script.Expr.text, oneLine_append]
      refine ⟨⟨⟨hint, hopen⟩, oneLine_commaSeparated ?_⟩, hclose⟩
      simpa [Script.Expr.texts] using htext .div
    · exact htext op
  | array p elements ih =>
    simp only [toScript, Script.Expr.text, oneLine_append]
    exact ⟨⟨hopen', oneLine_texts ih h⟩, hclose'⟩
  | newArray p element size ih =>
    simp only [toScript, Script.Expr.zeros, Script.Expr.text, oneLine_append]
    refine ⟨⟨⟨⟨⟨⟨hopen', oneLine_commaSeparated ?_⟩, hclose'⟩, hblank⟩, hop .mul⟩, hblank⟩, ih h⟩
    -- The repeated zero is the one of the element type.
    simp only [Script.Expr.texts, List.mem_singleton, forall_eq, Script.Expr.zeroOf]
    split_ifs
    · exact oneLine_floatText 0
    · exact oneLine_ofInt 0

end Expr

/-! ## Simple statements -/

namespace Script

/-- The start of a simple line, up to the end of its first word at least. -/
structure LineStart (text : String) : Prop extends SimpleLine text where
  ended : ∃ c ∈ text.toList, isWordChar c = false

/-- Only its start says whether a line is simple. -/
theorem LineStart.append {a b : String} (ha : LineStart a) (hb : OneLine b) :
    LineStart (a ++ b) := by
  obtain ⟨c, hstart, hblank⟩ := ha.start
  obtain ⟨d, hmem, hd⟩ := ha.ended
  refine ⟨⟨⟨oneLine_append.mpr ⟨ha.oneLine, hb⟩, c, by simp [hstart], hblank⟩, ?_⟩,
    d, by simp [hmem], hd⟩
  rw [String.toList_append, firstWord_append_of_mem hmem hd]
  exact ha.word

/-- A line that starts with a name of the program. -/
theorem lineStart_safeName {name sign : String} (hname : isIdentifier name = true)
    (hsign : sign.toList.head?.all (!isWordChar ·) = true) (hne : sign ≠ "")
    (hline : OneLine sign) : LineStart (safeName name ++ sign) := by
  have hident := isIdentifier_safeName hname
  obtain ⟨c, cs, hchars, hc, -⟩ := isIdentifier_iff.mp hident
  -- A safe name is no keyword, in particular none of those that start a line.
  have hkeywords : ∀ word ∈ lineWords, word ∈ keywords := by decide
  cases hsigns : sign.toList with
  | nil => exact absurd (String.toList_eq_nil_iff.mp hsigns) hne
  | cons d ds =>
    -- The sign ends the word, so the first word of the line is the whole name.
    have hd : isWordChar d = false := by simpa [hsigns] using hsign
    refine ⟨⟨⟨oneLine_append.mpr ⟨oneLine_of_isIdentifier hident, hline⟩, c, by simp [hchars], ?_⟩,
      ?_⟩, d, by simp [hsigns], hd⟩
    · rintro rfl
      exact absurd hc (by decide)
    · rw [String.toList_append, firstWord_append (isWordChar_of_isIdentifier hident)
        (hsigns ▸ endsWord_cons hd ds)]
      exact fun hmem => safeName_not_mem_keywords name (hkeywords _ hmem)

theorem exists_printText (newline : Bool) {value : Option Expr}
    (hvalue : ∀ e, value = some e → OneLine e.text) :
    ∃ rest, printText newline value = "print(" ++ rest ∧ OneLine rest := by
  cases value with
  | none =>
    cases newline
    · exact ⟨"end='')", rfl, by decide⟩
    · exact ⟨")", rfl, by decide⟩
  | some e =>
    have he := hvalue e rfl
    cases newline
    · exact ⟨e.text ++ ", end='')", String.append_assoc .., oneLine_append.mpr ⟨he, by decide⟩⟩
    · exact ⟨e.text ++ ")", String.append_assoc .., oneLine_append.mpr ⟨he, by decide⟩⟩

end Script

/-- How the line of a simple statement starts: with a word of its own, or with a name of the
statement and the sign behind it. -/
theorem Stmt.exists_start {t : Table} {m : ScopeMap} {s : ScopeId} {st : Stmt L NodeId}
    (hnames : ∀ name ∈ st.names, OneLine name) {text : String}
    (h : (st.toScript t m s).passage = .line text) :
    text = "return" ∨ ∃ start rest, text = start ++ rest ∧ OneLine rest ∧
      (start ∈ ["return ", "print("] ∨
        ∃ name ∈ st.names, ∃ sign ∈ [" = ", "[", "("], start = safeName name ++ sign) := by
  cases st with
  -- The statements with blocks are no line of their own.
  | ifThen p condition yes => cases h
  | ifElse p condition yes no => cases h
  | loop p condition body => cases h
  | declare p type name value =>
    obtain ⟨hname, hvalue⟩ := List.forall_mem_cons.mp hnames
    obtain rfl := Passage.line.inj h
    refine .inr ⟨_, _, rfl, ?_, .inr ⟨_, List.mem_cons_self, " = ", by decide, rfl⟩⟩
    cases value with
    | none => exact (by decide : OneLine "None")
    | some value => exact Expr.oneLine_text hvalue
  | assign p target value =>
    obtain ⟨htarget, hvalue⟩ := List.forall_mem_cons.mp hnames
    obtain rfl := Passage.line.inj h
    exact .inr ⟨_, _, rfl, Expr.oneLine_text hvalue,
      .inr ⟨_, List.mem_cons_self, " = ", by decide, rfl⟩⟩
  | assignAt p target position value =>
    obtain ⟨htarget, hparts⟩ := List.forall_mem_cons.mp hnames
    obtain ⟨hposition, hvalue⟩ := List.forall_mem_append.mp hparts
    obtain rfl := Passage.line.inj h
    -- The line goes on behind the bracket with the position, which may be any text without a break.
    refine .inr ⟨safeName target.text ++ "[",
      (position.toScript t s).text ++ "] = " ++ (value.toScript t s).text, ?_, ?_,
      .inr ⟨_, List.mem_cons_self, "[", by decide, rfl⟩⟩
    · simp only [String.append_assoc]
    · exact oneLine_append.mpr ⟨oneLine_append.mpr ⟨Expr.oneLine_text hposition, by decide⟩,
        Expr.oneLine_text hvalue⟩
  | ret p node value =>
    cases value with
    | none => exact .inl (Passage.line.inj h).symm
    | some value =>
      obtain rfl := Passage.line.inj h
      exact .inr ⟨"return ", _, rfl, Expr.oneLine_text hnames, .inl (by decide)⟩
  | print p newline value =>
    obtain rfl := Passage.line.inj h
    -- Without a value the parentheses are empty, or hold just the end of the line.
    have hvalue : ∀ e, value.map (·.toScript t s) = some e → OneLine e.text := by
      intro e he
      obtain ⟨value, rfl, rfl⟩ := Option.map_eq_some_iff.mp he
      exact Expr.oneLine_text hnames
    obtain ⟨rest, hrest, hone⟩ := exists_printText newline hvalue
    exact .inr ⟨"print(", rest, hrest, hone, .inl (by decide)⟩
  | call p callee arguments =>
    obtain ⟨hcallee, harguments⟩ := List.forall_mem_cons.mp hnames
    obtain rfl := Passage.line.inj h
    have hparts := Expr.oneLine_texts (t := t) (s := s)
      (fun e _ he => Expr.oneLine_text he) harguments
    refine .inr ⟨safeName callee.text ++ "(",
      Text.commaSeparated (Script.Expr.texts (Expr.toScriptAll t s arguments)) ++ ")", ?_,
      oneLine_append.mpr ⟨hparts, by decide⟩, .inr ⟨_, List.mem_cons_self, "(", by decide, rfl⟩⟩
    simp only [← String.append_assoc]
    rfl

/-- What a simple statement shows. -/
theorem Stmt.simpleLine_of_passage {t : Table} {m : ScopeMap} {s : ScopeId} {st : Stmt L NodeId}
    (hnames : ∀ name ∈ st.names, isIdentifier name = true) {text : String}
    (h : (st.toScript t m s).passage = .line text) : SimpleLine text := by
  -- A name is followed by a sign in every line that starts with one.
  have hsigns : ∀ sign ∈ [" = ", "[", "("], sign.toList.head?.all (!isWordChar ·) = true ∧
      sign ≠ "" ∧ OneLine sign := by
    decide
  have hwords : ∀ start ∈ ["return ", "print("], LineStart start := by
    simp only [List.forall_mem_cons]
    exact ⟨⟨⟨⟨by decide, 'r', rfl, by decide⟩, by decide⟩, ' ', by decide, by decide⟩,
      ⟨⟨⟨by decide, 'p', rfl, by decide⟩, by decide⟩, '(', by decide, by decide⟩,
      fun start h => by cases h⟩
  have hone : ∀ name ∈ st.names, OneLine name :=
    fun name hname => oneLine_of_isIdentifier (hnames name hname)
  rcases Stmt.exists_start hone h with rfl | ⟨start, rest, rfl, hrest, hstart⟩
  · exact ⟨⟨by decide, 'r', rfl, by decide⟩, by decide⟩
  · refine (LineStart.append ?_ hrest).toSimpleLine
    rcases hstart with hword | ⟨name, hname, sign, hsign, rfl⟩
    · exact hwords start hword
    · obtain ⟨hend, hne, hline⟩ := hsigns sign hsign
      exact lineStart_safeName (hnames name hname) hend hne hline

/-! ## Statements -/

section Statements

variable {t : Table} {m : ScopeMap} {owner : Option SymbolId}

theorem Script.Stmt.passages_eq_map (sts : List Script.Stmt) :
    Script.Stmt.passages sts = sts.map Script.Stmt.passage := by
  induction sts with
  | nil => rfl
  | cons st sts ih => simp [Script.Stmt.passages, ih]

/-- The passages of a block that has a scope. -/
theorem Block.passages_toScript {node : NodeId} {s : ScopeId} (h : m.get? node = some s)
    (sts : List (Stmt L NodeId)) :
    Script.Stmt.passages ((Block.mk node sts).toScript t m) =
      sts.map fun st => (st.toScript t m s).passage := by
  rw [Script.Stmt.passages_eq_map, Block.toScript_of_get? h, List.map_map]
  rfl

/-- Simple statements and conditions with names of a kind are written as lines and conditions of a
kind. -/
structure Conveys (L : Type) (t : Table) (m : ScopeMap)
    (name simple condition : String → Prop) : Prop where
  simple : ∀ (st : Stmt L NodeId) (s : ScopeId) (text : String), (∀ x ∈ st.names, name x) →
    (st.toScript t m s).passage = .line text → simple text
  condition : ∀ (e : Expr L) (s : ScopeId), (∀ x ∈ e.names, name x) →
    condition (e.toScript t s).text

theorem conveys_legible : Conveys L t m (isIdentifier · = true) SimpleLine OneLine where
  simple _ _ _ hnames h := Stmt.simpleLine_of_passage hnames h
  condition _ _ hnames := Expr.oneLine_text fun x hx => oneLine_of_isIdentifier (hnames x hx)

/-- Nothing is asked, so that nesting alone is left. -/
theorem conveys_true : Conveys L t m (fun _ => True) (fun _ => True) fun _ => True :=
  ⟨fun _ _ _ _ _ => trivial, fun _ _ _ => trivial⟩

section Each

variable {name simple condition : String → Prop} (h : Conveys L t m name simple condition)

/-- The passages of a block have a property if those of its statements have it. -/
private theorem Block.each_block {n : Nat} {b : Block L NodeId}
    (ih : ∀ st ∈ b.statements, ∀ (s : ScopeId) (n : Nat), st.Placed t m owner s →
      (∀ x ∈ st.names, name x) → st.nesting ≤ n →
      (st.toScript t m s).passage.Each simple condition n) {s : ScopeId} (hb : b.Placed t m owner s)
    (hnames : ∀ x ∈ b.names, name x) (hn : b.nesting ≤ n + 1) :
    ∀ q ∈ Script.Stmt.passages (b.toScript t m), q.Each simple condition n := by
  cases hb with
  | @mk _ r node sts hnode _ _ hsts =>
    intro q hq
    rw [Block.passages_toScript hnode] at hq
    obtain ⟨st, hst, rfl⟩ := List.mem_map.mp hq
    rw [Block.names, Block.namesAll_eq_flatMap] at hnames
    refine ih st hst r n (hsts st hst)
      (fun x hx => hnames x (List.mem_flatMap.mpr ⟨st, hst, hx⟩)) ?_
    exact Nat.le_trans (Block.nesting_le_nestingAll hst) (Nat.le_of_succ_le_succ hn)

include h

theorem Stmt.each_of_passage {st : Stmt L NodeId} {s : ScopeId} {n : Nat} {text : String}
    (hnames : ∀ x ∈ st.names, name x) (htext : (st.toScript t m s).passage = .line text) :
    (st.toScript t m s).passage.Each simple condition n :=
  htext ▸ .line (h.simple st s text hnames htext)

/-- The passage of a statement has lines and conditions of a kind, and it nests no deeper than the
statement. -/
theorem Stmt.Placed.each_passage {st : Stmt L NodeId} {s : ScopeId} {n : Nat}
    (hst : st.Placed t m owner s) (hnames : ∀ x ∈ st.names, name x) (hn : st.nesting ≤ n) :
    (st.toScript t m s).passage.Each simple condition n := by
  induction st using Stmt.inductionOn generalizing s n with
  | ifThen p c yes ih =>
    cases hst with
    | ifThen hyes =>
      obtain ⟨hcondition, hyesNames⟩ := List.forall_mem_append.mp hnames
      -- A block is one step deeper, so a bound on the nesting is positive here.
      obtain ⟨n, rfl⟩ := Block.exists_eq_succ_of_nesting_le hn
      exact .ifThen (h.condition c s hcondition)
        (Block.each_block (fun st hm s n => ih st hm) hyes hyesNames hn)
  | loop p c body ih =>
    cases hst with
    | loop hbody =>
      obtain ⟨hcondition, hbodyNames⟩ := List.forall_mem_append.mp hnames
      obtain ⟨n, rfl⟩ := Block.exists_eq_succ_of_nesting_le hn
      exact .loop (h.condition c s hcondition)
        (Block.each_block (fun st hm s n => ih st hm) hbody hbodyNames hn)
  | ifElse p c yes no ihy ihn =>
    cases hst with
    | ifElse hyes hno =>
      obtain ⟨hcondition, hblocks⟩ := List.forall_mem_append.mp hnames
      obtain ⟨hyesNames, hnoNames⟩ := List.forall_mem_append.mp hblocks
      obtain ⟨hny, hnn⟩ := Nat.max_le.mp hn
      obtain ⟨n, rfl⟩ := Block.exists_eq_succ_of_nesting_le hny
      exact .ifElse (h.condition c s hcondition)
        (Block.each_block (fun st hm s n => ihy st hm) hyes hyesNames hny)
        (Block.each_block (fun st hm s n => ihn st hm) hno hnoNames hnn)
  -- All other statements are one line, and the names decide about it.
  | ret p node value => cases value <;> exact Stmt.each_of_passage h hnames rfl
  | declare p type name value => exact Stmt.each_of_passage h hnames rfl
  | assign p target value => exact Stmt.each_of_passage h hnames rfl
  | assignAt p target position value => exact Stmt.each_of_passage h hnames rfl
  | print p newline value => exact Stmt.each_of_passage h hnames rfl
  | call p callee arguments => exact Stmt.each_of_passage h hnames rfl

theorem Block.Placed.each_passages {b : Block L NodeId} {s : ScopeId} {n : Nat}
    (hb : b.Placed t m owner s) (hnames : ∀ x ∈ b.names, name x) (hn : b.nesting ≤ n + 1) :
    ∀ q ∈ Script.Stmt.passages (b.toScript t m), q.Each simple condition n :=
  Block.each_block (fun _ _ _ _ => Stmt.Placed.each_passage h) hb hnames hn

end Each

end Statements

/-! ## What a program shows -/

/-- The line that a statement without blocks is written as. It is said on the tree: which words and
names stand on it, and where the texts of expressions go. -/
def Stmt.line? (t : Table) (s : ScopeId) : Stmt L I → Option String
  | .declare _ _ name none => some (safeName name.text ++ " = " ++ "None")
  | .declare _ _ name (some value) =>
    some (safeName name.text ++ " = " ++ (value.toScript t s).text)
  | .assign _ target value => some (safeName target.text ++ " = " ++ (value.toScript t s).text)
  | .assignAt _ target position value =>
    some (safeName target.text ++ "[" ++ (position.toScript t s).text ++ "] = " ++
      (value.toScript t s).text)
  | .ret _ _ none => some "return"
  | .ret _ _ (some value) => some ("return " ++ (value.toScript t s).text)
  | .print _ true none => some "print()"
  | .print _ false none => some "print(end='')"
  | .print _ true (some value) => some ("print(" ++ (value.toScript t s).text ++ ")")
  | .print _ false (some value) => some ("print(" ++ (value.toScript t s).text ++ ", end='')")
  | .call _ callee arguments =>
    some (safeName callee.text ++ "(" ++
      Text.commaSeparated (arguments.map fun e => (e.toScript t s).text) ++ ")")
  | .ifThen .. | .ifElse .. | .loop .. => none

mutual

/-- The passage has the shape of a statement in a scope: a statement without blocks is its line, and
the blocks of others are where they are in the tree. -/
inductive Stmt.ShownAs (t : Table) (m : ScopeMap) : ScopeId → Stmt L NodeId → Passage → Prop where
  | simple {s st text} (h : st.line? t s = some text) : Stmt.ShownAs t m s st (.line text)
  | ifThen {s p condition yes ps} (hyes : Block.ShownAs t m yes ps) :
      Stmt.ShownAs t m s (.ifThen p condition yes) (.ifThen (condition.toScript t s).text ps)
  | ifElse {s p condition yes no ps qs} (hyes : Block.ShownAs t m yes ps)
      (hno : Block.ShownAs t m no qs) :
      Stmt.ShownAs t m s (.ifElse p condition yes no) (.ifElse (condition.toScript t s).text ps qs)
  | loop {s p condition body ps} (hbody : Block.ShownAs t m body ps) :
      Stmt.ShownAs t m s (.loop p condition body) (.loop (condition.toScript t s).text ps)

/-- The passages are those of the statements of a block, one for one and in order. -/
inductive Block.ShownAs (t : Table) (m : ScopeMap) : Block L NodeId → List Passage → Prop where
  | mk {s node sts ps} (hnode : m.get? node = some s) (hsts : Block.ShownAll t m s sts ps) :
      Block.ShownAs t m (.mk node sts) ps

/-- The passages are those of statements in a scope. -/
inductive Block.ShownAll (t : Table) (m : ScopeMap) :
    ScopeId → List (Stmt L NodeId) → List Passage → Prop where
  | nil {s} : Block.ShownAll t m s [] []
  | cons {s st sts q ps} (hst : Stmt.ShownAs t m s st q) (hsts : Block.ShownAll t m s sts ps) :
      Block.ShownAll t m s (st :: sts) (q :: ps)

end

/-- The definition has the names of a function and the shape of its body. -/
structure Function.ShownAs (t : Table) (m : ScopeMap) (f : Function L NodeId) (d : Definition) :
    Prop where
  name : d.name = safeName f.name.text
  parameters : d.parameters = f.parameters.map fun p => safeName p.name.text
  body : ∃ body, f.body = some body ∧ Block.ShownAs t m body d.body

/-- The text shows the functions of a program in the order of items, and then the entry point, if
there is one. -/
structure Program.ShownAs (t : Table) (m : ScopeMap) (p : Program L) (r : Reading) : Prop where
  functions : List.Forall₂ (Function.ShownAs t m) (p.items.filterMap Item.function?) r.definitions
  main : List.Forall₂ (fun e ps => Block.ShownAs t m e.body ps) (p.items.filterMap Item.main?)
    r.main.toList

section Shown

variable {t : Table} {m : ScopeMap} {owner : Option SymbolId}

private theorem Block.shownAs_block {b : Block L NodeId}
    (ih : ∀ st ∈ b.statements, ∀ s : ScopeId, st.Placed t m owner s →
      Stmt.ShownAs t m s st (st.toScript t m s).passage) {s : ScopeId} (hb : b.Placed t m owner s) :
    Block.ShownAs t m b (Script.Stmt.passages (b.toScript t m)) := by
  cases hb with
  | @mk _ r node sts hnode _ _ hsts =>
    rw [Block.passages_toScript hnode]
    refine .mk hnode ?_
    induction sts with
    | nil => exact .nil
    | cons st sts ihs =>
      refine .cons (ih st List.mem_cons_self r (hsts st List.mem_cons_self)) ?_
      exact ihs (fun st hst => hsts st (List.mem_cons_of_mem _ hst))
        fun st hst => ih st (List.mem_cons_of_mem _ hst)

/-- A statement is shown by the passage of its script. -/
theorem Stmt.Placed.shownAs {st : Stmt L NodeId} {s : ScopeId} (hst : st.Placed t m owner s) :
    Stmt.ShownAs t m s st (st.toScript t m s).passage := by
  induction st using Stmt.inductionOn generalizing s with
  | ifThen p condition yes ih =>
    cases hst with
    | ifThen hyes => exact .ifThen (Block.shownAs_block (fun st hm s => ih st hm) hyes)
  | loop p condition body ih =>
    cases hst with
    | loop hbody => exact .loop (Block.shownAs_block (fun st hm s => ih st hm) hbody)
  | ifElse p condition yes no ihy ihn =>
    cases hst with
    | ifElse hyes hno =>
      exact .ifElse (Block.shownAs_block (fun st hm s => ihy st hm) hyes)
        (Block.shownAs_block (fun st hm s => ihn st hm) hno)
  -- What is left are the simple statements: each case of `line?` is the text of the script.
  | ret p node value => cases value <;> exact .simple rfl
  | declare p type name value => cases value <;> exact .simple rfl
  | assign p target value => exact .simple rfl
  | assignAt p target position value => exact .simple rfl
  | print p newline value => cases newline <;> cases value <;> exact .simple rfl
  | call p callee arguments =>
    refine .simple ?_
    rw [Expr.toScriptAll_eq_map, Script.Expr.text, Script.Expr.texts_eq_map, List.map_map]
    rfl

theorem Block.Placed.shownAs {b : Block L NodeId} {s : ScopeId} (hb : b.Placed t m owner s) :
    Block.ShownAs t m b (Script.Stmt.passages (b.toScript t m)) :=
  Block.shownAs_block (fun _ _ _ => Stmt.Placed.shownAs) hb

end Shown

/-! ## Programs -/

/-- The parameters of a function have the declared names. -/
theorem Function.Entered.map_nameOf {t : Table} {m : ScopeMap} {k : Nat} {f : Function L NodeId}
    {body : Block L NodeId} {s : ScopeId} {returns : Ty} {types : List Ty}
    (hf : f.Entered t m k body s returns types) :
    (SymbolId.block (k + 1) f.parameters.length).map t.nameOf =
      f.parameters.map (·.name.text) := by
  have hlength : f.parameters.length = types.length := by
    simpa using congrArg List.length hf.types_named
  refine List.ext_getElem? fun j => ?_
  rcases Nat.lt_or_ge j f.parameters.length with hj | hj
  · have hj' : j < types.length := hlength ▸ hj
    have hsymbol := hf.parameter j _ _ (List.getElem?_eq_getElem hj) (List.getElem?_eq_getElem hj')
    simp [SymbolId.block, hj, Table.nameOf, hsymbol, Symbol.name]
  · simp [SymbolId.block, hj]

/-- The script of a function that was entered. -/
theorem Function.Entered.toScript? {t : Table} {m : ScopeMap} {k : Nat} {f : Function L NodeId}
    {body : Block L NodeId} {s : ScopeId} {returns : Ty} {types : List Ty}
    (hf : f.Entered t m k body s returns types) :
    f.toScript? t m = some ⟨safeName f.name.text, f.parameters.map fun p => safeName p.name.text,
      body.toScript t m⟩ := by
  have hparameters := congrArg (List.map safeName) hf.map_nameOf
  simp only [List.map_map] at hparameters
  simp only [Function.toScript?, hf.body_eq, hf.mark, Table.functionOf, hf.owner, Table.function?,
    hf.symbol, Symbol.function?, Option.bind_eq_bind, Option.bind_some, Option.map_some]
  exact congrArg (fun parameters => some (Script.Function.mk _ parameters _)) hparameters

namespace Declarations

/-- In a program without mistakes no entry point follows another declaration of `main`. -/
theorem length_mains_le {d : Declarations L} {items : List (Item L NodeId)}
    (hd : Table.global.index < d.table.scopes.size) (hfns : d.table.BindsFunctions Table.global)
    (hnodes : (items.flatMap Item.nodes).Nodup) (hclean : (items.foldl item d).findings = []) :
    (items.filterMap Item.main?).length ≤
      if (d.table.localResolve Table.global "main").isSome then 0 else 1 := by
  induction items generalizing d with
  | nil => exact Nat.zero_le _
  | cons i items ih =>
    simp only [List.flatMap_cons, List.foldl_cons] at hnodes hclean
    obtain ⟨hfirst, hrest, -⟩ := List.nodup_append.mp hnodes
    have hkeep : Extends Table.global 0 i.nodes d (d.item i) :=
      extends_item d i hd (Nat.zero_le _)
    have hd' := Nat.lt_of_lt_of_le hd hkeep.scopes_le
    have hlater : Extends Table.global 0 (items.flatMap Item.nodes) (d.item i)
        (items.foldl item (d.item i)) :=
      extends_items _ items hd' (Nat.zero_le _)
    have hitem := hlater.findings_eq_nil hclean
    have henters := enters_item hd hfns hfirst hitem
    have hle := ih hd' henters.functions hrest hclean
    rw [henters.bindings] at hle
    cases i with
    | function f =>
      refine Nat.le_trans hle ?_
      split_ifs with hafter hbefore <;> simp_all
    | main e =>
      -- The name was free before, and it is taken afterwards.
      have hfree : d.table.localResolve Table.global "main" = none := by
        refine localResolve_eq_none_of_hasFunction hfns fun hmain => ?_
        simp [item, entryPoint, hmain, report] at hitem
      have htaken : List.lookup "main" [(Item.main e).declared d.table.symbols.size] =
          some ((Item.main e).declared d.table.symbols.size).2 := by
        simp [Item.declared]
      simp only [hfree, htaken, Option.none_or, Option.map_some, Option.isSome_some, if_true] at hle
      simpa [hfree, Item.main?] using hle

end Declarations

/-- A program without mistakes in declarations has at most one entry point. -/
theorem Program.length_mains_le {p : Program L} (hp : p.Distinct)
    (hclean : (Declarations.ofProgram p).findings = []) :
    (p.items.filterMap Item.main?).length ≤ 1 := by
  have hempty : ∀ name, Table.empty.localResolve Table.global name = none := fun name => rfl
  have hle := Declarations.length_mains_le (d := Declarations.empty.record p.root Table.global)
    (by simp [Declarations.record, Declarations.empty, Table.empty, Table.global])
    (fun name x hx => by simp [Declarations.record, Declarations.empty, hempty] at hx)
    (List.nodup_cons.mp hp).2 hclean
  refine Nat.le_trans hle ?_
  split_ifs <;> decide

private theorem forall₂_map_filterMap {α β γ : Type} {R : α → γ → Prop} {f : α → Option β}
    {g : β → γ} {xs : List α} (h : ∀ x ∈ xs, ∃ y, f x = some y ∧ R x (g y)) :
    List.Forall₂ R xs ((xs.filterMap f).map g) := by
  induction xs with
  | nil => exact .nil
  | cons x xs ih =>
    obtain ⟨y, hy, hr⟩ := h x List.mem_cons_self
    rw [List.filterMap_cons_some hy, List.map_cons]
    exact .cons hr (ih fun z hz => h z (List.mem_cons_of_mem _ hz))

namespace Program

section Accepted

variable {p : Program L} (hp : p.Distinct) (hclean : (Declarations.ofProgram p).findings = [])

section Each

variable {name simple condition : String → Prop}
  (h : Conveys L (Declarations.ofProgram p).table (Declarations.ofProgram p).scopes name simple
    condition)
  (hnames : ∀ x ∈ p.names, name x) {n : Nat} (hnesting : ∀ i ∈ p.items, i.nesting ≤ n + 1)

include hp hclean h hnames hnesting

/-- The script of a function has lines and conditions of a kind, and it shows the function. -/
theorem exists_toScript_function {f : Function L NodeId}
    (hf : f ∈ p.items.filterMap Item.function?) :
    ∃ g, f.toScript? (Declarations.ofProgram p).table (Declarations.ofProgram p).scopes = some g ∧
      (name f.name.text ∧ ∀ q ∈ f.parameters, name q.name.text) ∧
      (∀ q ∈ Script.Stmt.passages g.body, q.Each simple condition n) ∧
      f.ShownAs (Declarations.ofProgram p).table (Declarations.ofProgram p).scopes
        g.definition := by
  obtain ⟨i, hi, hif⟩ := List.mem_filterMap.mp hf
  cases i with
  | main e => cases hif
  | function f' =>
    obtain rfl := Option.some.inj hif
    obtain ⟨k, hk⟩ := Item.exists_mem_numbered (k := 0) hi
    obtain ⟨body, s, returns, types, hentered⟩ := Program.entered_item hp hclean hk
    -- The names of the function are among those of the program.
    have hitem : ∀ x ∈ (Item.function f').names, name x :=
      fun x hx => hnames x (List.mem_flatMap.mpr ⟨_, hi, hx⟩)
    simp only [Item.names, hentered.body_eq, Option.map_some, Option.getD_some,
      List.forall_mem_cons, List.forall_mem_append] at hitem
    obtain ⟨hname, hparameters, hbody⟩ := hitem
    -- The depth of the function is bounded by the one of the program.
    have hdepth := hnesting _ hi
    simp only [Item.nesting, hentered.body_eq, Option.map_some, Option.getD_some] at hdepth
    exact ⟨_, hentered.toScript?,
      ⟨hname, fun q hq => hparameters _ (List.mem_map_of_mem (f := (·.name.text)) hq)⟩,
      hentered.placed.each_passages h hbody hdepth, rfl, rfl, body, hentered.body_eq,
      hentered.placed.shownAs⟩

/-- The script of an entry point has lines and conditions of a kind, and it shows the entry point.
-/
theorem exists_toScript_main {e : EntryPoint L NodeId} (he : e ∈ p.items.filterMap Item.main?) :
    ∃ sts,
      e.toScript? (Declarations.ofProgram p).table (Declarations.ofProgram p).scopes = some sts ∧
      (∀ q ∈ Script.Stmt.passages sts, q.Each simple condition n) ∧
      Block.ShownAs (Declarations.ofProgram p).table (Declarations.ofProgram p).scopes e.body
        (Script.Stmt.passages sts) := by
  obtain ⟨i, hi, hie⟩ := List.mem_filterMap.mp he
  cases i with
  | function f => cases hie
  | main e' =>
    obtain rfl := Option.some.inj hie
    obtain ⟨k, hk⟩ := Item.exists_mem_numbered (k := 0) hi
    obtain ⟨s, hentered⟩ := Program.entered_item hp hclean hk
    -- The names and the depth of the entry point are among those of the program.
    have hbody : ∀ x ∈ e'.body.names, name x :=
      fun x hx => hnames x (List.mem_flatMap.mpr ⟨_, hi, hx⟩)
    have hdepth : e'.body.nesting ≤ n + 1 := hnesting _ hi
    exact ⟨e'.body.toScript _ _, by rw [EntryPoint.toScript?, hentered.mark]; rfl,
      hentered.placed.each_passages h hbody hdepth, hentered.placed.shownAs⟩

/-- The whole script has lines and conditions of a kind. -/
theorem each_toScript :
    (∀ g ∈
        (p.toScript (Declarations.ofProgram p).table (Declarations.ofProgram p).scopes).functions,
      ∀ q ∈ Script.Stmt.passages g.body, q.Each simple condition n) ∧
    ∀ sts ∈ (p.toScript (Declarations.ofProgram p).table (Declarations.ofProgram p).scopes).mains,
      ∀ q ∈ Script.Stmt.passages sts, q.Each simple condition n := by
  constructor
  · intro g hg
    obtain ⟨f, hf, hfg⟩ := List.mem_filterMap.mp hg
    obtain ⟨g', hg', -, hbody, -⟩ := exists_toScript_function hp hclean h hnames hnesting hf
    obtain rfl := Option.some.inj (hg'.symm.trans hfg)
    exact hbody
  · intro sts hsts
    obtain ⟨e, he, hes⟩ := List.mem_filterMap.mp hsts
    obtain ⟨sts', hsts', hbody, -⟩ := exists_toScript_main hp hclean h hnames hnesting he
    obtain rfl := Option.some.inj (hsts'.symm.trans hes)
    exact hbody

end Each

/-- Below a body there is one level less than in the whole item. -/
private theorem nesting_le (hnesting : ∀ i ∈ p.items, i.nesting < 16384) :
    ∀ i ∈ p.items, i.nesting ≤ 16382 + 1 :=
  fun i hi => Nat.le_of_lt_succ (hnesting i hi)

include hp hclean

/-- No line is indented too far unless blocks nest that deep. -/
theorem fits_toScript (hnesting : ∀ i ∈ p.items, i.nesting < 16384) :
    Fits (p.toScript (Declarations.ofProgram p).table (Declarations.ofProgram p).scopes).lines := by
  obtain ⟨hfunctions, hmains⟩ :=
    each_toScript hp hclean conveys_true (fun _ _ => trivial) (nesting_le hnesting)
  exact Script.fits_of_each (by decide) hfunctions hmains

variable (hnames : ∀ name ∈ p.names, isIdentifier name = true)
  (hnesting : ∀ i ∈ p.items, i.nesting < 16384)

include hnames hnesting

/-- The script of a program without mistakes is legible. -/
theorem legible_toScript :
    (p.toScript (Declarations.ofProgram p).table (Declarations.ofProgram p).scopes).Legible
      16382 where
  named g hg := by
    obtain ⟨f, hf, hfg⟩ := List.mem_filterMap.mp hg
    obtain ⟨g', hg', ⟨hname, hparameters⟩, -, hshown⟩ :=
      exists_toScript_function hp hclean conveys_legible hnames (nesting_le hnesting) hf
    obtain rfl := Option.some.inj (hg'.symm.trans hfg)
    refine ⟨?_, ?_⟩
    · rw [show g'.name = _ from hshown.name]
      exact isIdentifier_safeName hname
    · rw [show g'.parameters = _ from hshown.parameters, List.forall_mem_map]
      exact fun q hq => isIdentifier_safeName (hparameters q hq)
  functions := (each_toScript hp hclean conveys_legible hnames (nesting_le hnesting)).1
  mains := (each_toScript hp hclean conveys_legible hnames (nesting_le hnesting)).2
  main := Nat.le_trans (List.length_filterMap_le _ _) (length_mains_le hp hclean)

/-- What is read from the script of a program without mistakes shows the program. -/
theorem shownAs_reading :
    p.ShownAs (Declarations.ofProgram p).table (Declarations.ofProgram p).scopes
      (p.toScript (Declarations.ofProgram p).table (Declarations.ofProgram p).scopes).reading where
  functions := by
    refine forall₂_map_filterMap fun f hf => ?_
    obtain ⟨g, hg, -, -, hshown⟩ :=
      exists_toScript_function hp hclean conveys_legible hnames (nesting_le hnesting) hf
    exact ⟨g, hg, hshown⟩
  main := by
    have hlength := (legible_toScript hp hclean hnames hnesting).main
    -- There is at most one entry point, so taking the first loses nothing.
    have hmain : ∀ xs : List (List Script.Stmt), xs.length ≤ 1 →
        (xs.head?.map Script.Stmt.passages).toList = xs.map Script.Stmt.passages := by
      intro xs hxs
      match xs, hxs with
      | [], _ => rfl
      | [x], _ => rfl
    rw [Script.reading, hmain _ hlength]
    refine forall₂_map_filterMap fun e he => ?_
    obtain ⟨sts, hsts, -, hshown⟩ :=
      exists_toScript_main hp hclean conveys_legible hnames (nesting_le hnesting) he
    exact ⟨sts, hsts, hshown⟩

end Accepted

/-- The text of an accepted program shows the program: it is written, and reading it by indentation
gives back the functions and the entry point with their statements. -/
theorem exists_read_scriptText {p : Program Location} {a : Analysis} (hp : p.Distinct)
    (ha : p.analyze = .ok a) (haccepted : a.isAccepted = true)
    (hnames : ∀ name ∈ p.names, isIdentifier name = true)
    (hnesting : ∀ i ∈ p.items, i.nesting < 16384) :
    ∃ text reading, a.scriptText p = .ok text ∧ Script.read? text = some reading ∧
      p.ShownAs a.table a.scopes reading := by
  obtain ⟨htable, hscopes, hclean, -, -⟩ := Program.of_isAccepted ha haccepted
  have hlegible := legible_toScript hp hclean hnames hnesting
  have hscoped := Program.isScoped_toScript (Declarations.covered_ofProgram hp)
  rw [htable, hscopes]
  refine ⟨_, _, ?_, hlegible.read?_render, shownAs_reading hp hclean hnames hnesting⟩
  rw [Analysis.scriptText, Analysis.ifAccepted, if_pos haccepted, htable, hscopes,
    Script.text_eq _ hscoped, if_pos (hlegible.fits (by decide))]
  rfl

/-- A program with awkward names, a chain of conditionals and a text of two lines:
`int pass(int if) { if (if > 9) { return 9; } else { if (if > 0) { } else { print("a\n"); } } ... }`
-/
def sortOut : Program Location :=
  let written (text : String) : Name (Option Location) := ⟨text, none⟩
  let above (n : Int) : Expr (Option Location) :=
    .binary none .greater (.read none (written "if")) (.int none n)
  let inner : Draft Stmt :=
    .ifElse none (above 0) (.mk none []) (.mk none [.print none true (some (.str none "a\n"))])
  Program.ofDraft
    [.function ⟨none, none, written "int", written "pass", [⟨written "int", written "if"⟩],
        some (.mk none
          [.ifElse none (above 9) (.mk none [.ret none none (some (.int none 9))])
              (.mk none [inner]),
            .loop none (above 0) (.mk none []), .ret none none (some (.int none 0))])⟩,
      .main ⟨none, none, .mk none [.call none (written "pass") [.int none 1]]⟩]

theorem exists_read_scriptText_sortOut :
    ∃ a text reading, sortOut.analyze = .ok a ∧ a.isAccepted = true ∧
      a.scriptText sortOut = .ok text ∧ Script.read? text = some reading ∧
      sortOut.ShownAs a.table a.scopes reading := by
  have hp : sortOut.Distinct := Program.distinct_ofDraft _ (by decide)
  have haccepted : sortOut.analyze.toOption.any (·.isAccepted) = true := by decide +kernel
  cases ha : sortOut.analyze with
  | error fault => simp [ha, Except.toOption] at haccepted
  | ok a =>
    have haccepted' : a.isAccepted = true := by simpa [ha, Except.toOption] using haccepted
    obtain ⟨text, reading, htext⟩ :=
      exists_read_scriptText hp ha haccepted' (by decide) (by decide)
    exact ⟨a, text, reading, rfl, haccepted', htext⟩

end Program

end Primer
