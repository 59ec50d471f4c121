import Primer.Proofs.Script.Phrase

/-!
# The text of expressions groups as the tree does

The text of an expression has no parentheses but those of the program. `Expr.Plain` says where a
program has to have them: where a reader that knows how tight operators bind would need them.
`Expr.ReadAs` says which phrase stands for an expression.

The text is read in two steps. Its tokens are those of the expression (`Expr.Grouped.tokenizes`),
and the tokens of a grouped expression form its phrase. So the text of every plain expression is
read completely, and as the expression (`Expr.exists_parse?_text`).
-/

namespace Primer

namespace Script

/-- Reads the text of an expression. -/
def parse? (text : String) : Option Phrase :=
  (tokenize? text.toList).bind phrase?

/-! ## The tokens of a text -/

namespace Expr

/-- The tokens of a text are those of the expression, whatever follows. -/
def Tokenizes (e : Expr) : Prop :=
  ∀ ⦃rest : List Char⦄, Follows rest →
    tokenize? (e.text.toList ++ rest) = (tokenize? rest).map (e.tokens ++ ·)

/-- The parts of a sequence behind the first one. -/
def moreText (es : List Expr) : List Char :=
  (texts es).flatMap fun part => ',' :: ' ' :: part.toList

theorem follows_moreText {es : List Expr} {rest : List Char} (hrest : Follows rest) :
    Follows (moreText es ++ rest) := by
  cases es with
  | nil => simpa [moreText, texts] using hrest
  | cons e es => exact follows_cons (by decide) _

theorem tokenize?_moreText {es : List Expr} (h : ∀ e ∈ es, e.Tokenizes) {rest : List Char}
    (hrest : Follows rest) :
    tokenize? (moreText es ++ rest) = (tokenize? rest).map (tokensMore es ++ ·) := by
  induction es with
  | nil => simp [moreText, texts, tokensMore]
  | cons e es ih =>
    have hmore := ih fun e he => h e (List.mem_cons_of_mem _ he)
    have htext : moreText (e :: es) ++ rest =
        ',' :: ' ' :: (e.text.toList ++ (moreText es ++ rest)) := by
      simp [moreText, texts]
    rw [htext, tokenize?_comma, h e List.mem_cons_self (follows_moreText hrest), hmore]
    cases tokenize? rest <;> simp [tokensMore]

theorem tokenize?_commaSeparated {es : List Expr} (h : ∀ e ∈ es, e.Tokenizes) {rest : List Char}
    (hrest : Follows rest) :
    tokenize? ((Text.commaSeparated (texts es)).toList ++ rest) =
      (tokenize? rest).map (tokensAll es ++ ·) := by
  cases es with
  | nil => simp [texts, tokensAll, Text.commaSeparated]
  | cons e es =>
    have hmore := tokenize?_moreText (fun e he => h e (List.mem_cons_of_mem _ he)) hrest
    have htext : (Text.commaSeparated (texts (e :: es))).toList ++ rest =
        e.text.toList ++ (moreText es ++ rest) := by
      rw [texts, toList_commaSeparated_cons, List.append_assoc, moreText]
    rw [htext, h e List.mem_cons_self (follows_moreText hrest), hmore]
    cases tokenize? rest <;> simp [tokensAll]

/-! ### Names, brackets and operators -/

theorem tokenizes_of_word {e : Expr} (h : isIdentifier e.text = true)
    (htokens : e.tokens = [.name e.text]) : e.Tokenizes := by
  intro rest hrest
  rw [tokenize?_name h hrest.endsWord (hrest.head?_any (by decide)), htokens]
  rfl

/-- A name in front of a bracket. -/
theorem tokenize?_name_left {name : String} (h : isIdentifier name = true) (b : Bracket)
    (cs : List Char) :
    tokenize? (name.toList ++ b.leftChar :: cs) =
      (tokenize? cs).map (.name name :: .left b :: ·) := by
  have hends : EndsWord (b.leftChar :: cs) := endsWord_cons (by cases b <;> decide) cs
  have hquote : (b.leftChar :: cs).head?.any isQuote = false := by cases b <;> rfl
  rw [tokenize?_name h hends hquote, tokenize?_left]
  cases tokenize? cs <;> rfl

theorem tokenizes_call {callee : String} {arguments : List Expr}
    (hcallee : isIdentifier callee = true) (h : ∀ e ∈ arguments, e.Tokenizes) :
    (Expr.call callee arguments).Tokenizes := by
  intro rest hrest
  have htext : (Expr.call callee arguments).text.toList ++ rest =
      callee.toList ++ Bracket.round.leftChar ::
        ((Text.commaSeparated (texts arguments)).toList ++ Bracket.round.rightChar :: rest) := by
    change (callee ++ "(" ++ Text.commaSeparated (texts arguments) ++ ")").toList ++ rest = _
    simp [Bracket.leftChar, Bracket.rightChar]
  rw [htext, tokenize?_name_left hcallee,
    tokenize?_commaSeparated h (follows_cons (by decide) _), tokenize?_right]
  cases tokenize? rest <;> simp [tokens]

theorem tokenizes_subscript {base : String} {position : Expr} (hbase : isIdentifier base = true)
    (h : position.Tokenizes) : (Expr.subscript base position).Tokenizes := by
  intro rest hrest
  have htext : (Expr.subscript base position).text.toList ++ rest =
      base.toList ++ Bracket.square.leftChar ::
        (position.text.toList ++ Bracket.square.rightChar :: rest) := by
    change (base ++ "[" ++ position.text ++ "]").toList ++ rest = _
    simp [Bracket.leftChar, Bracket.rightChar]
  rw [htext, tokenize?_name_left hbase, h (follows_cons (by decide) _), tokenize?_right]
  cases tokenize? rest <;> simp [tokens]

theorem tokenizes_paren {operand : Expr} (h : operand.Tokenizes) :
    (Expr.paren operand).Tokenizes := by
  intro rest hrest
  have htext : (Expr.paren operand).text.toList ++ rest =
      Bracket.round.leftChar :: (operand.text.toList ++ Bracket.round.rightChar :: rest) := by
    change ("(" ++ operand.text ++ ")").toList ++ rest = _
    simp [Bracket.leftChar, Bracket.rightChar]
  rw [htext, tokenize?_left, h (follows_cons (by decide) _), tokenize?_right]
  cases tokenize? rest <;> simp [tokens]

theorem tokenizes_list {elements : List Expr} (h : ∀ e ∈ elements, e.Tokenizes) :
    (Expr.list elements).Tokenizes := by
  intro rest hrest
  have htext : (Expr.list elements).text.toList ++ rest =
      Bracket.square.leftChar ::
        ((Text.commaSeparated (texts elements)).toList ++ Bracket.square.rightChar :: rest) := by
    change ("[" ++ Text.commaSeparated (texts elements) ++ "]").toList ++ rest = _
    simp [Bracket.leftChar, Bracket.rightChar]
  rw [htext, tokenize?_left, tokenize?_commaSeparated h (follows_cons (by decide) _),
    tokenize?_right]
  cases tokenize? rest <;> simp [tokens]

/-- Whether a character makes another sign of a minus in front of it. -/
def joinsMinus (c : Char) : Bool :=
  c ∈ ['=', '>']

theorem not_joinsMinus_of {p : Char → Bool} {c : Char} (hc : p c = true)
    (hp : p '=' = false ∧ p '>' = false) : joinsMinus c = false := by
  simp only [joinsMinus, List.mem_cons, List.not_mem_nil, or_false, decide_eq_false_iff_not]
  rintro (rfl | rfl)
  · exact absurd hc (by simp [hp.1])
  · exact absurd hc (by simp [hp.2])

theorem exists_toList_eq_cons {name : String} (h : isIdentifier name = true) (cs : List Char) :
    ∃ c ds, name.toList ++ cs = c :: ds ∧ joinsMinus c = false := by
  obtain ⟨c, ds, hchars, hc, -⟩ := isIdentifier_iff.mp h
  exact ⟨c, ds ++ cs, by rw [hchars]; rfl, not_joinsMinus_of hc (by decide)⟩

theorem tokenizes_negate {operand : Expr} (h : operand.Tokenizes)
    (hhead : ∃ c cs, operand.text.toList = c :: cs ∧ joinsMinus c = false) :
    (Expr.negate operand).Tokenizes := by
  intro rest hrest
  obtain ⟨c, cs, hcs, hc⟩ := hhead
  have htext : (Expr.negate operand).text.toList ++ rest =
      '-' :: (operand.text.toList ++ rest) := by
    change ("-" ++ operand.text).toList ++ rest = _
    simp
  rw [htext, tokenize?_minus (by rw [hcs]; exact hc), h hrest]
  cases tokenize? rest <;> simp [tokens]

theorem tokenizes_binary {op : BinOp} {lhs rhs : Expr} (hlhs : lhs.Tokenizes)
    (hrhs : rhs.Tokenizes) : (Expr.binary op lhs rhs).Tokenizes := by
  intro rest hrest
  have htext : (Expr.binary op lhs rhs).text.toList ++ rest =
      lhs.text.toList ++ ' ' :: (op.text.toList ++ ' ' :: (rhs.text.toList ++ rest)) := by
    change (lhs.text ++ " " ++ op.text ++ " " ++ rhs.text).toList ++ rest = _
    simp
  rw [htext, hlhs (follows_cons (by decide) _), tokenize?_op, hrhs hrest]
  cases tokenize? rest <;> simp [tokens]

/-! ### All expressions -/

/-- The text of an expression starts with a character that does not join a minus. -/
theorem Grouped.exists_text_eq_cons {e : Expr} (h : e.Grouped) :
    ∃ c cs, e.text.toList = c :: cs ∧ joinsMinus c = false := by
  induction h with
  | int value =>
    -- A whole number is written without a sign, so it starts with a digit.
    obtain ⟨c, cs, hcs⟩ := List.exists_cons_of_ne_nil (Nat.toDigits_ne_nil (n := value) (b := 10))
    have hc : c.isDigit = true := isDigit_of_mem_toDigits c (hcs ▸ List.mem_cons_self)
    exact ⟨c, cs, by simpa [Expr.text, Text.ofInt, Text.ofNat] using hcs,
      not_joinsMinus_of hc (by decide)⟩
  | float h =>
    obtain ⟨c, cs, hcs, hc, -⟩ := toList_floatText h follows_nil
    exact ⟨c, cs, hcs, not_joinsMinus_of hc (by decide)⟩
  | bool value =>
    cases value with
    | true => exact ⟨_, _, rfl, by decide⟩
    | false => exact ⟨_, _, rfl, by decide⟩
  | str value => exact ⟨'\'', _, by rw [Expr.text, String.toList_ofList]; rfl, by decide⟩
  -- Whatever starts with a name starts with a letter or an underscore.
  | name h => simpa [Expr.text] using exists_toList_eq_cons h.identifier []
  | call hcallee _ _ =>
    simpa [Expr.text] using exists_toList_eq_cons hcallee.identifier _
  | subscript hbase _ _ =>
    simpa [Expr.text] using exists_toList_eq_cons hbase.identifier _
  -- The first character is a bracket, or the one sign that is written in front of an operand.
  | paren _ _ => simp [Expr.text, joinsMinus]
  | negate _ _ _ => simp [Expr.text, joinsMinus]
  | binary _ _ _ _ ihlhs _ =>
    -- An operation starts like its left operand.
    obtain ⟨c, cs, hcs, hc⟩ := ihlhs
    simp [Expr.text, hcs, hc]
  | list _ _ => simp [Expr.text, joinsMinus]

theorem Grouped.tokenizes {e : Expr} (h : e.Grouped) : e.Tokenizes := by
  induction h with
  | int value =>
    intro rest hrest
    exact tokenize?_ofNat value hrest
  | float h =>
    intro rest hrest
    exact tokenize?_floatText h hrest
  | bool value => cases value <;> exact tokenizes_of_word (by decide) rfl
  | str value =>
    intro rest hrest
    -- A literal ends at its quote unless another one follows, and what follows joins nothing.
    have hquote : rest.head? ≠ some '\'' := fun h => absurd (hrest _ h) (by decide)
    rw [Expr.text, String.toList_ofList]
    exact tokenize?_quote value hquote
  | name h => exact tokenizes_of_word h.identifier rfl
  | call hcallee _ ih => exact tokenizes_call hcallee.identifier ih
  | subscript hbase _ ih => exact tokenizes_subscript hbase.identifier ih
  | paren _ ih => exact tokenizes_paren ih
  | negate hoperand _ ih => exact tokenizes_negate ih hoperand.exists_text_eq_cons
  | binary _ _ _ _ ihlhs ihrhs => exact tokenizes_binary ihlhs ihrhs
  | list _ ih => exact tokenizes_list ih

/-- The text of a grouped expression is read completely, as its phrase. -/
theorem Grouped.parse?_text {e : Expr} (h : e.Grouped) : parse? e.text = some e.phrase := by
  have htokens : tokenize? (e.text.toList ++ []) = some e.tokens := by
    rw [h.tokenizes follows_nil, tokenize?_nil]
    simp
  rw [List.append_nil] at htokens
  rw [parse?, htokens]
  exact h.phrase?_tokens

end Expr

end Script

/-! ## Expressions of a program -/

namespace Expr

variable {L : Type}

/-- How tight an expression binds where it stands without parentheses. Everything but an operator
between two operands binds at least as tight as a minus sign. -/
def tightness : Expr L → Nat
  | .binary _ op _ _ => Script.level op
  | _ => 3

/-- Expressions that have their parentheses where a reader needs them: around a left operand that
binds looser than its operator, a right operand that does not bind tighter, an operand of a minus
sign that is not at least as tight, and a comparison under a comparison. Numbers have no sign, names
are identifiers, and no array is made. -/
inductive Plain : Expr L → Prop where
  | int {p : L} {value : Int} (hvalue : 0 ≤ value) : Plain (.int p value)
  | float {p : L} {bits : UInt64} (hbits : Script.isUnsigned bits = true) : Plain (.float p bits)
  | bool {p : L} {value : Bool} : Plain (.bool p value)
  | char {p : L} {value : Char} : Plain (.char p value)
  | str {p : L} {value : String} : Plain (.str p value)
  | read {p : L} {name : Name L} (hname : Script.isIdentifier name.text = true) :
      Plain (.read p name)
  | call {p : L} {callee : Name L} {arguments : List (Expr L)}
      (hcallee : Script.isIdentifier callee.text = true)
      (harguments : ∀ e ∈ arguments, Plain e) : Plain (.call p callee arguments)
  | index {p : L} {base : Name L} {position : Expr L}
      (hbase : Script.isIdentifier base.text = true) (hposition : Plain position) :
      Plain (.index p base position)
  | length {p : L} {operand : Expr L} (hoperand : Plain operand) : Plain (.length p operand)
  | paren {p : L} {operand : Expr L} (hoperand : Plain operand) : Plain (.paren p operand)
  | negate {p : L} {operand : Expr L} (hoperand : Plain operand)
      (htight : 3 ≤ operand.tightness) : Plain (.negate p operand)
  | binary {p : L} {op : BinOp} {lhs rhs : Expr L} (hlhs : Plain lhs) (hrhs : Plain rhs)
      (hleft : max 1 (Script.level op) ≤ lhs.tightness)
      (hright : Script.level op < rhs.tightness) : Plain (.binary p op lhs rhs)
  | array {p : L} {elements : List (Expr L)} (helements : ∀ e ∈ elements, Plain e) :
      Plain (.array p elements)

open Script (Phrase) in
/-- The phrases that stand for an expression. Names are safe ones, a character is a text of one
character, a length is a call, and the quotient of integers is cut to an integer. -/
inductive ReadAs (t : Table) (s : ScopeId) : Expr L → Phrase → Prop where
  | int {p : L} (value : Nat) : ReadAs t s (.int p value) (.int value)
  | float {p : L} {bits : UInt64} {x : ℚ} (h : Decimal.RoundsTo x bits) :
      ReadAs t s (.float p bits) (.float x)
  | bool {p : L} {value : Bool} : ReadAs t s (.bool p value) (.bool value)
  | char {p : L} {value : Char} : ReadAs t s (.char p value) (.str [value])
  | str {p : L} {value : String} : ReadAs t s (.str p value) (.str value.toList)
  | read {p : L} {name : Name L} : ReadAs t s (.read p name) (.name (Script.safeName name.text))
  | call {p : L} {callee : Name L} {arguments : List (Expr L)} {xs : List Phrase}
      (h : List.Forall₂ (ReadAs t s) arguments xs) :
      ReadAs t s (.call p callee arguments) (.call (.name (Script.safeName callee.text)) xs)
  | index {p : L} {base : Name L} {position : Expr L} {x : Phrase} (h : ReadAs t s position x) :
      ReadAs t s (.index p base position) (.subscript (.name (Script.safeName base.text)) x)
  | length {p : L} {operand : Expr L} {x : Phrase} (h : ReadAs t s operand x) :
      ReadAs t s (.length p operand) (.call (.name "len") [x])
  | paren {p : L} {operand : Expr L} {x : Phrase} (h : ReadAs t s operand x) :
      ReadAs t s (.paren p operand) (.group x)
  | negate {p : L} {operand : Expr L} {x : Phrase} (h : ReadAs t s operand x) :
      ReadAs t s (.negate p operand) (.negate x)
  | quotient {p : L} {lhs rhs : Expr L} {x y : Phrase} (hint : lhs.typeIn t s = .int)
      (hlhs : ReadAs t s lhs x) (hrhs : ReadAs t s rhs y) :
      ReadAs t s (.binary p .div lhs rhs) (.call (.name "int") [.binary .div x y])
  | binary {p : L} {op : BinOp} {lhs rhs : Expr L} {x y : Phrase}
      (hother : op = .div → lhs.typeIn t s ≠ .int) (hlhs : ReadAs t s lhs x)
      (hrhs : ReadAs t s rhs y) : ReadAs t s (.binary p op lhs rhs) (.binary op x y)
  | array {p : L} {elements : List (Expr L)} {xs : List Phrase}
      (h : List.Forall₂ (ReadAs t s) elements xs) : ReadAs t s (.array p elements) (.list xs)

section

variable (t : Table) (s : ScopeId)

theorem isName_safeName {name : String} (h : Script.isIdentifier name = true) :
    Script.IsName (Script.safeName name) :=
  ⟨Script.isIdentifier_safeName h, Script.safeName_not_mem_keywords name⟩

/-- The text of an expression binds as tight as the expression, or tighter. -/
theorem Plain.tightness_le {e : Expr L} (h : e.Plain) :
    e.tightness ≤ (e.toScript t s).level := by
  cases h with
  | @binary p op lhs rhs _ _ _ _ =>
    rw [toScript]
    split_ifs
    · exact (Script.level_lt_three op).le.trans (Nat.le_succ 3)
    · exact Nat.le_refl _
  | int | float | bool | char | str | read | call | index | length | paren | negate | array =>
    simp [tightness, toScript, Script.Expr.level]

theorem Plain.grouped {e : Expr L} (h : e.Plain) : (e.toScript t s).Grouped := by
  induction h with
  | @int p value hvalue =>
    -- A literal of the source has no sign of its own.
    obtain ⟨n, rfl⟩ := Int.eq_ofNat_of_zero_le hvalue
    exact .int n
  | float hbits => exact .float hbits
  | bool => exact .bool _
  | char => exact .str _
  | str => exact .str _
  | read hname => exact .name (isName_safeName hname)
  | call hcallee _ ih =>
    refine .call (isName_safeName hcallee) ?_
    rw [toScriptAll_eq_map]
    simpa using ih
  | index hbase _ ih => exact .subscript (isName_safeName hbase) ih
  | length _ ih => exact .call ⟨by decide, by decide⟩ (by simpa using ih)
  | paren _ ih => exact .paren ih
  | negate hoperand htight ih => exact .negate ih (htight.trans (hoperand.tightness_le t s))
  | @binary p op lhs rhs hlhs hrhs hleft hright ihlhs ihrhs =>
    -- The grouping in the script is as tight as in the source, so no parentheses are missing.
    have hbinary : (Script.Expr.binary op (lhs.toScript t s) (rhs.toScript t s)).Grouped :=
      .binary ihlhs ihrhs (hleft.trans (hlhs.tightness_le t s))
        (hright.trans_le (hrhs.tightness_le t s))
    rw [toScript]
    split_ifs with hquotient
    · rw [hquotient.1] at hbinary
      exact .call ⟨by decide, by decide⟩ (by simpa using hbinary)
    · exact hbinary
  | array _ ih =>
    refine .list ?_
    rw [toScriptAll_eq_map]
    simpa using ih

theorem readAs_all {es : List (Expr L)}
    (h : ∀ e ∈ es, e.ReadAs t s (e.toScript t s).phrase) :
    List.Forall₂ (ReadAs t s) es (Script.Expr.phrases (toScriptAll t s es)) := by
  induction es with
  | nil => exact .nil
  | cons e es ih =>
    exact .cons (h e List.mem_cons_self) (ih fun e he => h e (List.mem_cons_of_mem _ he))

theorem Plain.readAs {e : Expr L} (h : e.Plain) : e.ReadAs t s (e.toScript t s).phrase := by
  induction h with
  | @int p value hvalue =>
    obtain ⟨n, rfl⟩ := Int.eq_ofNat_of_zero_le hvalue
    exact .int n
  | float hbits => exact .float (Script.roundsTo_floatValue hbits)
  | bool => exact .bool
  | char => exact .char
  | str => exact .str
  | read _ => exact .read
  | call _ _ ih => exact .call (readAs_all t s ih)
  | index _ _ ih => exact .index ih
  | length _ ih => exact .length ih
  | paren _ ih => exact .paren ih
  | negate _ _ ih => exact .negate ih
  | @binary p op lhs rhs _ _ _ _ ihlhs ihrhs =>
    rw [toScript]
    -- The quotient of integers is read as a call of `int` around a quotient.
    split_ifs with hquotient
    · obtain ⟨rfl, hint⟩ := hquotient
      exact .quotient hint ihlhs ihrhs
    · exact .binary (fun hop hint => hquotient ⟨hop, hint⟩) ihlhs ihrhs
  | array _ ih => exact .array (readAs_all t s ih)

/-- The text of a plain expression is read completely, and as the expression. -/
theorem exists_parse?_text {e : Expr L} (h : e.Plain) :
    ∃ x, Script.parse? (e.toScript t s).text = some x ∧ e.ReadAs t s x :=
  ⟨_, (h.grouped t s).parse?_text, h.readAs t s⟩

end

/-- The expression `-(if + 2.5) * b[i] - 7 / 2 < length("it's")`. -/
def mixed : Expr Unit :=
  let named (text : String) : Name Unit := ⟨text, ()⟩
  let sum : Expr Unit := .binary () .add (.read () (named "if")) (.float () 4612811918334230528)
  let product : Expr Unit :=
    .binary () .mul (.negate () (.paren () sum)) (.index () (named "b") (.read () (named "i")))
  .binary () .less (.binary () .sub product (.binary () .div (.int () 7) (.int () 2)))
    (.length () (.str () "it's"))

theorem exists_parse?_text_mixed :
    (mixed.toScript Table.empty Table.global).text =
        "-(ofp_if + 2.5) * b[i] - int(7 / 2) < len('it\\'s')" ∧
      ∃ x, Script.parse? (mixed.toScript Table.empty Table.global).text = some x ∧
        mixed.ReadAs Table.empty Table.global x := by
  have hplain : mixed.Plain := by
    refine .binary (.binary (.binary (.negate (.paren (.binary (.read ?_) (.float ?_) ?_ ?_)) ?_)
      (.index ?_ (.read ?_)) ?_ ?_) (.binary (.int ?_) (.int ?_) ?_ ?_) ?_ ?_) (.length .str) ?_ ?_
    all_goals decide +kernel
  exact ⟨by decide +kernel, exists_parse?_text Table.empty Table.global hplain⟩

end Expr

end Primer
