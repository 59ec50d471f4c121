import Primer.Proofs.Script.Reading
import Primer.Script.Expression
import Mathlib.Data.Rat.Defs
import Mathlib.Algebra.Field.Rat

/-!
# Tokens of expressions

A reader of expressions starts with tokens: names, numbers, quoted texts, operators and brackets. At
every place it takes the longest token there is.

* A name goes on as long as its characters do. It may not run into a quote, which would make it the
  mark of another kind of text.
* A number is read with its point and its exponent, and its value is exact. It may not run into a
  letter, and a whole number has no zeros in front.
* A text ends at the first quote without a backslash before it. A line break in it, or a backslash
  before any character but those that are written so, is a mistake.
* A sign that starts a longer one of the language is a mistake where the longer one stands.
-/

namespace Primer.Script

/-- The kinds of brackets. -/
inductive Bracket where
  | round
  | square
deriving DecidableEq

/-- Tokens. -/
inductive Token where
  | name (text : String)
  | int (value : Nat)
  | float (value : ℚ)
  | str (value : List Char)
  | op (op : BinOp)
  | left (b : Bracket)
  | right (b : Bracket)
  | comma
deriving DecidableEq

/-! ## Quoted text -/

namespace Quoted

/-- The character that is written as a backslash and this one. -/
def escaped? : Char → Option Char
  | '\\' => some '\\'
  | '\'' => some '\''
  | 'n' => some '\n'
  | 't' => some '\t'
  | 'r' => some '\r'
  | _ => none

/-- Reads a text whose first quote has been read. The second result is what follows the last quote.
-/
def read? : List Char → Option (List Char × List Char)
  | [] => none
  | '\'' :: rest => some ([], rest)
  | '\\' :: c :: rest => do
    let first ← escaped? c
    let (text, rest) ← read? rest
    return (first :: text, rest)
  | c :: rest =>
    if isLineBreak c then none
    else do
      let (text, rest) ← read? rest
      return (c :: text, rest)

/-- One character is read back. -/
theorem read?_encodeChar {c : Char} {text cs rest : List Char} (h : read? cs = some (text, rest)) :
    read? (encodeChar c ++ cs) = some (c :: text, rest) := by
  unfold encodeChar
  split_ifs with hbackslash hquote hline htab hreturn
  -- The five escapes are read back by the table of escapes.
  · simp [read?, escaped?, h, hbackslash]
  · simp [read?, escaped?, h, hquote]
  · simp [read?, escaped?, h, hline]
  · simp [read?, escaped?, h, htab]
  · simp [read?, escaped?, h, hreturn]
  -- Any other character is written as it is, and is not a line break.
  · have hbreak : isLineBreak c = false := by simp [isLineBreak, hline, hreturn]
    have hstep : read? (c :: cs) =
        if isLineBreak c then none else (read? cs).bind fun r => some (c :: r.1, r.2) := by
      rw [read?.eq_def]
      split
      next => simp_all
      next => simp_all
      next => simp_all
      next => simp_all
    simp [hstep, hbreak, h]

/-- No quote stands for itself between quotes. -/
theorem head?_encode_ne (text : List Char) : (encode text).head? ≠ some '\'' := by
  cases text with
  | nil => simp [encode]
  | cons c text =>
    rw [encode, List.flatMap_cons]
    unfold encodeChar
    split_ifs with _ hquote <;> simp [*]

/-- What is quoted is read back, whatever follows it. -/
theorem read?_encode (text rest : List Char) :
    read? (encode text ++ '\'' :: rest) = some (text, rest) := by
  induction text with
  | nil => simp [encode, read?]
  | cons c text ih =>
    rw [encode, List.flatMap_cons, List.append_assoc]
    exact read?_encodeChar ih

end Quoted

/-! ## Numbers -/

/-- The number that digits stand for. -/
def digitsValue (digits : List Char) : Nat :=
  Nat.ofDigitChars 10 digits 0

/-- The digits behind a point, if there is one, and what follows them. -/
def fraction : List Char → Option (List Char) × List Char
  | '.' :: cs => (some (cs.takeWhile Char.isDigit), cs.dropWhile Char.isDigit)
  | cs => (none, cs)

/-- The sign of an exponent and what follows it. -/
def exponentSign : List Char → Int × List Char
  | '-' :: cs => (-1, cs)
  | '+' :: cs => (1, cs)
  | cs => (1, cs)

/-- The exponent of a number, if there is one, and what follows it. -/
def exponent? : List Char → Option (Option Int × List Char)
  | [] => some (none, [])
  | c :: cs =>
    if c = 'e' || c = 'E' then
      let (sign, cs) := exponentSign cs
      let digits := cs.takeWhile Char.isDigit
      if digits.isEmpty then none
      else some (some (sign * digitsValue digits), cs.dropWhile Char.isDigit)
    else some (none, c :: cs)

/-- The number with given digits around its point and a given exponent. -/
def numberToken? (whole : List Char) : Option (List Char) → Option Int → Option Token
  | none, none =>
    if whole.head? = some '0' && whole.length != 1 then none else some (.int (digitsValue whole))
  | digits, exponent =>
    let digits := digits.getD []
    some (.float (digitsValue (whole ++ digits) *
      (10 : ℚ) ^ (exponent.getD 0 - (digits.length : Int))))

/-- Reads a number. -/
def number? (cs : List Char) : Option (Token × List Char) := do
  let (digits, rest) := fraction (cs.dropWhile Char.isDigit)
  let (exponent, rest) ← exponent? rest
  let token ← numberToken? (cs.takeWhile Char.isDigit) digits exponent
  return (token, rest)

/-! ## Tokens -/

/-- A sign, unless it is the start of a longer one. -/
def unlessBefore (longer : List Char) (token : Token) (cs : List Char) :
    Option (Token × List Char) :=
  if cs.head?.any (· ∈ longer) then none else some (token, cs)

/-- Reads a sign. -/
def sign? : List Char → Option (Token × List Char)
  | '(' :: cs => some (.left .round, cs)
  | ')' :: cs => some (.right .round, cs)
  | '[' :: cs => some (.left .square, cs)
  | ']' :: cs => some (.right .square, cs)
  | ',' :: cs => some (.comma, cs)
  | '=' :: '=' :: cs => some (.op .equal, cs)
  | '!' :: '=' :: cs => some (.op .notEqual, cs)
  | '+' :: cs => unlessBefore ['='] (.op .add) cs
  | '-' :: cs => unlessBefore ['=', '>'] (.op .sub) cs
  | '*' :: cs => unlessBefore ['=', '*'] (.op .mul) cs
  | '/' :: cs => unlessBefore ['=', '/'] (.op .div) cs
  | '<' :: cs => unlessBefore ['=', '<'] (.op .less) cs
  | '>' :: cs => unlessBefore ['=', '>'] (.op .greater) cs
  | _ => none

/-- Reads a text. Three quotes would start another kind of text. -/
def text? : List Char → Option (Token × List Char)
  | '\'' :: '\'' :: _ => none
  | cs => (Quoted.read? cs).map fun (text, rest) => (.str text, rest)

/-- Whether a character is a quote. -/
def isQuote (c : Char) : Bool :=
  c = '\'' || c = '"'

/-- Reads the token at the start of a text that does not start with a blank. -/
def token? (cs : List Char) : Option (Token × List Char) :=
  match cs with
  | [] => none
  | c :: rest =>
    if isWordStart c then
      if (afterWord cs).head?.any isQuote then none
      else some (.name (firstWord cs), afterWord cs)
    else if c.isDigit then do
      let (token, rest) ← number? cs
      if rest.head?.any isWordChar then none else some (token, rest)
    else if c = '\'' then text? rest
    else sign? cs

/-- The tokens of a text. Blanks stand between tokens only. -/
def tokenize? : List Char → Option (List Token)
  | [] => some []
  | c :: cs =>
    if c = ' ' then tokenize? cs
    else
      match token? (c :: cs) with
      | none => none
      | some (token, rest) =>
        if rest.length < (c :: cs).length then (tokenize? rest).map (token :: ·) else none
termination_by cs => cs.length
decreasing_by
  · exact Nat.lt_succ_self _
  · assumption

theorem tokenize?_nil : tokenize? [] = some [] := by
  rw [tokenize?]

theorem tokenize?_blank (cs : List Char) : tokenize? (' ' :: cs) = tokenize? cs := by
  rw [tokenize?, if_pos rfl]

/-- One token, and then the others. -/
theorem tokenize?_of_token? {c : Char} {cs rest : List Char} {token : Token} (hc : c ≠ ' ')
    (h : token? (c :: cs) = some (token, rest)) (hrest : rest.length ≤ cs.length) :
    tokenize? (c :: cs) = (tokenize? rest).map (token :: ·) := by
  rw [tokenize?, if_neg hc, h]
  exact if_pos (Nat.lt_succ_of_le hrest)

/-! ### Names and texts -/

/-- The characters that may follow the text of an expression. -/
def closers : List Char :=
  [' ', ',', ')', ']']

/-- What may follow the text of an expression: nothing, a blank, a comma or a closing bracket. -/
def Follows (rest : List Char) : Prop :=
  ∀ c, rest.head? = some c → c ∈ closers

theorem follows_nil : Follows [] := by
  intro c hc
  cases hc

theorem follows_cons {c : Char} (hc : c ∈ closers) (cs : List Char) :
    Follows (c :: cs) := by
  intro d hd
  obtain rfl := Option.some.inj hd
  exact hc

theorem Follows.head?_any {rest : List Char} (h : Follows rest) {p : Char → Bool}
    (hp : closers.any p = false) : rest.head?.any p = false := by
  cases rest with
  | nil => rfl
  | cons c cs => exact Bool.eq_false_iff.mpr (List.any_eq_false.mp hp c (h c rfl))

theorem Follows.endsWord {rest : List Char} (h : Follows rest) : EndsWord rest := by
  have hword : closers.any isWordChar = false := by decide
  exact fun c hc => Bool.eq_false_iff.mpr (List.any_eq_false.mp hword c (h c hc))

theorem tokenize?_name {name : String} (hname : isIdentifier name = true) {rest : List Char}
    (hrest : EndsWord rest) (hquote : rest.head?.any isQuote = false) :
    tokenize? (name.toList ++ rest) = (tokenize? rest).map (.name name :: ·) := by
  have hword := isWordChar_of_isIdentifier hname
  obtain ⟨c, cs, hchars, hc, -⟩ := isIdentifier_iff.mp hname
  have htoken : token? (name.toList ++ rest) = some (.name name, rest) := by
    unfold token?
    rw [firstWord_append hword hrest, afterWord_append hword hrest]
    simp [hchars, hc, hquote]
  rw [hchars, List.cons_append] at htoken ⊢
  refine tokenize?_of_token? ?_ htoken (by simp)
  rintro rfl
  exact absurd hc (by decide)

theorem tokenize?_quote (text : List Char) {rest : List Char} (hrest : rest.head? ≠ some '\'') :
    tokenize? (Quoted.quote text ++ rest) = (tokenize? rest).map (.str text :: ·) := by
  have htext : text? (Quoted.encode text ++ '\'' :: rest) = some (.str text, rest) := by
    unfold text?
    split
    next cs h =>
      -- Two quotes in a row would be the whole text and a quote behind it.
      cases hencode : Quoted.encode text with
      | nil =>
        rw [hencode] at h
        exact absurd (congrArg List.head? (List.cons.inj h).2) hrest
      | cons c cs =>
        rw [hencode] at h
        have hhead := Quoted.head?_encode_ne text
        rw [hencode, (List.cons.inj h).1] at hhead
        exact absurd rfl hhead
    next => rw [Quoted.read?_encode]; rfl
  have htoken : token? ('\'' :: (Quoted.encode text ++ '\'' :: rest)) = some (.str text, rest) := by
    have hstart : isWordStart '\'' = false := by decide
    have hdigit : Char.isDigit '\'' = false := by decide
    simp [token?, htext, hstart, hdigit]
  have hchars : Quoted.quote text ++ rest = '\'' :: (Quoted.encode text ++ '\'' :: rest) := by
    simp [Quoted.quote]
  rw [hchars]
  exact tokenize?_of_token? (by decide) htoken (by simp; omega)

/-! ### Signs -/

/-- The characters that signs start with. -/
def signStarts : List Char :=
  ['(', ')', '[', ']', ',', '=', '!', '+', '-', '*', '/', '<', '>']

/-- A sign is a token of its own. -/
theorem tokenize?_of_sign? {c : Char} {cs rest : List Char} {token : Token}
    (hc : c ∈ signStarts)
    (h : sign? (c :: cs) = some (token, rest)) (hrest : rest.length ≤ cs.length) :
    tokenize? (c :: cs) = (tokenize? rest).map (token :: ·) := by
  have hother : ∀ p : Char → Bool, signStarts.any p = false → p c = false := fun p hp =>
    Bool.eq_false_iff.mpr (List.any_eq_false.mp hp c hc)
  have hblank : c ≠ ' ' := by simpa using hother (· = ' ') (by decide)
  have hquote : c ≠ '\'' := by simpa using hother (· = '\'') (by decide)
  refine tokenize?_of_token? hblank ?_ hrest
  simp [token?, hother isWordStart (by decide), hother Char.isDigit (by decide), hquote, h]

/-- The character of a bracket. -/
def Bracket.leftChar : Bracket → Char
  | .round => '('
  | .square => '['

/-- The character of a bracket that closes. -/
def Bracket.rightChar : Bracket → Char
  | .round => ')'
  | .square => ']'

theorem tokenize?_left (b : Bracket) (cs : List Char) :
    tokenize? (b.leftChar :: cs) = (tokenize? cs).map (.left b :: ·) := by
  cases b <;> exact tokenize?_of_sign? (by decide) rfl (Nat.le_refl _)

theorem tokenize?_right (b : Bracket) (cs : List Char) :
    tokenize? (b.rightChar :: cs) = (tokenize? cs).map (.right b :: ·) := by
  cases b <;> exact tokenize?_of_sign? (by decide) rfl (Nat.le_refl _)

theorem tokenize?_comma (cs : List Char) :
    tokenize? (',' :: ' ' :: cs) = (tokenize? cs).map (.comma :: ·) := by
  rw [tokenize?_of_sign? (by decide) (rfl : sign? (',' :: ' ' :: cs) = some (.comma, ' ' :: cs))
    (Nat.le_refl _), tokenize?_blank]

/-- An operator between blanks. -/
theorem tokenize?_op (op : BinOp) (cs : List Char) :
    tokenize? (' ' :: (op.text.toList ++ ' ' :: cs)) = (tokenize? cs).map (.op op :: ·) := by
  rw [tokenize?_blank]
  have hop : ∃ c rest, op.text.toList ++ ' ' :: cs = c :: rest ∧
      c ∈ signStarts ∧
      sign? (c :: rest) = some (.op op, ' ' :: cs) ∧ (' ' :: cs).length ≤ rest.length := by
    cases op <;> exact ⟨_, _, rfl, by decide, rfl, by simp⟩
  obtain ⟨c, rest, hchars, hc, hsign, hlength⟩ := hop
  rw [hchars, tokenize?_of_sign? hc hsign hlength, tokenize?_blank]

/-- A minus sign in front of an operand. -/
theorem tokenize?_minus {cs : List Char} (h : cs.head?.any (· ∈ ['=', '>']) = false) :
    tokenize? ('-' :: cs) = (tokenize? cs).map (.op .sub :: ·) := by
  refine tokenize?_of_sign? (by decide) ?_ (Nat.le_refl _)
  simp only [sign?, unlessBefore, h]
  rfl

end Primer.Script
