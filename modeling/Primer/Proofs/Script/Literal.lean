import Primer.Proofs.Script.Outline
import Primer.Proofs.Script.Token

/-!
# Quoted text stays between its quotes

A reader of literals in single quotes that knows as little as possible: a backslash takes the next
character with it, and the first quote that is not taken in this way is the end. It accepts line
breaks and backslashes before any character, so wherever the stricter reader of tokens finds the end
of a text, it finds the same end (`Quoted.body?_of_read?`).

Whatever text is quoted and whatever follows, the reader stops at the last quote and gives the text
back. So no text of a program can end its literal early and go on as code.
-/

namespace Primer.Script.Quoted

/-! ## Reading a literal -/

/-- What a backslash and the character behind it stand for. Five characters have a meaning there;
before any other one the backslash stands for itself. -/
def denoted (c : Char) : List Char :=
  ((escaped? c).map fun d => [d]).getD ['\\', c]

/-- Reads a literal whose first quote has been read. The second result is what follows its end. -/
def body? : List Char → Option (List Char × List Char)
  | [] => none
  | '\'' :: rest => some ([], rest)
  | '\\' :: c :: rest => (body? rest).map fun (text, rest) => (denoted c ++ text, rest)
  | c :: rest => (body? rest).map fun (text, rest) => (c :: text, rest)

/-- Reads the literal that starts with the first character. -/
def literal? : List Char → Option (List Char × List Char)
  | '\'' :: rest => body? rest
  | _ => none

/-- What the reader of tokens accepts is read in the same way. -/
theorem body?_of_read? {cs : List Char} {result : List Char × List Char}
    (h : read? cs = some result) : body? cs = some result := by
  fun_induction read? cs generalizing result with
  | case1 => cases h
  | case2 rest => exact h
  | case3 c rest ih =>
    obtain ⟨first, hfirst, h⟩ := Option.bind_eq_some_iff.mp h
    obtain ⟨⟨text, last⟩, hrest, h⟩ := Option.bind_eq_some_iff.mp h
    obtain rfl := Option.some.inj h
    simp [body?, denoted, hfirst, ih hrest]
  | case4 c rest hquote hescape hbreak => cases h
  | case5 c rest hquote hescape hbreak ih =>
    obtain ⟨⟨text, last⟩, hrest, h⟩ := Option.bind_eq_some_iff.mp h
    obtain rfl := Option.some.inj h
    simp [body?, ih hrest]

/-! ## Quoted text -/

theorem literal?_quote (text rest : List Char) :
    literal? (quote text ++ rest) = some (text, rest) := by
  have hquote : quote text ++ rest = '\'' :: (encode text ++ '\'' :: rest) := by simp [quote]
  rw [hquote]
  exact body?_of_read? (read?_encode text rest)

theorem no_break_of_mem_quote {text : List Char} {c : Char} (h : c ∈ quote text) :
    c ≠ '\n' ∧ c ≠ '\r' :=
  isLineBreak_eq_false.mp (oneLine_ofList.mp (oneLine_quote text) c h)

/-- Two quoted texts with something behind them are equal only if all their parts are. -/
theorem quote_append_inj {text text' rest rest' : List Char}
    (h : quote text ++ rest = quote text' ++ rest') : text = text' ∧ rest = rest' := by
  have hread := literal?_quote text rest
  rw [h, literal?_quote text' rest'] at hread
  exact (Prod.mk.inj (Option.some.inj hread)).imp Eq.symm Eq.symm

/-- A quoted text ends at its last quote, whatever follows, and is read back as the text. It has no
line break, and different texts are quoted differently. So are the texts and characters of
programs. -/
theorem quote_delimits :
    (∀ text rest, literal? (quote text ++ rest) = some (text, rest)) ∧
    (∀ text, '\n' ∉ quote text ∧ '\r' ∉ quote text) ∧
    Function.Injective quote ∧
    ∀ (L : Type) (place : L) (t : Table) (s : ScopeId) (rest : List Char),
      (∀ value : String,
        literal? (((Primer.Expr.str place value).toScript t s).text.toList ++ rest) =
          some (value.toList, rest)) ∧
      ∀ value : Char,
        literal? (((Primer.Expr.char place value).toScript t s).text.toList ++ rest) =
          some ([value], rest) := by
  have htext : ∀ text : List Char, (Script.Expr.str text).text.toList = quote text := fun text =>
    String.toList_ofList
  refine ⟨literal?_quote, fun text => ⟨?_, ?_⟩, fun text text' h => ?_,
    fun L place t s rest => ⟨fun value => ?_, fun value => ?_⟩⟩
  · exact fun h => (no_break_of_mem_quote h).1 rfl
  · exact fun h => (no_break_of_mem_quote h).2 rfl
  -- A text is what is left of its quotation when nothing follows it.
  · exact (quote_append_inj (congrArg (· ++ []) h)).1
  · rw [Primer.Expr.toScript, htext]
    exact literal?_quote value.toList rest
  · rw [Primer.Expr.toScript, htext]
    exact literal?_quote [value] rest

end Primer.Script.Quoted
