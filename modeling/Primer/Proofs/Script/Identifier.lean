import Primer.Script.Identifier

/-!
# Identifiers and words

An *identifier* is a letter or an underscore, followed by letters, digits and underscores. Written
in a script an identifier stays one, and it is never a keyword (`safeName_not_mem_keywords`).

The first *word* of a text is what a reader looks at to tell the lines of a script apart. It ends at
the first character that is no letter, digit or underscore.
-/

namespace Primer.Script

/-- Whether a character may stand in an identifier. -/
def isWordChar (c : Char) : Bool :=
  c.isAlphanum || c = '_'

/-- Whether a character may stand at the start of an identifier. -/
def isWordStart (c : Char) : Bool :=
  c.isAlpha || c = '_'

theorem isWordChar_of_isWordStart {c : Char} (h : isWordStart c = true) : isWordChar c = true := by
  simp only [isWordStart, isWordChar, Char.isAlphanum, Bool.or_eq_true] at h ⊢
  exact h.imp_left .inl

/-- Whether a name has the form of an identifier. -/
def isIdentifier (name : String) : Bool :=
  match name.toList with
  | [] => false
  | c :: cs => isWordStart c && cs.all isWordChar

theorem isIdentifier_iff {name : String} :
    isIdentifier name = true ↔
      ∃ c cs, name.toList = c :: cs ∧ isWordStart c = true ∧ ∀ d ∈ cs, isWordChar d = true := by
  unfold isIdentifier
  cases name.toList with
  | nil => simp
  | cons c cs =>
    rw [Bool.and_eq_true, List.all_eq_true]
    constructor
    · exact fun h => ⟨c, cs, rfl, h⟩
    · rintro ⟨_, _, ⟨rfl, rfl⟩, h⟩
      exact h

theorem isWordChar_of_isIdentifier {name : String} (h : isIdentifier name = true) :
    ∀ c ∈ name.toList, isWordChar c = true := by
  obtain ⟨c, cs, hname, hc, hcs⟩ := isIdentifier_iff.mp h
  rw [hname, List.forall_mem_cons]
  exact ⟨isWordChar_of_isWordStart hc, hcs⟩

/-! ## Names of scripts -/

theorem isIdentifier_safeName {name : String} (h : isIdentifier name = true) :
    isIdentifier (safeName name) = true := by
  unfold safeName
  split
  · refine isIdentifier_iff.mpr ⟨'o', ['f', 'p', '_'] ++ name.toList, ?_, by decide, ?_⟩
    · simp [reservedMark]
    · have hmark : ['f', 'p', '_'].all isWordChar = true := by decide
      exact List.forall_mem_append.mpr ⟨List.all_eq_true.mp hmark, isWordChar_of_isIdentifier h⟩
  · exact h

/-- No reserved name starts with what is put in front of reserved names. -/
theorem take_ne_reservedMark :
    ∀ name ∈ reserved, name.toList.take 4 ≠ ['o', 'f', 'p', '_'] := by
  decide +kernel

/-- No name of a script is reserved. -/
theorem safeName_not_mem_reserved (name : String) : safeName name ∉ reserved := by
  unfold safeName
  split
  · intro hmem
    exact take_ne_reservedMark _ hmem (by simp [reservedMark])
  next h => exact h

theorem safeName_not_mem_keywords (name : String) : safeName name ∉ keywords := by
  intro hmem
  refine safeName_not_mem_reserved name ?_
  simp only [reserved, List.mem_append]
  exact .inl (.inl hmem)

/-! ## Words -/

/-- The first word of a text. -/
def firstWord (text : List Char) : String :=
  String.ofList (text.takeWhile isWordChar)

/-- What follows the first word of a text. -/
def afterWord (text : List Char) : List Char :=
  text.dropWhile isWordChar

/-- A word ends where a text ends or goes on with another character. -/
def EndsWord (rest : List Char) : Prop :=
  ∀ c, rest.head? = some c → isWordChar c = false

theorem endsWord_cons {c : Char} (hc : isWordChar c = false) (cs : List Char) :
    EndsWord (c :: cs) := by
  intro d hd
  obtain rfl := Option.some.inj hd
  exact hc

theorem EndsWord.takeWhile_eq_nil {rest : List Char} (h : EndsWord rest) :
    rest.takeWhile isWordChar = [] := by
  cases rest with
  | nil => rfl
  | cons c cs => simp [h c rfl]

theorem EndsWord.dropWhile_eq_self {rest : List Char} (h : EndsWord rest) :
    rest.dropWhile isWordChar = rest := by
  cases rest with
  | nil => rfl
  | cons c cs => simp [h c rfl]

/-- A word that ends is not changed by what comes later. -/
theorem firstWord_append_of_mem {text rest : List Char} {c : Char} (hmem : c ∈ text)
    (hc : isWordChar c = false) : firstWord (text ++ rest) = firstWord text := by
  -- The word ends at `c` at the latest, so what comes behind it is not looked at.
  have hspan : ∀ cs : List Char, c ∈ cs →
      (cs ++ rest).takeWhile isWordChar = cs.takeWhile isWordChar := by
    intro cs hmem
    induction cs with
    | nil => cases hmem
    | cons d ds ih =>
      rw [List.cons_append, List.takeWhile_cons, List.takeWhile_cons]
      split
      next hd =>
        have hne : c ≠ d := by
          rintro rfl
          rw [hc] at hd
          cases hd
        rw [ih ((List.mem_cons.mp hmem).resolve_left hne)]
      next => rfl
  rw [firstWord, hspan text hmem, firstWord]

section Append

variable {word : String} (hword : ∀ c ∈ word.toList, isWordChar c = true) {rest : List Char}
  (hrest : EndsWord rest)

include hword hrest

theorem firstWord_append : firstWord (word.toList ++ rest) = word := by
  rw [firstWord, List.takeWhile_append_of_pos hword, hrest.takeWhile_eq_nil, List.append_nil,
    String.ofList_toList]

theorem afterWord_append : afterWord (word.toList ++ rest) = rest := by
  rw [afterWord, List.dropWhile_append_of_pos hword, hrest.dropWhile_eq_self]

end Append

end Primer.Script
