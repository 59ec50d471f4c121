import Primer.Proofs.Rendering.Outcome
import Mathlib.Data.List.Forall2

/-!
# Excerpts line up

An excerpt is a column of bars with line numbers to its left and source lines to its right. The
numbers are padded to the width of the last one, so all bars stand in one column
(`Location.Aligned`). The lines of an excerpt are those of the source from the first to the last
line of the location, as far as the source has them, each behind its own number. Where a location
stays on one line, there is a caret under each of its characters and nowhere else.

This holds for every error of a collection that can be rendered
(`Diagnostics.excerpts_line_up`).
-/

namespace Primer

/-! ## Columns of text -/

namespace Text

theorem toList_blanks (n : Nat) : (blanks n).toList = List.replicate n ' ' :=
  String.toList_ofList

theorem toList_fill (c : Char) (n : Nat) : (fill c n).toList = List.replicate n c :=
  String.toList_ofList

theorem toList_ofNat (n : Nat) : (ofNat n).toList = Nat.toDigits 10 n :=
  String.toList_ofList

theorem notMem_replicate_blank (n : Nat) {c : Char} (hc : c ≠ ' ') : c ∉ List.replicate n ' ' :=
  fun h => hc (List.mem_replicate.mp h).2

/-- Digits are neither blanks nor bars. -/
theorem ne_of_mem_toDigits {n : Nat} {c : Char} (h : c ∈ Nat.toDigits 10 n) :
    c ≠ ' ' ∧ c ≠ '|' := by
  have hdigit := Nat.isDigit_of_mem_toDigits (by decide) (by decide) h
  constructor <;> rintro rfl <;> cases hdigit

/-- A larger number has at least as many digits. -/
theorem digitCount_mono {m n : Nat} (h : m ≤ n) : digitCount m ≤ digitCount n := by
  have hle : ∀ k, digitCount k ≤ digitCount n ↔ k < 10 ^ digitCount n := fun k =>
    Nat.length_toDigits_le_iff (by decide) Nat.length_toDigits_pos
  exact (hle m).mpr (Nat.lt_of_le_of_lt h ((hle n).mp (Nat.le_refl _)))

/-- The column of the first bar of a line. Columns are counted from zero. -/
def barColumn? (line : String) : Option Nat :=
  line.toList.findIdx? (· = '|')

theorem barColumn?_eq {line : String} {front rest : List Char}
    (h : line.toList = front ++ '|' :: rest) (hfront : '|' ∉ front) :
    barColumn? line = some front.length := by
  have hnone : front.findIdx? (· = '|') = none := by
    rw [List.findIdx?_eq_none_iff]
    intro c hc
    exact decide_eq_false fun hbar => hfront (hbar ▸ hc)
  rw [barColumn?, h, List.findIdx?_append, hnone]
  simp [List.findIdx?_cons]

/-- The same character at the end of a line in which it does not occur before. -/
theorem getElem?_append_replicate_eq_some_iff {c : Char} {front : List Char} (hfront : c ∉ front)
    (width j : Nat) : (front ++ List.replicate width c)[j]? = some c ↔
      front.length ≤ j ∧ j < front.length + width := by
  rw [List.getElem?_append]
  split_ifs with hj
  · have hne : front[j]? ≠ some c := fun h => hfront (List.mem_of_getElem? h)
    simp only [hne, false_iff]
    omega
  · rw [List.getElem?_replicate]
    simp only [Option.ite_none_right_eq_some, and_true]
    omega

end Text

/-! ## Lines of a source -/

namespace Source

/-- The numbers of lines grow from `k` on. One of them is split off. -/
private theorem filterMap_zipIdx_step (lines : List String) (k : Nat) {first last : Nat}
    (h : first ≤ last) :
    ((lines.zipIdx k).filterMap fun (line, number) =>
        if first ≤ number ∧ number ≤ last then some (number, line) else none) =
      ((if k ≤ first then lines[first - k]? else none).map (first, ·)).toList ++
        (lines.zipIdx k).filterMap fun (line, number) =>
          if first + 1 ≤ number ∧ number ≤ last then some (number, line) else none := by
  induction lines generalizing k with
  | nil => simp
  | cons line lines ih =>
    rw [List.zipIdx_cons, List.filterMap_cons, List.filterMap_cons, ih (k + 1)]
    rcases Nat.lt_trichotomy k first with hlt | rfl | hgt
    · -- The first line is left out on both sides.
      have hout : ¬(first ≤ k ∧ k ≤ last) := by omega
      have hout' : ¬(first + 1 ≤ k ∧ k ≤ last) := by omega
      have hindex : first - k = first - (k + 1) + 1 := by omega
      have hnext : k + 1 ≤ first := hlt
      simp only [hout, hout', hnext, Nat.le_of_lt hlt, if_true, if_false, hindex,
        List.getElem?_cons_succ]
    · -- The first line is the one that is split off.
      have hin : k ≤ k ∧ k ≤ last := ⟨Nat.le_refl k, h⟩
      have hout : ¬(k + 1 ≤ k) := by omega
      simp [hin, hout]
    · have hsame : first ≤ k ∧ k ≤ last ↔ first + 1 ≤ k ∧ k ≤ last := by omega
      have hout : ¬(k ≤ first) := by omega
      have hout' : ¬(k + 1 ≤ first) := by omega
      simp [hsame, hout, hout']

/-- The lines between two numbers start with the first of them, if the source has it. -/
theorem linesBetween_step (s : Source) {first last : Nat} (h : first ≤ last) :
    s.linesBetween first last =
      ((s.line? first).map (first, ·)).toList ++ s.linesBetween (first + 1) last := by
  have hline : s.line? first = if 1 ≤ first then s.lines[first - 1]? else none := by
    cases first <;> rfl
  rw [hline]
  exact filterMap_zipIdx_step s.lines 1 h

theorem linesBetween_of_lt (s : Source) {first last : Nat} (h : last < first) :
    s.linesBetween first last = [] := by
  refine List.filterMap_eq_nil_iff.mpr fun x _ => if_neg ?_
  omega

theorem number_le_of_mem_linesBetween {s : Source} {first last : Nat} {x : Nat × String}
    (h : x ∈ s.linesBetween first last) : x.1 ≤ last := by
  obtain ⟨⟨line, number⟩, -, hx⟩ := List.mem_filterMap.mp h
  obtain ⟨hin, hx⟩ := Option.ite_none_right_eq_some.mp hx
  obtain rfl := Option.some.inj hx
  exact hin.2

/-- Lines are asked for one after the other, and those that the source has are taken. -/
theorem linesBetween_eq (s : Source) (first last : Nat) :
    s.linesBetween first last =
      (List.range' first (last + 1 - first)).filterMap fun n => (s.line? n).map (n, ·) := by
  generalize hcount : last + 1 - first = count
  induction count generalizing first with
  | zero => exact s.linesBetween_of_lt (by omega)
  | succ count ih =>
    rw [s.linesBetween_step (by omega), ih (first + 1) (by omega), List.range'_succ,
      List.filterMap_cons]
    cases s.line? first <;> rfl

end Source

/-! ## Parts of an excerpt -/

namespace Location

open Text

/-- The column in which a quoted line has its `k`-th character, counted from one. -/
def charColumn (bar k : Nat) : Nat :=
  bar + 1 + k

/-- A source line behind its number and a bar. -/
structure Quotes (bar number : Nat) (text line : String) : Prop where
  barred : barColumn? line = some bar
  /-- Left of the bar are the digits of the number and blanks. -/
  numbered : (line.toList.take bar).filter (· ≠ ' ') = (ofNat number).toList
  /-- Right of the bar is the text, one column for each character. -/
  shown : ∀ k, 1 ≤ k → line.toList[charColumn bar k]? = text.toList[k - 1]?

/-- A blank line with a bar, quoted lines and a row of carets that fit together. -/
structure Aligned (l : Location) (blank : String) (quoted : List String) (carets : String) :
    Prop where
  /-- All bars stand in the column after the number of the last line and a blank. -/
  blank_barred : barColumn? blank = some (digitCount l.stop.line.toNat + 1)
  carets_barred : barColumn? carets = some (digitCount l.stop.line.toNat + 1)
  /-- The quoted lines are those that the source has, in order, with their numbers. -/
  quotes : List.Forall₂ (fun (number, text) line =>
      Quotes (digitCount l.stop.line.toNat + 1) number text line)
    ((List.range' l.start.line.toNat (l.stop.line.toNat + 1 - l.start.line.toNat)).filterMap
      fun n => (l.source.line? n).map (n, ·))
    quoted
  /-- The carets of a location on one line stand under its characters and nowhere else. -/
  marked : l.start.line = l.stop.line → 1 ≤ l.start.column.toNat →
    l.start.column.toNat < l.stop.column.toNat →
    ∀ j, carets.toList[j]? = some '^' ↔ ∃ k, l.start.column.toNat ≤ k ∧ k < l.stop.column.toNat ∧
      j = charColumn (digitCount l.stop.line.toNat + 1) k

theorem barColumn?_blank (width : Nat) : barColumn? (blanks width ++ " |") = some (width + 1) := by
  have hline : (blanks width ++ " |").toList = List.replicate width ' ' ++ [' '] ++ '|' :: [] := by
    simp [toList_blanks]
  rw [barColumn?_eq hline]
  · simp
  · simp

/-- A number that has at most as many digits as the field is wide ends in front of the bar. -/
theorem quotes_line {width number : Nat} (h : digitCount number ≤ width) (text : String) :
    Quotes (width + 1) number text (ofNatRight width number ++ " | " ++ text) := by
  -- What stands before the bar: blanks, the number and one more blank.
  let front := List.replicate (width - digitCount number) ' ' ++ Nat.toDigits 10 number ++ [' ']
  have hline : (ofNatRight width number ++ " | " ++ text).toList =
      front ++ '|' :: ' ' :: text.toList := by
    simp [front, ofNatRight, toList_blanks, toList_ofNat]
  have hlength : front.length = width + 1 := by
    simp only [front, List.length_append, List.length_replicate, List.length_singleton]
    change width - digitCount number + digitCount number + 1 = width + 1
    omega
  constructor
  · rw [barColumn?_eq hline, hlength]
    simp only [front, List.mem_append, List.mem_singleton, not_or]
    exact ⟨⟨notMem_replicate_blank _ (by decide), fun hbar => (ne_of_mem_toDigits hbar).2 rfl⟩,
      by decide⟩
  · rw [hline, ← hlength, List.take_left, toList_ofNat]
    -- The blanks are dropped, and a number has none.
    have hdigits : (Nat.toDigits 10 number).filter (· ≠ ' ') = Nat.toDigits 10 number :=
      List.filter_eq_self.mpr fun c hc => decide_eq_true (ne_of_mem_toDigits hc).1
    simp only [front, List.filter_append, hdigits]
    simp
  · intro k hk
    obtain ⟨i, rfl⟩ := Nat.exists_eq_add_of_le hk
    -- The columns of the text are counted from one, behind the bar and a blank.
    have hcolumn : charColumn (width + 1) (1 + i) = front.length + (i + 2) := by
      rw [charColumn, hlength]
      omega
    rw [hline, hcolumn, List.getElem?_append_right (Nat.le_add_right _ _),
      Nat.add_sub_cancel_left, Nat.add_sub_cancel_left]
    rfl

/-- The row of carets in columns: the carets end it. -/
theorem caret_columns (width margin marks : Nat) :
    let line := blanks width ++ " | " ++ blanks margin ++ fill '^' marks
    barColumn? line = some (width + 1) ∧
      ∀ j, line.toList[j]? = some '^' ↔
        width + 3 + margin ≤ j ∧ j < width + 3 + margin + marks := by
  intro line
  let front := List.replicate width ' ' ++ [' ', '|', ' '] ++ List.replicate margin ' '
  have hline : line.toList = front ++ List.replicate marks '^' := by
    simp [line, front, toList_blanks, toList_fill]
  have hlength : front.length = width + 3 + margin := by
    simp only [front, List.length_append, List.length_replicate, List.length_cons, List.length_nil]
  constructor
  -- The bar comes before all carets, with blanks only in front of it.
  · have hbar : line.toList = (List.replicate width ' ' ++ [' ']) ++
        '|' :: ' ' :: (List.replicate margin ' ' ++ List.replicate marks '^') := by
      simp [hline, front]
    rw [barColumn?_eq hbar (by simp)]
    simp
  · intro j
    have hfront : '^' ∉ front := by simp [front]
    rw [hline, getElem?_append_replicate_eq_some_iff hfront, hlength]

/-- The quoted lines are the lines of the source. None of their numbers is longer than the last one.
-/
theorem forall₂_quotedLines (l : Location) :
    List.Forall₂ (fun (number, text) line =>
        Quotes (digitCount l.stop.line.toNat + 1) number text line)
      (l.source.linesBetween l.start.line.toNat l.stop.line.toNat) l.quotedLines := by
  rw [quotedLines, List.forall₂_map_right_iff, List.forall₂_same]
  rintro ⟨number, text⟩ hx
  exact quotes_line (digitCount_mono (Source.number_le_of_mem_linesBetween hx)) text

/-- The columns that are marked on one line. -/
theorem marked_columns {l : Location} (hfirst : 1 ≤ l.start.column.toNat)
    (hlt : l.start.column.toNat < l.stop.column.toNat) :
    l.marginWidth + 1 = l.start.column.toNat ∧
      l.marginWidth + l.markWidth + 1 = l.stop.column.toNat := by
  simp only [marginWidth, markWidth, firstMarked, lastMarked]
  omega

/-- The parts of every excerpt fit together. -/
theorem aligned_shownLines (l : Location) :
    l.Aligned (blanks l.gutterWidth ++ " |") l.quotedLines l.caretRow := by
  obtain ⟨hbar, hcarets⟩ := caret_columns l.gutterWidth l.marginWidth l.markWidth
  refine ⟨barColumn?_blank l.gutterWidth, hbar, ?_, ?_⟩
  · rw [← Source.linesBetween_eq]
    exact l.forall₂_quotedLines
  · intro _ hfirst hlt j
    -- The span is on one line and not reversed, so the carets are as many as its characters.
    obtain ⟨hmargin, hmarks⟩ := marked_columns hfirst hlt
    have hwidth : l.gutterWidth = digitCount l.stop.line.toNat := rfl
    rw [caretRow, hcarets j, hwidth]
    constructor
    · rintro ⟨hlow, hhigh⟩
      obtain ⟨k, rfl⟩ := Nat.exists_eq_add_of_le hlow
      refine ⟨l.start.column.toNat + k, ?_, ?_, ?_⟩
      · omega
      · omega
      · rw [charColumn]
        omega
    · rintro ⟨k, hlow, hhigh, rfl⟩
      rw [charColumn]
      omega

end Location

/-! ## Rendered collections -/

namespace Diagnostics

variable {ε : Type} [Explained ε]

/-- How an error of a collection is shown: its message, its location and its excerpt, in which all
columns fit together. -/
def Shows (kind : String) (entry : Located Location ε) (lines : List String) : Prop :=
  ∃ location blank quoted carets, entry.place.text = .ok location ∧
    lines = [kind ++ ": " ++ Explained.message entry.value, " --> " ++ location] ++
      (blank :: quoted ++ [carets]) ++ [""] ∧
    entry.place.Aligned blank quoted carets

theorem shows_shownEntry (kind : String) {entry : Located Location ε}
    (h : entry.place.fault? = none) : Shows kind entry (shownEntry kind entry) := by
  have hcolumn : entry.place.start.column ≠ Position.lastColumn := by
    intro hlast
    simp [Location.fault?, hlast] at h
  refine ⟨entry.place.label, _, _, _, ?_, rfl, entry.place.aligned_shownLines⟩
  rw [Location.text_eq, if_neg hcolumn]

/-- If a collection of errors is rendered, each error is shown with an excerpt in which all columns
fit together. -/
theorem excerpts_line_up {d : Diagnostics ε} {text : String} (hne : d.entries ≠ [])
    (h : d.render = .ok text) :
    ∃ shown, List.Forall₂ (Shows d.kind) d.entries shown ∧
      text = String.join ((shown.flatten ++ [summary d.count]).map (· ++ "\n")) := by
  rw [render_eq, unlessStopped_eq_ok_iff] at h
  obtain ⟨hfault, rfl⟩ := h
  refine ⟨d.entries.map (shownEntry d.kind), ?_, ?_⟩
  · rw [List.forall₂_map_right_iff, List.forall₂_same]
    exact fun entry hentry =>
      shows_shownEntry d.kind (List.findSome?_eq_none_iff.mp hfault entry hentry)
  · rw [shownText, if_neg]
    simpa using hne

/-- Two errors in the last lines of a source, whose numbers differ in length. -/
def tenthLine : Diagnostics String :=
  let source : Source := ⟨"ten.txt", List.replicate 8 "" ++ ["  x = y;", "    y | 5;"]⟩
  { kind := "Reference error"
    entries := [⟨⟨source, ⟨9, 3⟩, ⟨12, 1⟩⟩, "first"⟩, ⟨⟨source, ⟨10, 7⟩, ⟨10, 10⟩⟩, "second"⟩] }

theorem excerpts_line_up_tenthLine :
    tenthLine.render = .ok ("Reference error: first\n --> ten.txt:[9:3-12:1]\n   |\n" ++
        " 9 |   x = y;\n10 |     y | 5;\n   | ^^^\n\n" ++
        "Reference error: second\n --> ten.txt:[10:7-10:9]\n   |\n" ++
        "10 |     y | 5;\n   |       ^^^\n\nBuild failed with 2 errors\n") ∧
      ∃ shown, List.Forall₂ (Shows "Reference error") tenthLine.entries shown := by
  have hrender : tenthLine.render = .ok _ := rfl
  obtain ⟨shown, hshown, -⟩ := excerpts_line_up (by decide) hrender
  exact ⟨by decide +kernel, shown, hshown⟩

end Diagnostics

end Primer
