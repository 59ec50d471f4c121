import Primer.Proofs.Rendering.Excerpt

/-!
# Rendering in 32-bit words

Lines and columns are words of 32 bits, while the widths in an excerpt are computed in natural
numbers. Here the rendering is written down a second time with all arithmetic on lines and columns
in words: sums and differences that leave the words stop it, and so does padding to a field that is
too wide (`Diagnostics.renderInWords`).

Both renderings agree (`Diagnostics.renderInWords_eq`). So the only arithmetic that ever fails is
the step to the column after the last one, and rendering fails only there and where a row of carets
is too wide (`Diagnostics.render_fails_iff`).
-/

namespace Primer

/-! ## Arithmetic in words -/

/-- Why a rendering in words stops. -/
inductive WordFault where
  /-- The sum of two words is no word. -/
  | sum (a b : UInt32)
  /-- A word is taken from a smaller one. -/
  | difference (a b : UInt32)
  | other (fault : Fault)
deriving DecidableEq, Repr

/-- A fault in words. The column after the last one is a sum. -/
def Fault.inWords : Fault → WordFault
  | .columnOverflow => .sum Position.lastColumn 1
  | fault => .other fault

namespace Word

variable {a b : UInt32}

/-- The sum of two words, if it is one. -/
def add (a b : UInt32) : Except WordFault UInt32 :=
  if a.toNat + b.toNat < UInt32.size then .ok (a + b) else .error (.sum a b)

/-- The difference of two words, if it is one. -/
def sub (a b : UInt32) : Except WordFault UInt32 :=
  if b.toNat ≤ a.toNat then .ok (a - b) else .error (.difference a b)

/-- The difference of two words, zero if there is none. -/
def monus (a b : UInt32) : UInt32 :=
  if b.toNat ≤ a.toNat then a - b else 0

/-- Refuses a field that is too wide. -/
def checkWidth (width : Nat) : Except WordFault Unit :=
  (Fault.checkWidth width).mapError .other

theorem add_eq_ok (h : a.toNat + b.toNat < UInt32.size) : add a b = .ok (a + b) :=
  if_pos h

theorem sub_eq_ok (h : b.toNat ≤ a.toNat) : sub a b = .ok (a - b) :=
  if_pos h

theorem toNat_add (h : a.toNat + b.toNat < UInt32.size) : (a + b).toNat = a.toNat + b.toNat := by
  rw [UInt32.toNat_add, Nat.mod_eq_of_lt h]

theorem toNat_sub (h : b.toNat ≤ a.toNat) : (a - b).toNat = a.toNat - b.toNat :=
  UInt32.toNat_sub_of_le _ _ h

theorem toNat_monus : (monus a b).toNat = a.toNat - b.toNat := by
  unfold monus
  split_ifs with h
  · exact toNat_sub h
  · change 0 = a.toNat - b.toNat
    omega

end Word

/-! ## Locations in words -/

namespace Location

variable (l : Location)

/-- The text of a location. The last column is one back from the stop, and at least one. -/
def textInWords : Except WordFault String := do
  let next ← Word.add l.start.column 1
  let last : Position := ⟨l.stop.line, max (Word.monus l.stop.column 1) 1⟩
  return l.source.name ++ ":" ++
    if l.stop = ⟨l.start.line, next⟩ then l.start.text
    else "[" ++ l.start.text ++ "-" ++ last.text ++ "]"

/-- The source line with a given number, if the source has it. -/
def quoteInWords (n : UInt32) : Except WordFault (List String) :=
  ((l.source.line? n.toNat).map fun line => do
    Word.checkWidth l.gutterWidth
    return [Text.ofNatRight l.gutterWidth n.toNat ++ " | " ++ line]).getD (.ok [])

/-- The source line with a given number and as many lines after it as are asked for. -/
def quotesInWords : Nat → UInt32 → Except WordFault (List String)
  | 0, n => l.quoteInWords n
  | steps + 1, n => do
    let first ← l.quoteInWords n
    let next ← Word.add n 1
    let rest ← quotesInWords steps next
    return first ++ rest

/-- The source lines of a location. There are none if it stops on an earlier line. -/
def quotedLinesInWords : Except WordFault (List String) :=
  if l.start.line.toNat ≤ l.stop.line.toNat then
    l.quotesInWords (l.stop.line.toNat - l.start.line.toNat) l.start.line
  else .ok []

/-- The leftmost column that an excerpt marks. -/
def firstInWords : UInt32 :=
  max (min l.start.column (Word.monus l.stop.column 1)) 1

/-- The rightmost column that an excerpt marks. -/
def lastInWords : UInt32 :=
  max (max l.start.column (Word.monus l.stop.column 1)) 1

/-- How many columns stand left of the marked ones, and how many are marked. -/
def widthsInWords : Except WordFault (UInt32 × UInt32) := do
  let margin ← Word.sub l.firstInWords 1
  let span ← Word.sub l.lastInWords l.firstInWords
  let marks ← Word.add span 1
  return (margin, marks)

/-- The lines that show a location within its source. -/
def excerptInWords : Except WordFault (List String) := do
  Word.checkWidth l.gutterWidth
  let quoted ← l.quotedLinesInWords
  let (margin, marks) ← l.widthsInWords
  Word.checkWidth l.gutterWidth
  Word.checkWidth margin.toNat
  Word.checkWidth marks.toNat
  return (Text.blanks l.gutterWidth ++ " |") :: quoted ++
    [Text.blanks l.gutterWidth ++ " | " ++ Text.blanks margin.toNat ++ Text.fill '^' marks.toNat]

end Location

/-! ## Collections in words -/

namespace Diagnostics

variable {ε : Type} [Explained ε]

/-- The lines of one error, a blank one last. -/
def entryLinesInWords (kind : String) (entry : Located Location ε) :
    Except WordFault (List String) := do
  let location ← entry.place.textInWords
  let excerpt ← entry.place.excerptInWords
  return [kind ++ ": " ++ Explained.message entry.value, " --> " ++ location] ++ excerpt ++ [""]

/-- The text of a collection. -/
def renderInWords (d : Diagnostics ε) : Except WordFault String :=
  if d.entries.isEmpty then .ok "No errors were reported\n"
  else do
    let entries ← d.entries.mapM (entryLinesInWords d.kind)
    return String.join ((entries.flatten ++ [summary d.count]).map (· ++ "\n"))

end Diagnostics

/-! ## Both renderings agree -/

namespace Position

variable (p : Position)

theorem eq_lastColumn_iff {column : UInt32} :
    column = lastColumn ↔ column.toNat = 4294967295 :=
  UInt32.toNat_inj.symm

theorem advance_inWords :
    Word.add p.column 1 =
      if p.column = lastColumn then .error (.sum lastColumn 1) else .ok (p.column + 1) := by
  have hlt : p.column.toNat < 4294967296 := p.column.toNat_lt
  split_ifs with h
  · rw [h]
    rfl
  · refine Word.add_eq_ok ?_
    change p.column.toNat + 1 < 4294967296
    rw [eq_lastColumn_iff] at h
    omega

theorem back_inWords : p.back = ⟨p.line, max (Word.monus p.column 1) 1⟩ := by
  have hone : p.column ≤ 1 ↔ p.column.toNat ≤ 1 := UInt32.le_iff_toNat_le
  have hcolumn : p.back.column = max (Word.monus p.column 1) 1 := by
    rw [← UInt32.toNat_inj, UInt32.toNat_max, Word.toNat_monus]
    unfold back
    split_ifs with h
    · rw [hone] at h
      change 1 = max (p.column.toNat - 1) 1
      omega
    · rw [hone] at h
      rw [Word.toNat_sub (Nat.le_of_not_le h)]
      change p.column.toNat - 1 = max (p.column.toNat - 1) 1
      omega
  rw [← hcolumn]
  rfl

end Position

namespace Location

variable (l : Location)

theorem textInWords_eq :
    l.textInWords =
      if l.start.column = Position.lastColumn then .error (.sum Position.lastColumn 1)
      else .ok l.label := by
  rw [textInWords, Position.advance_inWords, label, Position.back_inWords]
  by_cases h : l.start.column = Position.lastColumn
  · rw [if_pos h, if_pos h]
    rfl
  · rw [if_neg h, if_neg h]
    rfl

/-- A line number has at most ten digits. -/
theorem checkWidth_gutterWidth : Word.checkWidth l.gutterWidth = .ok () := by
  have hdigits : l.gutterWidth ≤ 10 :=
    (Nat.length_toDigits_le_iff (by decide) (by decide)).mpr
      (Nat.lt_trans l.stop.line.toNat_lt (by decide))
  have hfield : l.gutterWidth ≤ Fault.widestField := Nat.le_trans hdigits (by decide)
  rw [Word.checkWidth, Fault.checkWidth, if_pos hfield]
  rfl

/-- A numbered line as an excerpt shows it. -/
def quote (numbered : Nat × String) : String :=
  Text.ofNatRight l.gutterWidth numbered.1 ++ " | " ++ numbered.2

theorem quoteInWords_eq (n : UInt32) :
    l.quoteInWords n =
      .ok (((l.source.line? n.toNat).map (n.toNat, ·)).toList.map l.quote) := by
  unfold quoteInWords
  cases l.source.line? n.toNat with
  | none => rfl
  | some line =>
    rw [checkWidth_gutterWidth]
    rfl

/-- The numbers of lines stay words up to the last line that is asked for. -/
theorem quotesInWords_eq (steps : Nat) (n : UInt32) (h : n.toNat + steps < UInt32.size) :
    l.quotesInWords steps n =
      .ok ((l.source.linesBetween n.toNat (n.toNat + steps)).map l.quote) := by
  induction steps generalizing n with
  | zero =>
    rw [quotesInWords, quoteInWords_eq, Nat.add_zero, l.source.linesBetween_step (Nat.le_refl _),
      l.source.linesBetween_of_lt (Nat.lt_add_one _), List.append_nil]
  | succ steps ih =>
    have hnext : n.toNat + (1 : UInt32).toNat < UInt32.size := by
      change n.toNat + 1 < UInt32.size
      omega
    -- The bound on the last line keeps the counter from wrapping on the way.
    have hnumber : (n + 1).toNat = n.toNat + 1 := Word.toNat_add hnext
    have hrest := ih (n + 1) (by rw [hnumber]; omega)
    rw [hnumber, Nat.add_right_comm] at hrest
    rw [quotesInWords, quoteInWords_eq, Word.add_eq_ok hnext,
      l.source.linesBetween_step (Nat.le_add_right ..), List.map_append]
    change (l.quotesInWords steps (n + 1) >>= fun rest => pure (_ ++ rest)) = _
    rw [hrest]
    rfl

theorem quotedLinesInWords_eq : l.quotedLinesInWords = .ok l.quotedLines := by
  unfold quotedLinesInWords
  split_ifs with h
  · have hstop : l.start.line.toNat + (l.stop.line.toNat - l.start.line.toNat) =
        l.stop.line.toNat := Nat.add_sub_cancel' h
    rw [quotesInWords_eq, hstop]
    · rfl
    · rw [hstop]
      exact l.stop.line.toNat_lt
  · rw [quotedLines, l.source.linesBetween_of_lt (Nat.lt_of_not_le h)]
    rfl

theorem toNat_firstInWords : l.firstInWords.toNat = l.firstMarked := by
  rw [firstInWords, UInt32.toNat_max, UInt32.toNat_min, Word.toNat_monus]
  exact Nat.max_comm _ _

theorem toNat_lastInWords : l.lastInWords.toNat = l.lastMarked := by
  rw [lastInWords, UInt32.toNat_max, UInt32.toNat_max, Word.toNat_monus]
  exact Nat.max_comm _ _

/-- The widths are words, since the first marked column is at least one and at most the last. -/
theorem widthsInWords_eq :
    ∃ margin marks, l.widthsInWords = .ok (margin, marks) ∧
      margin.toNat = l.marginWidth ∧ marks.toNat = l.markWidth := by
  have hfirst := l.toNat_firstInWords
  have hlast := l.toNat_lastInWords
  -- The first marked column is at least one, so subtracting one is safe.
  have hpos : (1 : UInt32).toNat ≤ l.firstInWords.toNat := hfirst ▸ Nat.le_max_left ..
  have hle : l.firstInWords.toNat ≤ l.lastInWords.toNat := by
    rw [hfirst, hlast, firstMarked, lastMarked]
    omega
  have hspan := Word.toNat_sub hle
  -- The span is less than the last column, so adding one does not wrap.
  have hadd : (l.lastInWords - l.firstInWords).toNat + (1 : UInt32).toNat < UInt32.size := by
    have hlt : l.lastInWords.toNat < UInt32.size := l.lastInWords.toNat_lt
    change 1 ≤ l.firstInWords.toNat at hpos
    change (l.lastInWords - l.firstInWords).toNat + 1 < UInt32.size
    omega
  refine ⟨l.firstInWords - 1, l.lastInWords - l.firstInWords + 1, ?_, ?_, ?_⟩
  · rw [widthsInWords, Word.sub_eq_ok hpos, Word.sub_eq_ok hle]
    change (Word.add _ 1 >>= fun marks => pure (l.firstInWords - 1, marks)) = _
    rw [Word.add_eq_ok hadd]
    rfl
  · rw [Word.toNat_sub hpos, hfirst]
    rfl
  · rw [Word.toNat_add hadd, hspan, hfirst, hlast]
    rfl

theorem excerptInWords_eq :
    l.excerptInWords =
      if l.Fits then .ok l.shownLines else .error (.other .widthOutOfRange) := by
  obtain ⟨margin, marks, hwidths, hmargin, hmarks⟩ := l.widthsInWords_eq
  unfold excerptInWords
  rw [checkWidth_gutterWidth, quotedLinesInWords_eq, hwidths]
  change (Word.checkWidth margin.toNat >>= fun _ => Word.checkWidth marks.toNat >>= fun _ =>
    pure ((Text.blanks l.gutterWidth ++ " |") :: l.quotedLines ++
      [Text.blanks l.gutterWidth ++ " | " ++ Text.blanks margin.toNat ++
        Text.fill '^' marks.toNat])) = _
  rw [hmargin, hmarks]
  unfold Word.checkWidth Fault.checkWidth Fits
  by_cases hmarginFits : l.marginWidth ≤ Fault.widestField <;>
    by_cases hmarksFit : l.markWidth ≤ Fault.widestField <;>
    simp only [hmarginFits, hmarksFit] <;> rfl

end Location

namespace Diagnostics

variable {ε : Type} [Explained ε]

theorem entryLinesInWords_eq (kind : String) (entry : Located Location ε) :
    entryLinesInWords kind entry =
      unlessStopped (entry.place.fault?.map Fault.inWords) (shownEntry kind entry) := by
  rw [entryLinesInWords, Location.textInWords_eq, Location.excerptInWords_eq, Location.fault?]
  split_ifs <;> rfl

/-- Both renderings yield the same text or stop for the same reason. -/
theorem renderInWords_eq (d : Diagnostics ε) :
    d.renderInWords = d.render.mapError Fault.inWords := by
  have hfault : d.entries.findSome? (·.place.fault?.map Fault.inWords) =
      (d.entries.findSome? (·.place.fault?)).map Fault.inWords :=
    List.map_findSome?.symm
  rw [render_eq, renderInWords, mapM_unlessStopped (entryLinesInWords_eq d.kind), hfault, shownText]
  cases hentries : d.entries with
  | nil => rfl
  | cons entry entries =>
    cases (entry :: entries).findSome? (·.place.fault?) <;> rfl

end Diagnostics

/-! ## When rendering fails -/

namespace Location

variable {l : Location}

/-- The start is in the last column, or the row of carets needs a field of more than 65535 columns:
left of the carets, or for the carets themselves. -/
def Unshowable (l : Location) : Prop :=
  let beforeStop := l.stop.column.toNat - 1
  let first := max 1 (min l.start.column.toNat beforeStop)
  let last := max 1 (max l.start.column.toNat beforeStop)
  l.start.column.toNat = 4294967295 ∨ 65535 < first - 1 ∨ 65535 < last - first + 1

instance (l : Location) : Decidable l.Unshowable :=
  inferInstanceAs (Decidable (_ ∨ _ ∨ _))

theorem exists_fault?_iff : (∃ fault, l.fault? = some fault) ↔ l.Unshowable := by
  have hfits : l.Fits ↔ ¬ (65535 < l.marginWidth ∨ 65535 < l.markWidth) := by
    rw [not_or, Nat.not_lt, Nat.not_lt]
    rfl
  change _ ↔ _ ∨ 65535 < l.marginWidth ∨ 65535 < l.markWidth
  unfold fault?
  split_ifs with hcolumn hfit
  · exact iff_of_true ⟨_, rfl⟩ (.inl (Position.eq_lastColumn_iff.mp hcolumn))
  · refine iff_of_false ?_ (not_or.mpr ⟨mt Position.eq_lastColumn_iff.mpr hcolumn,
      hfits.mp hfit⟩)
    rintro ⟨_, ⟨⟩⟩
  · exact iff_of_true ⟨_, rfl⟩ (.inr (Classical.not_not.mp (mt hfits.mpr hfit)))

theorem fault?_cases {fault : Fault} (h : l.fault? = some fault) :
    fault = .columnOverflow ∧ l.start.column = Position.lastColumn ∨ fault = .widthOutOfRange := by
  unfold fault? at h
  split_ifs at h with hlast
  · exact .inl ⟨(Option.some.inj h).symm, hlast⟩
  · exact .inr (Option.some.inj h).symm

end Location

namespace Diagnostics

variable {ε : Type} [Explained ε]

/-- A collection is refused for one of its errors. -/
theorem exists_fault?_of_render {d : Diagnostics ε} {fault : Fault} (h : d.render = .error fault) :
    ∃ entry ∈ d.entries, entry.place.fault? = some fault := by
  rw [render_eq, unlessStopped_eq_error_iff] at h
  exact List.exists_of_findSome?_eq_some h

/-- One error that cannot be shown is enough to refuse a collection. -/
theorem exists_render_eq_error_iff (d : Diagnostics ε) :
    (∃ fault, d.render = .error fault) ↔
      ∃ entry ∈ d.entries, ∃ fault, entry.place.fault? = some fault := by
  simp only [render_eq, unlessStopped_eq_error_iff, ← Option.isSome_iff_exists,
    List.findSome?_isSome_iff]

/-- No sum or difference of words fails but the one at the last column, and rendering fails for
exactly the collections with an error that cannot be shown. -/
theorem render_fails_iff (d : Diagnostics ε) :
    d.renderInWords = d.render.mapError Fault.inWords ∧
    (∀ stopping, d.renderInWords = .error stopping →
      (stopping = .sum 4294967295 1 ∧
        ∃ entry ∈ d.entries, entry.place.start.column = 4294967295) ∨
      stopping = .other .widthOutOfRange) ∧
    ((∃ fault, d.render = .error fault) ↔ ∃ entry ∈ d.entries, entry.place.Unshowable) := by
  refine ⟨d.renderInWords_eq, ?_, ?_⟩
  · intro stopping hstop
    rw [renderInWords_eq] at hstop
    cases hrender : d.render with
    | ok text =>
      rw [hrender] at hstop
      cases hstop
    | error fault =>
      rw [hrender] at hstop
      cases hstop
      obtain ⟨entry, hmem, hfault⟩ := exists_fault?_of_render hrender
      -- A fault is either the one sum that can wrap, or a padding that is too wide.
      obtain ⟨rfl, hlast⟩ | rfl := Location.fault?_cases hfault
      · exact .inl ⟨rfl, entry, hmem, hlast⟩
      · exact .inr rfl
  · rw [exists_render_eq_error_iff]
    simp only [Location.exists_fault?_iff]

/-- An inverted and empty stretch, and behind it one that starts in the last column. -/
def farColumns : Diagnostics String :=
  ⟨"error", [⟨⟨.unnamed, ⟨2, 0⟩, ⟨1, 0⟩⟩, "inverted"⟩,
    ⟨⟨.unnamed, ⟨1, 4294967295⟩, ⟨1, 7⟩⟩, "last column"⟩]⟩

theorem render_fails_iff_farColumns :
    farColumns.renderInWords = .error (.sum 4294967295 1) ∧
      ∃ fault, farColumns.render = .error fault :=
  ⟨rfl, (render_fails_iff farColumns).2.2.mpr
    ⟨_, List.mem_cons_of_mem _ List.mem_cons_self, by decide⟩⟩

/-- A margin of 65535 columns can be shown and one more cannot. -/
example : ¬ (⟨.unnamed, ⟨1, 65536⟩, ⟨1, 65537⟩⟩ : Location).Unshowable ∧
    (⟨.unnamed, ⟨1, 65537⟩, ⟨1, 65538⟩⟩ : Location).Unshowable := by
  decide

end Diagnostics

end Primer
