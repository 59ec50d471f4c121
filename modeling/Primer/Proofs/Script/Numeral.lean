import Primer.Proofs.Script.Token
import Primer.Proofs.Decimal.Rounding

/-!
# Numerals

The numbers of scripts are read back by the reader of tokens. A whole number is read as itself
(`tokenize?_ofNat`). A float is read as the decimal that was written for it (`tokenize?_floatText`),
and this decimal rounds to the float (`roundsTo_floatValue`).
-/

namespace Primer.Script

/-! ## Digits -/

theorem digitsValue_append (ds es : List Char) :
    digitsValue (ds ++ es) = 10 ^ es.length * digitsValue ds + digitsValue es := by
  rw [digitsValue, Nat.ofDigitChars_append, Nat.ofDigitChars_eq_ofDigitChars_zero]
  rfl

theorem digitsValue_replicate_zero (n : Nat) : digitsValue (List.replicate n '0') = 0 := by
  rw [digitsValue, Nat.ofDigitChars_replicate_zero, Nat.mul_zero]

theorem digitsValue_toDigits (n : Nat) : digitsValue (Nat.toDigits 10 n) = n :=
  Nat.ofDigitChars_ten_toDigits

theorem isDigit_of_mem_toDigits {n : Nat} : ∀ c ∈ Nat.toDigits 10 n, c.isDigit = true :=
  fun _ => Nat.isDigit_of_mem_toDigits (by decide) (by decide)

theorem isDigit_of_mem_zeros {n : Nat} : ∀ c ∈ List.replicate n '0', c.isDigit = true := by
  intro c hc
  obtain rfl := (List.mem_replicate.mp hc).2
  decide

/-- Only zero starts with a zero. -/
theorem eq_zero_of_head?_toDigits {n : Nat} (h : (Nat.toDigits 10 n).head? = some '0') : n = 0 := by
  induction n using Nat.strongRecOn with
  | ind n ih =>
    rw [Nat.toDigits_eq_if (by decide)] at h
    split_ifs at h with hlt
    · have hdigits : ∀ n < 10, n.digitChar = '0' → n = 0 := by decide
      exact hdigits n hlt (Option.some.inj h)
    · rw [List.head?_append_of_ne_nil _ Nat.toDigits_ne_nil] at h
      have hzero := ih (n / 10) (by omega) h
      omega

/-- Digits end where a text ends or goes on with another character. -/
def EndsDigits (rest : List Char) : Prop :=
  rest.head?.any Char.isDigit = false

theorem endsDigits_cons {c : Char} (hc : c.isDigit = false) (cs : List Char) :
    EndsDigits (c :: cs) :=
  hc

theorem Follows.endsDigits {rest : List Char} (h : Follows rest) : EndsDigits rest :=
  h.head?_any (by decide)

theorem takeWhile_digits {ds rest : List Char} (hds : ∀ c ∈ ds, c.isDigit = true)
    (hrest : EndsDigits rest) : (ds ++ rest).takeWhile Char.isDigit = ds := by
  rw [List.takeWhile_append_of_pos hds]
  cases rest with
  | nil => simp
  | cons c cs =>
    have hc : c.isDigit = false := hrest
    simp [hc]

theorem dropWhile_digits {ds rest : List Char} (hds : ∀ c ∈ ds, c.isDigit = true)
    (hrest : EndsDigits rest) : (ds ++ rest).dropWhile Char.isDigit = rest := by
  rw [List.dropWhile_append_of_pos hds]
  cases rest with
  | nil => rfl
  | cons c cs =>
    have hc : c.isDigit = false := hrest
    simp [hc]

/-! ## Parts of a number -/

theorem fraction_of_head?_ne {cs : List Char} (h : cs.head? ≠ some '.') :
    fraction cs = (none, cs) := by
  unfold fraction
  split
  next => exact absurd rfl h
  next => rfl

theorem fraction_point {ds rest : List Char} (hds : ∀ c ∈ ds, c.isDigit = true)
    (hrest : EndsDigits rest) : fraction ('.' :: (ds ++ rest)) = (some ds, rest) := by
  rw [fraction, takeWhile_digits hds hrest, dropWhile_digits hds hrest]

theorem exponent?_of_follows {rest : List Char} (h : Follows rest) :
    exponent? rest = some (none, rest) := by
  cases rest with
  | nil => rfl
  | cons c cs =>
    have hne : (c :: cs).head?.any (fun c => c = 'e' || c = 'E') = false := h.head?_any (by decide)
    rw [exponent?, if_neg (by simpa using hne)]

theorem exponentSign_of_isDigit {c : Char} (hc : c.isDigit = true) (cs : List Char) :
    exponentSign (c :: cs) = (1, c :: cs) := by
  unfold exponentSign
  split
  next h =>
    obtain rfl := (List.cons.inj h).1
    exact absurd hc (by decide)
  next h =>
    obtain rfl := (List.cons.inj h).1
    exact absurd hc (by decide)
  next => rfl

/-- An exponent with its sign and its digits. -/
theorem exponent?_of_sign {cs rest ds : List Char} {sign : Int} (hrest : Follows rest)
    (hne : ds ≠ []) (hds : ∀ c ∈ ds, c.isDigit = true)
    (hsign : exponentSign cs = (sign, ds ++ rest)) :
    exponent? ('e' :: cs) = some (some (sign * digitsValue ds), rest) := by
  have hempty : ds.isEmpty = false := by simp [hne]
  simp only [exponent?, hsign, takeWhile_digits hds hrest.endsDigits,
    dropWhile_digits hds hrest.endsDigits, hempty]
  rfl

/-- An exponent as it is written. -/
theorem exponent?_ofInt (i : Int) {rest : List Char} (h : Follows rest) :
    exponent? ('e' :: ((Text.ofInt i).toList ++ rest)) = some (some i, rest) := by
  cases i with
  | ofNat n =>
    -- Without a sign the digits start at once, and a digit is not taken for a sign.
    have hsign : exponentSign (Nat.toDigits 10 n ++ rest) = (1, Nat.toDigits 10 n ++ rest) := by
      obtain ⟨c, cs, hcs⟩ := List.exists_cons_of_ne_nil (Nat.toDigits_ne_nil (n := n) (b := 10))
      rw [hcs]
      exact exponentSign_of_isDigit (isDigit_of_mem_toDigits c (hcs ▸ List.mem_cons_self)) _
    rw [Text.ofInt, Text.ofNat, String.toList_ofList,
      exponent?_of_sign h Nat.toDigits_ne_nil isDigit_of_mem_toDigits hsign, digitsValue_toDigits]
    simp
  | negSucc n =>
    have hsign : exponentSign ('-' :: (Nat.toDigits 10 (n + 1) ++ rest)) =
        (-1, Nat.toDigits 10 (n + 1) ++ rest) := rfl
    have htext : (Text.ofInt (.negSucc n)).toList = '-' :: Nat.toDigits 10 (n + 1) := by
      simp [Text.ofInt, Text.ofNat]
    rw [htext, List.cons_append,
      exponent?_of_sign h Nat.toDigits_ne_nil isDigit_of_mem_toDigits hsign, digitsValue_toDigits,
      Int.negSucc_eq]
    simp

/-- A number with given parts. -/
theorem number?_of_parts {whole tail tail' rest : List Char} {digits : Option (List Char)}
    {exponent : Option Int} (hwhole : ∀ c ∈ whole, c.isDigit = true) (htail : EndsDigits tail)
    (hfraction : fraction tail = (digits, tail'))
    (hexponent : exponent? tail' = some (exponent, rest)) :
    number? (whole ++ tail) = (numberToken? whole digits exponent).map (·, rest) := by
  rw [number?, dropWhile_digits hwhole htail, takeWhile_digits hwhole htail, hfraction]
  simp only [hexponent, Option.bind_eq_bind, Option.bind_some]
  cases numberToken? whole digits exponent <;> rfl

theorem isWordStart_of_isDigit {c : Char} (h : c.isDigit = true) : isWordStart c = false := by
  have hrange : 48 ≤ c.toNat ∧ c.toNat ≤ 57 := by
    simpa [Char.isDigit, UInt32.le_iff_toNat_le] using h
  have hupper : c.isUpper = decide (65 ≤ c.val ∧ c.val ≤ 90) := rfl
  have hlower : c.isLower = (decide (97 ≤ c.val) && decide (c.val ≤ 122)) := rfl
  have halpha : (c.isUpper || c.isLower) = false := by
    rw [hupper, hlower, Bool.or_eq_false_iff, Bool.and_eq_false_iff]
    simp only [decide_eq_false_iff_not, UInt32.le_iff_toNat_le]
    have hval : c.val.toNat = c.toNat := rfl
    have hconst : (65 : UInt32).toNat = 65 ∧ (97 : UInt32).toNat = 97 := ⟨rfl, rfl⟩
    omega
  have hunderscore : c ≠ '_' := by
    rintro rfl
    exact absurd h (by decide)
  rw [isWordStart, Bool.or_eq_false_iff]
  exact ⟨halpha, by simpa using hunderscore⟩

/-- A number is a token of its own. -/
theorem tokenize?_of_number? {c : Char} {cs rest : List Char} {token : Token}
    (hdigit : c.isDigit = true) (h : number? (c :: cs ++ rest) = some (token, rest))
    (hrest : Follows rest) : tokenize? (c :: cs ++ rest) = (tokenize? rest).map (token :: ·) := by
  have hword : rest.head?.any isWordChar = false := hrest.head?_any (by decide)
  have hblank : c ≠ ' ' := by
    rintro rfl
    exact absurd hdigit (by decide)
  refine tokenize?_of_token? hblank ?_ (by simp)
  rw [List.cons_append] at h
  simp [token?, isWordStart_of_isDigit hdigit, hdigit, h, hword]

/-! ## Whole numbers -/

theorem tokenize?_ofNat (n : Nat) {rest : List Char} (hrest : Follows rest) :
    tokenize? ((Text.ofNat n).toList ++ rest) = (tokenize? rest).map (.int n :: ·) := by
  have hpoint : rest.head? ≠ some '.' := fun h => absurd (hrest '.' h) (by decide)
  -- A leading zero is refused unless it is the whole number.
  have hzeros : ¬((Nat.toDigits 10 n).head? = some '0' && (Nat.toDigits 10 n).length != 1) := by
    intro h
    rw [Bool.and_eq_true, decide_eq_true_eq, bne_iff_ne] at h
    obtain rfl := eq_zero_of_head?_toDigits h.1
    exact h.2 rfl
  have htoken : numberToken? (Nat.toDigits 10 n) none none = some (.int n) := by
    rw [numberToken?, if_neg hzeros, digitsValue_toDigits]
  -- Neither a fraction nor an exponent follows, so the digits are the whole numeral.
  have hnumber : number? (Nat.toDigits 10 n ++ rest) = some (.int n, rest) := by
    rw [number?_of_parts isDigit_of_mem_toDigits hrest.endsDigits (fraction_of_head?_ne hpoint)
      (exponent?_of_follows hrest), htoken]
    rfl
  rw [Text.ofNat, String.toList_ofList]
  obtain ⟨c, cs, hcs⟩ := List.exists_cons_of_ne_nil (Nat.toDigits_ne_nil (n := n) (b := 10))
  rw [hcs] at hnumber ⊢
  exact tokenize?_of_number? (isDigit_of_mem_toDigits c (hcs ▸ List.mem_cons_self)) hnumber hrest

/-! ## Floats -/

/-- Whether a float is written without a sign. -/
def isUnsigned (bits : UInt64) : Bool :=
  match Decimal.Double.ofBits bits with
  | .zero negative | .finite negative _ => !negative
  | _ => false

/-- The value of the decimal that is written for a float. -/
def floatValue (bits : UInt64) : ℚ :=
  match Decimal.Double.ofBits bits with
  | .finite _ b => (b.shortest?.map Decimal.Shortest.value).getD 0
  | _ => 0

/-- A number with a point. -/
theorem number?_point {whole digits rest tail : List Char} {exponent : Option Int} {x : ℚ}
    (hwhole : ∀ c ∈ whole, c.isDigit = true) (hdigits : ∀ c ∈ digits, c.isDigit = true)
    (htail : EndsDigits tail) (hexponent : exponent? tail = some (exponent, rest))
    (hx : digitsValue (whole ++ digits) *
      (10 : ℚ) ^ (exponent.getD 0 - (digits.length : Int)) = x) :
    number? (whole ++ '.' :: (digits ++ tail)) = some (.float x, rest) := by
  rw [number?_of_parts hwhole (endsDigits_cons (by decide) _) (fraction_point hdigits htail)
    hexponent, ← hx]
  rfl

/-- A number with an exponent and no point. -/
theorem number?_exponent {whole rest tail : List Char} {exponent : Int}
    (hwhole : ∀ c ∈ whole, c.isDigit = true)
    (hexponent : exponent? ('e' :: tail) = some (some exponent, rest)) :
    number? (whole ++ 'e' :: tail) =
      some (.float (digitsValue whole * (10 : ℚ) ^ exponent), rest) := by
  rw [number?_of_parts hwhole (endsDigits_cons (by decide) _) (fraction_of_head?_ne (by simp))
    hexponent]
  simp [numberToken?]

section Digits

variable {ds rest : List Char} (hds : ∀ c ∈ ds, c.isDigit = true) (hrest : Follows rest) (e : Int)

include hds hrest

/-- The value of digits does not depend on where the point is written. -/
theorem number?_positional :
    number? (positional ds (ds.length + e) ++ rest) =
      some (.float (digitsValue ds * 10 ^ e), rest) := by
  simp only [positional]
  split_ifs with hleading hwhole
  · -- Zeros stand between the point and the digits.
    obtain ⟨k, hk⟩ : ∃ k, (-(ds.length + e)).toNat = k := ⟨_, rfl⟩
    have htext : ['0', '.'] ++ List.replicate k '0' ++ ds ++ rest =
        ['0'] ++ '.' :: (List.replicate k '0' ++ ds ++ rest) := by
      simp
    have hvalue : digitsValue (['0'] ++ (List.replicate k '0' ++ ds)) = digitsValue ds := by
      rw [digitsValue_append, digitsValue_append, digitsValue_replicate_zero]
      simp [digitsValue, Nat.ofDigitChars_cons, Nat.ofDigitChars_nil]
    have hexponent : (0 : Int) - (List.replicate k '0' ++ ds).length = e := by
      rw [List.length_append, List.length_replicate]
      omega
    rw [hk, htext]
    refine number?_point (by simp) (List.forall_mem_append.mpr ⟨isDigit_of_mem_zeros, hds⟩)
      hrest.endsDigits (exponent?_of_follows hrest) ?_
    rw [hvalue, Option.getD_none, hexponent]
  · -- Zeros stand between the digits and the point.
    obtain ⟨k, rfl⟩ : ∃ k : ℕ, e = k := ⟨e.toNat, by omega⟩
    have hk : (ds.length + k : Int).toNat - ds.length = k := by omega
    have htext : ds ++ List.replicate k '0' ++ ['.', '0'] ++ rest =
        ds ++ List.replicate k '0' ++ '.' :: (['0'] ++ rest) := by
      simp
    have hvalue : digitsValue (ds ++ List.replicate k '0' ++ ['0']) =
        10 * (10 ^ k * digitsValue ds) := by
      rw [digitsValue_append, digitsValue_append, digitsValue_replicate_zero]
      simp [digitsValue, Nat.ofDigitChars_cons, Nat.ofDigitChars_nil]
    have hexponent : (10 : ℚ) ^ ((0 : Int) - ['0'].length) = 1 / 10 := by norm_num
    rw [hk, htext]
    refine number?_point (List.forall_mem_append.mpr ⟨hds, isDigit_of_mem_zeros⟩) (by simp)
      hrest.endsDigits (exponent?_of_follows hrest) ?_
    rw [hvalue, Option.getD_none, hexponent, zpow_natCast]
    push_cast
    ring
  · have htext : ds.take (ds.length + e).toNat ++ '.' :: ds.drop (ds.length + e).toNat ++ rest =
        ds.take (ds.length + e).toNat ++ '.' :: (ds.drop (ds.length + e).toNat ++ rest) := by
      simp
    have hexponent : (0 : Int) - (ds.drop (ds.length + e).toNat).length = e := by
      rw [List.length_drop]
      omega
    rw [htext]
    refine number?_point (fun c hc => hds c (List.mem_of_mem_take hc))
      (fun c hc => hds c (List.mem_of_mem_drop hc)) hrest.endsDigits (exponent?_of_follows hrest) ?_
    rw [List.take_append_drop, Option.getD_none, hexponent]

/-- The same with an exponent. -/
theorem number?_scientific (hne : ds ≠ []) :
    number? (scientific ds (ds.length + e) ++ rest) =
      some (.float (digitsValue ds * 10 ^ e), rest) := by
  have hexponent := exponent?_ofInt (ds.length + e - 1) hrest
  simp only [scientific]
  split_ifs with hsingle
  · -- A single digit is written without a point.
    have hlength : ds.length = 1 := by
      have hpos := List.length_pos_iff.mpr hne
      rw [List.isEmpty_iff, List.drop_eq_nil_iff] at hsingle
      omega
    have htext : ds.take 1 ++ [] ++ 'e' :: (Text.ofInt (ds.length + e - 1)).toList ++ rest =
        ds ++ 'e' :: ((Text.ofInt (ds.length + e - 1)).toList ++ rest) := by
      simp [List.take_of_length_le hlength.le]
    have hpoint : (ds.length : Int) + e - 1 = e := by omega
    rw [htext, number?_exponent hds hexponent, hpoint]
  · have htext : ds.take 1 ++ '.' :: ds.drop 1 ++ 'e' :: (Text.ofInt (ds.length + e - 1)).toList ++
        rest =
        ds.take 1 ++ '.' ::
          (ds.drop 1 ++ 'e' :: ((Text.ofInt (ds.length + e - 1)).toList ++ rest)) := by
      simp
    have hpoint : ds.length + e - 1 - ((ds.drop 1).length : Int) = e := by
      have hpos := List.length_pos_iff.mpr hne
      rw [List.length_drop]
      omega
    rw [htext]
    refine number?_point (fun c hc => hds c (List.mem_of_mem_take hc))
      (fun c hc => hds c (List.mem_of_mem_drop hc)) (endsDigits_cons (by decide) _) hexponent ?_
    rw [List.take_append_drop, Option.getD_some, hpoint]

end Digits

/-- A decimal is read with its value. -/
theorem number?_decimalText (d : Decimal.Shortest) {rest : List Char} (hrest : Follows rest) :
    number? (decimalText d ++ rest) = some (.float d.value, rest) := by
  have hvalue : d.value = digitsValue (Nat.toDigits 10 d.digits) * 10 ^ d.exponent := by
    rw [digitsValue_toDigits, Decimal.Shortest.value]
  rw [hvalue]
  simp only [decimalText]
  split_ifs
  · exact number?_positional isDigit_of_mem_toDigits hrest d.exponent
  · exact number?_scientific isDigit_of_mem_toDigits hrest d.exponent Nat.toDigits_ne_nil

/-- A decimal starts with a digit. -/
theorem exists_decimalText_eq_cons (d : Decimal.Shortest) :
    ∃ c cs, decimalText d = c :: cs ∧ c.isDigit = true := by
  obtain ⟨c, cs, hcs⟩ := List.exists_cons_of_ne_nil (Nat.toDigits_ne_nil (n := d.digits) (b := 10))
  have hc : c.isDigit = true := isDigit_of_mem_toDigits c (hcs ▸ List.mem_cons_self)
  simp only [decimalText, positional, scientific, hcs]
  split_ifs with _ hpoint
  · exact ⟨'0', _, rfl, by decide⟩
  · exact ⟨c, _, rfl, hc⟩
  · obtain ⟨k, hk⟩ : ∃ k, (((c :: cs).length : Int) + d.exponent).toNat = k + 1 :=
      Nat.exists_eq_add_one.mpr (by omega)
    rw [hk]
    exact ⟨c, _, rfl, hc⟩
  · exact ⟨c, _, rfl, hc⟩
  · exact ⟨c, _, rfl, hc⟩

theorem isUnsigned_cases {bits : UInt64} (h : isUnsigned bits = true) :
    Decimal.Double.ofBits bits = .zero false ∨
      ∃ b, Decimal.Double.ofBits bits = .finite false b := by
  unfold isUnsigned at h
  split at h
  next negative hbits => exact .inl (by simpa [hbits] using h)
  next negative b hbits => exact .inr ⟨b, by simpa [hbits] using h⟩
  next => cases h

/-- What is written for a float is read as the float. -/
theorem roundsTo_floatValue {bits : UInt64} (h : isUnsigned bits = true) :
    Decimal.RoundsTo (floatValue bits) bits := by
  rcases isUnsigned_cases h with hbits | ⟨b, hbits⟩
  · rw [floatValue, hbits]
    exact Decimal.roundsTo_zero hbits
  · obtain ⟨d, hd, hround⟩ := Decimal.exists_shortest?_roundsTo hbits
    simpa [floatValue, hbits, hd] using hround

/-- What is written for a float without sign. -/
theorem toList_floatText {bits : UInt64} (h : isUnsigned bits = true) {rest : List Char}
    (hrest : Follows rest) :
    ∃ c cs, (floatText bits).toList = c :: cs ∧ c.isDigit = true ∧
      number? ((floatText bits).toList ++ rest) = some (.float (floatValue bits), rest) := by
  rcases isUnsigned_cases h with hbits | ⟨b, hbits⟩
  -- Zero has no shortest digits and is written out apart.
  · have htext : (floatText bits).toList = ['0', '.', '0'] := by rw [floatText, hbits]; rfl
    have hvalue : floatValue bits = 0 := by rw [floatValue, hbits]
    rw [htext, hvalue]
    refine ⟨'0', ['.', '0'], rfl, by decide, ?_⟩
    have hnumber : number? (['0'] ++ '.' :: (['0'] ++ rest)) = some (.float 0, rest) :=
      number?_point (by simp) (by simp) hrest.endsDigits (exponent?_of_follows hrest)
        (by simp [digitsValue, Nat.ofDigitChars_cons])
    exact hnumber
  · obtain ⟨d, hd, -⟩ := Decimal.exists_shortest?_roundsTo hbits
    have htext : (floatText bits).toList = decimalText d := by
      simp [floatText, hbits, hd, signed]
    have hvalue : floatValue bits = d.value := by
      simp [floatValue, hbits, hd]
    obtain ⟨c, cs, hcs, hc⟩ := exists_decimalText_eq_cons d
    rw [htext, hvalue]
    exact ⟨c, cs, hcs, hc, number?_decimalText d hrest⟩

/-- The text of a float is one token. -/
theorem tokenize?_floatText {bits : UInt64} (h : isUnsigned bits = true) {rest : List Char}
    (hrest : Follows rest) :
    tokenize? ((floatText bits).toList ++ rest) =
      (tokenize? rest).map (.float (floatValue bits) :: ·) := by
  obtain ⟨c, cs, hcs, hc, hnumber⟩ := toList_floatText h hrest
  rw [hcs] at hnumber ⊢
  exact tokenize?_of_number? hc hnumber hrest

end Primer.Script
