import Primer.Decimal.Shortest
import Mathlib.Algebra.Order.Field.Rat
import Mathlib.Algebra.Order.Field.Basic
import Mathlib.Algebra.Order.Field.Power
import Mathlib.Tactic.Linarith
import Mathlib.Tactic.Positivity
import Mathlib.Tactic.Ring
import Mathlib.Tactic.NormNum

/-!
# Reading decimals as floats

A decimal is read as the float nearest to it, and of two equally near ones as the one whose last bit
is zero. `RoundsTo` states this for exact values, without a word about how the float is found.

The interval that `Binary.covers` tests is made of decimals that are read as the float
(`Binary.Near.nearest`), because no other float lies within a step of it (`Binary.Legal.away`). A
search through 24 exponents always ends inside it (`Binary.Legal.exists_shortest?`). So every float
has a shortest decimal, and it is read back (`exists_shortest?_roundsTo`).
-/

namespace Primer.Decimal

/-! ## Values -/

/-- The number that a float without sign stands for. -/
def Binary.value (b : Binary) : ℚ :=
  b.mantissa * 2 ^ b.exponent

/-- The number that a decimal stands for. -/
def Shortest.value (d : Shortest) : ℚ :=
  d.digits * 10 ^ d.exponent

/-- The number that a float stands for, if it is one. -/
def Double.value? : Double → Option ℚ
  | .zero _ => some 0
  | .finite false b => some b.value
  | .finite true b => some (-b.value)
  | .infinite _ => none
  | .notANumber => none

/-- From here on decimals are read as infinite. The greatest float, `(2 ^ 53 - 1) * 2 ^ 971`, is
half a step below. -/
def overflow : ℚ :=
  (2 ^ 53 - 1 / 2) * 2 ^ 971

/-- A decimal without sign is read as the float with given bits. -/
structure RoundsTo (x : ℚ) (bits : UInt64) : Prop where
  unsigned : bits.toNat < 2 ^ 63
  below : x < overflow
  nearest : ∃ v, (Double.ofBits bits).value? = some v ∧
    ∀ other w, (Double.ofBits other).value? = some w → w ≠ v →
      |x - v| < |x - w| ∨ |x - v| = |x - w| ∧ bits.toNat % 2 = 0

namespace Binary

/-- The numbers that 64 bits stand for: a mantissa of 53 bits, which is normal unless the exponent
is least. Below the least normal mantissa the numbers are closer, except at the least exponent. -/
structure Legal (b : Binary) : Prop where
  pos : 0 < b.mantissa
  lt : b.mantissa < 2 ^ 53
  least : -1074 ≤ b.exponent
  greatest : b.exponent ≤ 971
  normal : 2 ^ 52 ≤ b.mantissa ∨ b.exponent = -1074
  narrowBelow_iff : b.narrowBelow = true ↔ b.mantissa = 2 ^ 52 ∧ b.exponent ≠ -1074

/-- The step from the number to the next greater one. -/
def step (b : Binary) : ℚ :=
  2 ^ b.exponent

/-- The step from the number to the next smaller one. -/
def stepBelow (b : Binary) : ℚ :=
  if b.narrowBelow then b.step / 2 else b.step

theorem step_pos (b : Binary) : 0 < b.step := by
  unfold step
  positivity

theorem value_eq (b : Binary) : b.value = b.mantissa * b.step := rfl

/-- What lies within half a step of a number. The ends are in if the mantissa is even. -/
structure Near (b : Binary) (x : ℚ) : Prop where
  above : b.value - b.stepBelow / 2 < x ∨ x = b.value - b.stepBelow / 2 ∧ b.mantissa % 2 = 0
  below : x < b.value + b.step / 2 ∨ x = b.value + b.step / 2 ∧ b.mantissa % 2 = 0

/-! ## No other float is near -/

section Gap

variable {b b' : Binary}

/-- A float with an exponent that is not smaller is a whole number of steps away from zero. -/
theorem exists_value_eq (h : b.exponent ≤ b'.exponent) : ∃ n : ℕ, b'.value = n * b.step := by
  obtain ⟨d, hd⟩ := Int.eq_ofNat_of_zero_le (Int.sub_nonneg_of_le h)
  refine ⟨b'.mantissa * 2 ^ d, ?_⟩
  have hexponent : b'.exponent = d + b.exponent := by omega
  rw [value, step, hexponent, zpow_add₀ two_ne_zero, zpow_natCast]
  push_cast
  ring

theorem Legal.mantissa_le (h : b.Legal) : (b.mantissa : ℚ) ≤ 2 ^ 53 - 1 := by
  have hle : b.mantissa + 1 ≤ 2 ^ 53 := h.lt
  have hcast : ((b.mantissa + 1 : ℕ) : ℚ) ≤ ((2 ^ 53 : ℕ) : ℚ) := Nat.cast_le.mpr hle
  push_cast at hcast
  linarith

/-- A float with a smaller exponent is below all normal ones. -/
theorem Legal.value_le (h : b'.Legal) (hlt : b'.exponent < b.exponent) :
    b'.value ≤ (2 ^ 52 - 1 / 2) * b.step := by
  have hstep : b'.step ≤ b.step / 2 := by
    have hle : b'.exponent ≤ b.exponent - 1 := by omega
    calc b'.step ≤ 2 ^ (b.exponent - 1) := zpow_le_zpow_right₀ one_le_two hle
      _ = b.step / 2 := by rw [zpow_sub₀ two_ne_zero, zpow_one, step]
  calc b'.value ≤ (2 ^ 53 - 1) * (b.step / 2) :=
        mul_le_mul h.mantissa_le hstep b'.step_pos.le (by norm_num)
    _ = (2 ^ 52 - 1 / 2) * b.step := by ring

/-- Where a smaller exponent is possible, the mantissa is normal. -/
theorem Legal.normal_of_lt (h : b.Legal) (h' : b'.Legal) (hlt : b'.exponent < b.exponent) :
    2 ^ 52 ≤ b.mantissa := by
  have hleast := h'.least
  exact h.normal.resolve_right (by omega)

theorem Legal.add_step_le (h : b.Legal) (h' : b'.Legal) (hlt : b.value < b'.value) :
    b.value + b.step ≤ b'.value := by
  have hstep := b.step_pos
  rcases Int.lt_or_le b'.exponent b.exponent with hexponent | hexponent
  · -- A smaller exponent does not go with a greater value.
    exfalso
    have hnormal : (2 ^ 52 : ℚ) ≤ b.mantissa := by
      exact_mod_cast h.normal_of_lt h' hexponent
    have hvalue : 2 ^ 52 * b.step ≤ b.value := mul_le_mul_of_nonneg_right hnormal hstep.le
    have hvalue' := h'.value_le hexponent
    linarith
  · obtain ⟨n, hn⟩ := exists_value_eq hexponent
    rw [hn, value_eq] at hlt ⊢
    have hmantissa : b.mantissa + 1 ≤ n := by
      exact_mod_cast lt_of_mul_lt_mul_right hlt hstep.le
    calc (b.mantissa : ℚ) * b.step + b.step = ((b.mantissa + 1 : ℕ) : ℚ) * b.step := by
          push_cast
          ring
      _ ≤ n * b.step := mul_le_mul_of_nonneg_right (Nat.cast_le.mpr hmantissa) hstep.le

theorem stepBelow_le (b : Binary) : b.stepBelow ≤ b.step := by
  have hstep := b.step_pos
  unfold stepBelow
  split_ifs <;> linarith

theorem stepBelow_pos (b : Binary) : 0 < b.stepBelow := by
  have hstep := b.step_pos
  unfold stepBelow
  split_ifs <;> linarith

theorem Legal.le_sub_stepBelow (h : b.Legal) (h' : b'.Legal) (hlt : b'.value < b.value) :
    b'.value ≤ b.value - b.stepBelow := by
  have hstep := b.step_pos
  rcases Int.lt_or_le b'.exponent b.exponent with hexponent | hexponent
  -- A smaller exponent: the other number is below the first one of this exponent.
  · have hnormal := h.normal_of_lt h' hexponent
    have hleast : b.exponent ≠ -1074 := by
      have hleast' := h'.least
      omega
    have hvalue' := h'.value_le hexponent
    rw [value_eq b]
    unfold stepBelow
    -- The step below is halved exactly at the first number of an exponent.
    split_ifs with hnarrow
    · rw [(h.narrowBelow_iff.mp hnarrow).1]
      push_cast
      linarith
    · have hmantissa : 2 ^ 52 + 1 ≤ b.mantissa := by
        have hne : b.mantissa ≠ 2 ^ 52 := fun heq => hnarrow (h.narrowBelow_iff.mpr ⟨heq, hleast⟩)
        omega
      have hvalue : ((2 ^ 52 + 1 : ℕ) : ℚ) * b.step ≤ b.mantissa * b.step :=
        mul_le_mul_of_nonneg_right (Nat.cast_le.mpr hmantissa) hstep.le
      push_cast at hvalue
      linarith
  -- Otherwise both numbers are multiples of the same step.
  · obtain ⟨n, hn⟩ := exists_value_eq hexponent
    have hbelow := b.stepBelow_le
    rw [hn, value_eq] at hlt ⊢
    have hmantissa : n + 1 ≤ b.mantissa := by
      exact_mod_cast lt_of_mul_lt_mul_right hlt hstep.le
    have hvalue : ((n + 1 : ℕ) : ℚ) * b.step ≤ b.mantissa * b.step :=
      mul_le_mul_of_nonneg_right (Nat.cast_le.mpr hmantissa) hstep.le
    push_cast at hvalue
    linarith

/-- Zero and the floats below it are a step away too. -/
theorem Legal.nonneg_sub_stepBelow (h : b.Legal) : 0 ≤ b.value - b.stepBelow := by
  have hstep := b.step_pos
  have hbelow := b.stepBelow_le
  have hmantissa : (1 : ℚ) ≤ b.mantissa := by exact_mod_cast h.pos
  have hvalue : 1 * b.step ≤ b.value := mul_le_mul_of_nonneg_right hmantissa hstep.le
  linarith

end Gap

/-- Up to half a step above a number, nothing that is a step above it is nearer. -/
theorem abs_sub_lt_of_step {x v w s : ℚ} {p : Prop} (hs : 0 < s) (hw : v + s ≤ w)
    (hx : x < v + s / 2 ∨ x = v + s / 2 ∧ p) :
    |x - v| < |x - w| ∨ |x - v| = |x - w| ∧ p := by
  have habove : |x - w| = w - x := by
    rw [abs_sub_comm]
    refine abs_of_pos ?_
    rcases hx with hx | ⟨hx, -⟩ <;> linarith
  rw [habove]
  rcases hx with hx | ⟨hx, hp⟩
  · exact .inl (abs_lt.mpr ⟨by linarith, by linarith⟩)
  · have hself : |x - v| = x - v := abs_of_pos (by linarith)
    rw [hself]
    rcases eq_or_lt_of_le hw with heq | hlt
    · exact .inr ⟨by linarith, hp⟩
    · exact .inl (by linarith)

/-- What is near a float is nearer to it than to any other number a step away. -/
theorem Near.nearest {b : Binary} {x w : ℚ} (hx : b.Near x)
    (hw : w ≤ b.value - b.stepBelow ∨ b.value + b.step ≤ w) :
    |x - b.value| < |x - w| ∨ |x - b.value| = |x - w| ∧ b.mantissa % 2 = 0 := by
  rcases hw with hw | hw
  · -- The same on the other side of zero.
    have hbelow : -x < -b.value + b.stepBelow / 2 ∨
        -x = -b.value + b.stepBelow / 2 ∧ b.mantissa % 2 = 0 :=
      hx.above.imp (fun h => by linarith) (fun h => ⟨by linarith [h.1], h.2⟩)
    have hstep : -b.value + b.stepBelow ≤ -w := by linarith
    have hnearest := abs_sub_lt_of_step b.stepBelow_pos hstep hbelow
    rwa [neg_sub_neg, neg_sub_neg, abs_sub_comm, abs_sub_comm w] at hnearest
  · exact abs_sub_lt_of_step b.step_pos hw hx.below

end Binary

/-! ## Bits -/

theorem Binary.legal_subnormal {fraction : ℕ} (hpos : 0 < fraction) (hlt : fraction < 2 ^ 52) :
    Legal ⟨fraction, -1074, false⟩ where
  pos := hpos
  lt := by change fraction < _; omega
  least := Int.le_refl _
  greatest := (by decide : (-1074 : ℤ) ≤ 971)
  normal := .inr rfl
  narrowBelow_iff := by simp

theorem Binary.legal_normal {exponent fraction : ℕ} (hpos : 0 < exponent) (hlt : exponent < 2047)
    (hfraction : fraction < 2 ^ 52) :
    Legal ⟨2 ^ 52 + fraction, (exponent : ℤ) - 1075, fraction = 0 && exponent ≠ 1⟩ where
  pos := by change 0 < 2 ^ 52 + fraction; omega
  lt := by change 2 ^ 52 + fraction < _; omega
  least := by change -1074 ≤ (exponent : ℤ) - 1075; omega
  greatest := by change (exponent : ℤ) - 1075 ≤ 971; omega
  normal := .inl (Nat.le_add_right _ _)
  narrowBelow_iff := by
    simp only [Bool.and_eq_true, decide_eq_true_eq]
    omega

namespace Double

/-- The bits of a float other than zero. -/
theorem legal_of_ofBits {bits : UInt64} {negative : Bool} {b : Binary}
    (h : ofBits bits = .finite negative b) : b.Legal ∧ b.mantissa % 2 = bits.toNat % 2 := by
  have hfraction : bits.toNat % 2 ^ 52 < 2 ^ 52 := Nat.mod_lt _ (by decide)
  have hparity : bits.toNat % 2 ^ 52 % 2 = bits.toNat % 2 := Nat.mod_mod_of_dvd _ ⟨2 ^ 51, rfl⟩
  simp only [ofBits, Nat.pow_eq] at h
  split_ifs at h with _ hspecial hzero hleast
  all_goals obtain ⟨-, rfl⟩ := Double.finite.inj h
  · exact ⟨Binary.legal_subnormal (Nat.pos_of_ne_zero hleast) hfraction, hparity⟩
  · have hexponent : bits.toNat / 2 ^ 52 % 2 ^ 11 < 2 ^ 11 := Nat.mod_lt _ (by decide)
    refine ⟨Binary.legal_normal (by omega) (by omega) hfraction, ?_⟩
    change (2 ^ 52 + bits.toNat % 2 ^ 52) % 2 = _
    omega

/-- The sign bit of a number. -/
theorem lt_of_ofBits {bits : UInt64} {negative : Bool}
    (h : ofBits bits = .zero negative ∨ ∃ b, ofBits bits = .finite negative b)
    (hnegative : negative = false) : bits.toNat < 2 ^ 63 := by
  have hsign : negative = (bits.toNat / 2 ^ 63 == 1) := by
    rcases h with h | ⟨b, h⟩
    · simp only [ofBits, Nat.pow_eq] at h
      split_ifs at h
      exact (Double.zero.inj h).symm
    · simp only [ofBits, Nat.pow_eq] at h
      split_ifs at h
      all_goals exact (Double.finite.inj h).1.symm
  have hbits : bits.toNat < 2 ^ 64 := bits.toNat_lt
  rw [hsign, beq_eq_false_iff_ne] at hnegative
  omega

end Double

/-! ## The search -/

namespace Binary

theorem pow_toNat {x : ℚ} (hx : x ≠ 0) (i : ℤ) : x ^ i.toNat = x ^ i * x ^ (-i).toNat := by
  have hi : (i.toNat : ℤ) = i + (-i).toNat := by omega
  rw [← zpow_natCast, hi, zpow_add₀ hx, zpow_natCast]

section Search

variable (b : Binary) (e : ℤ)

theorem unit_pos : (0 : ℚ) < b.unit e := by
  have hpos : 0 < b.unit e := Nat.mul_pos (Nat.pow_pos (by decide)) (Nat.pow_pos (by decide))
  exact_mod_cast hpos

/-- A numerator over the common denominator. -/
theorem quarters_eq (n : ℕ) : (b.quarters e n : ℚ) = n * (b.step / 4) / 10 ^ e * b.unit e := by
  have htwo : (2 : ℚ) ^ (b.exponent - 2).toNat = b.step / 4 * 2 ^ (2 - b.exponent).toNat := by
    rw [pow_toNat two_ne_zero, neg_sub, zpow_sub₀ two_ne_zero, step]
    norm_num
  have hten : (10 : ℚ) ^ (-e).toNat = (10 ^ e)⁻¹ * 10 ^ e.toNat := by
    rw [pow_toNat (by norm_num), neg_neg, zpow_neg]
  simp only [quarters, unit, Nat.pow_eq, Nat.cast_mul, Nat.cast_pow, Nat.cast_ofNat, htwo, hten]
  ring

theorem quarters_le_iff {n d : ℕ} :
    b.quarters e n ≤ d * b.unit e ↔ n * (b.step / 4) ≤ d * (10 : ℚ) ^ e := by
  rw [← Nat.cast_le (α := ℚ), Nat.cast_mul, quarters_eq, mul_le_mul_iff_left₀ (b.unit_pos e),
    div_le_iff₀ (by positivity)]

theorem le_quarters_iff {n d : ℕ} :
    d * b.unit e ≤ b.quarters e n ↔ d * (10 : ℚ) ^ e ≤ n * (b.step / 4) := by
  rw [← Nat.cast_le (α := ℚ), Nat.cast_mul, quarters_eq, mul_le_mul_iff_left₀ (b.unit_pos e),
    le_div_iff₀ (by positivity)]

/-- The lower end of the interval. -/
theorem low_mul_step (hpos : 0 < b.mantissa) :
    ((4 * b.mantissa - if b.narrowBelow then 1 else 2 : ℕ) : ℚ) * (b.step / 4) =
      b.value - b.stepBelow / 2 := by
  rw [Nat.cast_sub (by split_ifs <;> omega), value_eq, stepBelow]
  split_ifs <;> push_cast <;> ring

/-- The upper end of the interval. -/
theorem high_mul_step :
    ((4 * b.mantissa + 2 : ℕ) : ℚ) * (b.step / 4) = b.value + b.step / 2 := by
  rw [value_eq]
  push_cast
  ring

/-- The test of a decimal in natural numbers. -/
theorem covers_iff (hpos : 0 < b.mantissa) {d : ℕ} :
    b.covers e d = true ↔ b.Near (d * 10 ^ e) := by
  -- Scaled to quarters of a step, the two bounds are whole numbers.
  have hlow := b.quarters_le_iff e (n := 4 * b.mantissa - if b.narrowBelow then 1 else 2) (d := d)
  have hlow' := (b.le_quarters_iff e
    (n := 4 * b.mantissa - if b.narrowBelow then 1 else 2) (d := d)).not
  have hhigh := b.le_quarters_iff e (n := 4 * b.mantissa + 2) (d := d)
  have hhigh' := (b.quarters_le_iff e (n := 4 * b.mantissa + 2) (d := d)).not
  rw [b.low_mul_step hpos] at hlow hlow'
  rw [b.high_mul_step] at hhigh hhigh'
  rw [not_le, not_le] at hlow' hhigh'
  -- A tie goes to the even mantissa, so the bounds belong to the range exactly if it is even.
  by_cases heven : b.mantissa % 2 = 0
  · simp only [covers, if_pos heven]
    rw [Bool.and_eq_true, decide_eq_true_eq, decide_eq_true_eq, hlow, hhigh, le_iff_lt_or_eq,
      le_iff_lt_or_eq]
    constructor
    · rintro ⟨hl, hh⟩
      exact ⟨hl.imp_right fun h => ⟨h.symm, heven⟩, hh.imp_right fun h => ⟨h, heven⟩⟩
    · intro h
      exact ⟨h.above.imp_right fun h => h.1.symm, h.below.imp_right And.left⟩
  · simp only [covers, if_neg heven]
    rw [Bool.and_eq_true, decide_eq_true_eq, decide_eq_true_eq, hlow', hhigh']
    constructor
    · rintro ⟨hl, hh⟩
      exact ⟨.inl hl, .inl hh⟩
    · intro h
      exact ⟨h.above.resolve_right fun h => heven h.2, h.below.resolve_right fun h => heven h.2⟩

end Search

variable {b : Binary} {e : ℤ}

theorem covers_of_multiple? {d : ℕ} (h : b.multiple? e = some d) : b.covers e d = true := by
  simp only [multiple?] at h
  split at h
  next hbelow habove =>
    split_ifs at h
    · exact Option.some.inj h ▸ hbelow
    · exact Option.some.inj h ▸ habove
  next hbelow _ => exact Option.some.inj h ▸ hbelow
  next _ habove => exact Option.some.inj h ▸ habove
  next => exact absurd h (by simp)

/-- With a decimal step of less than half a binary one, the multiple above the value is near. -/
theorem exists_multiple? (hpos : 0 < b.mantissa) (h : (10 : ℚ) ^ e < b.step / 2) :
    ∃ d, b.multiple? e = some d := by
  have hstep := b.stepBelow_pos
  have hvalue : ((4 * b.mantissa : ℕ) : ℚ) * (b.step / 4) = b.value := by
    rw [value_eq]
    push_cast
    ring
  have hunit : 0 < b.unit e := by exact_mod_cast b.unit_pos e
  -- The value lies between two neighbouring multiples of the power of ten.
  have hbelow : b.quarters e (4 * b.mantissa) / b.unit e * b.unit e ≤
      b.quarters e (4 * b.mantissa) := Nat.div_mul_le_self _ _
  have habove : b.quarters e (4 * b.mantissa) ≤
      (b.quarters e (4 * b.mantissa) / b.unit e + 1) * b.unit e :=
    (Nat.lt_mul_div_succ _ hunit).le.trans_eq (Nat.mul_comm _ _)
  rw [le_quarters_iff, hvalue] at hbelow
  rw [quarters_le_iff, hvalue] at habove
  -- They are closer than half a step, so the upper one is in range in any case.
  have hcovers : b.covers e (b.quarters e (4 * b.mantissa) / b.unit e + 1) = true := by
    refine (b.covers_iff e hpos).mpr ⟨.inl (by linarith), .inl ?_⟩
    push_cast
    linarith
  simp only [multiple?, hcovers]
  cases b.covers e (b.quarters e (4 * b.mantissa) / b.unit e) <;> simp

theorem covers_of_shortestFrom {n : ℕ} {d : Shortest} (h : b.shortestFrom n e = some d) :
    b.covers d.exponent d.digits = true := by
  induction n generalizing e with
  | zero => simp [shortestFrom] at h
  | succ n ih =>
    rw [shortestFrom] at h
    split at h
    next d' hd => exact Option.some.inj h ▸ covers_of_multiple? hd
    next => exact ih h

/-- The search succeeds if its last step does. -/
theorem exists_shortestFrom {n : ℕ} (h : ∃ d, b.multiple? (e - n) = some d) :
    ∃ d, b.shortestFrom (n + 1) e = some d := by
  induction n generalizing e with
  | zero =>
    rw [Nat.cast_zero, sub_zero] at h
    obtain ⟨d, hd⟩ := h
    exact ⟨⟨d, e⟩, by rw [shortestFrom, hd]⟩
  | succ n ih =>
    rw [Nat.cast_succ, add_comm, ← sub_sub] at h
    rw [shortestFrom]
    cases b.multiple? e with
    | some d => exact ⟨_, rfl⟩
    | none => exact ih h

/-! ### Powers of ten and two -/

theorem zpow_pow_comm (x : ℚ) (i : ℤ) (n : ℕ) : (x ^ i) ^ n = (x ^ n) ^ i := by
  rw [← zpow_natCast, ← zpow_natCast, ← zpow_mul, ← zpow_mul, mul_comm]

/-- Three digits are less than ten bits, and ten digits more than 33 bits. -/
theorem ten_zpow_lt_two_zpow {p : ℤ} (habove : 10 * e < 3 * p) (hbelow : 33 * e < 10 * p) :
    (10 : ℚ) ^ e < 2 ^ p := by
  rcases Int.le_total 0 e with he | he
  · refine lt_of_pow_lt_pow_left₀ 3 (by positivity) ?_
    calc ((10 : ℚ) ^ e) ^ 3 = (10 ^ 3) ^ e := zpow_pow_comm 10 e 3
      _ ≤ (2 ^ 10) ^ e := zpow_le_zpow_left₀ he (by norm_num) (by norm_num)
      _ = 2 ^ (10 * e) := by rw [zpow_mul, zpow_ofNat]
      _ < 2 ^ (3 * p) := zpow_lt_zpow_right₀ one_lt_two habove
      _ = (2 ^ p) ^ 3 := by rw [mul_comm, zpow_mul, zpow_ofNat]
  · refine lt_of_pow_lt_pow_left₀ 10 (by positivity) ?_
    calc ((10 : ℚ) ^ e) ^ 10 = (10 ^ 10) ^ e := zpow_pow_comm 10 e 10
      _ = ((10 ^ 10)⁻¹) ^ (-e) := by rw [inv_zpow', neg_neg]
      _ ≤ ((2 ^ 33)⁻¹) ^ (-e) := zpow_le_zpow_left₀ (by omega) (by norm_num) (by norm_num)
      _ = 2 ^ (33 * e) := by rw [inv_zpow', neg_neg, zpow_mul, zpow_ofNat]
      _ < 2 ^ (10 * p) := zpow_lt_zpow_right₀ one_lt_two hbelow
      _ = (2 ^ p) ^ 10 := by rw [mul_comm, zpow_mul, zpow_ofNat]

/-- Within 24 steps the search gets to a decimal step that is small enough. -/
theorem Legal.exists_shortest? (h : b.Legal) : ∃ d, b.shortest? = some d := by
  have hlog : b.mantissa.log2 ≤ 52 := Nat.le_of_lt_succ ((Nat.log2_lt h.pos.ne').mpr h.lt)
  have hleast := h.least
  have hgreatest := h.greatest
  have hstep : (10 : ℚ) ^ (b.exponentAbove - (23 : ℕ)) < b.step / 2 := by
    have hhalf : b.step / 2 = 2 ^ (b.exponent - 1) := by
      rw [zpow_sub₀ two_ne_zero, zpow_one, step]
    rw [hhalf]
    unfold exponentAbove
    exact ten_zpow_lt_two_zpow (by omega) (by omega)
  exact exists_shortestFrom (exists_multiple? h.pos hstep)

/-- The decimals near a float are below the overflow. -/
theorem Legal.lt_overflow (h : b.Legal) {x : ℚ} (hx : b.Near x) : x < overflow := by
  have hpos := b.step_pos
  have hmantissa := h.mantissa_le
  have hstep : b.step ≤ 2 ^ 971 := by
    rw [← zpow_ofNat]
    exact zpow_le_zpow_right₀ one_le_two h.greatest
  have htop : (2 ^ 53 - 1 / 2) * b.step ≤ overflow :=
    mul_le_mul_of_nonneg_left hstep (by norm_num)
  have hvalue : b.value ≤ (2 ^ 53 - 1) * b.step := mul_le_mul_of_nonneg_right hmantissa hpos.le
  rcases hx.below with hlt | ⟨heq, heven⟩
  · linarith
  · -- The greatest mantissa is odd, so the upper end belongs to smaller ones only.
    have hle : b.mantissa + 2 ≤ 2 ^ 53 := by
      have hlt := h.lt
      omega
    have hcast : ((b.mantissa + 2 : ℕ) : ℚ) * b.step ≤ ((2 ^ 53 : ℕ) : ℚ) * b.step :=
      mul_le_mul_of_nonneg_right (Nat.cast_le.mpr hle) hpos.le
    push_cast at hcast
    rw [value_eq] at heq
    linarith

end Binary

/-! ## Reading back -/

/-- Zero is read as the float without a sign. -/
theorem roundsTo_zero {bits : UInt64} (h : Double.ofBits bits = .zero false) : RoundsTo 0 bits where
  unsigned := Double.lt_of_ofBits (.inl h) rfl
  below := by
    unfold overflow
    positivity
  nearest := by
    refine ⟨0, by rw [h]; rfl, fun _ w _ hne => .inl ?_⟩
    rw [sub_zero, abs_zero, zero_sub, abs_neg]
    exact abs_pos.mpr hne

/-- The other floats are a step or more away. -/
theorem Binary.Legal.away {b : Binary} (h : b.Legal) {bits : UInt64} {w : ℚ}
    (hw : (Double.ofBits bits).value? = some w) (hne : w ≠ b.value) :
    w ≤ b.value - b.stepBelow ∨ b.value + b.step ≤ w := by
  -- Everything below zero is far enough away, since the step below stays above zero.
  have hzero := h.nonneg_sub_stepBelow
  cases hbits : Double.ofBits bits with
  | notANumber => simp [hbits, Double.value?] at hw
  | infinite negative => simp [hbits, Double.value?] at hw
  | zero negative =>
    obtain rfl : 0 = w := by simpa [hbits, Double.value?] using hw
    exact .inl hzero
  | finite negative b' =>
    have h' := (Double.legal_of_ofBits hbits).1
    cases negative with
    | true =>
      obtain rfl : -b'.value = w := by simpa [hbits, Double.value?] using hw
      have hvalue' : 0 < b'.value :=
        mul_pos (Nat.cast_pos.mpr h'.pos) b'.step_pos
      exact .inl (by linarith)
    | false =>
      obtain rfl : b'.value = w := by simpa [hbits, Double.value?] using hw
      exact (lt_or_gt_of_ne hne).imp (h.le_sub_stepBelow h') (h.add_step_le h')

/-- Every positive float has a shortest decimal, and this is read as the float. -/
theorem exists_shortest?_roundsTo {bits : UInt64} {b : Binary}
    (h : Double.ofBits bits = .finite false b) :
    ∃ d, b.shortest? = some d ∧ RoundsTo d.value bits := by
  obtain ⟨hlegal, hparity⟩ := Double.legal_of_ofBits h
  obtain ⟨d, hd⟩ := hlegal.exists_shortest?
  have hnear : b.Near d.value :=
    (b.covers_iff d.exponent hlegal.pos).mp (Binary.covers_of_shortestFrom hd)
  refine ⟨d, hd, Double.lt_of_ofBits (.inr ⟨b, h⟩) rfl, hlegal.lt_overflow hnear, b.value,
    by rw [h]; rfl, fun other w hw hne => ?_⟩
  rw [← hparity]
  exact hnear.nearest (hlegal.away hw hne)

end Primer.Decimal
