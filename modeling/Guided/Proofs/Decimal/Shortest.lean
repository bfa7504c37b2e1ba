import Guided.Decimal.Shortest
import Mathlib.Algebra.Order.Field.Power
import Mathlib.Algebra.Order.Field.Rat
import Mathlib.Tactic.FieldSimp
import Mathlib.Tactic.Linarith
import Mathlib.Tactic.Positivity
import Mathlib.Tactic.Ring

/-!
# Shortest decimals tell magnitudes apart

The decimals that round to a code fill an interval. The intervals of consecutive codes meet in one
point, which belongs to exactly one of them, so that no decimal belongs to two codes. The shortest
decimal of a code lies in its interval: at the latest the grid of seventeen digits has a point
there.

## Main definitions

* `DecimalNumber.value`: the number that a decimal writes.
* `RoundingInterval.Holds`: a number lies in an interval.

## Main statements

* `leadingPower_le`, `lt_leadingPower`: the leading power of a ratio.
* `FloatFormat.holds_shortest`: the shortest decimal of a code rounds to it.
* `FloatFormat.eq_of_holds`: a number rounds to one code.
* `FloatFormat.shortest_injective`.
-/
namespace Guided

/-- The number that a decimal writes. -/
def DecimalNumber.value (x : DecimalNumber) : ℚ := x.digits * 10 ^ x.exponent

@[simp] theorem DecimalNumber.value_strip (fuel : Nat) (x : DecimalNumber) :
    (x.strip fuel).value = x.value := by
  induction fuel generalizing x with
  | zero => rfl
  | succ fuel ih =>
      rw [strip]
      split
      · rename_i h
        obtain ⟨k, hk⟩ := Nat.dvd_of_mod_eq_zero h.1
        rw [ih, value, value, hk, Nat.mul_div_cancel_left _ (by decide),
          zpow_add₀ (by norm_num), zpow_one]
        push_cast
        ring
      · rfl

/-- Nothing but zeros is taken away. -/
theorem DecimalNumber.digits_strip_le (fuel : Nat) (x : DecimalNumber) :
    (x.strip fuel).digits ≤ x.digits := by
  induction fuel generalizing x with
  | zero => exact le_rfl
  | succ fuel ih =>
      rw [strip]
      split
      · exact (ih _).trans (Nat.div_le_self _ _)
      · exact le_rfl

theorem DecimalNumber.exponent_le_strip (fuel : Nat) (x : DecimalNumber) :
    x.exponent ≤ (x.strip fuel).exponent := by
  induction fuel generalizing x with
  | zero => exact le_rfl
  | succ fuel ih =>
      rw [strip]
      split
      · exact (Int.le_add_one le_rfl).trans (ih _)
      · exact le_rfl

/-- All zeros are taken away, if there is enough fuel. -/
theorem DecimalNumber.digits_strip_mod {fuel : Nat} {x : DecimalNumber} (h : 0 < x.digits)
    (hlt : x.digits < 10 ^ fuel) : (x.strip fuel).digits % 10 ≠ 0 := by
  induction fuel generalizing x with
  | zero =>
      rw [pow_zero] at hlt
      omega
  | succ fuel ih =>
      rw [strip]
      split
      · rename_i hzero
        rw [pow_succ] at hlt
        refine ih ?_ ?_ <;> simp only <;> omega
      · omega

/-- A power as a fraction of powers with natural exponents. -/
theorem zpow_eq_div (x : ℚ) (e : ℤ) : x ^ e = x ^ e.toNat / x ^ (-e).toNat := by
  cases e with
  | ofNat n => simp
  | negSucc n =>
      rw [zpow_negSucc, Int.toNat_negSucc, Int.neg_negSucc]
      simp

/-! ## The leading power -/

section LeadingPower

variable {n d : Nat}

/-- The number of digits of a number. -/
theorem exists_length_toDigits (h : n ≠ 0) :
    ∃ k, (Nat.toDigits 10 n).length = k + 1 ∧ 10 ^ k ≤ n ∧ n < 10 ^ (k + 1) := by
  have hpos : 0 < (Nat.toDigits 10 n).length := Nat.length_toDigits_pos
  obtain ⟨k, hk⟩ := Nat.exists_eq_add_of_lt hpos
  rw [Nat.zero_add] at hk
  refine ⟨k, hk, ?_, hk ▸ (Nat.length_toDigits_le_iff (by decide) hpos).1 le_rfl⟩
  by_contra hlt
  rw [not_le] at hlt
  rcases Nat.eq_zero_or_pos k with rfl | hkpos
  · omega
  · have := (Nat.length_toDigits_le_iff (by decide) hkpos).2 hlt
    omega

/-- The leading power of a ratio is not above it, and the next one is. -/
theorem leadingPower_spec (hn : 0 < n) (hd : 0 < d) :
    (10 : ℚ) ^ leadingPower n d ≤ n / d ∧ (n / d : ℚ) < 10 ^ (leadingPower n d + 1) := by
  have hn' : (0 : ℚ) < n := by exact_mod_cast hn
  have hd' : (0 : ℚ) < d := by exact_mod_cast hd
  rw [le_div_iff₀ hd', div_lt_iff₀ hd', leadingPower]
  split
  · rename_i hle
    have hquotient : n / d ≠ 0 := (Nat.div_pos hle hd).ne'
    obtain ⟨k, hk, hlow, hhigh⟩ := exists_length_toDigits hquotient
    rw [Nat.le_div_iff_mul_le hd] at hlow
    rw [Nat.div_lt_iff_lt_mul hd] at hhigh
    rw [hk, Nat.cast_succ, add_sub_cancel_right, ← Nat.cast_succ, zpow_natCast, zpow_natCast]
    exact ⟨by exact_mod_cast hlow, by exact_mod_cast hhigh⟩
  · rename_i hlt
    rw [not_le] at hlt
    have hquotient : d / n ≠ 0 := (Nat.div_pos hlt.le hn).ne'
    obtain ⟨t, ht, hlow, hhigh⟩ := exists_length_toDigits hquotient
    rw [Nat.le_div_iff_mul_le hn] at hlow
    rw [Nat.div_lt_iff_lt_mul hn] at hhigh
    have hlow' : (10 ^ t * n : ℚ) ≤ d := by exact_mod_cast hlow
    have hhigh' : (d : ℚ) < 10 ^ (t + 1) * n := by exact_mod_cast hhigh
    have hpow : (0 : ℚ) < 10 ^ t := by positivity
    simp only [ht, Nat.add_sub_cancel]
    split
    · rename_i hle
      have hle' : (d : ℚ) ≤ n * 10 ^ t := by exact_mod_cast hle
      have hlower : (10 : ℚ) ^ (-(t : ℤ)) * d = d / 10 ^ t := by
        rw [zpow_neg, zpow_natCast]
        field_simp
      have hupper : (10 : ℚ) ^ (-(t : ℤ) + 1) * d = d / 10 ^ t * 10 := by
        rw [zpow_add₀ (by norm_num), zpow_neg, zpow_natCast, zpow_one]
        field_simp
      rw [hlower, hupper, div_le_iff₀ hpow]
      refine ⟨hle', ?_⟩
      rw [← div_lt_iff₀ (by norm_num), lt_div_iff₀ hpow]
      linarith
    · rename_i hgt
      have hgt' : (n * 10 ^ t : ℚ) < d := by exact_mod_cast Nat.lt_of_not_le hgt
      have hlower : (10 : ℚ) ^ (-(t : ℤ) - 1) * d = d / 10 ^ (t + 1) := by
        rw [← neg_add', ← Nat.cast_succ, zpow_neg, zpow_natCast]
        field_simp
      have hupper : (10 : ℚ) ^ (-(t : ℤ) - 1 + 1) * d = d / 10 ^ t := by
        rw [sub_add_cancel, zpow_neg, zpow_natCast]
        field_simp
      rw [hlower, hupper, div_le_iff₀ (by positivity), lt_div_iff₀ hpow]
      exact ⟨by linarith, hgt'⟩

end LeadingPower

/-- A quotient is rounded to one of its two neighbours. -/
theorem FloatFormat.roundHalfEven_eq (n d : Nat) :
    roundHalfEven n d = n / d ∨ roundHalfEven n d = n / d + 1 := by
  simp only [roundHalfEven]
  split
  · exact .inl rfl
  · split
    · exact .inr rfl
    · omega

/-! ## Points of an interval -/

namespace RoundingInterval

/-- A number lies in an interval. -/
def Holds (i : RoundingInterval) (q : ℚ) : Prop :=
  if i.closed then i.low ≤ q * i.denominator ∧ q * i.denominator ≤ i.high
  else i.low < q * i.denominator ∧ q * i.denominator < i.high

variable {i : RoundingInterval} {q : ℚ}

theorem Holds.le (h : i.Holds q) : i.low ≤ q * i.denominator ∧ q * i.denominator ≤ i.high := by
  rw [Holds] at h
  split at h
  · exact h
  · exact ⟨h.1.le, h.2.le⟩

theorem holds_of_lt (hlow : i.low < q * i.denominator) (hhigh : q * i.denominator < i.high) :
    i.Holds q := by
  rw [Holds]
  split
  · exact ⟨hlow.le, hhigh.le⟩
  · exact ⟨hlow, hhigh⟩

theorem contains_iff (c : Nat) (e : ℤ) : i.contains c e = true ↔ i.Holds (c * 10 ^ e) := by
  have hpow : (0 : ℚ) < 10 ^ (-e).toNat := by positivity
  have hscaled : (c * 10 ^ e * i.denominator : ℚ) =
      (c * 10 ^ e.toNat * i.denominator : ℕ) / 10 ^ (-e).toNat := by
    rw [zpow_eq_div]
    push_cast
    ring
  rw [contains, Holds, hscaled]
  simp only [le_div_iff₀ hpow, div_le_iff₀ hpow, lt_div_iff₀ hpow, div_lt_iff₀ hpow]
  split <;> simp only [Bool.and_eq_true, decide_eq_true_eq] <;> norm_cast

/-- A point found on a grid lies in the interval. -/
theorem holds_of_onGrid {e : ℤ} {c : Nat} (h : i.onGrid e = some c) : i.Holds (c * 10 ^ e) := by
  rw [← contains_iff]
  simp only [onGrid] at h
  split_ifs at h <;> obtain rfl := Option.some.inj h <;> assumption

/-- The value of an interval in units of a grid. -/
theorem value_eq_div (i : RoundingInterval) (e : ℤ) :
    (i.value : ℚ) = (i.value * Nat.pow 10 (-e).toNat : ℕ) / 10 ^ (-e).toNat := by
  push_cast [Nat.pow_eq]
  field_simp

/-- The step of a grid in these units. -/
theorem step_eq_div (i : RoundingInterval) (e : ℤ) :
    (10 ^ e * i.denominator : ℚ) =
      (i.denominator * Nat.pow 10 e.toNat : ℕ) / 10 ^ (-e).toNat := by
  rw [zpow_eq_div]
  push_cast [Nat.pow_eq]
  ring

/-- A grid has a point in an interval that goes up from its value by more than a step. -/
theorem isSome_onGrid {e : ℤ} (hd : 0 < i.denominator) (hlow : i.low ≤ i.value)
    (hstep : (i.value : ℚ) + 10 ^ e * i.denominator < i.high) : (i.onGrid e).isSome := by
  have hdpos : 0 < i.denominator * Nat.pow 10 e.toNat := Nat.mul_pos hd (Nat.pow_pos (by decide))
  have hpow : (0 : ℚ) < 10 ^ (-e).toNat := by positivity
  have hvalue := i.value_eq_div e
  have hunit := i.step_eq_div e
  simp only [onGrid]
  set n := i.value * Nat.pow 10 (-e).toNat
  set d := i.denominator * Nat.pow 10 e.toNat
  -- The upper neighbour of the value lies above it, by one step at most.
  have hupper : i.contains (n / d + 1) e = true := by
    have habove : (n : ℚ) < ((n / d + 1 : ℕ) : ℚ) * d := by
      exact_mod_cast mul_comm d _ ▸ Nat.lt_mul_div_succ n hdpos
    have hbelow : ((n / d + 1 : ℕ) : ℚ) * d ≤ n + d := by
      exact_mod_cast (Nat.succ_mul (n / d) d).trans_le
        (Nat.add_le_add_right (Nat.div_mul_le_self n d) d)
    rw [contains_iff]
    refine holds_of_lt ?_ ?_
    · refine lt_of_le_of_lt (Nat.cast_le.2 hlow) ?_
      rw [mul_assoc, hunit, hvalue, ← mul_div_assoc]
      exact div_lt_div_of_pos_right habove hpow
    · refine lt_of_le_of_lt ?_ hstep
      rw [mul_assoc, hunit, hvalue, ← mul_div_assoc, ← add_div]
      exact div_le_div_of_nonneg_right hbelow hpow.le
  rcases FloatFormat.roundHalfEven_eq n d with hnearest | hnearest
  · simp only [hnearest, if_true, hupper]
    split <;> rfl
  · simp only [hnearest, hupper, if_true]
    rfl

/-- Going down the grids stops at the first one that has a point of the interval, if the last one
has. -/
theorem firstOnGrid_spec {tries : Nat} {e : ℤ} (h : (i.onGrid (e - tries)).isSome) :
    i.onGrid (i.firstOnGrid tries e).exponent = some (i.firstOnGrid tries e).digits ∧
      ((i.firstOnGrid tries e).exponent = e ∨
        i.onGrid ((i.firstOnGrid tries e).exponent + 1) = none) := by
  induction tries generalizing e with
  | zero =>
      rw [Nat.cast_zero, sub_zero] at h
      obtain ⟨c, hc⟩ := Option.isSome_iff_exists.1 h
      simp [firstOnGrid, hc]
  | succ tries ih =>
      rw [firstOnGrid]
      split
      · rename_i c hc
        exact ⟨hc, .inl rfl⟩
      · rename_i hnone
        obtain ⟨hpoint, hfirst⟩ := ih (e := e - 1) (by rwa [sub_sub, add_comm, ← Nat.cast_succ])
        refine ⟨hpoint, .inr ?_⟩
        rcases hfirst with heq | hfirst
        · rwa [heq, sub_add_cancel]
        · exact hfirst

end RoundingInterval

/-! ## The intervals of codes -/

/-- The formats whose magnitudes seventeen digits determine. -/
structure FloatFormat.Usual (f : FloatFormat) : Prop where
  pos : 0 < f.fractionBits
  le : f.fractionBits ≤ 53

theorem FloatFormat.usual_double : FloatFormat.double.Usual := ⟨by decide, by decide⟩

namespace FloatFormat

variable {f : FloatFormat} {code other : Nat} {q : ℚ}

/-- Shift and significand of a code. -/
theorem shift_significand (f : FloatFormat) (code : Nat) :
    code = f.shift code * 2 ^ f.fractionBits + f.significand code ∧
      f.significand code < 2 * 2 ^ f.fractionBits ∧
      (0 < f.shift code → 2 ^ f.fractionBits ≤ f.significand code) := by
  have hpow : 0 < 2 ^ f.fractionBits := by positivity
  have hdiv := Nat.div_add_mod' code (2 ^ f.fractionBits)
  have hmod := Nat.mod_lt code hpow
  rw [significand, shift, Nat.pow_eq]
  set q := code / 2 ^ f.fractionBits
  rcases Nat.eq_zero_or_pos q with hq | hq
  · simp only [hq, Nat.zero_mul] at hdiv ⊢
    omega
  · obtain ⟨k, hk⟩ := Nat.exists_eq_succ_of_ne_zero hq.ne'
    simp only [hk, Nat.succ_mul] at hdiv
    simp only [hk, Nat.succ_eq_add_one, Nat.add_sub_cancel]
    omega

/-- They are determined by that. -/
theorem shift_significand_eq {k m : Nat} (hm : m < 2 * 2 ^ f.fractionBits)
    (hk : 0 < k → 2 ^ f.fractionBits ≤ m) :
    f.shift (k * 2 ^ f.fractionBits + m) = k ∧ f.significand (k * 2 ^ f.fractionBits + m) = m := by
  have hpow : 0 < 2 ^ f.fractionBits := by positivity
  have hshift : f.shift (k * 2 ^ f.fractionBits + m) = k := by
    rw [shift, Nat.pow_eq, mul_comm, Nat.mul_add_div hpow]
    rcases Nat.lt_or_ge m (2 ^ f.fractionBits) with hlt | hge
    · rw [Nat.div_eq_of_lt hlt]
      omega
    · rw [Nat.div_eq_of_lt_le (k := 1) (by omega) (by omega)]
      omega
  rw [significand, hshift, Nat.pow_eq]
  exact ⟨rfl, by omega⟩

theorem significand_pos (h : 0 < code) : 0 < f.significand code := by
  obtain ⟨hcode, -, hnormal⟩ := f.shift_significand code
  have hpow : 0 < 2 ^ f.fractionBits := by positivity
  rcases Nat.eq_zero_or_pos (f.shift code) with hk | hk
  · rw [hk] at hcode
    omega
  · exact hpow.trans_le (hnormal hk)

/-- The next code has the next significand, or begins the next power of two. -/
theorem shift_significand_succ (f : FloatFormat) (code : Nat) :
    (f.shift (code + 1) = f.shift code ∧ f.significand (code + 1) = f.significand code + 1 ∧
        (0 < f.shift code → 2 ^ f.fractionBits ≤ f.significand code)) ∨
      (f.shift (code + 1) = f.shift code + 1 ∧ f.significand (code + 1) = 2 ^ f.fractionBits ∧
        f.significand code + 1 = 2 * 2 ^ f.fractionBits) := by
  obtain ⟨hcode, hlt, hnormal⟩ := f.shift_significand code
  have hpow : 0 < 2 ^ f.fractionBits := by positivity
  rcases Nat.lt_or_ge (f.significand code + 1) (2 * 2 ^ f.fractionBits) with hstays | hcarries
  · obtain ⟨hshift, hsignificand⟩ := shift_significand_eq hstays
      fun hk => (hnormal hk).trans (Nat.le_succ _)
    rw [← Nat.add_assoc, ← hcode] at hshift hsignificand
    exact .inl ⟨hshift, hsignificand, hnormal⟩
  · obtain ⟨hshift, hsignificand⟩ := shift_significand_eq (f := f) (k := f.shift code + 1)
      (m := 2 ^ f.fractionBits) (by omega) fun _ => le_rfl
    have hnext : (f.shift code + 1) * 2 ^ f.fractionBits + 2 ^ f.fractionBits = code + 1 := by
      rw [Nat.succ_mul]
      omega
    rw [hnext] at hshift hsignificand
    exact .inr ⟨hshift, hsignificand, by omega⟩

/-- The intervals of consecutive codes meet. -/
theorem high_interval (f : FloatFormat) (code : Nat) :
    (f.interval code).high = (f.interval (code + 1)).low := by
  have hpow : 0 < 2 ^ f.fractionBits := by positivity
  simp only [interval, Nat.pow_eq]
  rcases f.shift_significand_succ code with
    ⟨hshift, hsignificand, hnormal⟩ | ⟨hshift, hsignificand, hlast⟩
  · have hregular : ¬ (f.significand code + 1 = 2 ^ f.fractionBits ∧ 0 < f.shift code) := by
      rintro ⟨heq, hk⟩
      have := hnormal hk
      omega
    rw [hshift, hsignificand, if_neg hregular]
    congr 1
  · rw [hshift, hsignificand, if_pos ⟨rfl, Nat.succ_pos _⟩, Nat.pow_succ, ← mul_assoc,
      mul_right_comm]
    congr 1
    omega

/-- The point in which they meet belongs to one of them. -/
theorem closed_interval_succ (hf : f.Usual) (code : Nat) :
    (f.interval (code + 1)).closed = !(f.interval code).closed := by
  obtain ⟨b, hb⟩ := Nat.exists_eq_succ_of_ne_zero hf.pos.ne'
  have heven : 2 ^ f.fractionBits = 2 * 2 ^ b := by rw [hb, Nat.pow_succ, mul_comm]
  have hparity : f.significand (code + 1) % 2 = 0 ↔ ¬ f.significand code % 2 = 0 := by
    rcases f.shift_significand_succ code with ⟨-, hsignificand, -⟩ | ⟨-, hsignificand, hlast⟩ <;>
      omega
  simp only [interval, hparity, decide_not]

theorem denominator_pos (f : FloatFormat) (code : Nat) : 0 < (f.interval code).denominator :=
  Nat.mul_pos (by decide) (Nat.pow_pos (by decide))

/-- The ends of an interval lie on either side of its value, the upper one half a step above. -/
theorem interval_spec (h : 0 < code) :
    0 < (f.interval code).low ∧ (f.interval code).low < (f.interval code).value ∧
      (f.interval code).value = 4 * f.significand code * 2 ^ f.shift code ∧
      (f.interval code).high = (f.interval code).value + 2 * 2 ^ f.shift code := by
  have hm := f.significand_pos h
  have hunit : 0 < 2 ^ f.shift code := by positivity
  simp only [interval, Nat.pow_eq]
  refine ⟨Nat.mul_pos ?_ hunit, Nat.mul_lt_mul_of_pos_right ?_ hunit, trivial,
    Nat.add_mul _ _ _⟩ <;>
    split <;> omega

theorem low_lt_high (h : 0 < code) : (f.interval code).low < (f.interval code).high := by
  obtain ⟨-, hlow, -, hhigh⟩ := f.interval_spec h
  omega

/-- Larger codes have higher intervals. -/
theorem high_le_low (h : code < other) : (f.interval code).high ≤ (f.interval other).low := by
  induction h with
  | refl => exact (f.high_interval code).le
  | @step next hnext ih =>
      rw [← f.high_interval next]
      exact ih.trans (low_lt_high (Nat.zero_lt_of_lt hnext)).le

/-- A number rounds to one code. -/
theorem eq_of_holds (hf : f.Usual) (h : (f.interval code).Holds q)
    (h' : (f.interval other).Holds q) : code = other := by
  wlog hlt : code < other generalizing code other
  · rcases Nat.lt_trichotomy code other with hcase | hcase | hcase
    · exact this h h' hcase
    · exact hcase
    · exact (this h' h hcase).symm
  -- The intervals have at most the point in common in which they meet.
  have hhigh := h.le.2
  have hlow := h'.le.1
  have hmeet : ((f.interval code).high : ℚ) ≤ (f.interval other).low := by
    exact_mod_cast f.high_le_low hlt
  have hdenominator : (f.interval other).denominator = (f.interval code).denominator := rfl
  rw [hdenominator] at hlow
  have hend : q * (f.interval code).denominator = (f.interval code).high := by linarith
  have hbegin : q * (f.interval other).denominator = (f.interval other).low := by
    rw [hdenominator]
    linarith
  have hclosed : (f.interval code).closed = true := by
    by_contra hopen
    rw [RoundingInterval.Holds, if_neg hopen] at h
    exact absurd hend h.2.ne
  have hclosed' : (f.interval other).closed = true := by
    by_contra hopen
    rw [RoundingInterval.Holds, if_neg hopen] at h'
    exact absurd hbegin h'.1.ne'
  rcases Nat.lt_or_ge (code + 1) other with hfar | hnear
  · have hgap := (low_lt_high (f := f) (Nat.succ_pos code)).trans_le (f.high_le_low hfar)
    rw [← f.high_interval code] at hgap
    have : ((f.interval code).high : ℚ) < (f.interval other).low := by exact_mod_cast hgap
    linarith
  · obtain rfl : other = code + 1 := by omega
    rw [closed_interval_succ hf, hclosed] at hclosed'
    exact absurd hclosed' (by decide)

/-- The last grid on which a shortest decimal is looked for has a point of the interval. -/
theorem isSome_lastGrid (hf : f.Usual) (h : 0 < code) :
    ((f.interval code).onGrid (leadingPower (f.interval code).value
      (f.interval code).denominator - 17)).isSome := by
  obtain ⟨hpos, hlow, hvalue, hhigh⟩ := f.interval_spec h
  have hd := f.denominator_pos code
  have hd' : (0 : ℚ) < (f.interval code).denominator := by exact_mod_cast hd
  have hm : (f.significand code : ℚ) < 2 ^ 54 := by
    have hpow : 2 ^ (f.fractionBits + 1) ≤ 2 ^ 54 :=
      Nat.pow_le_pow_right (by decide) (Nat.succ_le_succ hf.le)
    have hlt := (f.shift_significand code).2.1
    rw [← Nat.pow_succ'] at hlt
    exact_mod_cast hlt.trans_le hpow
  obtain ⟨hlead, -⟩ := leadingPower_spec (hpos.trans hlow) hd
  refine RoundingInterval.isSome_onGrid hd hlow.le ?_
  -- On the last grid a step is less than half a step between codes.
  rw [le_div_iff₀ hd'] at hlead
  have hunit : (0 : ℚ) < 2 ^ f.shift code := by positivity
  have hvalue' : ((f.interval code).value : ℚ) = 4 * f.significand code * 2 ^ f.shift code := by
    exact_mod_cast hvalue
  have hhigh' : ((f.interval code).high : ℚ) = (f.interval code).value + 2 * 2 ^ f.shift code := by
    exact_mod_cast hhigh
  have hpow : (10 : ℚ) ^ (17 : ℤ) = 10 ^ 17 := by norm_num
  rw [zpow_sub₀ (by norm_num), hpow, hhigh', div_mul_eq_mul_div]
  have hsmall : (f.significand code : ℚ) * 2 ^ f.shift code < 2 ^ 54 * 2 ^ f.shift code :=
    mul_lt_mul_of_pos_right hm hunit
  have hstep : (10 ^ leadingPower (f.interval code).value (f.interval code).denominator *
      (f.interval code).denominator / 10 ^ 17 : ℚ) < 2 * 2 ^ f.shift code := by
    rw [div_lt_iff₀ (by positivity)]
    linarith
  linarith

/-- The shortest decimal is found on the first grid that has a point of the interval. -/
theorem exists_onGrid (hf : f.Usual) (h : 0 < code) :
    ∃ x : DecimalNumber, f.shortest code = x.strip 20 ∧
      (f.interval code).onGrid x.exponent = some x.digits ∧
      (x.exponent = leadingPower (f.interval code).value (f.interval code).denominator ∨
        (f.interval code).onGrid (x.exponent + 1) = none) :=
  ⟨_, rfl, RoundingInterval.firstOnGrid_spec (by exact_mod_cast isSome_lastGrid hf h)⟩

/-- **The shortest decimal of a code rounds to it.** -/
theorem holds_shortest (hf : f.Usual) (h : 0 < code) :
    (f.interval code).Holds (f.shortest code).value := by
  obtain ⟨x, hx, hpoint, -⟩ := exists_onGrid hf h
  rw [hx, DecimalNumber.value_strip]
  exact RoundingInterval.holds_of_onGrid hpoint

theorem shortest_pos (hf : f.Usual) (h : 0 < code) : 0 < (f.shortest code).value := by
  have hlow := (holds_shortest hf h).le.1
  have hpos : (0 : ℚ) < (f.interval code).low := by exact_mod_cast (interval_spec h).1
  by_contra hneg
  have := mul_nonpos_of_nonpos_of_nonneg (not_lt.1 hneg)
    (Nat.cast_nonneg (f.interval code).denominator)
  linarith

theorem digits_shortest_pos (hf : f.Usual) (h : 0 < code) : 0 < (f.shortest code).digits := by
  have hpos := shortest_pos hf h
  by_contra hzero
  rw [DecimalNumber.value, Nat.eq_zero_of_not_pos hzero] at hpos
  simp at hpos

/-- Different codes have different shortest decimals. -/
theorem shortest_injective (hf : f.Usual) (hcode : 0 < code) (hother : 0 < other)
    (h : (f.shortest code).value = (f.shortest other).value) : code = other :=
  eq_of_holds hf (holds_shortest hf hcode) (h ▸ holds_shortest hf hother)

end FloatFormat

end Guided
