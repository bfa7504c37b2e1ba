import Guided.Proofs.Decimal.Shortest

/-!
# Rounding to binary

The code nearest to a ratio is the one whose interval the ratio lies in. Its magnitude differs from
the ratio by half a step at most, which is a small part of it unless it is tiny, and not at all if
the ratio is a magnitude of the format itself.

## Main definitions

* `FloatFormat.magnitude`: the number that a code stands for.
* `FloatFormat.nearest`: the code nearest to a ratio if there were codes without end.
* `FloatFormat.NearestAt`: shift and significand of the nearest code.

## Main statements

* `FloatFormat.NearestAt.holds`: a ratio lies in the interval of its nearest code.
* `FloatFormat.ofRatio_eq_of_holds`: which is the only one.
* `FloatFormat.NearestAt.abs_magnitude_sub_le`: how far a ratio is from its nearest magnitude.
* `FloatFormat.NearestAt.magnitude_eq_of_eq`: magnitudes of the format are met.
-/
namespace Guided

namespace FloatFormat

variable {f : FloatFormat} {n d code : Nat} {q : ℚ}

/-! ## Rounding to integers -/

/-- A rounded quotient is off by a half at most, and even if it is off by that. -/
theorem roundHalfEven_spec (n d : Nat) (hd : 0 < d) :
    2 * roundHalfEven n d * d ≤ 2 * n + d ∧ 2 * n ≤ (2 * roundHalfEven n d + 1) * d ∧
      (2 * roundHalfEven n d * d = 2 * n + d ∨ 2 * n = (2 * roundHalfEven n d + 1) * d →
        roundHalfEven n d % 2 = 0) := by
  have hdiv := Nat.div_add_mod n d
  have hmod := Nat.mod_lt n hd
  have hsucc : 2 * (n / d + 1) * d = 2 * (d * (n / d)) + 2 * d := by ring
  have hsame : 2 * (n / d) * d = 2 * (d * (n / d)) := by ring
  have hsucc' : (2 * (n / d + 1) + 1) * d = 2 * (d * (n / d)) + 3 * d := by ring
  have hsame' : (2 * (n / d) + 1) * d = 2 * (d * (n / d)) + d := by ring
  simp only [roundHalfEven]
  split
  · rw [hsame, hsame']
    omega
  · split
    · rw [hsucc, hsucc']
      omega
    · rcases Nat.mod_two_eq_zero_or_one (n / d) with heven | hodd
      · rw [heven, Nat.add_zero, hsame, hsame']
        omega
      · rw [hodd, hsucc, hsucc']
        omega

/-! ## The nearest code -/

/-- The number that a code stands for. -/
def magnitude (f : FloatFormat) (code : Nat) : ℚ := f.steps code / 2 ^ f.offset

/-- The shift of the code nearest to a number of steps. -/
def shiftOf (f : FloatFormat) (steps : Nat) : Nat := Nat.log2 steps - f.fractionBits

/-- The code nearest to the ratio `n / d`, if codes went on without end. -/
def nearest (f : FloatFormat) (n d : Nat) : Nat :=
  let k := f.shiftOf (n * 2 ^ f.offset / d)
  k * 2 ^ f.fractionBits + roundHalfEven (n * 2 ^ f.offset) (d * 2 ^ k)

theorem ofRatio_eq (f : FloatFormat) (n d : Nat) :
    f.ofRatio n d = min f.infinity (f.nearest n d) := rfl

/-- The steps of a ratio, in units of the shift of its code. -/
theorem shiftOf_spec (hd : 0 < d) :
    n < d * (2 * 2 ^ f.fractionBits * 2 ^ f.shiftOf (n / d)) ∧
      (0 < f.shiftOf (n / d) → d * (2 ^ f.fractionBits * 2 ^ f.shiftOf (n / d)) ≤ n) := by
  have hlog : n / d < 2 ^ (Nat.log2 (n / d) + 1) := Nat.lt_log2_self
  rw [Nat.div_lt_iff_lt_mul hd, mul_comm] at hlog
  rw [← Nat.pow_succ', ← Nat.pow_add, ← Nat.pow_add, shiftOf]
  refine ⟨hlog.trans_le (Nat.mul_le_mul_left d (Nat.pow_le_pow_right (by decide) ?_)), fun h => ?_⟩
  · omega
  · have hne : n / d ≠ 0 := by
      rintro hzero
      rw [hzero] at h
      exact absurd h (by simp)
    have hself := Nat.log2_self_le hne
    rw [Nat.le_div_iff_mul_le hd, mul_comm] at hself
    refine le_trans (Nat.mul_le_mul_left d (Nat.pow_le_pow_right (by decide) ?_)) hself
    omega

/-- The nearest code is at a shift and a significand, possibly rounded up to the next power of two,
that differ from the ratio, counted in steps of that shift, by a half at most. -/
structure NearestAt (f : FloatFormat) (n d k m : Nat) : Prop where
  eq : f.nearest n d = k * 2 ^ f.fractionBits + m
  upper : m ≤ 2 * 2 ^ f.fractionBits
  lower : 0 < k → 2 ^ f.fractionBits ≤ m
  below : n * 2 ^ f.offset < 2 * 2 ^ f.fractionBits * (d * 2 ^ k)
  above : 0 < k → 2 ^ f.fractionBits * (d * 2 ^ k) ≤ n * 2 ^ f.offset
  low : 2 * m * (d * 2 ^ k) ≤ 2 * (n * 2 ^ f.offset) + d * 2 ^ k
  high : 2 * (n * 2 ^ f.offset) ≤ (2 * m + 1) * (d * 2 ^ k)
  half : 2 * m * (d * 2 ^ k) = 2 * (n * 2 ^ f.offset) + d * 2 ^ k ∨
    2 * (n * 2 ^ f.offset) = (2 * m + 1) * (d * 2 ^ k) → m % 2 = 0

theorem exists_nearestAt (f : FloatFormat) (n : Nat) (hd : 0 < d) :
    ∃ k m, f.NearestAt n d k m := by
  obtain ⟨hbelow, habove⟩ := f.shiftOf_spec (n := n * 2 ^ f.offset) hd
  rw [mul_left_comm] at hbelow habove
  set k := f.shiftOf (n * 2 ^ f.offset / d) with hk
  have hunit : 0 < d * 2 ^ k := by positivity
  obtain ⟨hlow, hhigh, hhalf⟩ := roundHalfEven_spec (n * 2 ^ f.offset) (d * 2 ^ k) hunit
  set m := roundHalfEven (n * 2 ^ f.offset) (d * 2 ^ k)
  refine ⟨k, m, rfl, ?_, fun hpos => ?_, hbelow, habove, hlow, hhigh, hhalf⟩
  · have hlt : 2 * m * (d * 2 ^ k) < (2 * (2 * 2 ^ f.fractionBits) + 1) * (d * 2 ^ k) := by
      linarith
    have := lt_of_mul_lt_mul_right hlt hunit.le
    omega
  · have hle : 2 * 2 ^ f.fractionBits * (d * 2 ^ k) ≤ (2 * m + 1) * (d * 2 ^ k) := by
      linarith [habove hpos]
    have := le_of_mul_le_mul_right hle hunit
    omega

namespace NearestAt

variable {k m : Nat} (h : f.NearestAt n d k m)

include h

/-- Shift and significand of the nearest code. -/
theorem shift_significand :
    (m < 2 * 2 ^ f.fractionBits ∧ f.shift (f.nearest n d) = k ∧
        f.significand (f.nearest n d) = m) ∨
      (m = 2 * 2 ^ f.fractionBits ∧ f.shift (f.nearest n d) = k + 1 ∧
        f.significand (f.nearest n d) = 2 ^ f.fractionBits) := by
  rcases Nat.lt_or_eq_of_le h.upper with hlt | heq
  · rw [h.eq]
    exact .inl ⟨hlt, shift_significand_eq hlt h.lower⟩
  · have hnext : f.nearest n d = (k + 1) * 2 ^ f.fractionBits + 2 ^ f.fractionBits := by
      rw [h.eq, heq]
      ring
    have hpow : 0 < 2 ^ f.fractionBits := by positivity
    rw [hnext]
    exact .inr ⟨heq, shift_significand_eq (by omega) fun _ => le_rfl⟩

theorem steps_eq : f.steps (f.nearest n d) = m * 2 ^ k := by
  rw [steps]
  rcases h.shift_significand with ⟨-, hshift, hsignificand⟩ | ⟨hm, hshift, hsignificand⟩
  · rw [hshift, hsignificand]
    rfl
  · rw [hshift, hsignificand, hm, Nat.pow_eq]
    ring

/-- **A ratio rounds to its nearest code.** -/
theorem holds (hf : f.Usual) (hd : 0 < d) : (f.interval (f.nearest n d)).Holds (n / d) := by
  have hd' : (0 : ℚ) < d := by exact_mod_cast hd
  have hscaled : (n / d * (f.interval (f.nearest n d)).denominator : ℚ) =
      (4 * (n * 2 ^ f.offset) : ℕ) / d := by
    simp only [interval]
    push_cast [Nat.pow_eq]
    ring
  rw [RoundingInterval.Holds, hscaled]
  simp only [le_div_iff₀ hd', div_le_iff₀ hd', lt_div_iff₀ hd', div_lt_iff₀ hd']
  norm_cast
  obtain ⟨b, hb⟩ := Nat.exists_eq_succ_of_ne_zero hf.pos.ne'
  have heven : 2 ^ f.fractionBits = 2 * 2 ^ b := by rw [hb, Nat.pow_succ, mul_comm]
  have hunit : 0 < d * 2 ^ k := by positivity
  have hlow := h.low
  have hhigh := h.high
  have hhalf := h.half
  have habove := h.above
  have hcomm (j a : Nat) : a * 2 ^ j * d = a * (d * 2 ^ j) := by ring
  simp only [interval, Nat.pow_eq, hcomm]
  rcases h.shift_significand with ⟨-, hshift, hsignificand⟩ | ⟨hm, hshift, hsignificand⟩
  · simp only [hshift, hsignificand]
    simp only [Nat.add_mul, Nat.sub_mul, Nat.one_mul, mul_assoc] at hlow hhigh hhalf habove ⊢
    by_cases hpower : m = 2 ^ f.fractionBits ∧ 0 < k
    · have hle := habove hpower.2
      rw [← hpower.1] at hle heven
      rw [if_pos hpower, if_pos (by simpa using heven ▸ Nat.mul_mod_right 2 _)]
      omega
    · rw [if_neg hpower]
      split
      · omega
      · rename_i hodd
        simp only [decide_eq_true_eq] at hodd
        have hpos : d * 2 ^ k ≤ m * (d * 2 ^ k) := Nat.le_mul_of_pos_left _ (by omega)
        omega
  · have hmod : 2 ^ f.fractionBits % 2 = 0 := by omega
    have hdouble : d * 2 ^ (k + 1) = 2 * (d * 2 ^ k) := by ring
    rw [hm] at hlow hhigh
    simp only [hshift, hsignificand, hmod, Nat.zero_lt_succ, and_self, if_true, decide_true,
      hdouble, Nat.add_mul, Nat.sub_mul, Nat.one_mul, mul_assoc] at hlow hhigh ⊢
    simp only [mul_left_comm _ 2] at hlow hhigh ⊢
    omega

theorem magnitude_eq : f.magnitude (f.nearest n d) = m * 2 ^ k / 2 ^ f.offset := by
  rw [magnitude, h.steps_eq]
  push_cast
  rfl

/-- A ratio that is not tiny differs from its nearest magnitude by a small part of itself. -/
theorem abs_magnitude_sub_le (hd : 0 < d) (hnormal : 2 ^ f.fractionBits * d ≤ n * 2 ^ f.offset) :
    |f.magnitude (f.nearest n d) - n / d| ≤ n / d / (2 * 2 ^ f.fractionBits) := by
  have hd' : (0 : ℚ) < d := by exact_mod_cast hd
  have hstep : 2 ^ f.fractionBits * (d * 2 ^ k) ≤ n * 2 ^ f.offset := by
    rcases Nat.eq_zero_or_pos k with rfl | hk
    · simpa using hnormal
    · exact h.above hk
  have hstep' : (2 ^ f.fractionBits * (d * 2 ^ k) : ℚ) ≤ n * 2 ^ f.offset := by exact_mod_cast hstep
  have hlow : (2 * m * (d * 2 ^ k) : ℚ) ≤ 2 * (n * 2 ^ f.offset) + d * 2 ^ k := by
    exact_mod_cast h.low
  have hhigh : (2 * (n * 2 ^ f.offset) : ℚ) ≤ (2 * m + 1) * (d * 2 ^ k) := by
    exact_mod_cast h.high
  have hbound : (d * 2 ^ k : ℚ) ≤ n * 2 ^ f.offset / 2 ^ f.fractionBits := by
    rw [le_div_iff₀ (by positivity)]
    linarith
  have hdifference : f.magnitude (f.nearest n d) - n / d =
      (m * (d * 2 ^ k) - n * 2 ^ f.offset) / (d * 2 ^ f.offset) := by
    rw [h.magnitude_eq]
    field_simp
  have hpart : (n / d / (2 * 2 ^ f.fractionBits) : ℚ) =
      (n * 2 ^ f.offset / 2 ^ f.fractionBits / 2) / (d * 2 ^ f.offset) := by
    field_simp
  rw [hdifference, hpart, abs_div, abs_of_pos (by positivity : (0 : ℚ) < d * 2 ^ f.offset)]
  refine div_le_div_of_nonneg_right (abs_le.2 ⟨?_, ?_⟩) (by positivity) <;> linarith

/-- A magnitude of the format is met. -/
theorem magnitude_eq_of_eq (hd : 0 < d) {significand : Nat} {s : ℤ}
    (hsignificand : significand < 2 * 2 ^ f.fractionBits) (hs : -(f.offset : ℤ) ≤ s)
    (heq : (n / d : ℚ) = significand * 2 ^ s) : f.magnitude (f.nearest n d) = n / d := by
  have hd' : (0 : ℚ) < d := by exact_mod_cast hd
  obtain ⟨t, ht⟩ := Int.eq_ofNat_of_zero_le (neg_le_iff_add_nonneg.1 hs)
  have hscaled : n * 2 ^ f.offset = significand * (d * 2 ^ t) := by
    have hpow : (2 : ℚ) ^ t = 2 ^ s * 2 ^ f.offset := by
      rw [← zpow_natCast, ← zpow_natCast, ← zpow_add₀ (by norm_num), ht]
    rw [div_eq_iff hd'.ne'] at heq
    have : (n * 2 ^ f.offset : ℚ) = significand * (d * 2 ^ t) := by
      rw [heq, hpow]
      ring
    exact_mod_cast this
  have hk : k ≤ t := by
    by_contra hlt
    rw [not_le] at hlt
    have habove := h.above (by omega)
    have hmore : 2 * (d * 2 ^ t) ≤ d * 2 ^ k := by
      rw [mul_left_comm, ← Nat.pow_succ']
      exact Nat.mul_le_mul_left d (Nat.pow_le_pow_right (by decide) hlt)
    have hless : significand * (d * 2 ^ t) < 2 * 2 ^ f.fractionBits * (d * 2 ^ t) :=
      Nat.mul_lt_mul_of_pos_right hsignificand (by positivity)
    have := Nat.mul_le_mul_left (2 ^ f.fractionBits) hmore
    linarith
  obtain ⟨j, rfl⟩ := Nat.exists_eq_add_of_le hk
  have hunit : 0 < d * 2 ^ k := by positivity
  have hwhole : n * 2 ^ f.offset = significand * 2 ^ j * (d * 2 ^ k) := by
    rw [hscaled]
    ring
  have hm : m = significand * 2 ^ j := by
    have hlow := h.low
    have hhigh := h.high
    rw [hwhole] at hlow hhigh
    have hle : m < significand * 2 ^ j + 1 := by
      refine lt_of_mul_lt_mul_right (a := d * 2 ^ k) ?_ hunit.le
      linarith
    have hge : significand * 2 ^ j < m + 1 := by
      refine lt_of_mul_lt_mul_right (a := d * 2 ^ k) ?_ hunit.le
      linarith
    omega
  rw [h.magnitude_eq, hm, heq, div_eq_iff (by positivity), mul_assoc, ← zpow_natCast 2 f.offset,
    ← zpow_add₀ (by norm_num), ht, zpow_natCast]
  push_cast
  ring

/-- The nearest code of a ratio that is not huge is that of a finite magnitude. -/
theorem le_of_lt {j : Nat} (hj : 0 < j)
    (hlt : n * 2 ^ f.offset < 2 ^ f.fractionBits * (d * 2 ^ j)) :
    f.nearest n d ≤ (j + 1) * 2 ^ f.fractionBits := by
  have hk : k < j := by
    rcases Nat.eq_zero_or_pos k with rfl | hpos
    · exact hj
    · have hless := (h.above hpos).trans_lt hlt
      exact (Nat.pow_lt_pow_iff_right (by decide)).1
        (lt_of_mul_lt_mul_left (lt_of_mul_lt_mul_left hless (Nat.zero_le _)) (Nat.zero_le _))
  rw [h.eq]
  have := Nat.mul_le_mul_right (2 ^ f.fractionBits) (Nat.succ_le_of_lt hk)
  have := h.upper
  linarith

end NearestAt

theorem ofRatio_eq_of_holds (hf : f.Usual) (hd : 0 < d) (hcode : code < f.infinity)
    (h : (f.interval code).Holds (n / d)) : f.ofRatio n d = code := by
  obtain ⟨k, m, hat⟩ := f.exists_nearestAt n hd
  rw [ofRatio_eq, eq_of_holds hf (hat.holds hf hd) h, min_eq_right hcode.le]

end FloatFormat

end Guided
