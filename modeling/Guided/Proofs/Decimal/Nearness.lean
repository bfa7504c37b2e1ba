import Guided.Proofs.Decimal.Shortest

/-!
# Decimals near binary numbers

A decimal `D * 10 ^ e` and a number `M * 2 ^ s` of 25 bits are equal or well apart, as long as the
power of ten is not below the power of two. For one `s` this follows from one fraction `p / q`
close to the ratio of the two powers: unless `M / D` is equal to it, the decimal misses the number
by almost `1 / q` of its power of two, and if it is equal to it, by the error of the fraction. The
fractions are convergents of the ratio, and they are found and checked by evaluation. Three
decimals are nearer to a number than all others.

## Main definitions

* `Nearness.Apart`: two numbers are equal or well apart.
* `Nearness.Certifies`: a fraction shows that decimals are apart from numbers.
* `Nearness.Exceptional`: the three decimals of which this is not shown.

## Main statements

* `Nearness.Certifies.apart`: what a fraction shows.
* `Nearness.apart`: decimals are apart from all numbers of the given size.
-/
namespace Guided

namespace Nearness

/-- Two numbers are equal, or they differ by more than a small part of the second one. -/
def Apart (v b : ℚ) : Prop := v = b ∨ 257 / 2 ^ 60 * b < |v - b|

theorem Apart.mul {v b c : ℚ} (h : Apart v b) (hc : 0 < c) : Apart (v * c) (b * c) := by
  rcases h with rfl | hgap
  · exact .inl rfl
  · refine .inr ?_
    rw [← sub_mul, abs_mul, abs_of_pos hc, ← mul_assoc]
    exact mul_lt_mul_of_pos_right hgap hc

theorem apart_natCast {x y : ℕ} (h : 257 * (y : ℤ) < 2 ^ 60 * |(x - y : ℤ)|) : Apart x y := by
  have h' : 257 * (y : ℚ) < 2 ^ 60 * |(x - y : ℚ)| := by exact_mod_cast h
  exact .inr (by linarith)

/-! ## The ratio of two powers -/

/-- The exponent of the least power of ten that is not below `2 ^ s`, for `s` of moderate size. -/
def leastExponent (s : ℤ) : ℤ := (30103 * s + 99999) / 100000

/-- The numerator of `10 ^ leastExponent s / 2 ^ s`. -/
def numerator (s : ℤ) : ℕ := 10 ^ (leastExponent s).toNat * 2 ^ (-s).toNat

/-- The denominator of `10 ^ leastExponent s / 2 ^ s`. -/
def denominator (s : ℤ) : ℕ := 2 ^ s.toNat * 10 ^ (-leastExponent s).toNat

/-- Both powers in a common unit. -/
theorem exists_unit (s : ℤ) :
    ∃ c : ℚ, 0 < c ∧ (10 : ℚ) ^ leastExponent s = numerator s * c ∧
      (2 : ℚ) ^ s = denominator s * c := by
  refine ⟨1 / (10 ^ (-leastExponent s).toNat * 2 ^ (-s).toNat), by positivity, ?_, ?_⟩
  · rw [zpow_eq_div, numerator]
    push_cast
    field_simp
  · rw [zpow_eq_div, denominator]
    push_cast
    field_simp

/-! ## Certificates -/

/-- The exponent `s`, the number `M` and the digits `D` of the decimals that come nearest to a
number without being equal to it. -/
def exceptions : List (ℤ × ℕ × ℕ) :=
  [(-108, 22841339, 7038531), (-107, 22841339, 14077062), (-50, 28874659, 25645849)]

/-- By how much a fraction misses the ratio of the two powers. -/
def remainder (s : ℤ) (p q : ℕ) : ℤ := q * numerator s - p * denominator s

/-- A fraction shows that decimals are apart from numbers: it is near enough to the ratio for all
pairs that are not multiples of it, and it is the ratio, too large to be met, or far enough from
the ratio for those that are. -/
def Certifies (s : ℤ) (p q : ℕ) : Prop :=
  Nat.gcd p q = 1 ∧ 0 < q ∧
    257 * q * 2 ^ 25 * denominator s + 2 ^ 60 * 2 ^ 25 * (remainder s p q).natAbs <
      2 ^ 60 * denominator s ∧
    (remainder s p q = 0 ∨ 2 ^ 25 ≤ p ∨
      257 * p * denominator s < 2 ^ 60 * (remainder s p q).natAbs ∨
      (2 ^ 24 ≤ p ∧ (s, p, q) ∈ exceptions))

instance (s : ℤ) (p q : ℕ) : Decidable (Certifies s p q) := inferInstanceAs (Decidable (_ ∧ _))

variable {s : ℤ} {p q M D : ℕ}

/-- Multiples of the fraction. -/
theorem Certifies.apart_mul (h : Certifies s p q) {t : ℕ} (hM : 0 < p * t) (hlt : p * t < 2 ^ 25) :
    Apart (q * t * numerator s : ℕ) (p * t * denominator s : ℕ) ∨
      (s, p * t, q * t) ∈ exceptions := by
  obtain ⟨-, -, -, hnear⟩ := h
  obtain ⟨hp, ht⟩ := CanonicallyOrderedAdd.mul_pos.1 hM
  have hle : p ≤ p * t := Nat.le_mul_of_pos_right p ht
  have hdifference : ((q * t * numerator s : ℕ) - (p * t * denominator s : ℕ) : ℤ) =
      t * remainder s p q := by
    rw [remainder]
    push_cast
    ring
  rcases hnear with hzero | hlarge | hgap | ⟨hlarge, hmem⟩
  · refine .inl (.inl ?_)
    rw [hzero, mul_zero, sub_eq_zero] at hdifference
    exact_mod_cast hdifference
  · omega
  · refine .inl (apart_natCast ?_)
    rw [hdifference, abs_mul, Nat.abs_cast]
    zify at hgap ht
    have hscaled := mul_lt_mul_of_pos_left hgap ht
    push_cast
    linarith
  · obtain rfl : t = 1 := by
      have hless : p * t < p * 2 := by omega
      have := lt_of_mul_lt_mul_left hless (Nat.zero_le p)
      omega
    rw [mul_one, mul_one]
    exact .inr hmem

/-- **What a fraction shows.** -/
theorem Certifies.apart (h : Certifies s p q) (hM : 0 < M) (hlt : M < 2 ^ 25) (hle : D ≤ M) :
    Apart (D * numerator s : ℕ) (M * denominator s : ℕ) ∨ (s, M, D) ∈ exceptions := by
  by_cases hmultiple : p * D = q * M
  · obtain ⟨t, rfl⟩ : p ∣ M :=
      Nat.Coprime.dvd_of_dvd_mul_left h.1 (Dvd.intro D hmultiple)
    obtain rfl : D = q * t := by
      rw [mul_left_comm] at hmultiple
      exact Nat.eq_of_mul_eq_mul_left (CanonicallyOrderedAdd.mul_pos.1 hM).1 hmultiple
    exact h.apart_mul hM hlt
  · obtain ⟨-, hq, hfar, -⟩ := h
    refine .inl (apart_natCast ?_)
    push_cast
    zify at hq hfar hM hlt hle hmultiple
    -- `q` times the difference is at least one denominator, but for the error of the fraction.
    have hsplit : (q * (D * numerator s - M * denominator s) : ℤ) =
        denominator s * (p * D - q * M) + D * remainder s p q := by
      rw [remainder]
      ring
    have habs : (q * |(D * numerator s - M * denominator s : ℤ)| : ℤ) =
        |denominator s * (p * D - q * M) + D * remainder s p q| := by
      rw [← hsplit, abs_mul, abs_of_pos hq]
    have hmain : (denominator s : ℤ) ≤ |(denominator s * (p * D - q * M) : ℤ)| := by
      rw [abs_mul, Nat.abs_cast]
      exact le_mul_of_one_le_right (Nat.cast_nonneg _)
        (Int.one_le_abs (sub_ne_zero.2 hmultiple))
    have herror : |(D * remainder s p q : ℤ)| ≤ 2 ^ 25 * |remainder s p q| := by
      rw [abs_mul, Nat.abs_cast]
      exact mul_le_mul_of_nonneg_right (hle.trans hlt.le) (abs_nonneg _)
    have hdifference := abs_sub_abs_le_abs_add (denominator s * (p * D - q * M) : ℤ)
      (D * remainder s p q)
    rw [← habs] at hdifference
    have hbound : (q * M * denominator s : ℤ) ≤ q * 2 ^ 25 * denominator s :=
      mul_le_mul_of_nonneg_right (mul_le_mul_of_nonneg_left hlt.le hq.le) (Nat.cast_nonneg _)
    refine lt_of_mul_lt_mul_left (a := (q : ℤ)) ?_ hq.le
    linarith

/-! ## Finding the fractions -/

/-- The convergents of `a / b` that follow `p / q`, the one before it being `p' / q'`. -/
def convergents : (fuel : ℕ) → (a b p q p' q' : ℕ) → List (ℕ × ℕ)
  | 0, _, _, _, _, _, _ => []
  | fuel + 1, a, b, p, q, p', q' =>
      if b = 0 then []
      else
        let next := (a / b * p + p', a / b * q + q')
        next :: convergents fuel b (a % b) next.1 next.2 p q

/-- Whether some convergent shows that decimals are apart from numbers, and whether
`leastExponent` is what it should be. -/
def certified (s : ℤ) : Bool :=
  denominator s ≤ numerator s && numerator s < 10 * denominator s &&
    (convergents 40 (numerator s) (denominator s) 1 0 0 1).any fun (p, q) => Certifies s p q

theorem certified_range : ((List.range 254).all fun j => certified (j - 150)) = true := by
  decide +kernel

theorem certified_of_le (hs : -150 ≤ s) (hs' : s ≤ 103) : certified s = true := by
  have hmem := List.all_eq_true.1 certified_range (s + 150).toNat (List.mem_range.2 (by omega))
  have heq : ((s + 150).toNat : ℤ) - 150 = s := by omega
  rwa [heq] at hmem

/-! ## Decimals and numbers -/

/-- A decimal that comes nearer to a number than others. -/
def Exceptional (v : ℚ) : Prop :=
  ∃ s M D, (s, M, D) ∈ exceptions ∧ v = D * 10 ^ leastExponent s

/-- **Decimals are apart from numbers of 25 bits** whose power of two is not above their power of
ten. -/
theorem apart (hs : -150 ≤ s) (hs' : s ≤ 103) (hM : 0 < M) (hlt : M < 2 ^ 25) {e : ℤ}
    (he : (2 : ℚ) ^ s ≤ 10 ^ e) (D : ℕ) :
    Apart (D * 10 ^ e) (M * 2 ^ s) ∨ Exceptional (D * 10 ^ e) := by
  have hcertified := certified_of_le hs hs'
  simp only [certified, Bool.and_eq_true, decide_eq_true_eq, List.any_eq_true] at hcertified
  obtain ⟨⟨hlow, hhigh⟩, ⟨p, q⟩, -, hcertifies⟩ := hcertified
  obtain ⟨c, hc, hten, htwo⟩ := exists_unit s
  have hlow' : (denominator s : ℚ) ≤ numerator s := by exact_mod_cast hlow
  have hhigh' : (numerator s : ℚ) < 10 * denominator s := by exact_mod_cast hhigh
  -- Multiples of the power of ten are multiples of the least one that is not below `2 ^ s`.
  obtain ⟨j, rfl⟩ : ∃ j : ℕ, e = leastExponent s + j := by
    have hless : (10 : ℚ) ^ (leastExponent s - 1) < 10 ^ e := by
      refine lt_of_lt_of_le ?_ he
      rw [zpow_sub_one₀ (by norm_num), hten, htwo, ← div_eq_mul_inv, div_lt_iff₀ (by norm_num)]
      linarith [mul_lt_mul_of_pos_right hhigh' hc]
    have := (zpow_lt_zpow_iff_right₀ (by norm_num)).1 hless
    exact ⟨(e - leastExponent s).toNat, by omega⟩
  have hrescaled : (D * 10 ^ (leastExponent s + j) : ℚ) =
      (D * 10 ^ j : ℕ) * 10 ^ leastExponent s := by
    rw [zpow_add₀ (by norm_num), zpow_natCast]
    push_cast
    ring
  rw [hrescaled]
  generalize D * 10 ^ j = D
  rcases Nat.lt_or_ge M D with habove | hbelow
  · -- With more digits than `M` the decimal is above the number by a power of two.
    have hunit : (0 : ℚ) < 2 ^ s := by positivity
    have hpowers : (2 : ℚ) ^ s ≤ 10 ^ leastExponent s := by
      rw [hten, htwo]
      exact mul_le_mul_of_nonneg_right hlow' hc.le
    have habove' : ((M + 1 : ℕ) : ℚ) ≤ D := by exact_mod_cast habove
    have hmore : ((M + 1 : ℕ) * 2 ^ s : ℚ) ≤ D * 10 ^ leastExponent s :=
      mul_le_mul habove' hpowers hunit.le (Nat.cast_nonneg D)
    rw [Nat.cast_succ, add_mul, one_mul] at hmore
    have hlt' : (M : ℚ) < 2 ^ 25 := by exact_mod_cast hlt
    have hsmall := mul_lt_mul_of_pos_right hlt' hunit
    exact .inl (.inr (lt_of_lt_of_le (by linarith) (le_abs_self _)))
  · rcases Certifies.apart (by simpa using hcertifies) hM hlt hbelow with hapart | hmem
    · have hscaled := hapart.mul hc
      rw [Nat.cast_mul, Nat.cast_mul, mul_assoc, mul_assoc, ← hten, ← htwo] at hscaled
      exact .inl hscaled
    · exact .inr ⟨_, _, _, hmem, rfl⟩

end Nearness

end Guided
