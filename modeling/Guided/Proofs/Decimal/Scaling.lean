import Guided.Proofs.Decimal.Single
import Guided.Value.Decode

/-!
# Decimals read in eight bytes

A decimal is read by rounding its digits and the power of ten to eight bytes, and their product or
quotient once more. The result is close to the decimal, and it is the decimal itself if that has
few binary digits. Therefore the shortest decimal of a code of four bytes survives being read in
eight bytes: the result rounds to the same code.

## Main definitions

* `RoundsTo`: what is known about a rounded ratio.
* `ReadsAs`: what is known about a decimal that has been read.

## Main statements

* `exists_scaled?`: digits and a power of ten are read.
* `exists_scaled?_shortest`: a shortest decimal survives reading.
-/
namespace Guided

open FloatFormat

/-! ## Rounded ratios -/

/-- A finite number of eight bytes that is close to a ratio, and is the ratio if that has so few
binary digits. -/
structure RoundsTo (v : ℚ) (code : ℕ) : Prop where
  finite : code < double.infinity
  near : |double.magnitude code - v| ≤ v / 2 ^ 53
  exact : HasBits 53 v → double.magnitude code = v

/-- A ratio of moderate size is rounded. -/
theorem roundsTo_ofRatio {n d : ℕ} (hd : 0 < d) (hlow : 1 / 2 ^ 200 ≤ (n / d : ℚ))
    (hhigh : (n / d : ℚ) ≤ 2 ^ 200) : RoundsTo (n / d) (double.ofRatio n d) := by
  obtain ⟨k, m, hat⟩ := double.exists_nearestAt n hd
  have hd' : (0 : ℚ) < d := by exact_mod_cast hd
  rw [div_le_div_iff₀ (by positivity) hd', one_mul] at hlow
  rw [div_le_iff₀ hd'] at hhigh
  have hlow' : d ≤ n * 2 ^ 200 := by exact_mod_cast hlow
  have hhigh' : n ≤ 2 ^ 200 * d := by exact_mod_cast hhigh
  have hfinite : double.nearest n d < double.infinity := by
    refine lt_of_le_of_lt (hat.le_of_lt (j := double.offset + 200) (by decide) ?_) (by decide)
    have hscaled := Nat.mul_le_mul_right (2 ^ double.offset) hhigh'
    have hpos : 0 < d * 2 ^ double.offset := by positivity
    rw [Nat.pow_add, show double.fractionBits = 52 from rfl]
    linarith
  have hnormal : 2 ^ double.fractionBits * d ≤ n * 2 ^ double.offset := by
    have hoffset : 2 ^ 200 * 2 ^ 52 ≤ 2 ^ double.offset := by
      rw [← Nat.pow_add]
      exact Nat.pow_le_pow_right (by decide) (by decide)
    have hscaled := Nat.mul_le_mul_left n hoffset
    rw [show double.fractionBits = 52 from rfl]
    linarith
  have hnear := hat.abs_magnitude_sub_le hd hnormal
  rw [← pow_succ'] at hnear
  rw [ofRatio_eq, min_eq_right hfinite.le]
  exact ⟨hfinite, hnear, fun ⟨_, _, hM, hs, heq⟩ => hat.magnitude_eq_of_eq hd hM hs heq⟩

variable {m k : ℕ} {e : ℤ}

/-- A significand of up to 53 bits is not changed. -/
theorem magnitude_significand (hpos : 0 < m) (hm : m < 2 ^ 53) :
    double.magnitude (double.ofRatio m 1) = m := by
  have hone : (1 : ℚ) ≤ m := by exact_mod_cast hpos
  have hm' : (m : ℚ) < 2 ^ 53 := by exact_mod_cast hm
  have hrounds := roundsTo_ofRatio (n := m) (d := 1) Nat.one_pos
    (by norm_num; linarith) (by norm_num; linarith)
  simpa using hrounds.exact (by simpa using HasBits.of_natCast hm)

/-- A power of ten is rounded, unless it is a small one. -/
theorem magnitude_power (hk : k ≤ 46) :
    |double.magnitude (double.ofRatio (10 ^ k) 1) - 10 ^ k| ≤ 10 ^ k / 2 ^ 53 ∧
      (k ≤ 22 → double.magnitude (double.ofRatio (10 ^ k) 1) = 10 ^ k) := by
  have hone : (1 : ℚ) ≤ 10 ^ k := one_le_pow₀ (by norm_num)
  have hmost : (10 : ℚ) ^ k ≤ 10 ^ 46 := pow_le_pow_right₀ (by norm_num) hk
  obtain ⟨-, hnear, hexact⟩ := roundsTo_ofRatio (n := 10 ^ k) (d := 1) Nat.one_pos
    (by push_cast; norm_num at hmost ⊢; linarith) (by push_cast; norm_num at hmost ⊢; linarith)
  simp only [Nat.cast_pow, Nat.cast_ofNat, Nat.cast_one, div_one] at hnear hexact
  refine ⟨hnear, fun hsmall => hexact ⟨5 ^ k, k, ?_, by omega, ?_⟩⟩
  · exact (Nat.pow_le_pow_right (by decide) hsmall).trans_lt (by decide)
  · rw [zpow_natCast, Nat.cast_pow, ← mul_pow]
    norm_num

/-! ## Scaling -/

theorem steps_div (code other : ℕ) :
    (double.steps code / double.steps other : ℚ) =
      double.magnitude code / double.magnitude other := by
  rw [magnitude, magnitude, div_div_div_cancel_right₀ (by positivity)]

theorem steps_mul (code other : ℕ) :
    ((double.steps code * double.steps other : ℕ) / (2 ^ (2 * double.offset) : ℕ) : ℚ) =
      double.magnitude code * double.magnitude other := by
  rw [magnitude, magnitude, two_mul, pow_add]
  push_cast
  rw [mul_div_mul_comm]

/-- Digits with a negative power of ten are divided by the rounded power. -/
theorem exists_scaled?_neg (hpos : 0 < m) (hm : m < 2 ^ 53) (hkpos : 0 < k) (hk : k ≤ 46) :
    ∃ code, scaled? m (-k) = some code ∧
      RoundsTo (m / double.magnitude (double.ofRatio (10 ^ k) 1)) code := by
  have hone : (1 : ℚ) ≤ m := by exact_mod_cast hpos
  have hm' : (m : ℚ) < 2 ^ 53 := by exact_mod_cast hm
  have hten : (1 : ℚ) ≤ 10 ^ k := one_le_pow₀ (by norm_num)
  have hten' : (10 : ℚ) ^ k ≤ 10 ^ 46 := pow_le_pow_right₀ (by norm_num) hk
  obtain ⟨hleast, hmost⟩ := abs_le.1 (magnitude_power hk).1
  have hquotient := steps_div (double.ofRatio m 1) (double.ofRatio (10 ^ k) 1)
  rw [magnitude_significand hpos hm] at hquotient
  have hpower : 1 / 2 ≤ double.magnitude (double.ofRatio (10 ^ k) 1) := by linarith
  have hpower' : 0 < double.magnitude (double.ofRatio (10 ^ k) 1) := by linarith
  have hsteps : 0 < double.steps (double.ofRatio (10 ^ k) 1) := by simpa [magnitude] using hpower'
  refine ⟨_, ?_, hquotient ▸ roundsTo_ofRatio hsteps ?_ ?_⟩
  · have hneg : -(k : ℤ) < 0 := by omega
    have hsmall : k / 308 = 0 := by omega
    simp only [scaled?, hneg, if_true, Int.natAbs_neg, Int.natAbs_natCast, largestPower, hsmall,
      scaleDown, Nat.pow_eq]
    rw [if_pos (by omega)]
  · rw [hquotient, div_le_div_iff₀ (by norm_num) hpower']
    linarith
  · rw [hquotient, div_le_iff₀ hpower']
    linarith

/-- Digits with a positive power of ten are multiplied with the rounded power. -/
theorem exists_scaled?_natCast (hpos : 0 < m) (hm : m < 2 ^ 53) (hk : k ≤ 38) :
    ∃ code, scaled? m k = some code ∧
      RoundsTo (m * double.magnitude (double.ofRatio (10 ^ k) 1)) code := by
  have hone : (1 : ℚ) ≤ m := by exact_mod_cast hpos
  have hm' : (m : ℚ) < 2 ^ 53 := by exact_mod_cast hm
  have hten : (1 : ℚ) ≤ 10 ^ k := one_le_pow₀ (by norm_num)
  have hten' : (10 : ℚ) ^ k ≤ 10 ^ 38 := pow_le_pow_right₀ (by norm_num) hk
  obtain ⟨hleast, hmost⟩ := abs_le.1 (magnitude_power (hk.trans (by decide))).1
  have hproduct := steps_mul (double.ofRatio m 1) (double.ofRatio (10 ^ k) 1)
  rw [magnitude_significand hpos hm] at hproduct
  have hpower : 1 / 2 ≤ double.magnitude (double.ofRatio (10 ^ k) 1) := by linarith
  have hleast' := hpower.trans (le_mul_of_one_le_left (by linarith) hone)
  have hmost' := mul_le_mul_of_nonneg_right hm'.le
    (by linarith : 0 ≤ double.magnitude (double.ofRatio (10 ^ k) 1))
  have hrounds := hproduct ▸ roundsTo_ofRatio (n := double.steps (double.ofRatio m 1) *
    double.steps (double.ofRatio (10 ^ k) 1)) (d := 2 ^ (2 * double.offset)) (by positivity)
    (by rw [hproduct]; linarith) (by rw [hproduct]; linarith)
  refine ⟨_, ?_, hrounds⟩
  have hneg : ¬ (k : ℤ) < 0 := by omega
  have hsmall : (k : ℤ) ≤ (308 : ℕ) := by omega
  simp only [scaled?, hneg, if_false, largestPower, hsmall, if_true, Int.natAbs_natCast,
    Nat.pow_eq]
  rw [if_pos hrounds.finite]

/-! ## Decimals with few binary digits -/

/-- Powers of five that divide numbers of 53 bits are small. -/
theorem le_of_five_pow_dvd (hpos : 0 < m) (hm : m < 2 ^ 53) (h : 5 ^ k ∣ m) : k ≤ 22 := by
  by_contra hlt
  have hle := Nat.le_of_dvd hpos h
  have hpow : 5 ^ 23 ≤ 5 ^ k := Nat.pow_le_pow_right (by decide) (by omega)
  omega

/-- A decimal with few binary digits has a small exponent. -/
theorem exponent_bounds (hpos : 0 < m) (hm : m < 2 ^ 53) (h : HasBits 53 (m * 10 ^ e)) :
    -22 ≤ e ∧ e ≤ 22 := by
  obtain ⟨M, s, hM, -, heq⟩ := h
  have hpos' : (0 : ℚ) < m := by exact_mod_cast hpos
  have hMpos : 0 < M := by
    rcases Nat.eq_zero_or_pos M with rfl | hMpos
    · have : (0 : ℚ) < m * 10 ^ e := by positivity
      simp [heq] at this
    · exact hMpos
  have hnat : m * 10 ^ e.toNat * 2 ^ (-s).toNat = M * 2 ^ s.toNat * 10 ^ (-e).toNat := by
    rw [zpow_eq_div 10, zpow_eq_div 2] at heq
    field_simp at heq
    exact_mod_cast (by linarith : (m * 10 ^ e.toNat * 2 ^ (-s).toNat : ℚ) =
      M * 2 ^ s.toNat * 10 ^ (-e).toNat)
  have hcoprime (j k : ℕ) : Nat.Coprime (5 ^ k) (2 ^ j) := Nat.Coprime.pow _ _ (by decide)
  have hfive (k : ℕ) : 5 ^ k ∣ 10 ^ k := pow_dvd_pow_of_dvd (by decide) k
  -- The powers of five on one side divide the significand of the other one.
  rcases le_total 0 e with hnonneg | hneg
  · have hzero : (-e).toNat = 0 := by omega
    rw [hzero, pow_zero, mul_one] at hnat
    have hdvd : 5 ^ e.toNat ∣ M := by
      refine (hcoprime s.toNat _).dvd_of_dvd_mul_right ?_
      rw [← hnat, mul_assoc]
      exact Dvd.dvd.mul_left (Dvd.dvd.mul_right (hfive _) _) m
    have := le_of_five_pow_dvd hMpos hM hdvd
    omega
  · have hzero : e.toNat = 0 := by omega
    rw [hzero, pow_zero, mul_one] at hnat
    have hdvd : 5 ^ (-e).toNat ∣ m := by
      refine (hcoprime (-s).toNat _).dvd_of_dvd_mul_right ?_
      rw [hnat]
      exact Dvd.dvd.mul_left (hfive _) _
    have := le_of_five_pow_dvd hpos hm hdvd
    omega

/-- A finite number of eight bytes that is close to a decimal, and is the decimal if that has so
few binary digits. -/
structure ReadsAs (v : ℚ) (code : ℕ) : Prop where
  finite : code < double.infinity
  near : |double.magnitude code - v| ≤ 513 / 2 ^ 61 * v
  exact : HasBits 53 v → double.magnitude code = v

/-- The error of a product with a rounded factor. -/
theorem abs_sub_mul_le {r a p t : ℚ} (ha : 0 ≤ a) (hnear : |r - a * p| ≤ a * p / 2 ^ 53)
    (hp : |p - t| ≤ t / 2 ^ 53) : |r - a * t| ≤ 513 / 2 ^ 61 * (a * t) := by
  obtain ⟨hleast, hmost⟩ := abs_le.1 hnear
  obtain ⟨hpleast, hpmost⟩ := abs_le.1 hp
  have hbelow := mul_le_mul_of_nonneg_left hpleast ha
  have habove := mul_le_mul_of_nonneg_left hpmost ha
  exact abs_le.2 ⟨by linarith, by linarith⟩

/-- The error of a quotient by a rounded divisor. -/
theorem abs_sub_div_le {r a p t : ℚ} (ha : 0 ≤ a) (ht : 0 < t)
    (hnear : |r - a / p| ≤ a / p / 2 ^ 53) (hp : |p - t| ≤ t / 2 ^ 53) : |r - a / t| ≤ 513 / 2 ^ 61 * (a / t) := by
  obtain ⟨hleast, hmost⟩ := abs_le.1 hnear
  obtain ⟨hpleast, hpmost⟩ := abs_le.1 hp
  have hppos : 0 < p := by linarith
  have hquotient : 0 ≤ a / p := div_nonneg ha hppos.le
  have hsplit : a / t = a / p * (p / t) := by field_simp
  have hlow : 1 - 1 / 2 ^ 53 ≤ p / t := by
    rw [le_div_iff₀ ht]
    linarith
  have hhigh : p / t ≤ 1 + 1 / 2 ^ 53 := by
    rw [div_le_iff₀ ht]
    linarith
  have hbelow := mul_le_mul_of_nonneg_left hlow hquotient
  have habove := mul_le_mul_of_nonneg_left hhigh hquotient
  rw [hsplit]
  exact abs_le.2 ⟨by linarith, by linarith⟩

/-- **Digits and a power of ten are read.** -/
theorem exists_scaled? (hpos : 0 < m) (hm : m < 2 ^ 53) (hlow : -46 ≤ e) (hhigh : e ≤ 38) :
    ∃ code, scaled? m e = some code ∧ ReadsAs (m * 10 ^ e) code := by
  have hm' : (0 : ℚ) < m := by exact_mod_cast hpos
  have hsmall := exponent_bounds (e := e) hpos hm
  rcases lt_or_ge e 0 with hneg | hnonneg
  · obtain ⟨k, rfl⟩ : ∃ k : ℕ, e = -k := ⟨e.natAbs, by omega⟩
    have hk : 0 < k ∧ k ≤ 46 := by omega
    obtain ⟨code, hcode, hrounds⟩ := exists_scaled?_neg hpos hm hk.1 hk.2
    obtain ⟨hnear, hpower⟩ := magnitude_power hk.2
    rw [zpow_neg, zpow_natCast, ← div_eq_mul_inv] at hsmall ⊢
    refine ⟨code, hcode, hrounds.finite,
      abs_sub_div_le hm'.le (by positivity) hrounds.near hnear, fun hbits => ?_⟩
    have hexact := hrounds.exact
    rw [hpower (by have := hsmall hbits; omega)] at hexact
    exact hexact hbits
  · obtain ⟨k, rfl⟩ := Int.eq_ofNat_of_zero_le hnonneg
    have hk : k ≤ 38 := by omega
    obtain ⟨code, hcode, hrounds⟩ := exists_scaled?_natCast hpos hm hk
    obtain ⟨hnear, hpower⟩ := magnitude_power (hk.trans (by decide))
    rw [zpow_natCast] at hsmall ⊢
    refine ⟨code, hcode, hrounds.finite, abs_sub_mul_le hm'.le hrounds.near hnear,
      fun hbits => ?_⟩
    have hexact := hrounds.exact
    rw [hpower (by have := hsmall hbits; omega)] at hexact
    exact hexact hbits

/-! ## Shortest decimals -/

/-- A decimal without zeros at the end has only one form. -/
theorem eq_of_mul_pow_eq {m m' : ℕ} {e e' : ℤ} (hm : m % 10 ≠ 0) (hm' : m' % 10 ≠ 0)
    (heq : (m * 10 ^ e : ℚ) = m' * 10 ^ e') : m = m' ∧ e = e' := by
  wlog hle : e ≤ e' generalizing m m' e e'
  · obtain ⟨hdigits, hexponent⟩ := this hm' hm heq.symm (le_of_not_ge hle)
    exact ⟨hdigits.symm, hexponent.symm⟩
  obtain ⟨k, rfl⟩ := Int.le.dest hle
  have hten : (0 : ℚ) < 10 ^ e := by positivity
  have hnat : m = m' * 10 ^ k := by
    rw [zpow_add₀ (by norm_num), zpow_natCast, mul_left_comm, mul_comm] at heq
    exact_mod_cast mul_left_cancel₀ hten.ne' heq
  rcases Nat.eq_zero_or_pos k with rfl | hk
  · exact ⟨by simpa using hnat, by simp⟩
  · obtain ⟨j, rfl⟩ := Nat.exists_eq_succ_of_ne_zero hk.ne'
    rw [pow_succ, ← mul_assoc] at hnat
    omega

/-- Whether a decimal, read in eight bytes, rounds to the code of four bytes that it rounds to
itself. -/
def survives (m : ℕ) (e : ℤ) : Bool :=
  match scaled? m e with
  | some code =>
      (single.interval (single.ofRatio (double.steps code) (2 ^ double.offset))).contains m e
  | none => false

theorem survives_exceptions :
    (Nearness.exceptions.all fun (s, _, D) =>
      D % 10 != 0 && survives D (Nearness.leastExponent s)) = true := by
  decide +kernel

variable {code read : ℕ}

/-- A number of eight bytes in the interval of a code of four bytes rounds to it. -/
theorem ofRatio_single (hlt : code < single.infinity)
    (h : (single.interval code).Holds (double.magnitude read)) :
    single.ofRatio (double.steps read) (2 ^ double.offset) = code := by
  refine ofRatio_eq_of_holds usual_single (by positivity) hlt ?_
  rw [magnitude] at h
  exact_mod_cast h

/-- **A shortest decimal survives reading.** The number of eight bytes that it is read as rounds to
the code of four bytes that it was written for. -/
theorem exists_scaled?_shortest (h : 0 < code) (hlt : code < single.infinity) :
    ∃ read, scaled? (single.shortest code).digits (single.shortest code).exponent = some read ∧
      read < double.infinity ∧
        single.ofRatio (double.steps read) (2 ^ double.offset) = code := by
  have hshort := isShortSingle_shortest h hlt
  obtain ⟨read, hread, hreads⟩ := exists_scaled? hshort.pos
    (hshort.lt.trans (by decide)) hshort.least hshort.most
  refine ⟨read, hread, hreads.finite, ?_⟩
  have hexact (hbits : HasBits 25 (single.shortest code).value) :=
    hreads.exact (hbits.mono (by decide))
  rcases holds_of_near h hlt hreads.near hexact with hholds | ⟨s, M, D, hmem, heq⟩
  · exact ofRatio_single hlt hholds
  · have hexception := List.all_eq_true.1 survives_exceptions _ hmem
    simp only [Bool.and_eq_true, bne_iff_ne] at hexception
    obtain ⟨hD, he⟩ := eq_of_mul_pow_eq hshort.trailing hexception.1 heq
    have hcontains := hexception.2
    rw [← hD, ← he, survives, hread] at hcontains
    exact eq_of_holds usual_single ((RoundingInterval.contains_iff _ _).1 hcontains)
      (holds_shortest usual_single h)

/-- A whole number survives being read with a zero after the point. -/
theorem exists_scaled?_whole (h : 0 < code) (hlt : code < single.infinity) {n : ℕ}
    (hn : 10 * n < 2 ^ 53) (hvalue : (single.shortest code).value = n) :
    ∃ read, scaled? (10 * n) (-1) = some read ∧ read < double.infinity ∧
      single.ofRatio (double.steps read) (2 ^ double.offset) = code := by
  have hpos : 0 < n := by
    have := shortest_pos usual_single h
    rw [hvalue] at this
    exact_mod_cast this
  obtain ⟨read, hread, hreads⟩ :=
    exists_scaled? (m := 10 * n) (e := -1) (by omega) hn (by decide) (by decide)
  refine ⟨read, hread, hreads.finite, ofRatio_single hlt ?_⟩
  have hwhole : ((10 * n : ℕ) * 10 ^ (-1 : ℤ) : ℚ) = n := by
    push_cast
    rw [zpow_neg_one]
    field_simp
  rw [hreads.exact (hwhole ▸ HasBits.of_natCast (by omega)), hwhole, ← hvalue]
  exact holds_shortest usual_single h

end Guided
