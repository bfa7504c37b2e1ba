import Guided.Proofs.Decimal.Rounding
import Guided.Proofs.Decimal.Nearness

/-!
# Shortest decimals of four bytes

The ends of the interval of a code of four bytes are numbers of 25 bits. The shortest decimal of
the code is equal to an end or well apart from it: on a coarse grid because decimals are apart from
such numbers, and on a fine grid because it is the point nearest to the value. A number that is
close enough to the shortest decimal therefore lies in the interval as well.

## Main definitions

* `HasBits`: numbers of few bits.
* `RoundingInterval.IsEnd`: an end of an interval as a number of 25 bits.
* `IsShortSingle`: the size of shortest decimals.

## Main statements

* `FloatFormat.isEnd_high`, `FloatFormat.exists_isEnd_low`: the ends of intervals.
* `FloatFormat.isShortSingle_shortest`: the size of a shortest decimal.
* `FloatFormat.holds_of_near`: numbers close to a shortest decimal round to its code.
-/
namespace Guided

open Nearness (Apart Exceptional)

/-- A number of so many bits, in steps that are not finer than those of eight bytes. -/
def HasBits (bits : ℕ) (v : ℚ) : Prop :=
  ∃ (M : ℕ) (s : ℤ), M < 2 ^ bits ∧ -1074 ≤ s ∧ v = M * 2 ^ s

theorem HasBits.mono {bits more : ℕ} {v : ℚ} (h : HasBits bits v) (hle : bits ≤ more) :
    HasBits more v := by
  obtain ⟨M, s, hM, hs, rfl⟩ := h
  exact ⟨M, s, hM.trans_le (Nat.pow_le_pow_right (by decide) hle), hs, rfl⟩

theorem HasBits.of_natCast {bits n : ℕ} (h : n < 2 ^ bits) : HasBits bits n :=
  ⟨n, 0, h, by decide, by simp⟩

/-- A number close to one that is apart from an end is on the same side of it. -/
theorem Nearness.Apart.same_side {v r b : ℚ} (h : Apart v b) (hb : 0 < b)
    (hexact : v = b → r = v) (hnear : |r - v| ≤ 513 / 2 ^ 61 * v) :
    (v ≤ b ↔ r ≤ b) ∧ (b ≤ v ↔ b ≤ r) := by
  obtain ⟨hleast, hmost⟩ := abs_le.1 hnear
  by_cases heq : v = b
  · rw [hexact heq]
    exact ⟨Iff.rfl, Iff.rfl⟩
  · have hgap := h.resolve_left heq
    rcases lt_or_gt_of_ne heq with hless | hmore
    · rw [abs_of_neg (by linarith)] at hgap
      have hside : r < b := by linarith
      exact ⟨iff_of_true hless.le hside.le, iff_of_false (not_le.2 hless) (not_le.2 hside)⟩
    · rw [abs_of_pos (by linarith)] at hgap
      have hside : b < r := by linarith
      exact ⟨iff_of_false (not_le.2 hmore) (not_le.2 hside), iff_of_true hmore.le hside.le⟩

/-! ## Ends of intervals -/

namespace RoundingInterval

variable {i : RoundingInterval} {e : ℤ} {c x M : ℕ} {s : ℤ} {v r : ℚ}

/-- A point of a grid whose steps are short is the nearest one to the value. -/
theorem abs_sub_value_le (hd : 0 < i.denominator) (h : i.onGrid e = some c)
    (hlow : i.low + 10 ^ e * i.denominator / 2 < (i.value : ℚ))
    (hhigh : i.value + 10 ^ e * i.denominator / 2 < (i.high : ℚ)) :
    |(c * 10 ^ e * i.denominator - i.value : ℚ)| ≤ 10 ^ e * i.denominator / 2 := by
  have hdpos : 0 < i.denominator * Nat.pow 10 e.toNat := Nat.mul_pos hd (Nat.pow_pos (by decide))
  have hpow : (0 : ℚ) < 10 ^ (-e).toNat := by positivity
  have hvalue := i.value_eq_div e
  have hunit := i.step_eq_div e
  simp only [onGrid] at h
  set n := i.value * Nat.pow 10 (-e).toNat
  set d := i.denominator * Nat.pow 10 e.toNat
  have hnear : |(FloatFormat.roundHalfEven n d * 10 ^ e * i.denominator - i.value : ℚ)| ≤
      10 ^ e * i.denominator / 2 := by
    obtain ⟨hbelow, habove, -⟩ := FloatFormat.roundHalfEven_spec n d hdpos
    have hbelow' : (2 * FloatFormat.roundHalfEven n d * d : ℚ) ≤ 2 * n + d := by
      exact_mod_cast hbelow
    have habove' : (2 * n : ℚ) ≤ (2 * FloatFormat.roundHalfEven n d + 1) * d := by
      exact_mod_cast habove
    rw [mul_assoc, hunit, hvalue, ← mul_div_assoc, ← sub_div, abs_div, abs_of_pos hpow,
      div_right_comm]
    refine div_le_div_of_nonneg_right (abs_le.2 ⟨?_, ?_⟩) hpow.le <;> linarith
  have hcontains : i.contains (FloatFormat.roundHalfEven n d) e = true := by
    obtain ⟨hleast, hmost⟩ := abs_le.1 hnear
    rw [contains_iff]
    refine holds_of_lt ?_ ?_ <;> linarith
  rw [if_pos hcontains] at h
  obtain rfl := Option.some.inj h
  exact hnear

/-- An end of an interval of four bytes, `M * 2 ^ s`. Its distance to the value is `2 ^ s`, and
within half of that around the value there is no end. -/
structure IsEnd (i : RoundingInterval) (x M : ℕ) (s : ℤ) : Prop where
  pos : 0 < M
  lt : M < 2 ^ 25
  least : -150 ≤ s
  most : s ≤ 103
  eq : (x : ℚ) = M * (2 ^ s * i.denominator)
  distance : |(i.value - x : ℚ)| = 2 ^ s * i.denominator
  below : i.low + 2 ^ s * i.denominator / 2 ≤ (i.value : ℚ)
  above : i.value + 2 ^ s * i.denominator / 2 ≤ (i.high : ℚ)

/-- A point of a grid is apart from an end. -/
theorem IsEnd.apart (h : i.IsEnd x M s) (hd : 0 < i.denominator) (hpoint : i.onGrid e = some c) :
    Apart (c * 10 ^ e) (M * 2 ^ s) ∨ Exceptional (c * 10 ^ e) := by
  rcases le_or_gt ((2 : ℚ) ^ s) (10 ^ e) with hcoarse | hfine
  · exact Nearness.apart h.least h.most h.pos h.lt hcoarse c
  · have hd' : (0 : ℚ) < i.denominator := by exact_mod_cast hd
    have hunit : (0 : ℚ) < 2 ^ s := by positivity
    have hlt : (M : ℚ) < 2 ^ 25 := by exact_mod_cast h.lt
    have hless := mul_lt_mul_of_pos_right hfine hd'
    have hnear := abs_sub_value_le hd hpoint (by linarith [h.below]) (by linarith [h.above])
    have hfar := abs_sub_abs_le_abs_add (i.value - x : ℚ) (c * 10 ^ e * i.denominator - i.value)
    have hscaled : (i.value - x + (c * 10 ^ e * i.denominator - i.value) : ℚ) =
        (c * 10 ^ e - M * 2 ^ s) * i.denominator := by
      rw [h.eq]
      ring
    rw [hscaled, abs_mul, abs_of_pos hd', h.distance] at hfar
    refine .inl (.inr (lt_of_mul_lt_mul_right (a := (i.denominator : ℚ)) ?_ hd'.le))
    have hsmall := mul_lt_mul_of_pos_right (mul_lt_mul_of_pos_right hlt hunit) hd'
    linarith

/-- A number is on the same side of an end as a point of a grid that it is close to. -/
theorem IsEnd.same_side (h : i.IsEnd x M s) (hd : 0 < i.denominator) (hapart : Apart v (M * 2 ^ s))
    (hnear : |r - v| ≤ 513 / 2 ^ 61 * v) (hexact : HasBits 25 v → r = v) :
    (v * i.denominator ≤ (x : ℚ) ↔ r * i.denominator ≤ x) ∧
      ((x : ℚ) ≤ v * i.denominator ↔ x ≤ r * i.denominator) := by
  have hd' : (0 : ℚ) < i.denominator := by exact_mod_cast hd
  have hM : (0 : ℚ) < M := by exact_mod_cast h.pos
  rw [h.eq, ← mul_assoc]
  simp only [mul_le_mul_iff_left₀ hd']
  exact hapart.same_side (by positivity)
    (fun heq => hexact ⟨M, s, h.lt, (by decide : (-1074 : ℤ) ≤ -150).trans h.least, heq⟩) hnear

/-- Whether a number lies in an interval depends only on its sides of the ends. -/
theorem Holds.of_same_side (h : i.Holds v)
    (hlow : (v * i.denominator ≤ i.low ↔ r * i.denominator ≤ i.low) ∧
      (i.low ≤ v * i.denominator ↔ i.low ≤ r * i.denominator))
    (hhigh : (v * i.denominator ≤ i.high ↔ r * i.denominator ≤ i.high) ∧
      (i.high ≤ v * i.denominator ↔ i.high ≤ r * i.denominator)) : i.Holds r := by
  simpa only [Holds, ← not_le, hlow, hhigh] using h

end RoundingInterval

namespace FloatFormat

variable {code : ℕ}

theorem usual_single : single.Usual := ⟨by decide, by decide⟩

theorem denominator_single (code : ℕ) : ((single.interval code).denominator : ℚ) = 2 ^ 151 := by
  norm_num [interval, single]

theorem shift_single_le (h : code < single.infinity) : single.shift code ≤ 253 := by
  have hlt : code < 255 * 2 ^ 23 := h
  simp only [shift, single, Nat.pow_eq]
  omega

/-- The lower end is a step below the value, or half a step below a power of two. -/
theorem low_cases (f : FloatFormat) (h : 0 < code) :
    (f.significand code = 2 ^ f.fractionBits ∧ 0 < f.shift code ∧
        (f.interval code).low + 2 ^ f.shift code = (f.interval code).value) ∨
      (f.interval code).low + 2 * 2 ^ f.shift code = (f.interval code).value := by
  have hm := f.significand_pos h
  by_cases hpower : f.significand code = 2 ^ f.fractionBits ∧ 0 < f.shift code
  · refine .inl ⟨hpower.1, hpower.2, ?_⟩
    simp only [interval, Nat.pow_eq]
    rw [if_pos hpower, ← Nat.succ_mul, Nat.succ_eq_add_one, Nat.sub_add_cancel (by omega)]
  · refine .inr ?_
    simp only [interval, Nat.pow_eq]
    rw [if_neg hpower, ← Nat.add_mul, Nat.sub_add_cancel (by omega)]

theorem zpow_two_mul (k j : ℕ) : (2 : ℚ) ^ (k - (j : ℤ)) * 2 ^ j = 2 ^ k := by
  rw [zpow_sub₀ (by norm_num), zpow_natCast, zpow_natCast]
  field_simp

/-- What makes a number of 25 bits an end. -/
theorem isEnd_single (h : 0 < code) {x M : ℕ} {s : ℤ} (hpos : 0 < M) (hlt : M < 2 ^ 25)
    (hleast : -150 ≤ s) (hmost : s ≤ 103)
    (hstep : (2 : ℚ) ^ s * 2 ^ 151 ≤ 2 * 2 ^ single.shift code)
    (heq : (x : ℚ) = M * (2 ^ s * 2 ^ 151))
    (hdistance : |((single.interval code).value - x : ℚ)| = 2 ^ s * 2 ^ 151) :
    (single.interval code).IsEnd x M s := by
  have hhigh : ((single.interval code).high : ℚ) =
      (single.interval code).value + 2 * 2 ^ single.shift code := by
    exact_mod_cast (single.interval_spec h).2.2.2
  have hlow : ((single.interval code).low + 2 ^ single.shift code : ℚ) ≤
      (single.interval code).value := by
    have : (single.interval code).low + 2 ^ single.shift code ≤ (single.interval code).value := by
      have := single.low_cases h
      omega
    exact_mod_cast this
  have hunit : (0 : ℚ) < 2 ^ single.shift code := by positivity
  refine ⟨hpos, hlt, hleast, hmost, ?_, ?_, ?_, ?_⟩ <;> rw [denominator_single]
  · exact heq
  · exact hdistance
  · linarith
  · linarith

theorem isEnd_high (h : 0 < code) (hlt : code < single.infinity) :
    (single.interval code).IsEnd (single.interval code).high (2 * single.significand code + 1)
      (single.shift code - 150) := by
  obtain ⟨-, -, hvalue, hhigh⟩ := single.interval_spec h
  have hm : single.significand code < 2 * 2 ^ 23 := (single.shift_significand code).2.1
  have hk := shift_single_le hlt
  have hunit : (2 : ℚ) ^ (single.shift code - 150 : ℤ) * 2 ^ 151 = 2 * 2 ^ single.shift code := by
    have := zpow_two_mul (single.shift code) 150
    push_cast at this
    linarith
  refine isEnd_single h (by omega) (by omega) (by omega) (by omega) hunit.le ?_ ?_ <;>
    rw [hunit, hhigh]
  · rw [hvalue]
    push_cast
    ring
  · push_cast
    rw [abs_sub_comm, add_sub_cancel_left, abs_of_pos (by positivity)]

theorem exists_isEnd_low (h : 0 < code) (hlt : code < single.infinity) :
    ∃ M s, (single.interval code).IsEnd (single.interval code).low M s := by
  have hpos := single.significand_pos h
  have hm : single.significand code < 2 * 2 ^ 23 := (single.shift_significand code).2.1
  have hk := shift_single_le hlt
  have hvalue : ((single.interval code).value : ℚ) =
      4 * single.significand code * 2 ^ single.shift code := by
    exact_mod_cast (single.interval_spec h).2.2.1
  rcases single.low_cases h with ⟨hpower, hnormal, hlow⟩ | hlow
  · have hlow' : ((single.interval code).low + 2 ^ single.shift code : ℚ) =
        (single.interval code).value := by exact_mod_cast hlow
    have hunit : (2 : ℚ) ^ (single.shift code - 151 : ℤ) * 2 ^ 151 = 2 ^ single.shift code := by
      exact_mod_cast zpow_two_mul (single.shift code) 151
    have hsignificand : (single.significand code : ℚ) = 2 ^ 23 := by exact_mod_cast hpower
    refine ⟨2 ^ 25 - 1, single.shift code - 151,
      isEnd_single h (by decide) (by decide) (by omega) (by omega) ?_ ?_ ?_⟩ <;> rw [hunit]
    · linarith [show (0 : ℚ) < 2 ^ single.shift code by positivity]
    · rw [hsignificand] at hvalue
      push_cast
      linarith
    · rw [← hlow', add_sub_cancel_left, abs_of_pos (by positivity)]
  · have hlow' : ((single.interval code).low + 2 * 2 ^ single.shift code : ℚ) =
        (single.interval code).value := by exact_mod_cast hlow
    have hunit : (2 : ℚ) ^ (single.shift code - 150 : ℤ) * 2 ^ 151 =
        2 * 2 ^ single.shift code := by
      have := zpow_two_mul (single.shift code) 150
      push_cast at this
      linarith
    refine ⟨2 * single.significand code - 1, single.shift code - 150,
      isEnd_single h (by omega) (by omega) (by omega) (by omega) hunit.le ?_ ?_⟩ <;> rw [hunit]
    · rw [Nat.cast_sub (by omega)]
      push_cast
      linarith
    · rw [← hlow', add_sub_cancel_left, abs_of_pos (by positivity)]

/-! ## The size of shortest decimals -/

/-- The grid of a shortest decimal is at most ten times as fine as the codes. -/
theorem two_mul_le_step {f : FloatFormat} (h : 0 < code) {e : ℤ}
    (hfirst : e = leadingPower (f.interval code).value (f.interval code).denominator ∨
      (f.interval code).onGrid (e + 1) = none) :
    (2 * 2 ^ f.shift code : ℚ) ≤ 10 * 10 ^ e * (f.interval code).denominator := by
  obtain ⟨hpos, hlow, hvalue, hhigh⟩ := f.interval_spec h
  have hd := f.denominator_pos code
  have hd' : (0 : ℚ) < (f.interval code).denominator := by exact_mod_cast hd
  have hhigh' : ((f.interval code).high : ℚ) = (f.interval code).value + 2 * 2 ^ f.shift code := by
    exact_mod_cast hhigh
  have hnext : (10 : ℚ) ^ (e + 1) = 10 * 10 ^ e := by
    rw [zpow_add_one₀ (by norm_num), mul_comm]
  rcases hfirst with rfl | hnone
  · have hlead := (leadingPower_spec (hpos.trans hlow) hd).2
    rw [div_lt_iff₀ hd', hnext] at hlead
    have hm : (2 * 2 ^ f.shift code : ℚ) ≤ (f.interval code).value := by
      have := Nat.mul_le_mul_right (2 ^ f.shift code)
        (show 2 ≤ 4 * f.significand code by have := f.significand_pos h; omega)
      rw [← hvalue] at this
      exact_mod_cast this
    linarith
  · by_contra hless
    rw [not_le, ← hnext] at hless
    have hsome := RoundingInterval.isSome_onGrid (e := e + 1) hd hlow.le (by linarith)
    rw [hnone] at hsome
    exact absurd hsome (by decide)

/-- The size of a point on the grid of a shortest decimal. -/
theorem onGrid_single_bounds (h : 0 < code) (hlt : code < single.infinity) {y : DecimalNumber}
    (hpoint : (single.interval code).onGrid y.exponent = some y.digits)
    (hfirst : y.exponent = leadingPower (single.interval code).value
      (single.interval code).denominator ∨ (single.interval code).onGrid (y.exponent + 1) = none) :
    y.digits < 2 ^ 29 ∧ -46 ≤ y.exponent ∧ y.value < 10 ^ 39 := by
  have hstep := two_mul_le_step h hfirst
  have hmost := (RoundingInterval.holds_of_onGrid hpoint).le.2
  have hhigh : ((single.interval code).high : ℚ) < 2 ^ 26 * 2 ^ single.shift code := by
    obtain ⟨-, -, hvalue, hhigh⟩ := single.interval_spec h
    have hm : single.significand code < 2 * 2 ^ 23 := (single.shift_significand code).2.1
    have : (single.interval code).high < 2 ^ 26 * 2 ^ single.shift code := by
      rw [hhigh, hvalue, ← Nat.add_mul]
      exact Nat.mul_lt_mul_of_pos_right (by omega) (by positivity)
    exact_mod_cast this
  rw [denominator_single] at hstep hmost
  refine ⟨?_, ?_, ?_⟩
  · have hten : (0 : ℚ) < 10 ^ y.exponent * 2 ^ 151 := by positivity
    have : (y.digits : ℚ) < 2 ^ 29 := by
      refine lt_of_mul_lt_mul_right (a := (10 ^ y.exponent * 2 ^ 151 : ℚ)) ?_ hten.le
      linarith
    exact_mod_cast this
  · have hone : (1 : ℚ) ≤ 2 ^ single.shift code := one_le_pow₀ (by norm_num)
    have hlarge : (10 : ℚ) ^ (-47 : ℤ) < 10 ^ y.exponent := by
      refine lt_of_mul_lt_mul_right (a := (2 ^ 151 : ℚ)) ?_ (by positivity)
      refine lt_of_lt_of_le (b := 2 / 10) (by norm_num) ?_
      linarith
    have := (zpow_lt_zpow_iff_right₀ (by norm_num)).1 hlarge
    omega
  · have hpow : (2 : ℚ) ^ single.shift code ≤ 2 ^ 253 :=
      pow_le_pow_right₀ (by norm_num) (shift_single_le hlt)
    refine lt_of_mul_lt_mul_right (a := (2 ^ 151 : ℚ)) ?_ (by positivity)
    refine lt_of_le_of_lt hmost (hhigh.trans_le ?_)
    norm_num at hpow ⊢
    linarith

/-- The size of the shortest decimals of four bytes. -/
structure IsShortSingle (x : DecimalNumber) : Prop where
  pos : 0 < x.digits
  lt : x.digits < 2 ^ 29
  least : -46 ≤ x.exponent
  most : x.exponent ≤ 38
  trailing : x.digits % 10 ≠ 0

theorem isShortSingle_shortest (h : 0 < code) (hlt : code < single.infinity) :
    IsShortSingle (single.shortest code) := by
  have hpos := digits_shortest_pos usual_single h
  obtain ⟨y, hy, hpoint, hfirst⟩ := exists_onGrid usual_single h
  obtain ⟨hdigits, hleast, hvalue⟩ := onGrid_single_bounds h hlt hpoint hfirst
  rw [hy] at hpos ⊢
  refine ⟨hpos, (y.digits_strip_le 20).trans_lt hdigits, hleast.trans (y.exponent_le_strip 20), ?_,
    DecimalNumber.digits_strip_mod (hpos.trans_le (y.digits_strip_le 20))
      (hdigits.trans (by decide))⟩
  have hone : (1 : ℚ) ≤ (y.strip 20).digits := by exact_mod_cast hpos
  have hless : (10 : ℚ) ^ (y.strip 20).exponent < 10 ^ (39 : ℤ) := by
    refine lt_of_le_of_lt (le_mul_of_one_le_left (by positivity) hone) ?_
    rw [← y.value_strip 20] at hvalue
    exact_mod_cast hvalue
  have := (zpow_lt_zpow_iff_right₀ (by norm_num)).1 hless
  omega

/-! ## Numbers close to a shortest decimal -/

/-- **A number close to the shortest decimal of a code lies in its interval**, if it is the decimal
where that is a number of 25 bits. -/
theorem holds_of_near (h : 0 < code) (hlt : code < single.infinity) {r : ℚ}
    (hnear : |r - (single.shortest code).value| ≤ 513 / 2 ^ 61 * (single.shortest code).value)
    (hexact : HasBits 25 (single.shortest code).value → r = (single.shortest code).value) :
    (single.interval code).Holds r ∨ Exceptional (single.shortest code).value := by
  have hd := single.denominator_pos code
  obtain ⟨y, hy, hpoint, -⟩ := exists_onGrid usual_single h
  rw [hy, DecimalNumber.value_strip] at hnear hexact ⊢
  obtain ⟨M, s, hlow⟩ := exists_isEnd_low h hlt
  have hhigh := isEnd_high h hlt
  rcases hlow.apart hd hpoint with hlowApart | hexceptional
  · rcases hhigh.apart hd hpoint with hhighApart | hexceptional
    · exact .inl ((RoundingInterval.holds_of_onGrid hpoint).of_same_side
        (hlow.same_side hd hlowApart hnear hexact) (hhigh.same_side hd hhighApart hnear hexact))
    · exact .inr hexceptional
  · exact .inr hexceptional

end FloatFormat

end Guided
