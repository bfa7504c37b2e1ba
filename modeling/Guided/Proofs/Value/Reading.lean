import Guided.Proofs.Decimal.Scaling
import Guided.Proofs.Value.Writing

/-!
# Written numbers are read back

Digits that fit in eight bytes are read as they are, and so is the power of ten behind them. With
that, integers are read back, and numbers of four bytes are although they are read in eight: their
shortest decimals survive it.

## Main definitions

* `Float32.written`: the parts of the text of a number of four bytes.

## Main statements

* `Number.ofText?_toDigits`: an integer is read back.
* `Number.ofText?_eq`: a number with a point is its digits times a power of ten, read in eight
  bytes.
* `Float32.ofText?_written`: a number of four bytes is read back.
-/
namespace Guided

/-! ## Digits -/

theorem le_ofDigitChars (digits : List Char) (n : ℕ) : n ≤ Nat.ofDigitChars 10 digits n := by
  induction digits generalizing n with
  | nil => exact le_rfl
  | cons c digits ih =>
      rw [Nat.ofDigitChars_cons]
      exact le_trans (by omega) (ih _)

/-- Digits are appended to the end, if the number they make fits. -/
theorem appendDigits_eq {digits : List Char} {n : ℕ}
    (h : Nat.ofDigitChars 10 digits n < word64Bound) :
    appendDigits n digits = (Nat.ofDigitChars 10 digits n, []) := by
  induction digits generalizing n with
  | nil => rfl
  | cons c digits ih =>
      have hnext : n * 10 + digitValue c = 10 * n + (c.toNat - '0'.toNat) := by
        rw [mul_comm]
        rfl
      rw [Nat.ofDigitChars_cons] at h ⊢
      rw [appendDigits, hnext, if_pos ((le_ofDigitChars _ _).trans_lt h), ih h]

theorem foldl_digitValue (digits : List Char) (n : ℕ) :
    digits.foldl (fun n c => n * 10 + digitValue c) n = Nat.ofDigitChars 10 digits n := by
  induction digits generalizing n with
  | nil => rfl
  | cons c digits ih =>
      rw [List.foldl_cons, ih, Nat.ofDigitChars_cons, mul_comm]
      rfl

namespace NumberText

theorem exponentValue?_eq {t : NumberText}
    (h : ∀ e, t.exponent = some e → digitsValue e.2 < exponentBound) :
    t.exponentValue? = some (exponentValue t.exponent) := by
  rw [exponentValue?]
  cases hexponent : t.exponent with
  | none => rfl
  | some e =>
      obtain ⟨negative, digits⟩ := e
      have hlt := h _ hexponent
      simp only [foldl_digitValue]
      exact if_pos hlt

end NumberText

namespace Number

/-- An integer that fits is read. -/
theorem ofText?_toDigits {n : ℕ} (h : n < word64Bound) :
    ofText? ⟨false, Nat.toDigits 10 n, none, none⟩ = some (.integer n) := by
  have hread : appendDigits 0 (Nat.toDigits 10 n) = (n, []) := by
    rw [appendDigits_eq, Nat.ofDigitChars_ten_toDigits]
    rwa [Nat.ofDigitChars_ten_toDigits]
  simp [ofText?, hread, NumberText.isInteger]

/-- A number with a point or an exponent is read as its digits and the power of ten say, if the
digits fit. -/
theorem ofText?_eq {t : NumberText} (hinteger : t.isInteger = false)
    (hdigits : t.decimal.digits < word64Bound)
    (hexponent : ∀ e, t.exponent = some e → NumberText.digitsValue e.2 < exponentBound) :
    ofText? t = (scaled? t.decimal.digits t.decimal.exponent).map
      fun code => .fraction ⟨t.negative, code⟩ := by
  have hsplit : t.decimal.digits =
      Nat.ofDigitChars 10 (t.fraction.getD []) (Nat.ofDigitChars 10 t.whole 0) :=
    Nat.ofDigitChars_append 0
  rw [hsplit] at hdigits
  have hwhole := appendDigits_eq ((le_ofDigitChars _ _).trans_lt hdigits)
  have hfraction := appendDigits_eq hdigits
  simp only [ofText?, hwhole, hinteger, hfraction, NumberText.exponentValue?_eq hexponent, hsplit]
  simp [NumberText.decimal, sub_eq_neg_add]

end Number

/-! ## Layouts -/

namespace PointLayout

variable {l : PointLayout} {negative : Bool} {x : DecimalNumber}

/-- The exponent of a text is that of the first digit. -/
theorem exponent_text {e : Bool × List Char} (h : (l.text negative x).exponent = some e) :
    NumberText.digitsValue e.2 = ((Nat.toDigits 10 x.digits).length + x.exponent - 1).natAbs := by
  simp only [text] at h
  split at h
  · exact absurd h (by simp)
  · split at h
    · exact absurd h (by simp)
    · split at h
      · exact absurd h (by simp)
      · obtain rfl := Option.some.inj h
        exact Nat.ofDigitChars_ten_toDigits

/-- Numbers that are written out to the point are below the power of ten that the layout allows. -/
theorem digits_mul_lt {k : ℕ} (h : 0 ≤ x.exponent)
    (hlargest : (Nat.toDigits 10 x.digits).length + x.exponent ≤ k) :
    x.digits * 10 ^ x.exponent.toNat < 10 ^ k := by
  have hdigits : x.digits < 10 ^ (Nat.toDigits 10 x.digits).length :=
    (Nat.length_toDigits_le_iff (by decide) Nat.length_toDigits_pos).1 le_rfl
  calc x.digits * 10 ^ x.exponent.toNat
      < 10 ^ (Nat.toDigits 10 x.digits).length * 10 ^ x.exponent.toNat :=
        Nat.mul_lt_mul_of_pos_right hdigits (by positivity)
    _ = 10 ^ ((Nat.toDigits 10 x.digits).length + x.exponent.toNat) := (Nat.pow_add _ _ _).symm
    _ ≤ 10 ^ k := Nat.pow_le_pow_right (by decide) (by omega)

end PointLayout

/-! ## Numbers of four bytes -/

namespace Float32

open FloatFormat

variable {negative : Bool} {code : ℕ}

/-- The parts of the text of a number of four bytes. -/
def written (x : Float32) : NumberText := single.text layout x.negative x.code

theorem ofFloat64_of_lt (h : code < double.infinity) :
    ofFloat64 ⟨negative, code⟩ =
      ⟨negative, single.ofRatio (double.steps code) (2 ^ double.offset)⟩ := by
  simp only [ofFloat64, Float64.isFinite, h, decide_true, if_true, Nat.pow_eq]

/-- The digits and the exponent that are written for a number of four bytes are small. -/
theorem text_bounds {x : DecimalNumber} (h : IsShortSingle x) :
    (layout.text negative x).decimal.digits < word64Bound ∧
      ∀ e, (layout.text negative x).exponent = some e →
        NumberText.digitsValue e.2 < exponentBound := by
  have hword : word64Bound = 2 ^ 64 := rfl
  have hbound : exponentBound = 2 ^ 31 := rfl
  constructor
  · rw [PointLayout.decimal_text, hword]
    split
    · rename_i hlayout
      have := PointLayout.digits_mul_lt (k := 13) hlayout.1 hlayout.2
      simp only
      omega
    · exact h.lt.trans (by decide)
  · intro e he
    have hlength : (Nat.toDigits 10 x.digits).length ≤ 9 :=
      (Nat.length_toDigits_le_iff (by decide) (by decide)).2 (h.lt.trans (by decide))
    have hleast := h.least
    have hmost := h.most
    rw [PointLayout.exponent_text he, hbound]
    omega

/-- What is written for a code survives reading. -/
theorem exists_scaled?_text (hpos : 0 < code) (hlt : code < single.infinity) :
    let x := (layout.text negative (single.shortest code)).decimal
    ∃ read, scaled? x.digits x.exponent = some read ∧ read < double.infinity ∧
      single.ofRatio (double.steps read) (2 ^ double.offset) = code := by
  simp only [PointLayout.decimal_text]
  split
  · rename_i hlayout
    have hsmall := PointLayout.digits_mul_lt (k := 13) hlayout.1 hlayout.2
    refine exists_scaled?_whole hpos hlt (by omega) ?_
    obtain ⟨k, hk⟩ := Int.eq_ofNat_of_zero_le hlayout.1
    rw [DecimalNumber.value, hk, Int.toNat_natCast, zpow_natCast]
    push_cast
    rfl
  · exact exists_scaled?_shortest hpos hlt

/-- **A number of four bytes is read back.** -/
theorem ofText?_written {x : Float32} (h : x.isFinite = true) :
    ∃ y, Number.ofText? x.written = some (.fraction y) ∧ ofFloat64 y = x := by
  obtain ⟨negative, code⟩ := x
  have hlt : code < single.infinity := by simpa [isFinite] using h
  rcases Nat.eq_zero_or_pos code with rfl | hpos
  · cases negative
    · exact ⟨⟨false, 0⟩, by decide +kernel⟩
    · exact ⟨⟨true, 0⟩, by decide +kernel⟩
  · have htext : written ⟨negative, code⟩ = layout.text negative (single.shortest code) :=
      if_neg hpos.ne'
    obtain ⟨hdigits, hexponent⟩ := text_bounds (isShortSingle_shortest hpos hlt)
    obtain ⟨read, hread, hfinite, hround⟩ := exists_scaled?_text hpos hlt
    refine ⟨⟨negative, read⟩, ?_, ?_⟩
    · rw [htext, Number.ofText?_eq (PointLayout.isInteger_text _ _ _) hdigits hexponent, hread,
        PointLayout.negative_text]
      rfl
    · rw [ofFloat64_of_lt hfinite, hround]

end Float32

end Guided
