import Guided.Proofs.Decimal.Shortest
import Guided.Proofs.Json.Writing

/-!
# Written numbers

The texts of numbers are JSON numbers, and a text determines its number: whichever way the point
is laid out, the digits and the exponent together give back the decimal that was written.

## Main definitions

* `NumberText.magnitude`: the number that a text writes, without its sign.
* `PointLayout.text`, `FloatFormat.text`: the parts of the texts.

## Main statements

* `PointLayout.chars_text`, `PointLayout.magnitude_text`, `PointLayout.written_text`: a layout
  writes a JSON number that is worth the decimal.
* `FloatFormat.text_injective`: different numbers have different texts.
-/
namespace Guided

/-! ## Digits -/

/-- Only zero begins with a zero. -/
theorem head?_toDigits {n : Nat} (h : 0 < n) : (Nat.toDigits 10 n).head? ≠ some '0' := by
  induction n using Nat.strong_induction_on with
  | _ n ih =>
      rw [Nat.toDigits_eq_if (by decide)]
      split
      · rename_i hlt
        have hdigit : ∀ n, n < 10 → 0 < n → [Nat.digitChar n].head? ≠ some '0' := by decide
        exact hdigit n hlt h
      · rename_i hge
        have htail := ih (n / 10) (by omega) (by omega)
        rwa [List.head?_append_of_ne_nil _ Nat.toDigits_ne_nil]

theorem isNumeral_zero : IsNumeral ['0'] := isNumeral_toDigits 0

section Numerals

variable {digits : List Char} {n : Nat}

theorem isDigit_of_mem_replicate {c : Char} (h : c ∈ List.replicate n '0') : c.isDigit = true := by
  rw [List.eq_of_mem_replicate h]
  decide

theorem IsNumeral.append_zeros (h : IsNumeral digits) (n : Nat) :
    IsNumeral (digits ++ List.replicate n '0') :=
  ⟨by simp [h.1], fun c hc => (List.mem_append.1 hc).elim (h.2 c) isDigit_of_mem_replicate⟩

theorem IsNumeral.zeros_append (h : IsNumeral digits) (n : Nat) :
    IsNumeral (List.replicate n '0' ++ digits) :=
  ⟨by simp [h.1], fun c hc => (List.mem_append.1 hc).elim isDigit_of_mem_replicate (h.2 c)⟩

theorem IsNumeral.take (h : IsNumeral digits) (hn : 0 < n) : IsNumeral (digits.take n) :=
  ⟨by simp [List.take_eq_nil_iff, h.1, hn.ne'], fun c hc => h.2 c (List.mem_of_mem_take hc)⟩

theorem IsNumeral.drop (h : IsNumeral digits) (hn : n < digits.length) :
    IsNumeral (digits.drop n) :=
  ⟨by simp [hn], fun c hc => h.2 c (List.mem_of_mem_drop hc)⟩

theorem head?_take (hn : 0 < n) : (digits.take n).head? = digits.head? := by
  cases digits with
  | nil => simp
  | cons c digits =>
      obtain ⟨k, rfl⟩ := Nat.exists_eq_succ_of_ne_zero hn.ne'
      simp

end Numerals

/-! ## The value of a text -/

namespace NumberText

/-- The number that digits write. -/
def digitsValue (digits : List Char) : Nat := Nat.ofDigitChars 10 digits 0

/-- The exponent that a text writes. -/
def exponentValue : Option (Bool × List Char) → ℤ
  | none => 0
  | some (negative, digits) => if negative then -(digitsValue digits : ℤ) else digitsValue digits

/-- The number that a text writes, without its sign. -/
def magnitude (t : NumberText) : ℚ :=
  digitsValue (t.whole ++ t.fraction.getD []) *
    10 ^ (exponentValue t.exponent - (t.fraction.getD []).length)

/-- The decimal that a text writes, with all of its digits. -/
def decimal (t : NumberText) : DecimalNumber :=
  ⟨digitsValue (t.whole ++ t.fraction.getD []),
    exponentValue t.exponent - (t.fraction.getD []).length⟩

theorem value_decimal (t : NumberText) : t.decimal.value = t.magnitude := rfl

end NumberText

/-! ## Layouts -/

/-- An exponent in digits. -/
def exponentText (n : ℤ) : Bool × List Char := (n < 0, Nat.toDigits 10 n.natAbs)

theorem exponentValue_exponentText (n : ℤ) :
    NumberText.exponentValue (some (exponentText n)) = n := by
  simp only [NumberText.exponentValue, exponentText, NumberText.digitsValue,
    Nat.ofDigitChars_ten_toDigits, decide_eq_true_eq]
  split <;> omega

namespace PointLayout

/-- The parts of the text of a decimal. -/
def text (l : PointLayout) (negative : Bool) (x : DecimalNumber) : NumberText :=
  let digits := Nat.toDigits 10 x.digits
  let point : ℤ := digits.length + x.exponent
  if 0 ≤ x.exponent ∧ point ≤ l.largest then
    ⟨negative, digits ++ List.replicate x.exponent.toNat '0', some ['0'], none⟩
  else if 0 < point ∧ point ≤ l.largest then
    ⟨negative, digits.take point.toNat, some (digits.drop point.toNat), none⟩
  else if l.smallest < point ∧ point ≤ 0 then
    ⟨negative, ['0'], some (List.replicate (-point).toNat '0' ++ digits), none⟩
  else
    ⟨negative, digits.take 1, if digits.length ≤ 1 then none else some (digits.drop 1),
      some (exponentText (point - 1))⟩

variable (l : PointLayout) (negative : Bool) (x : DecimalNumber)

theorem chars_text : (l.text negative x).chars = NumberText.signChars negative ++ l.chars x := by
  simp only [text, chars]
  split
  · simp [NumberText.chars, NumberText.fractionChars, NumberText.exponentChars]
  · split
    · simp [NumberText.chars, NumberText.fractionChars, NumberText.exponentChars]
    · split
      · simp [NumberText.chars, NumberText.fractionChars, NumberText.exponentChars]
      · rcases Nat.toDigits 10 x.digits with _ | ⟨d, _ | ⟨e, rest⟩⟩ <;>
          simp [NumberText.chars, NumberText.fractionChars, NumberText.exponentChars,
            exponentChars, exponentText]

/-- Digits with a point behind the first `n` of them. -/
theorem decimal_point (digits : List Char) (n : Nat) (exponent : Option (Bool × List Char)) :
    NumberText.decimal ⟨negative, digits.take n, some (digits.drop n), exponent⟩ =
      ⟨NumberText.digitsValue digits,
        NumberText.exponentValue exponent - (digits.length - n : ℕ)⟩ := by
  simp [NumberText.decimal]

/-- A layout writes the digits of a decimal, and those of a whole number out to the point. -/
theorem decimal_text : (l.text negative x).decimal =
    if 0 ≤ x.exponent ∧ (Nat.toDigits 10 x.digits).length + x.exponent ≤ l.largest then
      ⟨10 * (x.digits * 10 ^ x.exponent.toNat), -1⟩
    else x := by
  have hlength : 0 < (Nat.toDigits 10 x.digits).length := Nat.length_toDigits_pos
  have hvalue : NumberText.digitsValue (Nat.toDigits 10 x.digits) = x.digits :=
    Nat.ofDigitChars_ten_toDigits
  simp only [text]
  split
  · simp only [NumberText.decimal, NumberText.digitsValue, Option.getD_some,
      Nat.ofDigitChars_append, Nat.ofDigitChars_ten_toDigits, Nat.ofDigitChars_replicate_zero,
      NumberText.exponentValue]
    rw [Nat.ofDigitChars_cons, Nat.ofDigitChars_nil, mul_comm (10 ^ x.exponent.toNat)]
    rfl
  · have hexponent := exponentValue_exponentText
      ((Nat.toDigits 10 x.digits).length + x.exponent - 1)
    split
    · rw [decimal_point, hvalue, NumberText.exponentValue]
      congr 1
      omega
    · split
      · simp only [NumberText.decimal, NumberText.digitsValue, Option.getD_some,
          List.singleton_append, Nat.ofDigitChars_cons, Nat.ofDigitChars_append,
          Nat.ofDigitChars_replicate_zero, NumberText.exponentValue,
          List.length_append, List.length_replicate]
        rw [Nat.sub_self, Nat.add_zero, Nat.mul_zero, Nat.ofDigitChars_ten_toDigits]
        congr 1
        omega
      · split
        · rename_i hone
          have htake : (Nat.toDigits 10 x.digits).take 1 = Nat.toDigits 10 x.digits :=
            List.take_of_length_le hone
          simp only [NumberText.decimal, hexponent, Option.getD_none, List.append_nil, htake,
            hvalue, List.length_nil]
          congr 1
          omega
        · rw [decimal_point, hvalue, hexponent]
          congr 1
          omega

theorem magnitude_text : (l.text negative x).magnitude = x.value := by
  rw [← NumberText.value_decimal, decimal_text]
  split
  · rename_i h
    obtain ⟨k, hk⟩ := Int.eq_ofNat_of_zero_le h.1
    rw [DecimalNumber.value, DecimalNumber.value, hk, Int.toNat_natCast, zpow_neg_one, zpow_natCast]
    push_cast
    field_simp
  · rfl

theorem written_text (h : 0 < x.digits) : (l.text negative x).Written := by
  have hnumeral := isNumeral_toDigits x.digits
  have hlength : 0 < (Nat.toDigits 10 x.digits).length := Nat.length_toDigits_pos
  have hhead := head?_toDigits h
  simp only [text]
  split
  · refine ⟨hnumeral.append_zeros _, fun hzero => ?_, ?_, nofun⟩
    · rw [List.head?_append_of_ne_nil _ hnumeral.1] at hzero
      exact absurd hzero hhead
    · rintro digits ⟨⟩
      exact isNumeral_zero
  · split
    · refine ⟨hnumeral.take (by omega), fun hzero => ?_, ?_, nofun⟩
      · rw [head?_take (by omega)] at hzero
        exact absurd hzero hhead
      · rintro digits ⟨⟩
        exact hnumeral.drop (by omega)
    · split
      · refine ⟨isNumeral_zero, fun _ => rfl, ?_, nofun⟩
        rintro digits ⟨⟩
        exact hnumeral.zeros_append _
      · refine ⟨hnumeral.take Nat.one_pos, fun hzero => ?_, ?_, ?_⟩
        · rw [head?_take Nat.one_pos] at hzero
          exact absurd hzero hhead
        · intro digits hdigits
          simp only at hdigits
          split at hdigits
          · simp at hdigits
          · obtain rfl := Option.some.inj hdigits
            exact hnumeral.drop (by omega)
        · rintro e ⟨⟩
          exact isNumeral_toDigits _

/-- A text has a point or an exponent. -/
theorem isInteger_text : (l.text negative x).isInteger = false := by
  simp only [text]
  split
  · rfl
  · split
    · rfl
    · split
      · rfl
      · simp [NumberText.isInteger]

@[simp] theorem negative_text : (l.text negative x).negative = negative := by
  simp only [text]
  repeat' split
  all_goals rfl

end PointLayout

/-! ## Numbers -/

namespace FloatFormat

/-- The parts of the text of a signed magnitude. -/
def text (f : FloatFormat) (l : PointLayout) (negative : Bool) (code : Nat) : NumberText :=
  if code = 0 then ⟨negative, ['0'], some ['0'], none⟩ else l.text negative (f.shortest code)

variable {f : FloatFormat} {l : PointLayout} {negative negative' : Bool} {code code' : Nat}

theorem chars_text : (f.text l negative code).chars = f.chars l negative code := by
  rw [text, chars]
  split
  · cases negative <;> rfl
  · rw [PointLayout.chars_text]
    rfl

theorem written_text (hf : f.Usual) : (f.text l negative code).Written := by
  rw [text]
  split
  · refine ⟨isNumeral_zero, fun _ => rfl, ?_, nofun⟩
    rintro digits ⟨⟩
    exact isNumeral_zero
  · exact PointLayout.written_text _ _ _ (digits_shortest_pos hf (by omega))

theorem isInteger_text : (f.text l negative code).isInteger = false := by
  rw [text]
  split
  · rfl
  · exact PointLayout.isInteger_text _ _ _

theorem magnitude_text :
    (f.text l negative code).magnitude = if code = 0 then 0 else (f.shortest code).value := by
  rw [text]
  split
  · simp [NumberText.magnitude, NumberText.digitsValue, Nat.ofDigitChars_cons]
  · exact PointLayout.magnitude_text _ _ _

/-- Different magnitudes, and numbers of different sign, have different texts. -/
theorem text_injective (hf : f.Usual)
    (h : f.text l negative code = f.text l negative' code') :
    negative = negative' ∧ code = code' := by
  refine ⟨?_, ?_⟩
  · have hsign := congrArg NumberText.negative h
    simp only [text] at hsign
    split at hsign <;> split at hsign <;> simpa using hsign
  · have hvalue := congrArg NumberText.magnitude h
    rw [magnitude_text, magnitude_text] at hvalue
    split at hvalue <;> split at hvalue
    · omega
    · exact absurd hvalue (shortest_pos hf (by omega)).ne
    · exact absurd hvalue (shortest_pos hf (by omega)).ne'
    · exact shortest_injective hf (by omega) (by omega) hvalue

end FloatFormat

end Guided
