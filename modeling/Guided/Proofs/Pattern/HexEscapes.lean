import Guided.Proofs.Pattern.Places

/-!
# Hexadecimal escapes

Wherever an escape is read, two hexadecimal digits behind `\x` stand for the character with the
number that they write, and reading goes on behind them. So does a single digit behind a plus
sign, which the digits of a number may begin with. Whatever else follows is refused there.

## Main statements

* `Pattern.hexEscape_spec`: a hexadecimal escape at any place where escapes are read.
* `Pattern.signed_escape_accepted`: a plus sign is taken for a digit.
-/
namespace Guided

/-- The character of an escape has the number that its digits write. -/
theorem toNat_ofNat_of_hexPair? {a b : Char} {n : Nat} (h : hexPair? a b = some n) :
    (Char.ofNat n).toNat = n := by
  have hbyte : n < 256 := by
    rcases hexPair?_eq_some_iff.1 h with ⟨high, low, ha, hb, rfl⟩ | ⟨-, hb⟩
    · have hhigh := (hexDigit?_bounds ha).2
      have hlow := (hexDigit?_bounds hb).2
      omega
    · exact Nat.lt_trans (hexDigit?_bounds hb).2 (by decide)
  have hvalid : n.isValidChar := .inl (by omega)
  rw [Char.ofNat, dif_pos hvalid]
  rfl

namespace Pattern

/-- The place of a refusal is told by what is still unread. -/
theorem parse_of_refuse {before unread : List Char} {fault : PatternFault}
    (h : ofChars (before ++ unread) = refuse fault unread) :
    Pattern.parse (String.ofList (before ++ unread)) =
      .error (.invalidPattern (String.ofList (before ++ unread)) before.length fault) := by
  simp only [Pattern.parse, String.toList_ofList, h, refuse, List.length_append,
    Nat.add_sub_cancel]

/-- **Hexadecimal escapes.** Wherever an escape is read, outside a class or in one and at both
ends of a range, reading goes on in one way with the character that the escape stands for: it is
refused for something behind the escape, or the tree names the character at a certain place.
Escapes of one character show which way this is. Behind `\x`, two hexadecimal digits are read as
the character whose number they write. So is a plus sign with one digit behind it. Everything
else is refused as an invalid pattern, at the place behind `\x`. -/
theorem hexEscape_spec {before : List Char} (h : EscapeFollows before) :
    ∃ goOn place, GoesOnBehind goOn place ∧
      (∀ c l rest, EscapeSpelled c l → (before ++ '\\' :: l :: rest).length ≤ maxPatternLength →
        ofChars (before ++ '\\' :: l :: rest) = goOn c rest) ∧
      ∀ after, (before ++ '\\' :: 'x' :: after).length ≤ maxPatternLength →
        (∀ a b high low rest, after = a :: b :: rest → hexDigit? a = some high →
          hexDigit? b = some low → ∃ c, c.toNat = high * 16 + low ∧
            ofChars (before ++ '\\' :: 'x' :: after) = goOn c rest) ∧
        (∀ b low rest, after = '+' :: b :: rest → hexDigit? b = some low →
          ∃ c, c.toNat = low ∧ ofChars (before ++ '\\' :: 'x' :: after) = goOn c rest) ∧
        ((∀ a b rest, after = a :: b :: rest →
            hexDigit? a = none ∧ a ≠ '+' ∨ hexDigit? b = none) →
          ∃ fault, (fault = .incompleteHex ∨ fault = .badHex) ∧
            Pattern.parse (String.ofList (before ++ '\\' :: 'x' :: after)) =
              .error (.invalidPattern (String.ofList (before ++ '\\' :: 'x' :: after))
                (before.length + 2) fault)) := by
  obtain ⟨goOn, place, hgoOn, hread⟩ := h.exists_goOn
  refine ⟨goOn, place, hgoOn, ?_, ?_⟩
  · intro c l rest hspelled hlength
    rw [hread _ hlength, readEscape_of_spelled hspelled]
    rfl
  intro after hlength
  have hpair : ∀ a b n rest, after = a :: b :: rest → hexPair? a b = some n →
      ∃ c, c.toNat = n ∧ ofChars (before ++ '\\' :: 'x' :: after) = goOn c rest := by
    rintro a b n rest rfl hn
    refine ⟨Char.ofNat n, toNat_ofNat_of_hexPair? hn, ?_⟩
    rw [hread _ hlength, readEscape, if_pos rfl, readHex_of_hexPair? hn]
    rfl
  refine ⟨?_, ?_, ?_⟩
  · intro a b high low rest hafter ha hb
    exact hpair a b _ rest hafter (hexPair?_eq_some_iff.2 (.inl ⟨high, low, ha, hb, rfl⟩))
  · intro b low rest hafter hb
    exact hpair '+' b low rest hafter (hexPair?_eq_some_iff.2 (.inr ⟨rfl, hb⟩))
  · intro hnone
    have hno : ∀ a b rest, after = a :: b :: rest → hexPair? a b = none := by
      intro a b rest hafter
      rw [Option.eq_none_iff_forall_ne_some]
      intro n hn
      rcases hexPair?_eq_some_iff.1 hn with ⟨high, low, ha, hb, -⟩ | ⟨hplus, hb⟩
      · simpa [ha, hb] using hnone a b rest hafter
      · simpa [hplus, hb] using hnone a b rest hafter
    obtain ⟨fault, hfault, hrefused⟩ := readHex_of_forall_eq_none hno
    refine ⟨fault, hfault, ?_⟩
    have hchars : ofChars (before ++ ['\\', 'x'] ++ after) = refuse fault after := by
      rw [List.append_assoc]
      exact (hread _ hlength).trans (by rw [readEscape, if_pos rfl, hrefused]; rfl)
    simpa using parse_of_refuse hchars

/-- A plus sign is no hexadecimal digit, but an escape with one is accepted. -/
theorem signed_escape_accepted : EscapeFollows [] ∧ hexDigit? '+' = none ∧
    Pattern.parse "\\x+1" = .ok [.literal '\x01'] :=
  ⟨rfl, by decide, rfl⟩

/-- The end of a range whose beginning is an escape as well. -/
theorem hexEscape_spec_range_end : EscapeFollows "[\\x41-".toList ∧
    hexDigit? '5' = some 5 ∧ hexDigit? 'a' = some 10 ∧ hexDigit? 'g' = none ∧
    ∃ goOn place, GoesOnBehind goOn place ∧
      (∃ c, c.toNat = 90 ∧ ofChars "[\\x41-\\x5a]".toList = goOn c [']']) ∧
      (∃ c, c.toNat = 10 ∧ ofChars "[\\x41-\\x+a]".toList = goOn c [']']) ∧
      ∃ fault, Pattern.parse "[\\x41-\\x5g]" =
        .error (.invalidPattern "[\\x41-\\x5g]" 8 fault) := by
  have hfollows : EscapeFollows "[\\x41-".toList := rfl
  obtain ⟨goOn, place, hgoOn, -, hhex⟩ := hexEscape_spec hfollows
  refine ⟨hfollows, rfl, rfl, rfl, goOn, place, hgoOn, ?_, ?_, ?_⟩
  · exact (hhex ['5', 'a', ']'] (by decide)).1 '5' 'a' 5 10 [']'] rfl rfl rfl
  · exact (hhex ['+', 'a', ']'] (by decide)).2.1 'a' 10 [']'] rfl rfl
  · have hnone : ∀ a b rest, ['5', 'g', ']'] = a :: b :: rest →
        hexDigit? a = none ∧ a ≠ '+' ∨ hexDigit? b = none := by
      intro a b rest hafter
      obtain ⟨rfl, rfl, rfl⟩ : '5' = a ∧ 'g' = b ∧ [']'] = rest := by simpa using hafter
      exact .inr rfl
    obtain ⟨fault, -, hrefused⟩ := (hhex ['5', 'g', ']'] (by decide)).2.2 hnone
    exact ⟨fault, hrefused⟩

end Pattern

end Guided
