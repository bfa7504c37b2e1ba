import Guided.Proofs.Pattern.Grammar
import Guided.Proofs.Pattern.Reading

/-!
# Reading escapes and classes

The readers of an escape and of a class take from the text exactly what spells the part,
and leave the rest. In one direction what the grammar spells is read whatever follows it;
in the other what has been read is spelled by the grammar, provided that the text has no
hexadecimal escape.

## Main statements

* `readEscape_of_spelled`, `spelled_of_readEscape`: the character after a backslash.
* `readClassItems_of_spelled`, `spelled_of_readClassItems`: the items of a class.
-/
namespace Guided

/-- The text has no backslash right before the letter `x`. -/
def WithoutHex (s : List Char) : Prop := ¬ ['\\', 'x'] <:+: s

theorem WithoutHex.of_append {s t : List Char} (h : WithoutHex (s ++ t)) : WithoutHex t := by
  intro hfound
  exact h (hfound.trans (List.suffix_append s t).isInfix)

theorem WithoutHex.head?_ne {s : List Char} (h : WithoutHex ('\\' :: s)) : s.head? ≠ some 'x' := by
  intro hhead
  obtain ⟨t, rfl⟩ := List.head?_eq_some_iff.1 hhead
  exact h ⟨[], t, rfl⟩

/-! ## Escapes -/

/-- No letter for a control character is a character that stands for itself. -/
theorem controlOfLetter_of_not_isAlphanum {c : Char} (h : c.isAlphanum = false) :
    controlOfLetter c = none := by
  have hne : ∀ d : Char, d.isAlphanum = true → c ≠ d := by
    rintro d hd rfl
    simp [hd] at h
  simp [controlOfLetter, hne 'n' (by decide), hne 't' (by decide), hne 'r' (by decide),
    hne 'v' (by decide), hne 'f' (by decide)]

theorem readEscape_of_spelled {c l : Char} (h : EscapeSpelled c l) (rest : List Char) :
    readEscape (l :: rest) = .ok (c, rest) := by
  cases h with
  | newline => rfl
  | tab => rfl
  | carriageReturn => rfl
  | formFeed => rfl
  | verticalTab => rfl
  | itself h =>
      have hne : ∀ d : Char, d.isAlphanum = true → c ≠ d := by
        rintro d hd rfl
        simp [hd] at h
      have hdigit : ¬ ('1' ≤ c ∧ c ≤ '9') := by
        rintro ⟨hlow, hhigh⟩
        have hzero : '0' ≤ c := Char.le_trans (by decide) hlow
        have hdigit : c.isDigit = true := by
          simp only [Char.isDigit, Bool.and_eq_true, decide_eq_true_eq]
          exact ⟨hzero, hhigh⟩
        simp [Char.isAlphanum, hdigit] at h
      simp [readEscape, controlOfLetter_of_not_isAlphanum h, hne 'x' (by decide),
        hne 'd' (by decide), hne 'D' (by decide), hne 'w' (by decide), hne 'W' (by decide),
        hne 's' (by decide), hne 'S' (by decide), hne 'b' (by decide), hne 'B' (by decide),
        hne 'A' (by decide), hne 'Z' (by decide), hne 'z' (by decide), hdigit, h]

theorem spelled_of_controlOfLetter {c l : Char} (h : controlOfLetter l = some c) :
    EscapeSpelled c l := by
  rw [controlOfLetter] at h
  split at h
  · rename_i hl
    rw [hl, ← Option.some.inj h]
    exact .newline
  · split at h
    · rename_i hl
      rw [hl, ← Option.some.inj h]
      exact .tab
    · split at h
      · rename_i hl
        rw [hl, ← Option.some.inj h]
        exact .carriageReturn
      · split at h
        · rename_i hl
          rw [hl, ← Option.some.inj h]
          exact .verticalTab
        · split at h
          · rename_i hl
            rw [hl, ← Option.some.inj h]
            exact .formFeed
          · simp at h

theorem spelled_of_readEscape {s rest : List Char} {c : Char}
    (h : readEscape s = .ok (c, rest)) (hx : s.head? ≠ some 'x') :
    ∃ l, s = l :: rest ∧ EscapeSpelled c l := by
  cases s with
  | nil => simp [readEscape, refuse] at h
  | cons l s =>
      have hl : l ≠ 'x' := by simpa using hx
      rw [readEscape, if_neg hl] at h
      split at h
      · rename_i control hcontrol
        obtain ⟨rfl, rfl⟩ : control = c ∧ s = rest := by simpa using h
        exact ⟨l, rfl, spelled_of_controlOfLetter hcontrol⟩
      · split at h
        · simp [leaveOut] at h
        · split at h
          · simp [leaveOut] at h
          · split at h
            · simp [leaveOut] at h
            · split at h
              · simp [leaveOut] at h
              · rename_i hletter
                obtain ⟨rfl, rfl⟩ : l = c ∧ s = rest := by simpa using h
                exact ⟨l, rfl, .itself (by simpa using hletter)⟩

/-! ## Classes -/

theorem readClassChar_of_spelled {c : Char} {s : List Char} (h : ClassCharSpelled c s)
    (rest : List Char) : readClassChar (s ++ rest) = .ok (c, rest) := by
  cases h with
  | raw h => simp [readClassChar, h]
  | escaped h => simpa [readClassChar] using readEscape_of_spelled h rest

theorem spelled_of_readClassChar {s rest : List Char} {c : Char}
    (h : readClassChar s = .ok (c, rest)) (hx : WithoutHex s) :
    ∃ u, s = u ++ rest ∧ ClassCharSpelled c u := by
  cases s with
  | nil => simp [readClassChar, refuse] at h
  | cons d s =>
      rw [readClassChar] at h
      by_cases hd : d = '\\'
      · subst hd
        rw [if_pos rfl] at h
        obtain ⟨l, rfl, hl⟩ := spelled_of_readEscape h hx.head?_ne
        exact ⟨['\\', l], rfl, .escaped hl⟩
      · rw [if_neg hd] at h
        obtain ⟨rfl, rfl⟩ : d = c ∧ s = rest := by simpa using h
        exact ⟨[d], rfl, .raw hd⟩

/-- What spells a character of a class begins with some character; it is a bracket only if
the bracket is all of it. -/
theorem ClassCharSpelled.exists_cons {c : Char} {s : List Char} (h : ClassCharSpelled c s) :
    ∃ d t, s = d :: t ∧ (d = ']' → t = []) := by
  cases h with
  | raw h => exact ⟨c, [], rfl, fun _ => rfl⟩
  | escaped h => exact ⟨'\\', _, rfl, by simp⟩

theorem readClassItem_of_spelled {item : ClassItem} {s rest : List Char}
    (h : ClassItemSpelled item s) (hrest : ∀ c, item = .single c → startsRange rest = false) :
    readClassItem (s ++ rest) = .ok (item, rest) := by
  cases h with
  | single h =>
      simp [readClassItem, readClassChar_of_spelled h, hrest _ rfl, bind, Except.bind]
  | @range low high s t hlow hhigh hclose hle =>
      obtain ⟨d, t', rfl, hd⟩ := hhigh.exists_cons
      have hne : d ≠ ']' := by
        intro hbracket
        exact hclose (by rw [hbracket, hd hbracket])
      have hread : readClassChar (d :: (t' ++ rest)) = .ok (high, rest) := by
        simpa using readClassChar_of_spelled hhigh rest
      have hnot : ¬ high < low := Char.not_lt.2 hle
      simp [readClassItem, readClassChar_of_spelled hlow, startsRange, hne, hread, hnot, bind,
        Except.bind]

theorem spelled_of_readClassItem {item : ClassItem} {s rest : List Char}
    (h : readClassItem s = .ok (item, rest)) (hx : WithoutHex s) :
    ∃ u, s = u ++ rest ∧ ClassItemSpelled item u ∧
      ∀ c, item = .single c → startsRange rest = false := by
  rw [readClassItem] at h
  obtain ⟨⟨low, tail⟩, hlow, hread⟩ := bind_eq_ok_iff.1 h
  obtain ⟨u, rfl, hu⟩ := spelled_of_readClassChar hlow hx
  dsimp only at hread
  by_cases hrange : startsRange tail = true
  · rw [if_pos hrange] at hread
    obtain ⟨⟨high, tail'⟩, hhigh, hrange'⟩ := bind_eq_ok_iff.1 hread
    dsimp only at hrange'
    obtain ⟨d, t, rfl, hd⟩ : ∃ d t, tail = '-' :: d :: t ∧ d ≠ ']' := by
      unfold startsRange at hrange
      split at hrange
      · exact ⟨_, _, rfl, by simpa using hrange⟩
      · simp at hrange
    have hx' : WithoutHex (d :: t) := by
      have hsplit : u ++ '-' :: d :: t = (u ++ ['-']) ++ d :: t := by simp
      exact (hsplit ▸ hx).of_append
    obtain ⟨v, hv, hspelled⟩ := spelled_of_readClassChar (by simpa using hhigh) hx'
    split at hrange'
    · simp [refuse] at hrange'
    · rename_i hle
      obtain ⟨rfl, rfl⟩ : ClassItem.range low high = item ∧ tail' = rest := by
        simpa using hrange'
      refine ⟨u ++ '-' :: v, by simp [hv], .range hu hspelled ?_ (Char.not_lt.1 hle), by simp⟩
      rintro rfl
      have hhead : d :: t = ']' :: tail' := by simpa using hv
      exact hd (List.cons.inj hhead).1
  · rw [if_neg hrange] at hread
    obtain ⟨rfl, rfl⟩ : ClassItem.single low = item ∧ tail = rest := by simpa using hread
    exact ⟨u, rfl, .single hu, fun _ _ => by simpa using hrange⟩

theorem ClassItemSpelled.exists_cons {item : ClassItem} {s : List Char}
    (h : ClassItemSpelled item s) : ∃ d t, s = d :: t := by
  cases h with
  | single h =>
      obtain ⟨d, t, rfl, -⟩ := h.exists_cons
      exact ⟨d, t, rfl⟩
  | range hlow =>
      obtain ⟨d, t, rfl, -⟩ := hlow.exists_cons
      exact ⟨d, _, rfl⟩

theorem readClassItems_of_spelled {first : Bool} {items : List ClassItem} {s : List Char}
    (h : ClassItemsSpelled first items s) {fuel : Nat} (hfuel : s.length < fuel)
    (rest : List Char) : readClassItems fuel first (s ++ ']' :: rest) = .ok (items, rest) := by
  induction h generalizing fuel with
  | nil =>
      obtain ⟨fuel, rfl⟩ : ∃ k, fuel = k + 1 := ⟨fuel - 1, by omega⟩
      simp [readClassItems]
  | @cons first item items s t hitem hitems hclose hname hhyphen ih =>
      obtain ⟨d, s, rfl⟩ := hitem.exists_cons
      obtain ⟨fuel, rfl⟩ : ∃ k, fuel = k + 1 := ⟨fuel - 1, by omega⟩
      have hbehind : ∀ c, item = .single c → startsRange (t ++ ']' :: rest) = false := by
        intro c hc
        cases t with
        | nil => rfl
        | cons e t =>
            by_cases he : e = '-'
            · subst he
              have hlast : t = [] := by simpa using hhyphen c hc rfl
              rw [hlast]
              rfl
            · simp [startsRange, he]
      have hread := readClassItem_of_spelled hitem hbehind
      have hnot : ¬ (d = ']' ∧ first = false) := by
        rintro ⟨rfl, hfirst⟩
        exact hclose hfirst rfl
      have hnamed : ¬ (d = '[' ∧ (s ++ (t ++ ']' :: rest)).head? = some ':') := by
        rintro ⟨rfl, hcolon⟩
        cases hst : s ++ t with
        | nil =>
            rw [← List.append_assoc, hst] at hcolon
            simp at hcolon
        | cons e r =>
            rw [← List.append_assoc, hst] at hcolon
            have he : e = ':' := by simpa using hcolon
            exact hname ⟨r, by simp [hst, he]⟩
      have hlength : t.length < fuel := by
        simp only [List.cons_append, List.length_cons, List.length_append] at hfuel
        omega
      simp only [List.cons_append, List.append_assoc] at hread ⊢
      rw [readClassItems, if_neg hnot, if_neg hnamed, hread]
      simp [bind, Except.bind, pure, Except.pure, ih hlength]

theorem ClassItemsSpelled.head?_ne {items : List ClassItem} {s : List Char}
    (h : ClassItemsSpelled false items s) : s.head? ≠ some ']' := by
  cases h with
  | nil => simp
  | cons hitem _ hclose =>
      obtain ⟨d, t, rfl⟩ := hitem.exists_cons
      simpa using hclose rfl

/-- After a single hyphen as an item, no bare bracket follows inside the class. -/
theorem not_spelled_hyphen_bracket {items : List ClassItem} {t : List Char} :
    ¬ ClassItemsSpelled false items ('-' :: ']' :: t) := by
  intro h
  generalize hs : '-' :: ']' :: t = s at h
  cases h with
  | nil => simp at hs
  | @cons _ item items s t' hitem hitems =>
      cases hitem with
      | single hchar =>
          cases hchar with
          | raw =>
              obtain ⟨-, rfl⟩ : '-' = _ ∧ ']' :: t = t' := by simpa using hs
              exact hitems.head?_ne rfl
          | escaped => simp at hs
      | range hlow =>
          cases hlow with
          | raw => simp at hs
          | escaped => simp at hs

theorem spelled_of_readClassItems {fuel : Nat} {first : Bool} {items : List ClassItem}
    {s rest : List Char} (h : readClassItems fuel first s = .ok (items, rest))
    (hx : WithoutHex s) :
    ∃ body, s = body ++ ']' :: rest ∧ ClassItemsSpelled first items body := by
  induction fuel generalizing first items s with
  | zero =>
      cases s with
      | nil => simp [readClassItems, refuse] at h
      | cons c s => simp [readClassItems, refuse] at h
  | succ fuel ih =>
      cases s with
      | nil => simp [readClassItems, refuse] at h
      | cons c s =>
          rw [readClassItems] at h
          split at h
          · rename_i hclose
            obtain ⟨rfl, rfl⟩ : [] = items ∧ s = rest := by simpa using h
            obtain ⟨rfl, rfl⟩ := hclose
            exact ⟨[], rfl, .nil⟩
          · rename_i hclose
            split at h
            · simp [leaveOut] at h
            · rename_i hname
              obtain ⟨⟨item, tail⟩, hitem, hmore⟩ := bind_eq_ok_iff.1 h
              obtain ⟨⟨items', rest'⟩, hitems, hread⟩ := bind_eq_ok_iff.1 hmore
              obtain ⟨rfl, rfl⟩ : item :: items' = items ∧ rest' = rest := by
                simpa [pure, Except.pure] using hread
              obtain ⟨u, hu, hspelled, hrange⟩ := spelled_of_readClassItem hitem hx
              obtain ⟨t, ht, hlater⟩ := ih hitems (hu ▸ hx).of_append
              obtain ⟨d, v, rfl⟩ := hspelled.exists_cons
              obtain ⟨rfl, rfl⟩ : c = d ∧ s = v ++ tail := by simpa using hu
              refine ⟨c :: v ++ t, by simp [ht], .cons hspelled hlater ?_ ?_ ?_⟩
              · intro hfirst hhead
                exact hclose ⟨by simpa using hhead, hfirst⟩
              · rintro ⟨r, hr⟩
                obtain rfl : '[' = c := (List.cons.inj hr).1
                have hcolon : (v ++ tail).head? = some ':' := by
                  have hvt : ':' :: r = v ++ t := by simpa using hr
                  rw [ht, ← List.append_assoc, ← hvt]
                  rfl
                exact hname ⟨rfl, hcolon⟩
              · intro c' hsingle hhyphen
                obtain ⟨r, rfl⟩ := List.head?_eq_some_iff.1 hhyphen
                cases r with
                | nil => rfl
                | cons e r =>
                    have hjoin := hrange c' hsingle
                    have he : e = ']' := by simpa [ht, startsRange] using hjoin
                    subst he
                    exact absurd hlater not_spelled_hyphen_bracket

end Guided
