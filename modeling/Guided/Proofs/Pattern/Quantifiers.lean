import Guided.Proofs.Pattern.Grammar
import Guided.Proofs.Pattern.Reading

/-!
# Reading quantifiers

Where a text begins with the form of a quantifier, the bounds are read and held against
the limits; where it does not, no quantifier is read and the text stays as it is. Which of
the two is the case does not depend on what stands behind a bar or a closing parenthesis.

## Main statements

* `readBounds_of_form`, `form_of_readBounds`, `readBounds_eq_none_iff`: what is read.
* `checkAfterBounds_eq_ok_iff`: what may follow a quantifier.
* `startsQuantifier_append_iff`: where the form of a quantifier ends.
-/
namespace Guided

/-- Digits up to something that is none are taken together. -/
theorem takeDigits_append {n rest : List Char} (hn : ∀ c ∈ n, c.isDigit = true)
    (hrest : ∀ c, rest.head? = some c → c.isDigit = false) :
    takeDigits (n ++ rest) = (n, rest) := by
  have htake : rest.takeWhile Char.isDigit = [] := by
    cases rest with
    | nil => rfl
    | cons c rest => simp [hrest c rfl]
  have hdrop : rest.dropWhile Char.isDigit = rest := by
    cases rest with
    | nil => rfl
    | cons c rest => simp [hrest c rfl]
  rw [takeDigits, List.takeWhile_append_of_pos hn, List.dropWhile_append_of_pos hn, htake, hdrop,
    List.append_nil]

/-- A run of digits and what follows it make up the text. -/
theorem takeDigits_spec (s : List Char) :
    s = (takeDigits s).1 ++ (takeDigits s).2 ∧ ∀ c ∈ (takeDigits s).1, c.isDigit = true :=
  ⟨List.takeWhile_append_dropWhile.symm, List.all_eq_true.1 List.all_takeWhile⟩

/-- The bounds that two runs of digits write, whatever their size. -/
def writtenBounds (low : List Char) (comma : Bool) (high : List Char) : Bounds :=
  (numberOfDigits low,
    if comma = false then some (numberOfDigits low)
    else if high.isEmpty then none else some (numberOfDigits high))

/-- Written bounds are taken exactly if they are allowed. -/
theorem boundsOfDigits_eq (low : List Char) (comma : Bool) (high rest : List Char) :
    ((writtenBounds low comma high).Allowed →
      boundsOfDigits low comma high rest = .ok (writtenBounds low comma high)) ∧
    (¬ (writtenBounds low comma high).Allowed →
      ∃ r, boundsOfDigits low comma high rest = .error r) := by
  have hmin : ∀ n : Nat, word32Bound ≤ n ↔ ¬ n < word32Bound := fun n => Nat.not_lt.symm
  cases comma with
  | false =>
      by_cases hlow : numberOfDigits low < word32Bound
      · simp [boundsOfDigits, writtenBounds, Bounds.Allowed, hmin, hlow]
      · simp [boundsOfDigits, writtenBounds, Bounds.Allowed, hmin, hlow, refuse]
  | true =>
      by_cases hlow : numberOfDigits low < word32Bound
      · by_cases hhigh : high.isEmpty = true
        · simp [boundsOfDigits, writtenBounds, Bounds.Allowed, hmin, hlow, hhigh]
        · by_cases hmax : numberOfDigits high < word32Bound
          · by_cases hle : numberOfDigits high < numberOfDigits low
            · have hnot : ¬ numberOfDigits low ≤ numberOfDigits high := by omega
              simp [boundsOfDigits, writtenBounds, Bounds.Allowed, hmin, hlow, hhigh, hmax, hle,
                hnot, refuse]
            · have hle' : numberOfDigits low ≤ numberOfDigits high := by omega
              simp [boundsOfDigits, writtenBounds, Bounds.Allowed, hmin, hlow, hhigh, hmax, hle,
                hle']
          · simp [boundsOfDigits, writtenBounds, Bounds.Allowed, hmin, hlow, hhigh, hmax, refuse]
      · simp [boundsOfDigits, writtenBounds, Bounds.Allowed, hmin, hlow, refuse]

/-- Behind the opening brace, the form of a quantifier is two runs of digits, and the bounds
are those they write. -/
theorem readBraces_eq_of_form {b : Bounds} {q : List Char} (h : QuantifierForm b ('{' :: q))
    (rest : List Char) :
    ∃ low comma high, b = writtenBounds low comma high ∧ readBraces (q ++ rest) =
      (boundsOfDigits low comma high rest).map fun b => some (b, rest) := by
  generalize hs : '{' :: q = s at h
  cases h with
  | star => simp at hs
  | plus => simp at hs
  | optional => simp at hs
  | @exactly n hn =>
      obtain rfl : q = n ++ ['}'] := by simpa using hs
      have hdigits : takeDigits (n ++ '}' :: rest) = (n, '}' :: rest) :=
        takeDigits_append hn.2 (by simp)
      refine ⟨n, false, [], by simp [writtenBounds], ?_⟩
      simp [readBraces, hdigits, hn.1, bind, Except.bind, Except.map, pure, Except.pure]
  | @atLeast n hn =>
      obtain rfl : q = n ++ [',', '}'] := by simpa using hs
      have hdigits : takeDigits (n ++ ',' :: '}' :: rest) = (n, ',' :: '}' :: rest) :=
        takeDigits_append hn.2 (by simp)
      have hnone : takeDigits ([] ++ '}' :: rest) = ([], '}' :: rest) :=
        takeDigits_append (by simp) (by simp)
      refine ⟨n, true, [], by simp [writtenBounds], ?_⟩
      rw [List.nil_append] at hnone
      simp [readBraces, hdigits, hnone, hn.1, bind, Except.bind, Except.map, pure, Except.pure]
  | @atMost m hm =>
      obtain rfl : q = ',' :: m ++ ['}'] := by simpa using hs
      have hdigits : takeDigits (m ++ '}' :: rest) = (m, '}' :: rest) :=
        takeDigits_append hm.2 (by simp)
      have hnone : takeDigits ([] ++ ',' :: (m ++ '}' :: rest)) = ([], ',' :: (m ++ '}' :: rest)) :=
        takeDigits_append (by simp) (by simp)
      refine ⟨[], true, m, by simp [writtenBounds, hm.1, numberOfDigits], ?_⟩
      rw [List.nil_append] at hnone
      simp [readBraces, hdigits, hnone, hm.1, bind, Except.bind, Except.map, pure, Except.pure]
  | @between n m hn hm =>
      obtain rfl : q = n ++ ',' :: m ++ ['}'] := by simpa using hs
      have hdigits : takeDigits (m ++ '}' :: rest) = (m, '}' :: rest) :=
        takeDigits_append hm.2 (by simp)
      have hlow : takeDigits (n ++ ',' :: (m ++ '}' :: rest)) = (n, ',' :: (m ++ '}' :: rest)) :=
        takeDigits_append hn.2 (by simp)
      refine ⟨n, true, m, by simp [writtenBounds, hm.1], ?_⟩
      simp [readBraces, hdigits, hlow, hn.1, bind, Except.bind, Except.map, pure, Except.pure]

/-- Where no quantifier is read behind an opening brace, none has its form there; elsewhere
one does. -/
theorem exists_form_or_readBraces_eq_none (s : List Char) :
    (∃ b q rest, s = q ++ rest ∧ QuantifierForm b ('{' :: q)) ∨ readBraces s = .ok none := by
  obtain ⟨hs, hlow⟩ := takeDigits_spec s
  generalize hread : takeDigits s = read at hs hlow
  obtain ⟨low, rest⟩ := read
  dsimp only at hs hlow
  by_cases hcomma : rest.head? = some ','
  · obtain ⟨behind, rfl⟩ := List.head?_eq_some_iff.1 hcomma
    obtain ⟨hbehind, hhigh⟩ := takeDigits_spec behind
    generalize hread' : takeDigits behind = read' at hbehind hhigh
    obtain ⟨high, rest⟩ := read'
    dsimp only at hbehind hhigh
    by_cases hbrace : rest.head? = some '}'
    · obtain ⟨tail, rfl⟩ := List.head?_eq_some_iff.1 hbrace
      subst hbehind
      by_cases hl : low = []
      · by_cases hh : high = []
        · right
          subst hl hh
          rw [List.nil_append] at hread hread'
          simp [readBraces, hread, hread']
        · left
          exact ⟨_, _, tail, by simp [hs, hl], .atMost ⟨hh, hhigh⟩⟩
      · left
        by_cases hh : high = []
        · exact ⟨_, _, tail, by simp [hs, hh], .atLeast ⟨hl, hlow⟩⟩
        · exact ⟨_, _, tail, by simp [hs], .between ⟨hl, hlow⟩ ⟨hh, hhigh⟩⟩
    · right
      simp only [readBraces, hread, List.head?_cons, decide_true, if_true, List.drop_succ_cons,
        List.drop_zero, hread']
      split
      · simp at hbrace
      · rfl
  · by_cases hbrace : rest.head? = some '}'
    · obtain ⟨tail, rfl⟩ := List.head?_eq_some_iff.1 hbrace
      by_cases hl : low = []
      · right
        simp [readBraces, hread, hl]
      · left
        exact ⟨_, _, tail, by simp [hs], .exactly ⟨hl, hlow⟩⟩
    · right
      simp only [readBraces, hread, hcomma, decide_false, if_false]
      split
      · simp at hbrace
      · rfl

/-- Behind the opening brace, allowed bounds are read and others are refused. -/
theorem readBraces_of_form {b : Bounds} {q : List Char} (h : QuantifierForm b ('{' :: q))
    (rest : List Char) :
    (b.Allowed → readBraces (q ++ rest) = .ok (some (b, rest))) ∧
      (¬ b.Allowed → ∃ r, readBraces (q ++ rest) = .error r) := by
  obtain ⟨low, comma, high, rfl, hread⟩ := readBraces_eq_of_form h rest
  obtain ⟨hallowed, hrefused⟩ := boundsOfDigits_eq low comma high rest
  refine ⟨?_, ?_⟩
  · intro hb
    rw [hread, hallowed hb]
    rfl
  · intro hb
    obtain ⟨r, hr⟩ := hrefused hb
    exact ⟨r, by rw [hread, hr]; rfl⟩

theorem readBraces_eq_none_iff {s : List Char} :
    readBraces s = .ok none ↔ ¬ ∃ b q, QuantifierForm b ('{' :: q) ∧ q <+: s := by
  constructor
  · rintro hnone ⟨b, q, hform, rest, rfl⟩
    obtain ⟨hallowed, hrefused⟩ := readBraces_of_form hform rest
    by_cases hb : b.Allowed
    · simp [hallowed hb] at hnone
    · obtain ⟨r, hr⟩ := hrefused hb
      simp [hr] at hnone
  · intro hform
    rcases exists_form_or_readBraces_eq_none s with ⟨b, q, rest, rfl, hq⟩ | hnone
    · exact absurd ⟨b, q, hq, List.prefix_append q rest⟩ hform
    · exact hnone

theorem form_of_readBraces {s rest : List Char} {b : Bounds}
    (h : readBraces s = .ok (some (b, rest))) :
    ∃ q, s = q ++ rest ∧ QuantifierForm b ('{' :: q) ∧ b.Allowed := by
  rcases exists_form_or_readBraces_eq_none s with ⟨b', q, rest', rfl, hform⟩ | hnone
  · obtain ⟨hallowed, hrefused⟩ := readBraces_of_form hform rest'
    by_cases hb : b'.Allowed
    · rw [hallowed hb] at h
      obtain ⟨rfl, rfl⟩ : b' = b ∧ rest' = rest := by simpa using h
      exact ⟨q, rfl, hform, hb⟩
    · obtain ⟨r, hr⟩ := hrefused hb
      simp [hr] at h
  · simp [hnone] at h

/-! ## Quantifiers in general -/

/-- A quantifier begins with one of four characters, and only the brace is not all of it. -/
theorem QuantifierForm.cases_cons {b : Bounds} {q : List Char} (h : QuantifierForm b q) :
    (q = ['*'] ∧ b = (0, none)) ∨ (q = ['+'] ∧ b = (1, none)) ∨ (q = ['?'] ∧ b = (0, some 1)) ∨
      ∃ t, q = '{' :: t := by
  cases h with
  | star => simp
  | plus => simp
  | optional => simp
  | exactly => simp
  | atLeast => simp
  | atMost => simp
  | between => simp

theorem startsQuantifier_cons_iff {c : Char} {s : List Char} :
    StartsQuantifier (c :: s) ↔ c = '*' ∨ c = '+' ∨ c = '?' ∨
      (c = '{' ∧ ∃ b q, QuantifierForm b ('{' :: q) ∧ q <+: s) := by
  constructor
  · rintro ⟨b, q, hform, hprefix⟩
    rcases hform.cases_cons with ⟨rfl, -⟩ | ⟨rfl, -⟩ | ⟨rfl, -⟩ | ⟨t, rfl⟩
    · obtain rfl : '*' = c := by simpa using hprefix
      simp
    · obtain rfl : '+' = c := by simpa using hprefix
      simp
    · obtain rfl : '?' = c := by simpa using hprefix
      simp
    · obtain ⟨rfl, ht⟩ := List.cons_prefix_cons.1 hprefix
      exact .inr (.inr (.inr ⟨rfl, b, t, hform, ht⟩))
  · rintro (rfl | rfl | rfl | ⟨rfl, b, q, hform, hprefix⟩)
    · exact ⟨_, _, .star, by simp⟩
    · exact ⟨_, _, .plus, by simp⟩
    · exact ⟨_, _, .optional, by simp⟩
    · exact ⟨b, _, hform, by simpa using hprefix⟩

theorem not_startsQuantifier_nil : ¬ StartsQuantifier [] := by
  rintro ⟨b, q, hform, hprefix⟩
  obtain rfl : q = [] := List.prefix_nil.1 hprefix
  rcases hform.cases_cons with h | h | h | ⟨t, h⟩ <;> simp at h

theorem readBounds_eq_none_iff {s : List Char} :
    readBounds s = .ok none ↔ ¬ StartsQuantifier s := by
  cases s with
  | nil => simp [readBounds, not_startsQuantifier_nil]
  | cons c s =>
      rw [startsQuantifier_cons_iff]
      unfold readBounds
      split
      · simp_all
      · simp_all
      · simp_all
      · rename_i heq
        obtain ⟨rfl, rfl⟩ := by simpa using heq
        simp [readBraces_eq_none_iff]
      · simp_all

theorem readBounds_of_form {b : Bounds} {q : List Char} (h : QuantifierForm b q)
    (hb : b.Allowed) (rest : List Char) : readBounds (q ++ rest) = .ok (some (b, rest)) := by
  rcases h.cases_cons with ⟨rfl, rfl⟩ | ⟨rfl, rfl⟩ | ⟨rfl, rfl⟩ | ⟨t, rfl⟩
  · rfl
  · rfl
  · rfl
  · exact (readBraces_of_form h rest).1 hb

theorem form_of_readBounds {s rest : List Char} {b : Bounds}
    (h : readBounds s = .ok (some (b, rest))) :
    ∃ q, s = q ++ rest ∧ QuantifierForm b q ∧ b.Allowed := by
  unfold readBounds at h
  split at h
  · obtain ⟨rfl, rfl⟩ := by simpa using h
    exact ⟨['*'], rfl, .star, by simp [Bounds.Allowed, word32Bound]⟩
  · obtain ⟨rfl, rfl⟩ := by simpa using h
    exact ⟨['+'], rfl, .plus, by simp [Bounds.Allowed, word32Bound]⟩
  · obtain ⟨rfl, rfl⟩ := by simpa using h
    exact ⟨['?'], rfl, .optional, by simp [Bounds.Allowed, word32Bound]⟩
  · obtain ⟨q, rfl, hform, hb⟩ := form_of_readBraces h
    exact ⟨'{' :: q, rfl, hform, hb⟩
  · simp at h

/-- After a quantifier everything may follow that does not have the form of another one. -/
theorem checkAfterBounds_eq_ok_iff {s : List Char} :
    checkAfterBounds s = .ok () ↔ ¬ StartsQuantifier s := by
  cases s with
  | nil => simp [checkAfterBounds, not_startsQuantifier_nil]
  | cons c s =>
      rw [startsQuantifier_cons_iff]
      unfold checkAfterBounds
      split
      · simp_all [leaveOut]
      · simp_all [leaveOut]
      · simp_all [refuse]
      · rename_i heq
        obtain ⟨rfl, rfl⟩ := by simpa using heq
        refine Iff.trans (b := readBraces s = .ok none) ?_ (by simp [readBraces_eq_none_iff])
        rcases readBraces s with r | _ | ⟨b, rest⟩
        · simp [bind, Except.bind]
        · simp [bind, Except.bind]
        · simp [bind, Except.bind, refuse]
      · simp_all

/-! ## What stands behind -/

/-- Characters that occur in quantifiers. -/
def inQuantifier (c : Char) : Bool := c.isDigit || ['*', '+', '?', '{', ',', '}'].contains c

theorem QuantifierForm.forall_mem {b : Bounds} {q : List Char} (h : QuantifierForm b q) :
    ∀ c ∈ q, inQuantifier c = true := by
  cases h with
  | star => simp [inQuantifier]
  | plus => simp [inQuantifier]
  | optional => simp [inQuantifier]
  | exactly hn =>
      intro c hc
      rcases (by simpa using hc : c = '{' ∨ c ∈ _ ∨ c = '}') with rfl | hc | rfl
      · decide
      · simp [inQuantifier, hn.2 c hc]
      · decide
  | atLeast hn =>
      intro c hc
      rcases (by simpa using hc : c = '{' ∨ c ∈ _ ∨ c = ',' ∨ c = '}') with rfl | hc | rfl | rfl
      · decide
      · simp [inQuantifier, hn.2 c hc]
      · decide
      · decide
  | atMost hm =>
      intro c hc
      rcases (by simpa using hc : c = '{' ∨ c = ',' ∨ c ∈ _ ∨ c = '}') with rfl | rfl | hc | rfl
      · decide
      · decide
      · simp [inQuantifier, hm.2 c hc]
      · decide
  | between hn hm =>
      intro c hc
      rcases (by simpa using hc : c = '{' ∨ c ∈ _ ∨ c = ',' ∨ c ∈ _ ∨ c = '}') with
        rfl | hc | rfl | hc | rfl
      · decide
      · simp [inQuantifier, hn.2 c hc]
      · decide
      · simp [inQuantifier, hm.2 c hc]
      · decide

/-- What begins a text and has none of the characters behind a place ends before it. -/
theorem prefix_of_prefix_append_cons {q s t : List Char} {x : Char} (hx : x ∉ q)
    (h : q <+: s ++ x :: t) : q <+: s := by
  rcases List.prefix_or_prefix_of_prefix h (List.prefix_append s (x :: t)) with hq | hs
  · exact hq
  · obtain ⟨r, rfl⟩ := hs
    rw [List.prefix_append_right_inj] at h
    cases r with
    | nil => simp
    | cons y r =>
        obtain ⟨rfl, -⟩ := List.cons_prefix_cons.1 h
        simp at hx

/-- Behind a character that occurs in no quantifier, nothing matters. -/
theorem startsQuantifier_append_iff {s t : List Char} {x : Char} (hx : inQuantifier x = false) :
    StartsQuantifier (s ++ x :: t) ↔ StartsQuantifier s := by
  constructor
  · rintro ⟨b, q, hform, hprefix⟩
    refine ⟨b, q, hform, prefix_of_prefix_append_cons ?_ hprefix⟩
    intro hmem
    simp [hform.forall_mem x hmem] at hx
  · rintro ⟨b, q, hform, hprefix⟩
    exact ⟨b, q, hform, hprefix.trans (List.prefix_append s _)⟩

end Guided
