import Guided.Proofs.Pattern.Backslash
import Guided.Proofs.Pattern.Spelling
import Guided.Proofs.Pattern.Unfueled

/-!
# Places of escapes

Whether an escape is read at a backslash is decided by what stands before it: every reader stops
before the backslash, reads an escape there or is done with the text otherwise, by following its
recursion. So the places of escapes can be told by leaving out what follows them.

## Main definitions

* `Pattern.EscapeFollows`: a text behind which an escape is read.
* `Pattern.GoesOnBehind`: how reading may go on behind an escape.

## Main statements

* `atBackslash_readClass`, `atBackslash_readQuantified`: the parts of an atom at a backslash.
* `Unfueled.atBackslash_branches`: the reader of branches at a backslash.
* `Pattern.escapeFollows_iff`: an escape is read, and all that goes on depends on is its result.
-/
namespace Guided

/-! ## Two hexadecimal digits -/

/-- A digit is an ASCII character, and its value is below sixteen. -/
theorem hexDigit?_bounds {c : Char} {n : Nat} (h : hexDigit? c = some n) :
    c.toNat ≤ 102 ∧ n < 16 := by
  rw [hexDigit?] at h
  split at h
  · rename_i hdigit
    have hle : c.toNat ≤ 57 := hdigit.2
    obtain rfl := Option.some.inj h
    omega
  · split at h
    · rename_i hlower
      have hle : c.toNat ≤ 102 := hlower.2
      obtain rfl := Option.some.inj h
      omega
    · split at h
      · rename_i hupper
        have hle : c.toNat ≤ 70 := hupper.2
        obtain rfl := Option.some.inj h
        omega
      · cases h

theorem utf8Size_of_hexDigit? {c : Char} {n : Nat} (h : hexDigit? c = some n) :
    c.utf8Size = 1 := by
  have hascii : c.val ≤ 127 := Nat.le_trans (hexDigit?_bounds h).1 (by decide)
  simp [Char.utf8Size, hascii]

/-- Two digits, or a digit behind a plus sign. -/
theorem hexPair?_eq_some_iff {a b : Char} {n : Nat} : hexPair? a b = some n ↔
    (∃ high low, hexDigit? a = some high ∧ hexDigit? b = some low ∧ n = high * 16 + low) ∨
      (a = '+' ∧ hexDigit? b = some n) := by
  have hplus : hexDigit? '+' = none := by decide
  rw [hexPair?]
  cases hexDigit? b with
  | none => simp
  | some low =>
      by_cases ha : a = '+'
      · simp [ha, hplus]
      · cases hexDigit? a <;> simp [ha, eq_comm]

theorem utf8Size_of_hexPair? {a b : Char} {n : Nat} (h : hexPair? a b = some n) :
    a.utf8Size + b.utf8Size = 2 := by
  rcases hexPair?_eq_some_iff.1 h with ⟨high, low, ha, hb, -⟩ | ⟨rfl, hb⟩
  · rw [utf8Size_of_hexDigit? ha, utf8Size_of_hexDigit? hb]
  · rw [utf8Size_of_hexDigit? hb]
    rfl

theorem readHex_of_hexPair? {a b : Char} {n : Nat} (h : hexPair? a b = some n)
    (rest : List Char) : readHex (a :: b :: rest) = .ok (Char.ofNat n, rest) := by
  rw [readHex, if_neg fun hne => hne (utf8Size_of_hexPair? h), h]

/-- Without such a pair the escape is refused where its digits should begin. -/
theorem readHex_of_forall_eq_none {s : List Char}
    (h : ∀ a b rest, s = a :: b :: rest → hexPair? a b = none) :
    ∃ fault, (fault = .incompleteHex ∨ fault = .badHex) ∧ readHex s = refuse fault s := by
  match s with
  | [] => exact ⟨.incompleteHex, .inl rfl, rfl⟩
  | [a] =>
      rw [readHex]
      split
      · exact ⟨.badHex, .inr rfl, rfl⟩
      · exact ⟨.incompleteHex, .inl rfl, rfl⟩
  | a :: b :: rest =>
      rw [readHex, h a b rest rfl]
      split
      · exact ⟨.incompleteHex, .inl rfl, rfl⟩
      · exact ⟨.badHex, .inr rfl, rfl⟩
/-! ## Escapes and classes -/

theorem atBackslash_readHex (chars : Char → List Char) (w : List Char) :
    AtBackslash chars readHex w := by
  by_cases hpair : ∃ a b n w', w = a :: b :: w' ∧ hexPair? a b = some n
  · obtain ⟨a, b, n, w', rfl, hn⟩ := hpair
    exact .stops (Char.ofNat n) w' fun after => readHex_of_hexPair? hn (w' ++ '\\' :: after)
  · -- A backslash is no digit, so that it cannot complete a pair either.
    have hnone : ∀ a b rest, w ++ ['\\'] = a :: b :: rest → hexPair? a b = none := by
      intro a b rest hw
      rw [Option.eq_none_iff_forall_ne_some]
      intro n hn
      match w, hw with
      | [], hw => simp at hw
      | [d], hw =>
          obtain ⟨rfl, rfl, rfl⟩ : d = a ∧ '\\' = b ∧ [] = rest := by simpa using hw
          simp [hexPair?, hexDigit?] at hn
      | d :: e :: w', hw =>
          obtain ⟨rfl, rfl, rfl⟩ : d = a ∧ e = b ∧ w' ++ ['\\'] = rest := by simpa using hw
          exact hpair ⟨d, e, n, w', rfl, hn⟩
    obtain ⟨fault, hfault, hread⟩ := readHex_of_forall_eq_none hnone
    refine .of_error hread ?_
    rcases hfault with rfl | rfl <;> simp

/-- Any other escape takes one character, or is left out. -/
theorem readEscape_cons_cases {e : Char} (h : e ≠ 'x') :
    (∃ c, ∀ s, readEscape (e :: s) = .ok (c, s)) ∨
      ∃ construct, ∀ s, readEscape (e :: s) = leaveOut construct (e :: s) := by
  simp only [readEscape, if_neg h]
  cases controlOfLetter e with
  | some control => exact .inl ⟨control, fun _ => rfl⟩
  | none =>
      dsimp only
      split
      · exact .inr ⟨.shorthand e, fun _ => rfl⟩
      · split
        · exact .inr ⟨.backreference e, fun _ => rfl⟩
        · split
          · exact .inr ⟨.anchor e, fun _ => rfl⟩
          · split
            · exact .inr ⟨.escape e, fun _ => rfl⟩
            · exact .inl ⟨e, fun _ => rfl⟩

/-- Behind a backslash that has been read, another one is no escape. -/
theorem atBackslash_readEscape (chars : Char → List Char) (w : List Char) :
    AtBackslash chars readEscape w := by
  cases w with
  | nil =>
      have hself : readEscape ['\\'] = .ok ('\\', []) := rfl
      exact .passes (by simp [hself, refuse]) (by simp [hself])
  | cons e w =>
      by_cases hx : e = 'x'
      · refine (atBackslash_readHex chars w).of_eq fun after => ?_
        rw [List.cons_append, readEscape, if_pos hx]
      · rcases readEscape_cons_cases hx with ⟨c, hc⟩ | ⟨construct, hconstruct⟩
        · exact .stops c w fun after => hc _
        · exact .of_error (hconstruct _) (by simp)

theorem atBackslash_readClassChar (w : List Char) :
    AtBackslash (fun c => [c]) readClassChar w := by
  cases w with
  | nil =>
      refine .reads (fun c rest => .ok (c, rest)) 0 (fun c rest => List.suffix_refl rest) ?_ ?_
      · intro c rest a t h
        obtain ⟨rfl, -⟩ := Prod.mk.inj (Except.ok.inj h)
        rfl
      · intro after
        rw [List.nil_append, readClassChar, if_pos rfl]
        cases readEscape after <;> rfl
  | cons c w =>
      by_cases hc : c = '\\'
      · refine (atBackslash_readEscape _ w).of_eq fun after => ?_
        rw [List.cons_append, readClassChar, if_pos hc]
      · refine .stops c w fun after => ?_
        rw [List.cons_append, readClassChar, if_neg hc]

/-- What is looked for at the beginning of a text is no backslash. -/
theorem head?_append_backslash {c : Char} (hc : c ≠ '\\') (w after : List Char) :
    (w ++ '\\' :: after).head? = some c ↔ w.head? = some c := by
  cases w with
  | nil => simp [Ne.symm hc]
  | cons d w => simp

theorem startsRange_cons (c d : Char) (s : List Char) :
    startsRange (c :: d :: s) = (c == '-' && d != ']') := by
  by_cases hc : c = '-'
  · rw [hc]
    rfl
  · simp [startsRange, hc]

/-- Whether a range follows does not depend on what stands behind a backslash. -/
theorem startsRange_append (w after : List Char) :
    startsRange (w ++ '\\' :: after) = (w.head? == some '-' && w.tail.head? != some ']') := by
  match w with
  | [] => rfl
  | [c] => exact startsRange_cons c '\\' after
  | c :: d :: w => exact startsRange_cons c d (w ++ '\\' :: after)

namespace Unfueled

theorem goesOn_rangeEnd (low : Char) (s : List Char) :
    GoesOn ClassItem.characters [low] s (rangeEnd low s) where
  suffix := leavesSuffix_rangeEnd low s
  names item rest h := by
    rw [rangeEnd] at h
    split at h
    · obtain ⟨⟨high, t⟩, -, h⟩ := bind_eq_ok_iff.1 h
      dsimp only at h
      split at h
      · cases h
      · obtain ⟨rfl, -⟩ := Prod.mk.inj (Except.ok.inj h)
        exact ⟨[high], rfl⟩
    · obtain ⟨rfl, -⟩ := Prod.mk.inj (Except.ok.inj h)
      exact List.prefix_refl _
  complete := by
    rintro rfl
    simp [rangeEnd, startsRange, refuse]

theorem atBackslash_rangeEnd (low : Char) (w : List Char) :
    AtBackslash ClassItem.characters (rangeEnd low) w := by
  cases hrange : w.head? == some '-' && w.tail.head? != some ']' with
  | false =>
      refine .stops (.single low) w fun after => ?_
      rw [rangeEnd, startsRange_append, hrange]
      rfl
  | true =>
      cases w with
      | nil => simp at hrange
      | cons d w =>
          have hend : AtBackslash ClassItem.characters (fun s => readClassChar s >>= fun read =>
              if read.1 < low then refuse (.reversedRange low read.1) read.2
              else .ok (.range low read.1, read.2)) w := by
            refine (atBackslash_readClassChar w).bind [low] ?_ ?_
            · intro high s
              dsimp only
              split
              · exact goesOn_refuse (by simp)
              · exact goesOn_ok_iff.2 (List.prefix_refl _)
            · intro high w' _
              by_cases hreversed : high < low
              · exact .of_error (if_pos hreversed) (by simp)
              · exact .stops (.range low high) w' fun after => if_neg hreversed
          refine hend.of_eq fun after => ?_
          rw [rangeEnd, startsRange_append, hrange]
          rfl

end Unfueled

theorem atBackslash_readClassItem (w : List Char) :
    AtBackslash ClassItem.characters readClassItem w :=
  (atBackslash_readClassChar w).bind [] (fun low s => Unfueled.goesOn_rangeEnd low s)
    fun low w' _ => Unfueled.atBackslash_rangeEnd low w'

theorem length_lt_of_readClassItem {s rest : List Char} {item : ClassItem}
    (h : readClassItem s = .ok (item, rest)) : rest.length < s.length := by
  cases s with
  | nil => cases h
  | cons c s =>
      exact Nat.lt_succ_of_le
        ((Unfueled.leavesSuffix_readClassItem_cons c s).of_eq_ok h).length_le

namespace Unfueled

/-- More items are read behind an item. -/
theorem goesOn_items (item : ClassItem) (s : List Char) :
    GoesOn (List.flatMap ClassItem.characters) item.characters s
      (items false s >>= fun read => pure (item :: read.1, read.2)) := by
  have hlater : GoesOn (List.flatMap ClassItem.characters) [] s (items false s) :=
    .start (leavesSuffix_items false) (by simp [refuse]) s
  refine hlater.map (item :: ·) ?_
  intro later _
  exact List.prefix_append _ _

/-- By induction on the length of what stands before the backslash. -/
theorem atBackslash_items (first : Bool) (w : List Char) :
    AtBackslash (List.flatMap ClassItem.characters) (items first) w := by
  have hitem : AtBackslash (List.flatMap ClassItem.characters)
      (fun s => readClassItem s >>= fun read => items false read.2 >>= fun later =>
        pure (read.1 :: later.1, later.2)) w := by
    refine (atBackslash_readClassItem w).bind [] (fun item s => goesOn_items item s) ?_
    intro item w' hread
    have hlength : w'.length < w.length := by simpa using length_lt_of_readClassItem (hread [])
    exact (atBackslash_items false w').map item.characters (item :: ·)
      fun later => List.prefix_refl _
  cases w with
  | nil =>
      refine hitem.of_eq fun after => ?_
      rw [List.nil_append, items_cons, if_neg (by simp), if_neg (by simp)]
  | cons c w =>
      by_cases hclose : c = ']' ∧ first = false
      · refine .stops [] w fun after => ?_
        rw [List.cons_append, items_cons, if_pos hclose]
      · have hname : ∀ after, (w ++ '\\' :: after).head? = some ':' ↔ w.head? = some ':' :=
          head?_append_backslash (by simp) w
        by_cases hnamed : c = '[' ∧ w.head? = some ':'
        · have hread : items first (c :: w ++ ['\\']) = leaveOut .namedClass (c :: w ++ ['\\']) := by
            rw [List.cons_append, items_cons, if_neg hclose,
              if_pos ⟨hnamed.1, (hname []).2 hnamed.2⟩]
          exact .of_error hread (by simp)
        · refine hitem.of_eq fun after => ?_
          rw [List.cons_append, items_cons, if_neg hclose,
            if_neg fun h => hnamed ⟨h.1, (hname after).1 h.2⟩]
termination_by w.length

end Unfueled

theorem atBackslash_readClass (w : List Char) : AtBackslash Node.characters readClass w := by
  have hnegated : ∀ after, (w ++ '\\' :: after).head? = some '^' ↔ w.head? = some '^' :=
    head?_append_backslash (by simp) w
  by_cases h : w.head? = some '^'
  · have hread : readClass (w ++ ['\\']) = leaveOut .negatedClass (w ++ ['\\']) := by
      rw [readClass, if_pos ((hnegated []).2 h)]
    exact .of_error hread (by simp)
  · refine ((Unfueled.atBackslash_items true w).map [] Node.oneOf (by simp)).of_eq ?_
    intro after
    rw [readClass, if_neg fun h' => h ((hnegated after).1 h')]
    rfl

/-! ## Atoms and quantifiers -/

/-- Any other atom is a single character, or is refused for it. -/
theorem readAtom_char_cases {c : Char} (hclass : c ≠ '[') (hescape : c ≠ '\\') :
    (∃ atom, ∀ s, readAtom c s = .ok (atom, s)) ∨
      ∃ cause, cause ≠ .invalid .trailingBackslash ∧ ∀ s, readAtom c s = .error ⟨cause, c :: s⟩ := by
  simp only [readAtom, if_neg hclass, if_neg hescape]
  split
  · exact .inl ⟨.endAnchor, fun _ => rfl⟩
  · split
    · exact .inr ⟨.unsupported .startAnchor, by simp, fun _ => rfl⟩
    · split
      · exact .inr ⟨.unsupported .wildcard, by simp, fun _ => rfl⟩
      · split
        · exact .inr ⟨.invalid .nothingToRepeat, by simp, fun _ => rfl⟩
        · exact .inl ⟨.literal c, fun _ => rfl⟩

theorem atBackslash_readAtom (c : Char) (w : List Char) :
    AtBackslash Node.characters (readAtom c) w := by
  by_cases hclass : c = '['
  · refine (atBackslash_readClass w).of_eq fun after => ?_
    rw [readAtom, if_pos hclass]
  · by_cases hescape : c = '\\'
    · refine ((atBackslash_readEscape (fun d => [d]) w).map [] Node.literal (by simp)).of_eq ?_
      intro after
      rw [readAtom, if_neg hclass, if_pos hescape]
    · rcases readAtom_char_cases hclass hescape with ⟨atom, hatom⟩ | ⟨cause, hcause, hrefused⟩
      · exact .stops atom w fun after => hatom _
      · exact .of_error (hrefused _) hcause

theorem cause_of_boundsOfDigits {low high rest : List Char} {comma : Bool} {r : Refusal}
    (h : boundsOfDigits low comma high rest = .error r) :
    r.cause ≠ .invalid .trailingBackslash := by
  unfold boundsOfDigits at h
  dsimp only at h
  repeat' split at h
  all_goals first | (simp only [refuse, Except.error.injEq] at h; simp [← h]) | simp at h

theorem cause_of_readBraces {s : List Char} {r : Refusal} (h : readBraces s = .error r) :
    r.cause ≠ .invalid .trailingBackslash := by
  rcases exists_form_or_readBraces_eq_none s with ⟨b, q, rest, rfl, hform⟩ | hnone
  · obtain ⟨low, comma, high, -, hread⟩ := readBraces_eq_of_form hform rest
    rw [hread] at h
    cases hbounds : boundsOfDigits low comma high rest with
    | ok b => simp [hbounds, Except.map] at h
    | error r' =>
        obtain rfl : r' = r := by simpa [hbounds, Except.map] using h
        exact cause_of_boundsOfDigits hbounds
  · simp [hnone] at h

theorem cause_of_readBounds {s : List Char} {r : Refusal} (h : readBounds s = .error r) :
    r.cause ≠ .invalid .trailingBackslash := by
  unfold readBounds at h
  split at h
  · cases h
  · cases h
  · cases h
  · exact cause_of_readBraces h
  · cases h

theorem cause_of_checkAfterBounds {s : List Char} {r : Refusal}
    (h : checkAfterBounds s = .error r) : r.cause ≠ .invalid .trailingBackslash := by
  unfold checkAfterBounds at h
  split at h
  · rw [← Except.error.inj h]
    simp
  · rw [← Except.error.inj h]
    simp
  · rw [← Except.error.inj h]
    simp
  · rename_i rest
    cases hread : readBraces rest with
    | error r' =>
        obtain rfl : r' = r := by simpa [hread, bind, Except.bind] using h
        exact cause_of_readBraces hread
    | ok found =>
        rw [hread] at h
        cases found with
        | none => cases h
        | some found =>
            rw [← Except.error.inj h]
            simp
  · cases h

/-- Quantifiers are refused for causes of their own. -/
theorem cause_of_readQuantified {atom : Node} {s : List Char} {r : Refusal}
    (h : readQuantified atom s = .error r) : r.cause ≠ .invalid .trailingBackslash := by
  rw [readQuantified] at h
  cases hbounds : readBounds s with
  | error r' =>
      obtain rfl : r' = r := by simpa [hbounds, bind, Except.bind] using h
      exact cause_of_readBounds hbounds
  | ok found =>
      rw [hbounds] at h
      cases found with
      | none => cases h
      | some found =>
          obtain ⟨⟨min, max⟩, rest⟩ := found
          simp only [bind, Except.bind] at h
          split at h
          · rw [← Except.error.inj h]
            simp
          · cases hcheck : checkAfterBounds rest with
            | error r' =>
                obtain rfl : r' = r := by simpa [hcheck] using h
                exact cause_of_checkAfterBounds hcheck
            | ok _ => simp [hcheck, pure, Except.pure] at h

/-- A backslash is no part of a quantifier, so that what stands before it decides. -/
theorem atBackslash_readQuantified (atom : Node) (w : List Char) :
    AtBackslash Node.characters (readQuantified atom) w := by
  have hstarts : ∀ v after, StartsQuantifier (v ++ '\\' :: after) ↔ StartsQuantifier v :=
    fun v after => startsQuantifier_append_iff (by decide)
  cases hread : readQuantified atom (w ++ ['\\']) with
  | error r => exact .of_error hread (cause_of_readQuantified hread)
  | ok read =>
      obtain ⟨node, rest⟩ := read
      rcases readQuantified_cases hread with
        ⟨hnone, -, -⟩ | ⟨min, max, hbounds, hanchor, hcheck, -⟩
      · rw [readBounds_eq_none_iff, hstarts] at hnone
        exact .stops atom w fun after =>
          readQuantified_of_not_startsQuantifier fun h => hnone ((hstarts w after).1 h)
      · obtain ⟨q, hq, hform, hallowed⟩ := form_of_readBounds hbounds
        have hprefix : q <+: w := by
          refine prefix_of_prefix_append_cons ?_ ⟨rest, hq.symm⟩
          intro hmem
          exact absurd (hform.forall_mem _ hmem) (by decide)
        obtain ⟨w', rfl⟩ := hprefix
        obtain rfl : w' ++ ['\\'] = rest := by simpa using hq
        rw [checkAfterBounds_eq_ok_iff, hstarts] at hcheck
        refine .stops (.repetition min max [atom]) w' fun after => ?_
        rw [List.append_assoc]
        exact readQuantified_of_form hanchor hform hallowed fun h => hcheck ((hstarts w' after).1 h)

/-- A quantifier names no character. -/
theorem goesOn_readQuantified (atom : Node) (s : List Char) :
    GoesOn Node.characters atom.characters s (readQuantified atom s) where
  suffix := leavesSuffix_readQuantified atom s
  names node rest h := by
    rcases readQuantified_cases h with ⟨-, rfl, -⟩ | ⟨min, max, -, -, -, rfl⟩
    · exact List.prefix_refl _
    · simp
  complete := by
    rintro rfl
    rw [readQuantified_of_not_startsQuantifier not_startsQuantifier_nil]
    simp [refuse]

/-! ## Groups and branches -/

/-- How a group opens does not depend on what stands behind a backslash. -/
theorem openGroup_append_backslash (levels : Nat) (w : List Char) :
    (∃ w', w'.length ≤ w.length ∧
      ∀ after, openGroup levels (w ++ '\\' :: after) = .ok (w' ++ '\\' :: after)) ∨
    ∃ r, r.cause ≠ .invalid .trailingBackslash ∧ openGroup levels (w ++ ['\\']) = .error r := by
  have hmark : ∀ after, (w ++ '\\' :: after).head? = some '?' ↔ w.head? = some '?' :=
    head?_append_backslash (by decide) w
  by_cases hopen : w.head? = some '?'
  · obtain ⟨v, rfl⟩ := List.head?_eq_some_iff.1 hopen
    cases v with
    | nil => exact .inr ⟨⟨.unsupported .extensionGroup, ['?', '\\']⟩, by simp, rfl⟩
    | cons d w =>
        by_cases hcolon : d = ':'
        · by_cases hlevels : levels = 0
          · refine .inr ⟨⟨.invalid .tooDeep, w ++ ['\\']⟩, by simp, ?_⟩
            simp [openGroup, hcolon, hlevels, refuse]
          · refine .inl ⟨w, by simp; omega, fun after => ?_⟩
            simp [openGroup, hcolon, hlevels]
        · refine .inr ⟨⟨.unsupported .extensionGroup, '?' :: d :: w ++ ['\\']⟩, by simp, ?_⟩
          simp [openGroup, hcolon, leaveOut]
  · by_cases hlevels : levels = 0
    · refine .inr ⟨⟨.invalid .tooDeep, w ++ ['\\']⟩, by simp, ?_⟩
      simp only [openGroup, hmark, hopen, false_and, if_false, if_pos hlevels]
      rfl
    · refine .inl ⟨w, Nat.le_refl _, fun after => ?_⟩
      simp only [openGroup, hmark, hopen, false_and, if_false, if_neg hlevels]

namespace Unfueled

theorem goesOn_closeGroup (inside : Pattern × List Pattern) (s : List Char) :
    GoesOn Node.characters (branchCharacters inside) s (closeGroup inside s) := by
  rw [closeGroup.eq_def]
  split
  · rename_i rest
    refine ⟨List.suffix_cons _ _, fun node t h => ?_, fun h => absurd h (List.cons_ne_nil _ _)⟩
    obtain ⟨rfl, -⟩ := Prod.mk.inj (Except.ok.inj h)
    simp
  · exact goesOn_refuse (by simp)

theorem atBackslash_closeGroup (inside : Pattern × List Pattern) (w : List Char) :
    AtBackslash Node.characters (closeGroup inside) w := by
  cases w with
  | nil => exact .of_error (r := ⟨.invalid .missingClose, ['\\']⟩) rfl (by simp)
  | cons c w =>
      by_cases hc : c = ')'
      · rw [hc]
        exact .stops (.group (Pattern.ofBranches inside.1 inside.2)) w fun _ => rfl
      · have hread : closeGroup inside (c :: w ++ ['\\']) =
            refuse .missingClose (c :: w ++ ['\\']) := by
          simp [closeGroup, hc]
        exact .of_error hread (by simp)

theorem goesOn_behindNode (levels : Nat) (node : Node) (s : List Char) :
    GoesOn branchCharacters node.characters s (behindNode branches levels node s) := by
  have hlater : GoesOn branchCharacters [] s (branches levels s) :=
    .start (leavesSuffix_branches levels) (by simp [refuse]) s
  refine hlater.map (fun read => (node :: read.1, read.2)) fun read _ => ?_
  simp [branchCharacters]

theorem goesOn_behindAtom (levels : Nat) (atom : Node) (s : List Char) :
    GoesOn branchCharacters atom.characters s (behindAtom branches levels atom s) := by
  refine (goesOn_readQuantified atom s).bind fun node rest hnode => ?_
  have hbehind := goesOn_behindNode levels node rest
  exact ⟨hbehind.suffix, fun a t h => hnode.trans (hbehind.names a t h), hbehind.complete⟩

/-- What stands before the backslash behind an atom or a node is shorter than the whole. -/
theorem atBackslash_behindAtom {levels : Nat} {w : List Char}
    (h : ∀ w', w'.length ≤ w.length → AtBackslash branchCharacters (branches levels) w')
    (atom : Node) : AtBackslash branchCharacters (behindAtom branches levels atom) w := by
  refine (atBackslash_readQuantified atom w).bind [] (fun node s => goesOn_behindNode levels node s)
    fun node w' hread => ?_
  have hlength : w'.length ≤ w.length := by
    simpa using ((leavesSuffix_readQuantified atom _).of_eq_ok (hread [])).length_le
  refine (h w' hlength).map node.characters (fun read => (node :: read.1, read.2)) fun read => ?_
  simp [branchCharacters]

theorem atBackslash_atom {c : Char} {w : List Char}
    (h : ∀ levels w', w'.length ≤ w.length → AtBackslash branchCharacters (branches levels) w')
    (levels : Nat) : AtBackslash Node.characters (atom branches levels c) w := by
  by_cases hgroup : c = '('
  · rcases openGroup_append_backslash levels w with ⟨w', hlength, hopen⟩ | ⟨r, hr, hopen⟩
    · have hinside : AtBackslash Node.characters (fun s => branches (levels - 1) s >>=
          fun read => closeGroup read.1 read.2) w' :=
        (h (levels - 1) w' hlength).bind [] (fun inside s => goesOn_closeGroup inside s)
          fun inside t _ => atBackslash_closeGroup inside t
      refine hinside.of_eq fun after => ?_
      rw [atom, if_pos hgroup, hopen after]
      rfl
    · refine .of_error (r := r) ?_ hr
      rw [atom, if_pos hgroup, hopen]
      rfl
  · refine (atBackslash_readAtom c w).of_eq fun after => ?_
    rw [atom, if_neg hgroup]

/-- By induction on the length of what stands before the backslash. -/
theorem atBackslash_branches (levels : Nat) (w : List Char) :
    AtBackslash branchCharacters (branches levels) w := by
  cases w with
  | nil =>
      refine .reads (fun c rest => behindAtom branches levels (.literal c) rest) 0 ?_ ?_ ?_
      · exact fun c rest => (goesOn_behindAtom levels (.literal c) rest).suffix
      · intro c rest a t h
        obtain ⟨more, hmore⟩ := (goesOn_behindAtom levels (.literal c) rest).names a t h
        simp [← hmore]
      · intro after
        rw [List.nil_append, branches_cons, step, if_neg (by decide), if_neg (by decide), atom,
          if_neg (by decide), readAtom, if_neg (by decide), if_pos rfl, bind_assoc]
        rfl
  | cons c w =>
      have hshorter : ∀ levels w', w'.length ≤ w.length →
          AtBackslash branchCharacters (branches levels) w' :=
        fun levels w' _ => atBackslash_branches levels w'
      by_cases hclose : c = ')'
      · refine .stops ([], []) (c :: w) fun after => ?_
        rw [List.cons_append, branches_cons, step, if_pos hclose]
      · by_cases hbar : c = '|'
        · refine ((hshorter levels w (Nat.le_refl _)).map []
            (fun read => ([], read.1 :: read.2)) fun read => ?_).of_eq fun after => ?_
          · simp [branchCharacters]
          · rw [List.cons_append, branches_cons, step, if_neg hclose, if_pos hbar]
        · have hatom : AtBackslash branchCharacters (fun s => atom branches levels c s >>=
              fun read => behindAtom branches levels read.1 read.2) w := by
            refine (atBackslash_atom hshorter levels).bind []
              (fun atom s => goesOn_behindAtom levels atom s) fun node w' hread => ?_
            have hlength : w'.length ≤ w.length := by
              simpa using (suffix_of_atom leavesSuffix_branches (hread [])).length_le
            exact atBackslash_behindAtom (fun v hv => hshorter levels v (Nat.le_trans hv hlength)) node
          refine hatom.of_eq fun after => ?_
          rw [List.cons_append, branches_cons, step, if_neg hclose, if_neg hbar]
termination_by w.length

end Unfueled

/-! ## Whole texts -/

namespace Unfueled

/-- The end of a text behind its branches. -/
def atEnd (read : (Pattern × List Pattern) × List Char) : Except Refusal Pattern :=
  if read.2.isEmpty then pure (Pattern.ofBranches read.1.1 read.1.2)
  else refuse .unbalancedClose read.2

theorem unread_of_atEnd {read : (Pattern × List Pattern) × List Char} {r : Refusal}
    (h : atEnd read = .error r) : r.unread = read.2 := by
  rw [atEnd] at h
  split at h
  · cases h
  · rw [← Except.error.inj h]

theorem characters_of_atEnd {read : (Pattern × List Pattern) × List Char} {p : Pattern}
    (h : atEnd read = .ok p) : Pattern.characters p = branchCharacters read.1 := by
  rw [atEnd] at h
  split at h
  · rw [← Except.ok.inj h, Pattern.characters_ofBranches]
  · cases h

theorem ofChars_eq {s : List Char} (h : s.length ≤ maxPatternLength) :
    Pattern.ofChars s = branches maxGroupDepth s >>= atEnd := by
  rw [Pattern.ofChars, if_neg (Nat.not_lt.2 h)]
  rfl

end Unfueled

namespace Pattern

/-- An escape is read behind a text: when nothing but a backslash follows it, what is missing is
what the backslash stands before. -/
def EscapeFollows (before : List Char) : Prop :=
  ofChars (before ++ ['\\']) = refuse .trailingBackslash []

/-- How reading goes on behind an escape: it is refused for what stands behind the escape, or the
tree that is read names the character of the escape at a certain place. -/
structure GoesOnBehind (goOn : Char → List Char → Except Refusal Pattern) (place : Nat) : Prop where
  unread : ∀ c rest r, goOn c rest = .error r → r.unread <:+ rest
  named : ∀ c rest p, goOn c rest = .ok p → (characters p)[place]? = some c

variable {before : List Char}

theorem EscapeFollows.length_lt (h : EscapeFollows before) :
    before.length < maxPatternLength := by
  rw [← Nat.not_le]
  intro hlong
  rw [EscapeFollows, ofChars, if_pos (by simp; omega)] at h
  simp [refuse] at h

/-- Reading goes on behind an escape with nothing but its character. -/
theorem EscapeFollows.exists_goOn (h : EscapeFollows before) :
    ∃ goOn place, GoesOnBehind goOn place ∧
      ∀ after, (before ++ '\\' :: after).length ≤ maxPatternLength →
        ofChars (before ++ '\\' :: after) =
          readEscape after >>= fun read => goOn read.1 read.2 := by
  have hlength := h.length_lt
  rw [EscapeFollows, Unfueled.ofChars_eq (by simp; omega)] at h
  cases Unfueled.atBackslash_branches maxGroupDepth before with
  | stops a w hstops =>
      rw [hstops []] at h
      simp [Unfueled.atEnd, bind, Except.bind, refuse] at h
  | reads goOn place hsuffix hplace hreads =>
      refine ⟨fun c rest => goOn c rest >>= Unfueled.atEnd, place, ⟨?_, ?_⟩, ?_⟩
      · intro c rest r hr
        cases hgoOn : goOn c rest with
        | error r' =>
            have hunread := hsuffix c rest
            rw [hgoOn] at hr hunread
            rw [← Except.error.inj hr]
            exact hunread
        | ok read =>
            rw [hgoOn] at hr
            rw [Unfueled.unread_of_atEnd hr]
            exact (hsuffix c rest).of_eq_ok hgoOn
      · intro c rest p hp
        obtain ⟨⟨branches, t⟩, hgoOn, hp⟩ := bind_eq_ok_iff.1 hp
        rw [Unfueled.characters_of_atEnd hp]
        exact hplace c rest branches t hgoOn
      · intro after hafter
        rw [Unfueled.ofChars_eq hafter, hreads after, bind_assoc]
  | passes hrefused hread =>
      cases hbranches : Unfueled.branches maxGroupDepth (before ++ ['\\']) with
      | error r =>
          rw [hbranches] at h hrefused
          exact absurd (congrArg Except.error (Except.error.inj h)) hrefused
      | ok read =>
          obtain ⟨⟨branch, more⟩, rest⟩ := read
          obtain rfl := hread _ _ hbranches
          rw [hbranches] at h
          cases h

/-- **Where an escape is read.** This is so exactly if reading the whole text is, whatever follows,
reading an escape behind the backslash and going on with its character. -/
theorem escapeFollows_iff : EscapeFollows before ↔ before.length < maxPatternLength ∧
    ∃ goOn place, GoesOnBehind goOn place ∧
      ∀ after, (before ++ '\\' :: after).length ≤ maxPatternLength →
        ofChars (before ++ '\\' :: after) =
          readEscape after >>= fun read => goOn read.1 read.2 := by
  refine ⟨fun h => ⟨h.length_lt, h.exists_goOn⟩, ?_⟩
  rintro ⟨hlength, goOn, place, -, hreads⟩
  exact hreads [] (by simp; omega)

example : EscapeFollows "(a|".toList ∧ EscapeFollows "[]".toList ∧ EscapeFollows "[+-".toList ∧
    ¬ EscapeFollows "[\\".toList :=
  ⟨rfl, rfl, rfl, nofun⟩

end Pattern

end Guided
