import Guided.Cache.Key
import Guided.Proofs.Value.Writing

/-!
# Cache keys tell calls apart

JSON without blanks has no control characters: strings escape them, and nothing else could hold
one. The separator of a cache key is a control character, so its last occurrence is where the
arguments begin, also when the source has it in it. Since different values have different texts,
two calls have the same key only if they have the same source and the same arguments.

## Main statements

* `Value.forall_mem_chars`: the text of a value has no control characters.
* `CacheKey.ofArgs_injective`: different calls have different keys.
-/
namespace Guided

/-! ## No control characters -/

theorem le_hexDigitChar (n : Nat) : 0x20 ≤ (hexDigitChar n).toNat := by
  have hdigit : ∀ m < 16, 0x20 ≤ (Nat.digitChar m).toNat := by decide
  exact hdigit _ (Nat.mod_lt n (by decide))

theorem forall_mem_jsonEscaped (c : Char) : ∀ d ∈ jsonEscaped c, 0x20 ≤ d.toNat := by
  rw [jsonEscaped]
  split_ifs with _ _ _ _ _ _ _ hcontrol
  all_goals simp [le_hexDigitChar]
  exact Nat.le_of_not_lt hcontrol

theorem forall_mem_jsonStringChars (s : List Char) : ∀ c ∈ jsonStringChars s, 0x20 ≤ c.toNat := by
  intro c hc
  simp only [jsonStringChars, List.cons_append, List.mem_cons, List.mem_append, List.mem_flatMap,
    List.not_mem_nil, or_false] at hc
  rcases hc with rfl | ⟨d, -, hc⟩ | rfl
  · decide
  · exact forall_mem_jsonEscaped d c hc
  · decide

theorem IsNumeral.forall_mem {digits : List Char} (h : IsNumeral digits) :
    ∀ c ∈ digits, 0x20 ≤ c.toNat := by
  intro c hc
  exact Nat.le_trans (by decide) (Char.isDigit_iff_toNat.1 (h.2 c hc)).1

/-- The text of a number has no control characters. -/
theorem NumberText.forall_mem_chars {t : NumberText} (h : t.Written) :
    ∀ c ∈ t.chars, 0x20 ≤ c.toNat := by
  have hfraction : ∀ c ∈ fractionChars t.fraction, 0x20 ≤ c.toNat := by
    cases hdigits : t.fraction with
    | none => simp [fractionChars]
    | some digits => exact List.forall_mem_cons.2 ⟨by decide, (h.fraction _ hdigits).forall_mem⟩
  have hexponent : ∀ c ∈ exponentChars t.exponent, 0x20 ≤ c.toNat := by
    cases he : t.exponent with
    | none => simp [exponentChars]
    | some e =>
        refine List.forall_mem_cons.2 ⟨by decide, List.forall_mem_cons.2 ⟨?_, ?_⟩⟩
        · cases e.1 <;> decide
        · exact (h.exponent _ he).forall_mem
  have hsign : ∀ c ∈ signChars t.negative, 0x20 ≤ c.toNat := by
    cases t.negative <;> simp [signChars]
  simp only [chars, List.forall_mem_append]
  exact ⟨⟨⟨hsign, h.whole.forall_mem⟩, hfraction⟩, hexponent⟩

namespace Value

mutual

/-- The text of a value has no control characters. -/
theorem forall_mem_chars : ∀ v : Value, ∀ c ∈ v.chars, 0x20 ≤ c.toNat
  | .null => by simp [chars]
  | .bool true => by simp [chars]
  | .bool false => by simp [chars]
  | .number n => by
      rw [chars, ← n.chars_written]
      exact NumberText.forall_mem_chars n.written_written
  | .string s => forall_mem_jsonStringChars s.toList
  | .array items => by
      simp only [chars, List.cons_append, List.forall_mem_cons, List.forall_mem_append]
      exact ⟨by decide, forall_mem_itemChars items, by decide, by simp⟩
  | .object fields => by
      simp only [chars, List.cons_append, List.forall_mem_cons, List.forall_mem_append]
      exact ⟨by decide, forall_mem_fieldChars fields, by decide, by simp⟩

theorem forall_mem_itemChars : ∀ items : List Value, ∀ c ∈ itemChars items, 0x20 ≤ c.toNat
  | [] => by simp [itemChars]
  | [item] => forall_mem_chars item
  | item :: more :: rest => by
      simp only [itemChars, List.forall_mem_cons, List.forall_mem_append]
      exact ⟨forall_mem_chars item, by decide, forall_mem_itemChars (more :: rest)⟩

theorem forall_mem_fieldChars : ∀ fields : List (String × Value),
    ∀ c ∈ fieldChars fields, 0x20 ≤ c.toNat
  | [] => by simp [fieldChars]
  | [(name, value)] => by
      simp only [fieldChars, List.forall_mem_cons, List.forall_mem_append]
      exact ⟨forall_mem_jsonStringChars _, by decide, forall_mem_chars value⟩
  | (name, value) :: more :: rest => by
      simp only [fieldChars, List.forall_mem_cons, List.forall_mem_append]
      exact ⟨⟨forall_mem_jsonStringChars _, by decide, forall_mem_chars value⟩, by decide,
        forall_mem_fieldChars (more :: rest)⟩

end

end Value

/-! ## Keys -/

namespace CacheKey

/-- The last separator is where the arguments begin. -/
theorem ofRendered_injective {source source' : String} {rendered rendered' : List Char}
    (h : keySeparator ∉ rendered) (h' : keySeparator ∉ rendered')
    (heq : ofRendered source rendered = ofRendered source' rendered') :
    source = source' ∧ rendered = rendered' := by
  have hlists : source.toList ++ keySeparator :: rendered =
      source'.toList ++ keySeparator :: rendered' := by
    simpa only [ofRendered, String.toList_ofList] using congrArg (·.text.toList) heq
  -- Where the texts before the separators differ, one of them goes on with a separator in what
  -- the other was applied to.
  rcases List.append_eq_append_iff.1 hlists with ⟨more, hsource, hrest⟩ | ⟨more, hsource, hrest⟩
  · cases more with
    | nil => exact ⟨String.toList_inj.1 (by simpa using hsource.symm), by simpa using hrest⟩
    | cons c more =>
        obtain ⟨-, hmem⟩ := List.cons.inj hrest
        exact absurd (hmem ▸ by simp) h
  · cases more with
    | nil => exact ⟨String.toList_inj.1 (by simpa using hsource), by simpa using hrest.symm⟩
    | cons c more =>
        obtain ⟨-, hmem⟩ := List.cons.inj hrest
        exact absurd (hmem ▸ by simp) h'

/-- **Different calls have different keys.** -/
theorem ofArgs_injective {source source' : String} {args args' : Value}
    (h : ofArgs source args = ofArgs source' args') : source = source' ∧ args = args' := by
  have hplain : ∀ v : Value, keySeparator ∉ v.chars := by
    intro v hmem
    exact absurd (v.forall_mem_chars _ hmem) (by decide)
  obtain ⟨hsource, hargs⟩ := ofRendered_injective (hplain args) (hplain args') h
  exact ⟨hsource, Value.chars_injective hargs⟩

end CacheKey

end Guided
