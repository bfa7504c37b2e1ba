import Guided.Json.Reader
import Guided.Proofs.Pattern.Grammar
import Guided.Value.Printer

/-!
# Written JSON is read back

A tree can be written without blanks, in the spelling that values are printed in. The reader
gets the same tree back, whatever follows the text, as long as it does not go on with a number.

## Main definitions

* `NumberText.chars`, `JsonTree.chars`: trees as text.
* `NumberText.Written`, `JsonTree.Written`: the trees that have a text.

## Main statements

* `JsonTree.readString_jsonStringChars`, `JsonTree.readNumber_chars`, `JsonTree.readValue_chars`:
  the readers give back what was written.
* `JsonTree.parse_chars`: so does the reader of whole texts.
-/
namespace Guided

namespace JsonTree

/-! ## Strings -/

/-- How a character of a string is read back: most control characters are written as units. -/
def pieceOf (c : Char) : StringPiece :=
  if c ∈ ['"', '\\', '\x08', '\x0c', '\n', '\r', '\t'] ∨ 0x20 ≤ c.toNat then .char c
  else .unit c.toNat

theorem hexUnit?_hexDigitChar {n : Nat} (h : n < 0x20) :
    hexUnit? '0' '0' (hexDigitChar (n / 16)) (hexDigitChar (n % 16)) = some n := by
  revert h
  revert n
  decide

theorem readPieces_jsonEscaped (c : Char) (s : List Char) :
    readPieces (jsonEscaped c ++ s) =
      (readPieces s).map fun (pieces, rest) => (pieceOf c :: pieces, rest) := by
  by_cases hcommon : c ∈ ['"', '\\', '\x08', '\x0c', '\n', '\r', '\t']
  · have hpiece : pieceOf c = .char c := if_pos (.inl hcommon)
    rw [hpiece]
    simp only [List.mem_cons, List.not_mem_nil, or_false] at hcommon
    rcases hcommon with rfl | rfl | rfl | rfl | rfl | rfl | rfl <;> cases hread : readPieces s <;>
      simp [jsonEscaped, readPieces, escapeOf?, hread]
  · simp only [List.mem_cons, List.not_mem_nil, or_false, not_or] at hcommon
    by_cases hcontrol : c.toNat < 0x20
    · have hpiece : pieceOf c = .unit c.toNat := by
        simp [pieceOf, hcommon, hcontrol]
      rw [hpiece]
      cases hread : readPieces s <;>
        simp [jsonEscaped, hcommon, hcontrol, readPieces, hexUnit?_hexDigitChar hcontrol, hread]
    · have hpiece : pieceOf c = .char c := if_pos (.inr (Nat.le_of_not_lt hcontrol))
      rw [hpiece, Option.map_eq_bind, jsonEscaped]
      simp only [hcommon, if_false, hcontrol, List.singleton_append]
      rw [readPieces.eq_def]
      simp only [hcommon, if_false, hcontrol]
      rfl

theorem readPieces_flatMap (s rest : List Char) :
    readPieces (s.flatMap jsonEscaped ++ '"' :: rest) = some (s.map pieceOf, rest) := by
  induction s with
  | nil =>
      rw [readPieces.eq_def]
      simp
  | cons c s ih =>
      rw [List.flatMap_cons, List.append_assoc, readPieces_jsonEscaped, ih]
      rfl

theorem joinPieces_map (s : List Char) : joinPieces (s.map pieceOf) = some s := by
  induction s with
  | nil => rfl
  | cons c s ih =>
      rw [List.map_cons, pieceOf]
      split
      · simp [joinPieces, ih]
      · rename_i hunit
        have hsmall : c.toNat < 0x20 := by
          simp only [not_or, Nat.not_le] at hunit
          exact hunit.2
        have hhigh : isHighSurrogate c.toNat = false := by simp [isHighSurrogate]; omega
        have hlow : isLowSurrogate c.toNat = false := by simp [isLowSurrogate]; omega
        rw [joinPieces.eq_def]
        simp [hhigh, hlow, ih]

/-- A written string is read back. -/
theorem readString_flatMap (s rest : List Char) :
    readString (s.flatMap jsonEscaped ++ '"' :: rest) = some (some s, rest) := by
  rw [readString, readPieces_flatMap]
  simp [joinPieces_map]

end JsonTree

/-! ## Numbers -/

namespace NumberText

/-- The text of a sign. -/
def signChars (negative : Bool) : List Char := if negative then ['-'] else []

/-- The text of a fraction, with its point. -/
def fractionChars : Option (List Char) → List Char
  | none => []
  | some digits => '.' :: digits

/-- The text of an exponent, which is written with its sign. -/
def exponentChars : Option (Bool × List Char) → List Char
  | none => []
  | some (negative, digits) => 'e' :: (if negative then '-' else '+') :: digits

/-- The text of a number. -/
def chars (t : NumberText) : List Char :=
  signChars t.negative ++ t.whole ++ fractionChars t.fraction ++ exponentChars t.exponent

/-- A number has a text if each of its parts has digits, and it does not begin with a zero that
is not needed. -/
structure Written (t : NumberText) : Prop where
  whole : IsNumeral t.whole
  leading : t.whole.head? = some '0' → t.whole = ['0']
  fraction : ∀ digits, t.fraction = some digits → IsNumeral digits
  exponent : ∀ e, t.exponent = some e → IsNumeral e.2

end NumberText

namespace JsonTree

/-- A text that does not go on with a number. -/
def Ends (s : List Char) : Prop :=
  ∀ c, s.head? = some c → c.isDigit = false ∧ c ∉ ['.', 'e', 'E']

variable {digits rest : List Char}

/-- Digits are read up to the end of their run. -/
theorem readDigits_append (h : IsNumeral digits)
    (hrest : ∀ c, rest.head? = some c → c.isDigit = false) :
    readDigits (digits ++ rest) = some (digits, rest) := by
  have htake : (digits ++ rest).takeWhile Char.isDigit = digits := by
    rw [List.takeWhile_append_of_pos h.2]
    cases rest with
    | nil => simp
    | cons c rest => simp [hrest c rfl]
  have hdrop : (digits ++ rest).dropWhile Char.isDigit = rest := by
    rw [List.dropWhile_append_of_pos h.2]
    cases rest with
    | nil => simp
    | cons c rest => simp [hrest c rfl]
  simp [readDigits, htake, hdrop, h.1]

theorem readWhole_append (h : IsNumeral digits)
    (hleading : digits.head? = some '0' → digits = ['0'])
    (hrest : ∀ c, rest.head? = some c → c.isDigit = false) :
    readWhole (digits ++ rest) = some (digits, rest) := by
  by_cases hzero : digits.head? = some '0'
  · obtain rfl := hleading hzero
    cases rest with
    | nil => rfl
    | cons c rest => simp [readWhole, hrest c rfl]
  · have hread : readWhole (digits ++ rest) = readDigits (digits ++ rest) := by
      cases digits with
      | nil => exact absurd rfl h.1
      | cons c digits =>
          have hc : c ≠ '0' := by simpa using hzero
          simp [readWhole, hc]
    rw [hread, readDigits_append h hrest]

theorem readFraction_append {fraction : Option (List Char)}
    (h : ∀ digits, fraction = some digits → IsNumeral digits)
    (hrest : ∀ c, rest.head? = some c → c.isDigit = false ∧ c ≠ '.') :
    readFraction (NumberText.fractionChars fraction ++ rest) = some (fraction, rest) := by
  cases fraction with
  | some digits =>
      simp [NumberText.fractionChars, readFraction,
        readDigits_append (h digits rfl) fun c hc => (hrest c hc).1]
  | none =>
      cases rest with
      | nil => rfl
      | cons c rest => simp [NumberText.fractionChars, readFraction, (hrest c rfl).2]

theorem readExponent_append {exponent : Option (Bool × List Char)}
    (h : ∀ e, exponent = some e → IsNumeral e.2) (hrest : Ends rest) :
    readExponent (NumberText.exponentChars exponent ++ rest) = some (exponent, rest) := by
  cases exponent with
  | some e =>
      obtain ⟨negative, digits⟩ := e
      have hread := readDigits_append (h _ rfl) fun c hc => (hrest c hc).1
      cases negative <;> simp [NumberText.exponentChars, readExponent, hread]
  | none =>
      cases rest with
      | nil => rfl
      | cons c rest =>
          have hc := (hrest c rfl).2
          simp only [List.mem_cons, List.not_mem_nil, or_false, not_or] at hc
          simp [NumberText.exponentChars, readExponent, hc]

theorem head?_exponentChars (exponent : Option (Bool × List Char)) (hrest : Ends rest) {c : Char}
    (hc : (NumberText.exponentChars exponent ++ rest).head? = some c) :
    c.isDigit = false ∧ c ≠ '.' := by
  cases exponent with
  | none =>
      obtain ⟨hdigit, hc⟩ := hrest c hc
      exact ⟨hdigit, fun heq => hc (by simp [heq])⟩
  | some e =>
      obtain rfl : 'e' = c := by simpa [NumberText.exponentChars] using hc
      decide

theorem head?_fractionChars (fraction : Option (List Char))
    (hrest : ∀ c, rest.head? = some c → c.isDigit = false ∧ c ≠ '.') {c : Char}
    (hc : (NumberText.fractionChars fraction ++ rest).head? = some c) : c.isDigit = false := by
  cases fraction with
  | none => exact (hrest c hc).1
  | some digits =>
      obtain rfl : '.' = c := by simpa [NumberText.fractionChars] using hc
      decide

/-- A written number is read back. -/
theorem readNumber_chars {t : NumberText} (h : t.Written) (hrest : Ends rest) :
    readNumber (t.chars ++ rest) = some (t, rest) := by
  obtain ⟨negative, whole, fraction, exponent⟩ := t
  have hexponent := readExponent_append h.exponent hrest
  have hafter := fun c => head?_exponentChars (c := c) exponent hrest
  have hfraction := readFraction_append h.fraction hafter
  have hwhole := readWhole_append h.whole h.leading fun c => head?_fractionChars fraction hafter
  cases negative with
  | true =>
      simp [readNumber, NumberText.chars, NumberText.signChars, hwhole, hfraction, hexponent]
  | false =>
      cases whole with
      | nil => exact absurd rfl h.whole.1
      | cons c whole =>
          have hc : c ≠ '-' := by
            rintro rfl
            exact absurd (h.whole.2 '-' List.mem_cons_self) (by decide)
          rw [List.cons_append] at hwhole
          simp [readNumber, NumberText.chars, NumberText.signChars, hc, hwhole, hfraction,
            hexponent]

/-! ## Values -/

mutual

/-- The text of a tree, without blanks. -/
def chars : JsonTree → List Char
  | .null => ['n', 'u', 'l', 'l']
  | .bool true => ['t', 'r', 'u', 'e']
  | .bool false => ['f', 'a', 'l', 's', 'e']
  | .number t => t.chars
  | .string s => jsonStringChars (s.getD "").toList
  | .array items => '[' :: itemsChars items ++ [']']
  | .object fields => '\x7b' :: fieldsChars fields ++ ['\x7d']

/-- Items separated by commas. -/
def itemsChars : List JsonTree → List Char
  | [] => []
  | [item] => item.chars
  | item :: more :: rest => item.chars ++ ',' :: itemsChars (more :: rest)

/-- Fields separated by commas. -/
def fieldsChars : List (Option String × JsonTree) → List Char
  | [] => []
  | [(name, value)] => jsonStringChars (name.getD "").toList ++ ':' :: value.chars
  | (name, value) :: more :: rest =>
      jsonStringChars (name.getD "").toList ++ ':' :: value.chars ++ ',' ::
        fieldsChars (more :: rest)

end

mutual

/-- A tree has a text if its numbers have one and the characters of its strings are whole. -/
def Written : JsonTree → Prop
  | .null | .bool _ => True
  | .number t => t.Written
  | .string s => s.isSome
  | .array items => WrittenItems items
  | .object fields => WrittenFields fields

/-- Every item has a text. -/
def WrittenItems : List JsonTree → Prop
  | [] => True
  | item :: rest => item.Written ∧ WrittenItems rest

/-- Every field has a text. -/
def WrittenFields : List (Option String × JsonTree) → Prop
  | [] => True
  | (name, value) :: rest => name.isSome ∧ value.Written ∧ WrittenFields rest

end

/-- The characters that tell values that are not numbers, and what stands around values. -/
def signal : List Char := ['"', '[', '\x7b', 'n', 't', 'f', ']', '\x7d', ' ', '\n', '\t', '\r']

theorem cons_of_written {t : NumberText} (h : t.Written) :
    ∃ c s, t.chars = c :: s ∧ c ∉ signal := by
  obtain ⟨negative, whole, fraction, exponent⟩ := t
  cases negative with
  | true => exact ⟨'-', _, rfl, by decide⟩
  | false =>
      cases whole with
      | nil => exact absurd rfl h.whole.1
      | cons c whole =>
          refine ⟨c, _, rfl, fun hc => ?_⟩
          have hdigit := h.whole.2 c List.mem_cons_self
          simp only [signal, List.mem_cons, List.not_mem_nil, or_false] at hc
          rcases hc with rfl | rfl | rfl | rfl | rfl | rfl | rfl | rfl | rfl | rfl | rfl | rfl <;>
            exact absurd hdigit (by decide)

/-- A text begins with something that is not skipped and does not close anything. -/
theorem cons_of_chars {tree : JsonTree} (h : tree.Written) :
    ∃ c s, tree.chars = c :: s ∧ isBlank c = false ∧ c ≠ ']' := by
  cases tree with
  | null | string | array | object => exact ⟨_, _, rfl, by decide, by decide⟩
  | bool b => cases b <;> exact ⟨_, _, rfl, by decide, by decide⟩
  | number t =>
      obtain ⟨c, s, hchars, hc⟩ := cons_of_written h
      refine ⟨c, s, hchars, ?_⟩
      simp only [signal, List.mem_cons, List.not_mem_nil, or_false, not_or] at hc
      simp [isBlank, hc]

theorem skipBlanks_cons {c : Char} (h : isBlank c = false) (s : List Char) :
    skipBlanks (c :: s) = c :: s := by
  simp [skipBlanks, h]

theorem readValue_number {t : NumberText} (h : t.Written) (fuel : Nat) (hrest : Ends rest) :
    readValue (fuel + 1) (t.chars ++ rest) = some (.number t, rest) := by
  have hread := readNumber_chars h hrest
  obtain ⟨c, s, hchars, hc⟩ := cons_of_written h
  simp only [signal, List.mem_cons, List.not_mem_nil, or_false, not_or] at hc
  have hblank : isBlank c = false := by simp [isBlank, hc]
  rw [hchars, List.cons_append] at hread ⊢
  simp [readValue, skipBlanks_cons hblank, hc, hread]

theorem readValue_string (text : String) (fuel : Nat) :
    readValue (fuel + 1) (jsonStringChars text.toList ++ rest) =
      some (.string (some text), rest) := by
  have hblank : isBlank '"' = false := by decide
  simp [readValue, jsonStringChars, skipBlanks_cons hblank, readString_flatMap]

/-! One step of each reader, given what the others read. -/

variable {s t : List Char} {fuel : Nat} {item : JsonTree} {items : List JsonTree}
  {fields : List (Option String × JsonTree)}

theorem readValue_array {c : Char} (hc : isBlank c = false ∧ c ≠ ']')
    (h : readItems fuel (c :: s) = some (items, rest)) :
    readValue (fuel + 1) ('[' :: c :: s) = some (.array items, rest) := by
  simp [readValue, skipBlanks_cons (c := '[') (by decide), skipBlanks_cons hc.1, hc.2, h]

theorem readValue_object
    (h : readFields fuel ('"' :: s) = some (fields, rest)) :
    readValue (fuel + 1) ('\x7b' :: '"' :: s) = some (.object fields, rest) := by
  simp [readValue, skipBlanks_cons (c := '\x7b') (by decide),
    skipBlanks_cons (c := '"') (by decide), h]

theorem readItems_last (h : readValue fuel s = some (item, ']' :: rest)) :
    readItems (fuel + 1) s = some ([item], rest) := by
  simp [readItems, h, skipBlanks_cons (c := ']') (by decide)]

theorem readItems_more (h : readValue fuel s = some (item, ',' :: t))
    (hitems : readItems fuel t = some (items, rest)) :
    readItems (fuel + 1) s = some (item :: items, rest) := by
  simp [readItems, h, skipBlanks_cons (c := ',') (by decide), hitems]

theorem readFields_last (name : String) (h : readValue fuel s = some (item, '\x7d' :: rest)) :
    readFields (fuel + 1) (jsonStringChars name.toList ++ ':' :: s) =
      some ([(some name, item)], rest) := by
  simp [readFields, jsonStringChars, h, skipBlanks_cons (c := '"') (by decide),
    skipBlanks_cons (c := ':') (by decide), skipBlanks_cons (c := '\x7d') (by decide),
    readString_flatMap]

theorem readFields_more (name : String) (h : readValue fuel s = some (item, ',' :: t))
    (hfields : readFields fuel t = some (fields, rest)) :
    readFields (fuel + 1) (jsonStringChars name.toList ++ ':' :: s) =
      some ((some name, item) :: fields, rest) := by
  simp [readFields, jsonStringChars, h, skipBlanks_cons (c := '"') (by decide),
    skipBlanks_cons (c := ':') (by decide), skipBlanks_cons (c := ',') (by decide),
    readString_flatMap, hfields]

theorem ends_cons {c : Char} (h : c ∈ [',', ']', '\x7d']) (s : List Char) : Ends (c :: s) := by
  intro d hd
  obtain rfl : c = d := by simpa using hd
  simp only [List.mem_cons, List.not_mem_nil, or_false] at h
  rcases h with rfl | rfl | rfl <;> decide

theorem cons_of_itemsChars (h : WrittenItems (item :: items)) :
    ∃ c s, itemsChars (item :: items) = c :: s ∧ isBlank c = false ∧ c ≠ ']' := by
  obtain ⟨c, s, hchars, hc⟩ := cons_of_chars h.1
  cases items with
  | nil => exact ⟨c, s, hchars, hc⟩
  | cons more items =>
      exact ⟨c, s ++ ',' :: itemsChars (more :: items), by rw [itemsChars, hchars]; rfl, hc⟩

theorem cons_of_fieldsChars (field : Option String × JsonTree)
    (fields : List (Option String × JsonTree)) : ∃ s, fieldsChars (field :: fields) = '"' :: s := by
  cases fields <;> exact ⟨_, rfl⟩

mutual

/-- **A written value is read back.** -/
theorem readValue_chars : ∀ (tree : JsonTree), tree.Written → ∀ fuel : Nat,
    2 * tree.chars.length ≤ fuel → ∀ rest : List Char, Ends rest →
      readValue fuel (tree.chars ++ rest) = some (tree, rest)
  | tree, h, 0, hfuel, rest, hrest => by
      obtain ⟨c, s, hchars, -⟩ := cons_of_chars h
      simp [hchars] at hfuel
  | .null, _, fuel + 1, _, rest, _ => by
      simp [chars, readValue, skipBlanks_cons (c := 'n') (by decide), dropWord]
  | .bool true, _, fuel + 1, _, rest, _ => by
      simp [chars, readValue, skipBlanks_cons (c := 't') (by decide), dropWord]
  | .bool false, _, fuel + 1, _, rest, _ => by
      simp [chars, readValue, skipBlanks_cons (c := 'f') (by decide), dropWord]
  | .number t, h, fuel + 1, _, rest, hrest => readValue_number h fuel hrest
  | .string (some text), _, fuel + 1, _, rest, _ => readValue_string text fuel
  | .array [], _, fuel + 1, _, rest, _ => by
      simp [chars, itemsChars, readValue, skipBlanks_cons (c := '[') (by decide),
        skipBlanks_cons (c := ']') (by decide)]
  | .array (item :: items), h, fuel + 1, hfuel, rest, _ => by
      have hitems := readItems_chars item items h fuel (by
        simp only [chars, List.length_cons, List.length_append] at hfuel
        omega) rest
      obtain ⟨c, s, hchars, hc⟩ := cons_of_itemsChars h
      rw [hchars] at hitems
      have hread := readValue_array hc hitems
      simpa [chars, hchars] using hread
  | .object [], _, fuel + 1, _, rest, _ => by
      simp [chars, fieldsChars, readValue, skipBlanks_cons (c := '\x7b') (by decide),
        skipBlanks_cons (c := '\x7d') (by decide)]
  | .object (field :: fields), h, fuel + 1, hfuel, rest, _ => by
      have hfields := readFields_chars field fields h fuel (by
        simp only [chars, List.length_cons, List.length_append] at hfuel
        omega) rest
      obtain ⟨s, hchars⟩ := cons_of_fieldsChars field fields
      rw [hchars] at hfields
      have hread := readValue_object hfields
      simpa [chars, hchars] using hread

/-- Written items are read back, up to their closing bracket. -/
theorem readItems_chars : ∀ (item : JsonTree) (items : List JsonTree),
    WrittenItems (item :: items) → ∀ fuel : Nat,
      2 * (itemsChars (item :: items)).length + 1 ≤ fuel → ∀ rest : List Char,
        readItems fuel (itemsChars (item :: items) ++ ']' :: rest) = some (item :: items, rest)
  | item, [], h, fuel + 1, hfuel, rest =>
      readItems_last (readValue_chars item h.1 fuel (by simpa [itemsChars] using hfuel) _
        (ends_cons (c := ']') (by decide) rest))
  | item, more :: items, h, fuel + 1, hfuel, rest => by
      rw [itemsChars, List.length_append, List.length_cons] at hfuel
      have hitem := readValue_chars item h.1 fuel (by omega) _
        (ends_cons (c := ',') (by decide) (itemsChars (more :: items) ++ ']' :: rest))
      have hitems := readItems_chars more items h.2 fuel (by omega) rest
      simpa [itemsChars] using readItems_more hitem hitems

/-- Written fields are read back, up to their closing brace. -/
theorem readFields_chars : ∀ (field : Option String × JsonTree)
    (fields : List (Option String × JsonTree)), WrittenFields (field :: fields) → ∀ fuel : Nat,
      2 * (fieldsChars (field :: fields)).length + 1 ≤ fuel → ∀ rest : List Char,
        readFields fuel (fieldsChars (field :: fields) ++ '\x7d' :: rest) =
          some (field :: fields, rest)
  | (some name, value), [], h, fuel + 1, hfuel, rest => by
      simp only [fieldsChars, List.length_append, List.length_cons] at hfuel
      have hvalue := readValue_chars value h.2.1 fuel (by omega) _
        (ends_cons (c := '\x7d') (by decide) rest)
      simpa [fieldsChars] using readFields_last name hvalue
  | (some name, value), more :: fields, h, fuel + 1, hfuel, rest => by
      simp only [fieldsChars, List.length_append, List.length_cons] at hfuel
      have hvalue := readValue_chars value h.2.1 fuel (by omega) _
        (ends_cons (c := ',') (by decide) (fieldsChars (more :: fields) ++ '\x7d' :: rest))
      have hfields := readFields_chars more fields h.2.2 fuel (by omega) rest
      simpa [fieldsChars] using readFields_more name hvalue hfields

end

/-- **A written text is read back.** -/
theorem ofChars_chars {tree : JsonTree} (h : tree.Written) : ofChars tree.chars = some tree := by
  have hread := readValue_chars tree h (2 * tree.chars.length + 2) (by omega) [] (by simp [Ends])
  rw [List.append_nil] at hread
  simp [ofChars, hread, skipBlanks]

theorem parse_chars {tree : JsonTree} (h : tree.Written) :
    parse (String.ofList tree.chars) = some tree := by
  rw [parse, String.toList_ofList, ofChars_chars h]

/-- Different trees have different texts. -/
theorem chars_injective {tree other : JsonTree} (h : tree.Written) (hother : other.Written)
    (heq : tree.chars = other.chars) : tree = other := by
  have hread := ofChars_chars h
  rw [heq, ofChars_chars hother] at hread
  exact (Option.some.inj hread).symm

end JsonTree

end Guided
