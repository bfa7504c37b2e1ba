import Guided.Proofs.Cache.Key
import Guided.Proofs.Query.Binding
import Guided.Proofs.Value.Arranged
import Guided.Request.Scheduler

/-!
# Keys of calls

Arguments that may list the fields of their records in any order are keyed once their fields
are in order. Two calls then have the same key exactly if they have the same source and alike
arguments. Keys from an outline are none of these: an outline has no separator in it either,
so what stands behind the last separator begins with a mark that begins no JSON.

Values that have been read have their fields in order already, and binding a call keeps them in
order, so that jobs can be keyed by what is bound as it is.

## Main definitions

* `InlineCall.InOrder`: all values that a call can bind have their fields in order.

## Main statements

* `KeyedArgs.separator_not_mem_outlineChars`: outlines have no separator in them.
* `Value.head?_chars_ne`: no JSON begins like an outline's mark.
* `CacheKey.eq_iff_same_call`: what it means that two keys are equal.
* `InlineCall.ordered_captures`: binding keeps fields in order.
* `Job.cacheKey_eq_iff_alike`: when the jobs of two calls share a key.
-/
namespace Guided

/-! ## Outlines -/

section Outlines

theorem digitChar_ne_separator {n : Nat} (h : n < 16) : Nat.digitChar n ≠ keySeparator := by
  have hdigit : ∀ m < 16, Nat.digitChar m ≠ keySeparator := by decide
  exact hdigit n h

/-- Digits are no separators, whatever the base up to sixteen. -/
theorem separator_not_mem_toDigits {base : Nat} (hbase : 1 < base) (hmost : base ≤ 16) (n : Nat) :
    keySeparator ∉ Nat.toDigits base n := by
  induction n using Nat.strong_induction_on with
  | _ n ih =>
      rw [Nat.toDigits_eq_if hbase]
      split
      · rename_i hsmall
        simpa using (digitChar_ne_separator (hsmall.trans_le hmost)).symm
      · rename_i hlarge
        have hfewer : n / base < n := Nat.div_lt_self (by omega) hbase
        have hlast : n % base < 16 := (Nat.mod_lt n (by omega)).trans_le hmost
        simp only [List.mem_append, List.mem_singleton, not_or]
        exact ⟨ih _ hfewer, (digitChar_ne_separator hlast).symm⟩

theorem separator_not_mem_quotedChar (c : Char) : keySeparator ∉ quotedChar c := by
  have hdigits : keySeparator ∉ hexChars c.toNat :=
    separator_not_mem_toDigits (by decide) (by decide) _
  rw [quotedChar]
  split_ifs with hnul
  all_goals try decide
  · simpa [keySeparator] using Ne.symm hnul
  · simpa [keySeparator] using hdigits

/-- Quoting writes the separator by its escape. -/
theorem separator_not_mem_quotedChars (s : List Char) : keySeparator ∉ quotedChars s := by
  simp only [quotedChars, List.cons_append, List.mem_cons, List.mem_append, List.mem_flatMap,
    List.not_mem_nil, or_false, not_or, not_exists, not_and]
  exact ⟨by decide, fun c _ => separator_not_mem_quotedChar c, by decide⟩

theorem separator_not_mem_bracketed {opening closing : Char} {parts : List (List Char)}
    (hopening : opening ≠ keySeparator) (hclosing : closing ≠ keySeparator)
    (h : ∀ part ∈ parts, keySeparator ∉ part) :
    keySeparator ∉ bracketed opening closing parts := by
  have hparts : keySeparator ∉ (parts.intersperse [',', ' ']).flatten := by
    induction parts with
    | nil => simp
    | cons part parts ih =>
        rw [List.forall_mem_cons] at h
        cases parts with
        | nil => simpa using h.1
        | cons next parts =>
            rw [List.intersperse_cons_cons, List.flatten_cons, List.flatten_cons]
            simp only [List.mem_append, not_or]
            exact ⟨h.1, by decide, ih h.2⟩
  simp only [bracketed, List.cons_append, List.mem_cons, List.mem_append, List.not_mem_nil,
    or_false, not_or]
  exact ⟨hopening.symm, hparts, hclosing.symm⟩

end Outlines

namespace Value

theorem separator_not_mem_chars (v : Value) : keySeparator ∉ v.chars := fun hmem =>
  absurd (v.forall_mem_chars _ hmem) (by decide)

mutual

/-- The outline of a value has no separator in it. -/
theorem separator_not_mem_outlineChars : ∀ v : Value, keySeparator ∉ v.outlineChars
  | .null => by decide +kernel
  | .bool true => by decide +kernel
  | .bool false => by decide +kernel
  | .number n => by
      have hchars := separator_not_mem_chars (.number n)
      rw [chars] at hchars
      change keySeparator ∉ "Number(".toList ++ n.chars ++ [')']
      simp only [List.mem_append, not_or]
      exact ⟨⟨by decide +kernel, hchars⟩, by decide⟩
  | .string s => by
      change keySeparator ∉ "String(".toList ++ quotedChars s.toList ++ [')']
      simp only [List.mem_append, not_or]
      exact ⟨⟨by decide +kernel, separator_not_mem_quotedChars _⟩, by decide⟩
  | .array items => by
      change keySeparator ∉ "Array ".toList ++ bracketed '[' ']' (outlineItems items)
      rw [List.mem_append, not_or]
      exact ⟨by decide +kernel, separator_not_mem_bracketed (by decide) (by decide)
        (separator_not_mem_outlineItems items)⟩
  | .object fields => by
      change keySeparator ∉ "Object ".toList ++ bracketed '\x7b' '\x7d' (outlineFields fields)
      rw [List.mem_append, not_or]
      exact ⟨by decide +kernel, separator_not_mem_bracketed (by decide) (by decide)
        (separator_not_mem_outlineFields fields)⟩

theorem separator_not_mem_outlineItems : ∀ items : List Value,
    ∀ part ∈ outlineItems items, keySeparator ∉ part
  | [] => by simp [outlineItems]
  | item :: rest => List.forall_mem_cons.2
      ⟨separator_not_mem_outlineChars item, separator_not_mem_outlineItems rest⟩

theorem separator_not_mem_outlineFields : ∀ fields : List (String × Value),
    ∀ part ∈ outlineFields fields, keySeparator ∉ part
  | [] => by simp [outlineFields]
  | (name, value) :: rest => by
      refine List.forall_mem_cons.2 ⟨?_, separator_not_mem_outlineFields rest⟩
      simp only [List.mem_append, List.mem_cons, not_or]
      exact ⟨separator_not_mem_quotedChars _, by decide, by decide,
        separator_not_mem_outlineChars value⟩

end

/-! ## How JSON begins -/

/-- No JSON begins with the letter that an outline's mark begins with. -/
theorem head?_chars_ne (v : Value) : v.chars.head? ≠ some 'd' := by
  cases v with
  | null => decide
  | bool b => cases b <;> decide
  | number n =>
      intro hhead
      have hwhole := n.written_written.whole
      rw [chars, ← n.chars_written, NumberText.chars, NumberText.signChars] at hhead
      obtain ⟨c, digits, hdigits⟩ := List.exists_cons_of_ne_nil hwhole.1
      have hc : c.isDigit = true := hwhole.2 c (by simp [hdigits])
      rw [hdigits] at hhead
      split at hhead
      · simp at hhead
      · obtain rfl : c = 'd' := by simpa using hhead
        exact absurd hc (by decide)
  | string s => simp [chars, jsonStringChars]
  | array items => simp [chars]
  | object fields => simp [chars]

end Value

/-- Outlines have no separator in them. -/
theorem KeyedArgs.separator_not_mem_outlineChars (args : KeyedArgs) :
    keySeparator ∉ args.outlineChars := by
  cases args with
  | value v => exact v.separator_not_mem_outlineChars
  | byteNamed entries =>
      refine separator_not_mem_bracketed (by decide) (by decide) ?_
      rw [List.forall_mem_map]
      intro e _
      have hname : keySeparator ∉ byteNameChars e.1 := by
        refine separator_not_mem_bracketed (by decide) (by decide) ?_
        rw [List.forall_mem_map]
        exact fun byte _ => separator_not_mem_toDigits (by decide) (by decide) byte
      simp only [List.mem_append, List.mem_cons, not_or]
      exact ⟨hname, by decide, by decide, e.2.separator_not_mem_outlineChars⟩

/-! ## Keys -/

namespace CacheKey

/-- A key from JSON is no key from an outline. -/
theorem ofArgs_ne_ofOutline (source source' : String) (v : Value) (args : KeyedArgs) :
    ofArgs source v ≠ ofOutline source' args.outlineChars := by
  intro heq
  have hmarked : keySeparator ∉ "debug:".toList ++ args.outlineChars := by
    simp only [List.mem_append, not_or]
    exact ⟨by decide +kernel, args.separator_not_mem_outlineChars⟩
  obtain ⟨-, hchars⟩ := ofRendered_injective v.separator_not_mem_chars hmarked heq
  apply v.head?_chars_ne
  rw [hchars]
  rfl

/-- Arguments that have been put in order share a key if they are alike and of one source. -/
theorem ofArgs_arranged_eq_iff {source source' : String} {args args' : Value} :
    ofArgs source args.arranged = ofArgs source' args'.arranged ↔
      source = source' ∧ args.Alike args' := by
  constructor
  · intro heq
    obtain ⟨hsource, hargs⟩ := ofArgs_injective heq
    exact ⟨hsource, Value.arranged_eq_iff.1 hargs⟩
  · rintro ⟨rfl, halike⟩
    rw [halike.arranged_eq]

/-- **When two calls share a key.** Calls with JSON arguments do so exactly if they have the
same source and alike arguments, whatever characters are in the source; numbers are the same
if they are integers of the same value or fractions of the same digits and sign. No call with
JSON arguments has the key of a call that is known by its outline. -/
theorem eq_iff_same_call (source source' : String) (args args' : Value) :
    (ofArgs source args.arranged = ofArgs source' args'.arranged ↔
      source = source' ∧ args.Alike args') ∧
    ∀ entries, ofArgs source args.arranged ≠
      ofOutline source' (KeyedArgs.ofByteNamed entries).outlineChars := by
  refine ⟨ofArgs_arranged_eq_iff, fun entries => ?_⟩
  exact ofArgs_ne_ofOutline source source' args.arranged (.ofByteNamed entries)

/-- Arguments with their fields in order can be keyed as they are. -/
theorem ofArgs_eq_iff_of_ordered {source source' : String} {args args' : Value}
    (h : args.Ordered) (h' : args'.Ordered) :
    ofArgs source args = ofArgs source' args' ↔ source = source' ∧ args.Alike args' := by
  rw [← ofArgs_arranged_eq_iff, h.arranged_eq, h'.arranged_eq]

/-- Texts of arguments have the same key with a source if what is read from them is alike. -/
theorem ofArgs_eq_iff_of_parse? {source source' text text' : String} {args args' : Value}
    (h : Value.parse? text = some args) (h' : Value.parse? text' = some args') :
    ofArgs source args = ofArgs source' args' ↔ source = source' ∧ args.Alike args' :=
  ofArgs_eq_iff_of_ordered (Value.ordered_of_parse? h) (Value.ordered_of_parse? h')

end CacheKey

/-! ## Jobs of calls -/

section Jobs

variable {W : Type} {query : Query W} {args : List Argument} {caller : CallerScope}
  {call call' : InlineCall W}

/-- The values that are passed to a call, and all values that are visible where it is made or
where its query was defined, have their fields in order. -/
structure InlineCall.InOrder (query : Query W) (args : List Argument) (caller : CallerScope) :
    Prop where
  passed : ∀ v, .value v ∈ args → v.Ordered
  visible : ∀ symbols ∈ query.visible caller, ∀ e ∈ symbols, e.2.Ordered

namespace InlineCall.InOrder

theorem ordered_of_resolve (h : InOrder query args caller) {name : String} {v : Value}
    (hv : (query.visible caller).resolve name = some v) : v.Ordered := by
  obtain ⟨symbols, hsymbols, hfound⟩ := List.exists_of_findSome?_eq_some hv
  exact h.visible symbols hsymbols (name, v) (Fields.mem_of_find? hfound)

theorem ordered_of_lookup (h : InOrder query args caller) {name : String} {v : Value}
    (hv : caller.lookup name = some v) : v.Ordered := by
  rcases Option.or_eq_some_iff.1 hv with hlocal | ⟨-, hglobal⟩
  · exact h.visible caller.locals (by simp [Query.visible]) (name, v) (Fields.mem_of_find? hlocal)
  · exact h.visible caller.globals (by simp [Query.visible]) (name, v) (Fields.mem_of_find? hglobal)

/-- Whatever a name is bound to has its fields in order. -/
theorem ordered_of_boundValue? {x : String} {arguments : List Argument}
    (h : InOrder query (.reference x :: arguments) caller) {name : String} {v : Value}
    (hv : boundValue? query arguments caller name = some v) : v.Ordered := by
  rw [boundValue?] at hv
  split at hv
  · obtain ⟨argument, hlast, hvalue⟩ := Option.bind_eq_some_iff.1 hv
    have hmem : argument ∈ arguments := (List.of_mem_zip (Fields.mem_of_last? hlast)).2
    cases argument with
    | reference name => exact h.ordered_of_lookup hvalue
    | value w =>
        obtain rfl := Option.some.inj hvalue
        exact h.passed w (List.mem_cons_of_mem _ hmem)
  · split at hv
    · exact h.ordered_of_resolve hv
    · cases hv

end InlineCall.InOrder

/-- Binding keeps fields in order, and puts the bindings themselves in order. -/
theorem InlineCall.ordered_captures (h : InOrder query args caller)
    (hbind : InlineCall.bind query args caller = .ok call) :
    (Value.object call.captures).Ordered := by
  rcases InlineCall.bind_cases query args caller with
    ⟨x, arguments, captures, rfl, -, hsorted, hfind, hbound⟩ | ⟨-, fault, hfault⟩
  · rw [hbind] at hbound
    split at hbound
    · obtain rfl := Except.ok.inj hbound
      refine ⟨hsorted, Value.orderedFields_iff.2 fun e he => ?_⟩
      have hvalue : boundValue? query arguments caller e.1 = some e.2 := by
        rw [← hfind]
        exact hsorted.find?_of_mem he
      exact h.ordered_of_boundValue? hvalue
    · cases hbound
  · rw [hbind] at hfault
    cases hfault

/-- **When the jobs of two calls share a key.** If all values in reach have their fields in order,
as those that were read have, the bindings of a call are keyed as they are. The jobs of two calls
then have the same key exactly if their queries have the same source and their bindings are
alike. -/
theorem Job.cacheKey_eq_iff_alike {query' : Query W} {args' : List Argument}
    {caller' : CallerScope} (h : InlineCall.InOrder query args caller)
    (h' : InlineCall.InOrder query' args' caller')
    (hbind : InlineCall.bind query args caller = .ok call)
    (hbind' : InlineCall.bind query' args' caller' = .ok call') (key key' : CallKey)
    (ticket ticket' : Nat) :
    (⟨key, ticket, call.query, call.captures⟩ : Job W).cacheKey =
        (⟨key', ticket', call'.query, call'.captures⟩ : Job W).cacheKey ↔
      call.query.source = call'.query.source ∧
        (Value.object call.captures).Alike (.object call'.captures) :=
  CacheKey.ofArgs_eq_iff_of_ordered (InlineCall.ordered_captures h hbind)
    (InlineCall.ordered_captures h' hbind')

end Jobs

end Guided
