import Guided.Proofs.Value.Reading
import Guided.Stream.Client

/-!
# Written frames are read back

A frame of events is a JSON tree behind a command. The events that are read from it are those that
were written, with their log probabilities, as long as their numbers are in range and finite.

## Main definitions

* `TokenEvent.tree`: the tree that is written for an event.
* `TokenEvent.Sendable`: the events that frames can carry.

## Main statements

* `TokenEvent.ofTree?_tree`: an event is read back from its tree.
* `Client.eventsOf_tokens`: events are read back from their frame.
-/
namespace Guided

namespace JsonTree

/-! ## Lists and objects -/

theorem itemsChars_eq : ∀ items : List JsonTree,
    itemsChars items = ((items.map chars).intersperse [',']).flatten
  | [] => rfl
  | [_] => by simp [itemsChars]
  | item :: more :: rest => by
      rw [itemsChars, itemsChars_eq (more :: rest)]
      simp

theorem chars_array (items : List JsonTree) :
    (array items).chars = jsonItemsChars (items.map chars) := by
  rw [chars, itemsChars_eq, jsonItemsChars]

theorem fieldsChars_eq : ∀ fields : List (String × JsonTree),
    fieldsChars (fields.map fun f => (some f.1, f.2)) =
      ((fields.map fun f => jsonStringChars f.1.toList ++ ':' :: f.2.chars).intersperse
        [',']).flatten
  | [] => rfl
  | [_] => by simp [fieldsChars]
  | field :: more :: rest => by
      have hrest := fieldsChars_eq (more :: rest)
      rw [List.map_cons] at hrest
      rw [List.map_cons, List.map_cons, fieldsChars, hrest]
      simp

theorem chars_object (fields : List (String × JsonTree)) :
    (object (fields.map fun f => (some f.1, f.2))).chars =
      jsonFieldsChars (fields.map fun f => (f.1, f.2.chars)) := by
  rw [chars, fieldsChars_eq, jsonFieldsChars, List.map_map]
  rfl

theorem writtenItems_of_forall {items : List JsonTree} (h : ∀ item ∈ items, item.Written) :
    WrittenItems items := by
  induction items with
  | nil => trivial
  | cons item items ih =>
      exact ⟨h item List.mem_cons_self, ih fun other hmem => h other (List.mem_cons_of_mem _ hmem)⟩

/-! ## Parts -/

/-- The tree of an integer that is not negative. -/
def ofNat (n : ℕ) : JsonTree := number ⟨false, Nat.toDigits 10 n, none, none⟩

@[simp] theorem chars_ofNat (n : ℕ) : (ofNat n).chars = Nat.toDigits 10 n := by
  simp [ofNat, chars, NumberText.chars, NumberText.signChars, NumberText.fractionChars,
    NumberText.exponentChars]

theorem written_ofNat (n : ℕ) : (ofNat n).Written := written_toDigits false n

theorem word64?_ofNat {n : ℕ} (h : n < word64Bound) : (ofNat n).word64? = some n := by
  have hnumber : (ofNat n).number? = some (.integer n) := Number.ofText?_toDigits h
  simp [word64?, natBelow?, hnumber, h]

theorem word32?_ofNat {n : ℕ} (h : n < word32Bound) : (ofNat n).word32? = some n := by
  have hnumber : (ofNat n).number? = some (.integer n) :=
    Number.ofText?_toDigits (h.trans (by decide))
  simp [word32?, natBelow?, hnumber, h]

theorem float32?_written {x : Float32} (h : x.isFinite = true) :
    (number x.written).float32? = some x := by
  obtain ⟨y, hread, hsame⟩ := Float32.ofText?_written h
  simp [float32?, number?, hread, hsame]

/-- The tree of a part that may be missing. -/
def ofOption {α : Type} (tree : α → JsonTree) : Option α → JsonTree
  | none => null
  | some a => tree a

variable {α : Type} {tree : α → JsonTree} {a : Option α}

theorem chars_ofOption {write : α → List Char} (h : ∀ b ∈ a, (tree b).chars = write b) :
    (ofOption tree a).chars = optionalJsonChars write a := by
  cases a with
  | none => rfl
  | some b => exact h b rfl

theorem written_ofOption (h : ∀ b ∈ a, (tree b).Written) : (ofOption tree a).Written := by
  cases a with
  | none => trivial
  | some b => exact h b rfl

theorem optional?_ofOption {read : JsonTree → Option α}
    (h : ∀ b ∈ a, (tree b).isNull = false ∧ read (tree b) = some b) :
    optional? read (some (ofOption tree a)) = some a := by
  cases a with
  | none => rfl
  | some b =>
      obtain ⟨hnull, hread⟩ := h b rfl
      simp [optional?, ofOption, hnull, hread]

end JsonTree

/-! ## Events -/

namespace TokenEvent

/-- The tree of an event. -/
def tree (e : TokenEvent) : JsonTree :=
  .object <| [
    ("stream_id", .ofNat e.streamId),
    ("token", .ofNat e.token),
    ("text", .ofOption (fun s => .string (some s)) e.text),
    ("logprob", .ofOption (fun x => .number x.written) e.logprob),
    ("finish_reason", .ofOption (fun r => .string (some r.wireName)) e.finishReason)].map
      fun f => (some f.1, f.2)

/-- An event that frames can carry. -/
structure Sendable (e : TokenEvent) : Prop where
  streamId : e.streamId < word64Bound
  token : e.token < word32Bound
  logprob : ∀ x ∈ e.logprob, x.isFinite = true

variable {e : TokenEvent}

theorem chars_tree (h : e.Sendable) : e.tree.chars = e.chars := by
  have htext : (JsonTree.ofOption (fun s => .string (some s)) e.text).chars =
      optionalJsonChars stringJsonChars e.text := JsonTree.chars_ofOption fun _ _ => rfl
  have hlogprob : (JsonTree.ofOption (fun x => .number x.written) e.logprob).chars =
      optionalJsonChars Float32.jsonChars e.logprob :=
    JsonTree.chars_ofOption fun x hx => by
      rw [Float32.jsonChars, if_pos (h.logprob x hx)]
      exact FloatFormat.chars_text
  have hreason : (JsonTree.ofOption (fun r => .string (some r.wireName)) e.finishReason).chars =
      optionalJsonChars (fun r : FinishReason => stringJsonChars r.wireName) e.finishReason :=
    JsonTree.chars_ofOption fun _ _ => rfl
  rw [tree, JsonTree.chars_object, chars]
  simp only [List.map_cons, List.map_nil, JsonTree.chars_ofNat, htext, hlogprob, hreason]

theorem written_tree (e : TokenEvent) : e.tree.Written :=
  ⟨rfl, JsonTree.written_ofNat _, rfl, JsonTree.written_ofNat _, rfl,
    JsonTree.written_ofOption fun _ _ => rfl, rfl,
    JsonTree.written_ofOption fun _ _ => FloatFormat.written_text FloatFormat.usual_single, rfl,
    JsonTree.written_ofOption fun _ _ => rfl, trivial⟩

theorem parts?_tree (e : TokenEvent) : e.tree.parts? fieldNames =
    some [some (.ofNat e.streamId), some (.ofNat e.token),
      some (.ofOption (fun s => .string (some s)) e.text),
      some (.ofOption (fun x => .number x.written) e.logprob),
      some (.ofOption (fun r => .string (some r.wireName)) e.finishReason)] := rfl

/-- **An event is read back from its tree.** -/
theorem ofTree?_tree (h : e.Sendable) : ofTree? e.tree = some e := by
  have htext : JsonTree.optional? JsonTree.asString?
      (some (.ofOption (fun s => .string (some s)) e.text)) = some e.text :=
    JsonTree.optional?_ofOption fun _ _ => ⟨rfl, rfl⟩
  have hlogprob : JsonTree.optional? JsonTree.float32?
      (some (.ofOption (fun x => .number x.written) e.logprob)) = some e.logprob :=
    JsonTree.optional?_ofOption fun x hx => ⟨rfl, JsonTree.float32?_written (h.logprob x hx)⟩
  have hreason : JsonTree.optional? FinishReason.ofTree?
      (some (.ofOption (fun r => .string (some r.wireName)) e.finishReason)) =
        some e.finishReason :=
    JsonTree.optional?_ofOption fun r _ => ⟨rfl, r.ofWireName?_wireName⟩
  simp [ofTree?, parts?_tree, JsonTree.word64?_ofNat h.streamId, JsonTree.word32?_ofNat h.token,
    htext, hlogprob, hreason]

theorem mapM_ofTree?_tree {events : List TokenEvent} (h : ∀ e ∈ events, e.Sendable) :
    (events.map tree).mapM ofTree? = some events := by
  induction events with
  | nil => rfl
  | cons e events ih =>
      rw [List.map_cons, List.mapM_cons, ofTree?_tree (h e List.mem_cons_self),
        ih fun other hmem => h other (List.mem_cons_of_mem _ hmem)]
      rfl

end TokenEvent

/-! ## Frames -/

namespace Frame

/-- A frame is split at the first space. -/
theorem split_write {command : String} (h : ' ' ∉ command.toList) (payload : List Char) :
    split (write command payload) = .ok (command, String.ofList payload) := by
  have hpos : ∀ c ∈ command.toList, (c != ' ') = true := fun c hc => by
    simpa using fun heq : c = ' ' => h (heq ▸ hc)
  simp [split, write, List.dropWhile_append_of_pos hpos, List.takeWhile_append_of_pos hpos]

variable {events : List TokenEvent}

theorem decodeTokens_write (h : ∀ e ∈ events, e.Sendable) :
    decodeTokens (String.ofList (jsonItemsChars (events.map TokenEvent.chars))) = .ok events := by
  have hchars : events.map TokenEvent.chars = (events.map TokenEvent.tree).map JsonTree.chars := by
    rw [List.map_map]
    exact List.map_congr_left fun e he => (TokenEvent.chars_tree (h e he)).symm
  have hwritten : (JsonTree.array (events.map TokenEvent.tree)).Written := by
    refine JsonTree.writtenItems_of_forall fun item hitem => ?_
    obtain ⟨e, -, rfl⟩ := List.mem_map.1 hitem
    exact e.written_tree
  rw [decodeTokens, hchars, ← JsonTree.chars_array, JsonTree.parse_chars hwritten]
  simp [JsonTree.asArray?, TokenEvent.mapM_ofTree?_tree h]

end Frame

/-- **Events are read back from their frame.** -/
theorem Client.eventsOf_tokens {events : List TokenEvent} (h : ∀ e ∈ events, e.Sendable) :
    eventsOf (Frame.tokens events) = events := by
  have hcommand : ' ' ∉ Frame.tokenCommand.toList := by decide
  rw [eventsOf, Frame.tokens, Frame.split_write hcommand]
  simp [Frame.decodeTokens_write h, Except.toOption]

end Guided
