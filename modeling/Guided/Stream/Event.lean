import Guided.Decimal.Shortest
import Guided.Decimal.Word
import Guided.Error
import Guided.Value.Decode

/-!
# Events of a token stream

An event carries one token of one stream, and the reason if it is the stream's last. As
JSON it is an object with its fields in a fixed order; it is read from an object in any
order, with unknown fields passed over, or from a list of its fields' values.

## Main definitions

* `FinishReason`, `TokenEvent`.
* `JsonTree.field?`, `JsonTree.word64?`, `JsonTree.word32?`, `JsonTree.float32?`: reading
  single parts.
* `TokenEvent.ofTree?`, `TokenEvent.chars`: an event from and as JSON.
-/
namespace Guided

/-- Why a stream ended. -/
inductive FinishReason where
  | length
  | stop
  | violated
  | cancelled
deriving DecidableEq, Repr

/-- All reasons. -/
def FinishReason.list : List FinishReason := [.length, .stop, .violated, .cancelled]

/-- A reason as frames spell it. -/
def FinishReason.wireName : FinishReason → String
  | .length => "length"
  | .stop => "stop"
  | .violated => "constraint_violated"
  | .cancelled => "cancelled"

/-- The reason with a given spelling. -/
def FinishReason.ofWireName? (name : String) : Option FinishReason :=
  FinishReason.list.find? (·.wireName == name)

@[simp] theorem FinishReason.ofWireName?_wireName (r : FinishReason) :
    FinishReason.ofWireName? r.wireName = some r := by
  cases r <;> decide

/-- One token of a stream. -/
structure TokenEvent where
  streamId : Nat
  token : Nat
  text : Option String
  logprob : Option Float32
  finishReason : Option FinishReason
deriving DecidableEq, Repr

/-- Whether the event is the last of its stream. -/
def TokenEvent.isTerminal (e : TokenEvent) : Bool := e.finishReason.isSome

namespace JsonTree

/-- The number in a tree. -/
def number? : JsonTree → Option Number
  | number text => Number.ofText? text
  | _ => none

/-- The integer in a tree, from zero to below a bound. -/
def natBelow? (bound : Nat) (tree : JsonTree) : Option Nat :=
  match tree.number? with
  | some (.integer n) => if 0 ≤ n ∧ n < bound then some n.toNat else none
  | _ => none

/-- An integer of 64 bits. -/
def word64? (tree : JsonTree) : Option Nat := tree.natBelow? word64Bound

/-- An integer of 32 bits. -/
def word32? (tree : JsonTree) : Option Nat := tree.natBelow? word32Bound

/-- A number of four bytes; one that is too large becomes infinity. -/
def float32? (tree : JsonTree) : Option Float32 :=
  tree.number?.map fun
    | .integer n => Float32.ofInt n
    | .fraction x => Float32.ofFloat64 x

/-- A part that may be missing or null. -/
def optional? {α : Type} (read : JsonTree → Option α) : Option JsonTree → Option (Option α)
  | none => some none
  | some tree => if tree.isNull then some none else (read tree).map some

/-- The single field of a given name, or `some none` without one. More than one field of
that name is not allowed. -/
def field? (fields : List (Option String × JsonTree)) (name : String) :
    Option (Option JsonTree) :=
  match fields.filter (·.1 == some name) with
  | [] => some none
  | [(_, tree)] => some (some tree)
  | _ => none

/-- The parts of a record whose fields have the given names: from an object, or from a
list of the parts in that order, which may be cut short. -/
def parts? (names : List String) : JsonTree → Option (List (Option JsonTree))
  | object fields => if fields.all (·.1.isSome) then names.mapM (field? fields) else none
  | array items =>
      if items.length ≤ names.length then
        some (items.map some ++ List.replicate (names.length - items.length) none)
      else none
  | _ => none

end JsonTree

/-- The reason in a tree: its spelling, or an object whose only field is that spelling
and holds nothing. -/
def FinishReason.ofTree? : JsonTree → Option FinishReason
  | .string (some name) => FinishReason.ofWireName? name
  | .object [(some name, .null)] => FinishReason.ofWireName? name
  | _ => none

namespace TokenEvent

/-- The fields of an event in their order. -/
def fieldNames : List String := ["stream_id", "token", "text", "logprob", "finish_reason"]

/-- The event in a tree. -/
def ofTree? (tree : JsonTree) : Option TokenEvent := do
  match ← tree.parts? fieldNames with
  | [some streamId, some token, text, logprob, finishReason] =>
      let streamId ← streamId.word64?
      let token ← token.word32?
      let text ← JsonTree.optional? JsonTree.asString? text
      let logprob ← JsonTree.optional? JsonTree.float32? logprob
      let finishReason ← JsonTree.optional? FinishReason.ofTree? finishReason
      return ⟨streamId, token, text, logprob, finishReason⟩
  | _ => none

end TokenEvent

/-- A JSON object with fields in the order given. -/
def jsonFieldsChars (fields : List (String × List Char)) : List Char :=
  '\x7b' :: ((fields.map fun f => jsonStringChars f.1.toList ++ ':' :: f.2).intersperse
    [',']).flatten ++ ['\x7d']

/-- A JSON list. -/
def jsonItemsChars (items : List (List Char)) : List Char :=
  '[' :: (items.intersperse [',']).flatten ++ [']']

/-- The null value of JSON. -/
def jsonNullChars : List Char := ['n', 'u', 'l', 'l']

/-- A number of four bytes as JSON, which has no infinity. -/
def Float32.jsonChars (x : Float32) : List Char := if x.isFinite then x.chars else jsonNullChars

/-- A text as a JSON string. -/
def stringJsonChars (s : String) : List Char := jsonStringChars s.toList

/-- A part that may be missing, as JSON. -/
def optionalJsonChars {α : Type} (write : α → List Char) : Option α → List Char
  | none => jsonNullChars
  | some a => write a

/-- An event as JSON. -/
def TokenEvent.chars (e : TokenEvent) : List Char :=
  jsonFieldsChars [
    ("stream_id", Nat.toDigits 10 e.streamId),
    ("token", Nat.toDigits 10 e.token),
    ("text", optionalJsonChars stringJsonChars e.text),
    ("logprob", optionalJsonChars Float32.jsonChars e.logprob),
    ("finish_reason", optionalJsonChars (fun r => stringJsonChars r.wireName) e.finishReason)]

end Guided
