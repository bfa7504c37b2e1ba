import Guided.Stream.Event

/-!
# Frames

A frame is a command, a space and a JSON text. Requests ask for a completion or for
scores; the answer to both are frames with lists of events, each of which names its
stream.

## Main definitions

* `Prompt`, `GenerationParams`, and how they are read.
* `Frame.generate`, `Frame.score`, `Frame.tokens`: writing frames.
* `Frame.split`, `Frame.decodeTokens`: reading frames.
-/
namespace Guided

/-- A prompt as a text or as token ids. -/
inductive Prompt where
  | text (s : String)
  | tokens (ids : List Nat)
deriving DecidableEq, Repr

namespace Prompt

/-- The prompt in a tree. -/
def ofTree? : JsonTree → Option Prompt
  | .string s => s.map .text
  | .array items => (items.mapM JsonTree.word32?).map .tokens
  | _ => none

/-- A prompt as JSON. -/
def chars : Prompt → List Char
  | .text s => stringJsonChars s
  | .tokens ids => jsonItemsChars (ids.map (Nat.toDigits 10))

end Prompt

/-- How to generate: at most how many tokens and how hot, with how many log probabilities
and which token biases, in order of token ids. -/
structure GenerationParams where
  maxTokens : Nat
  temperature : Float32
  topLogprobs : Option Nat
  logitBias : Option (List (Nat × Float32))
deriving DecidableEq, Repr

namespace GenerationParams

/-- Up to 256 tokens at temperature zero. -/
def standard : GenerationParams := ⟨256, ⟨false, 0⟩, none, none⟩

/-- The token id that a name spells in decimal. -/
def tokenOfName? (name : String) : Option Nat :=
  match JsonTree.readNumber name.toList with
  | some (text, []) => (JsonTree.number text).word32?
  | _ => none

/-- Put a bias at a token id, in place of an earlier one. -/
def insertBias : List (Nat × Float32) → Nat → Float32 → List (Nat × Float32)
  | [], token, bias => [(token, bias)]
  | (t, b) :: rest, token, bias =>
      if token < t then (token, bias) :: (t, b) :: rest
      else if token = t then (token, bias) :: rest
      else (t, b) :: insertBias rest token bias

/-- The biases in a tree, an object whose names are token ids. -/
def biasOfTree? : JsonTree → Option (List (Nat × Float32))
  | .object fields =>
      fields.foldlM (fun biases field => do
        let token ← field.1.bind tokenOfName?
        let bias ← field.2.float32?
        return insertBias biases token bias) []
  | _ => none

/-- The fields in their order. -/
def fieldNames : List String := ["max_tokens", "temperature", "top_logprobs", "logit_bias"]

/-- The parameters in a tree. -/
def ofTree? (tree : JsonTree) : Option GenerationParams := do
  match ← tree.parts? fieldNames with
  | [some maxTokens, some temperature, topLogprobs, logitBias] =>
      let maxTokens ← maxTokens.word64?
      let temperature ← temperature.float32?
      let topLogprobs ← JsonTree.optional? JsonTree.word64? topLogprobs
      let logitBias ← JsonTree.optional? biasOfTree? logitBias
      return ⟨maxTokens, temperature, topLogprobs, logitBias⟩
  | _ => none

/-- Biases as JSON. -/
def biasChars (biases : List (Nat × Float32)) : List Char :=
  jsonFieldsChars (biases.map fun b => (toString b.1, b.2.jsonChars))

/-- The parameters as fields of a request; what is missing is left out. -/
def fields (p : GenerationParams) : List (String × List Char) :=
  [("max_tokens", Nat.toDigits 10 p.maxTokens), ("temperature", p.temperature.jsonChars)] ++
    (p.topLogprobs.map fun n => ("top_logprobs", Nat.toDigits 10 n)).toList ++
    (p.logitBias.map fun b => ("logit_bias", biasChars b)).toList

end GenerationParams

namespace Frame

/-- The command that asks for a completion. -/
def generateCommand : String := "GENERATE"

/-- The command that asks for scores. -/
def scoreCommand : String := "SCORE"

/-- The command of a list of events. -/
def tokenCommand : String := "TOKEN"

/-- A command with its payload. -/
def write (command : String) (payload : List Char) : String :=
  String.ofList (command.toList ++ ' ' :: payload)

/-- Ask for a completion of a prompt. -/
def generate (model : String) (streamId : Nat) (prompt : Prompt) (params : GenerationParams) :
    String :=
  write generateCommand <| jsonFieldsChars <|
    [("model", stringJsonChars model), ("prompt", prompt.chars),
      ("stream_id", Nat.toDigits 10 streamId)] ++ params.fields

/-- Ask for scores of a continuation of a prompt. -/
def score (model : String) (streamId : Nat) (prompt scored : Prompt)
    (params : GenerationParams) : String :=
  write scoreCommand <| jsonFieldsChars <|
    [("model", stringJsonChars model), ("prompt", prompt.chars), ("scored", scored.chars),
      ("stream_id", Nat.toDigits 10 streamId)] ++ params.fields

/-- Events as a frame. -/
def tokens (events : List TokenEvent) : String :=
  write tokenCommand (jsonItemsChars (events.map TokenEvent.chars))

/-- The command and the payload of a frame, which the first space separates. -/
def split (frame : String) : Except Error (String × String) :=
  let chars := frame.toList
  match chars.dropWhile (· != ' ') with
  | [] => .error (.transport (.noPayload frame))
  | _ :: payload => .ok (String.ofList (chars.takeWhile (· != ' ')), String.ofList payload)

/-- The events of a payload. -/
def decodeTokens (payload : String) : Except Error (List TokenEvent) :=
  match (JsonTree.parse payload).bind JsonTree.asArray? with
  | none => .error .json
  | some items =>
      match items.mapM TokenEvent.ofTree? with
      | none => .error .json
      | some events => .ok events

end Frame

end Guided
