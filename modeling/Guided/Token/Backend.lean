import Guided.Decimal.Word
import Guided.Error
import Guided.Text.Utf8
import Guided.Value.Decode

/-!
# Vocabularies

A backend turns texts into token ids and back. The byte-level one has a token for every
byte and is always available. A word-level one knows whole texts, and takes a token for
unknown ones for everything else.

## Main definitions

* `TokenBackend`, `TokenBackend.vocabularyRange`.
* `TokenBackend.byteLevel`, `TokenBackend.reporting`.
* `WordVocabulary`, `TokenBackend.ofWords`.
* `WordVocabulary.ofText?`, `endOfSequence?`: reading the files of a vocabulary.
-/
namespace Guided

/-- A tokenization of plain text. -/
structure TokenBackend where
  name : String
  encode : List Char → Except Error (List Nat)
  decode : List Nat → Except Error (List Char)
  vocabularySize : Nat
  maxTokenId : Option Nat
  endOfSequence : Option Nat

namespace TokenBackend

/-- No id of the vocabulary reaches this number. -/
def vocabularyRange (b : TokenBackend) : Nat :=
  Nat.max (b.maxTokenId.elim 0 (· + 1)) b.vocabularySize

/-- The text of bytes, which ids have to be. -/
def decodeBytes (ids : List Nat) : Except Error (List Char) :=
  match ids.find? fun id => decide (255 < id) with
  | some id => .error (.token (.notByteLevel id))
  | none => .ok (decodeLossy ids)

/-- One token for each byte. -/
def byteLevel : TokenBackend where
  name := "byte-level"
  encode s := .ok (utf8Bytes s)
  decode := decodeBytes
  vocabularySize := 256
  maxTokenId := some 255
  endOfSequence := none

/-- One token for each byte, with a vocabulary that is said to have another size. -/
def reporting (size : Nat) (maxTokenId : Option Nat) : TokenBackend :=
  { byteLevel with name := "ranged", vocabularySize := size, maxTokenId }

end TokenBackend

/-- Words with their ids, and the word that stands for unknown ones. -/
structure WordVocabulary where
  ids : Fields Nat
  unknown : String

namespace WordVocabulary

/-- The id of a word. -/
def idOf? (v : WordVocabulary) (word : String) : Option Nat := v.ids.find? word

/-- The word with an id. -/
def wordOf? (v : WordVocabulary) (id : Nat) : Option String :=
  (List.find? (fun entry => entry.2 == id) v.ids).map (·.1)

/-- A text is looked up as a whole. -/
def encode (v : WordVocabulary) (s : List Char) : Except Error (List Nat) :=
  if s.isEmpty then .ok []
  else
    match (v.idOf? (String.ofList s)).or (v.idOf? v.unknown) with
    | some id => .ok [id]
    | none => .error (.token .missingUnknown)

/-- Words joined by spaces; ids of no word are passed over. -/
def decode (v : WordVocabulary) (ids : List Nat) : List Char :=
  (String.intercalate " " (ids.filterMap v.wordOf?)).toList

/-- Words that usually end a sequence, the first one known being taken. -/
def usualEnds : List String := ["</s>", "<|endoftext|>", "<|im_end|>", "<|eot_id|>"]

/-- The end of a sequence by the configuration of a vocabulary: its id, or else its
word. -/
def configuredEnd? (v : WordVocabulary) (config : Value) : Option Nat :=
  match config with
  | .object fields =>
      match Fields.find? fields "eos_token_id" with
      | some (.number (.integer (.ofNat id))) => if id < word32Bound then some id else none
      | _ =>
          match Fields.find? fields "eos_token" with
          | some (.string word) => v.idOf? word
          | some (.object content) =>
              match Fields.find? content "content" with
              | some (.string word) => v.idOf? word
              | _ => none
          | _ => none
  | _ => none

/-- The end of a sequence: the configured one, or else a usual one. -/
def endOfSequence? (v : WordVocabulary) (config : Option String) : Option Nat :=
  ((config.bind Value.parse?).bind v.configuredEnd?).or (usualEnds.findSome? v.idOf?)

/-- The ids of words in a value. -/
def idsOf? : Value → Option (Fields Nat)
  | .object fields =>
      fields.mapM fun
        | (word, .number (.integer (.ofNat id))) =>
            if id < word32Bound then some (word, id) else none
        | _ => none
  | _ => none

/-- The kinds that a model is said to be of. -/
def kindsOf (fields : List (Option String × JsonTree)) : List JsonTree :=
  (fields.filter fun field => field.1 == some "type").map (·.2)

/-- The vocabulary of a model. Its kind may be left out, but not be given twice. Other
fields do not matter. -/
def ofModel? : JsonTree → Option WordVocabulary
  | .object fields => do
      match kindsOf fields with
      | [] => pure ()
      | [.string (some "WordLevel")] => pure ()
      | _ => none
      match ← Value.ofTree? maxValueDepth (.object fields) with
      | .object model =>
          match Fields.find? model "vocab", Fields.find? model "unk_token" with
          | some vocabulary, some (.string unknown) =>
              (idsOf? vocabulary).map (⟨·, unknown⟩)
          | _, _ => none
      | _ => none
  | _ => none

/-- Steps around a model that a file names; none of them may be given. -/
def stepNames : List String :=
  ["truncation", "padding", "normalizer", "pre_tokenizer", "post_processor", "decoder"]

/-- Take one more field of a tokenizer file into account. A file has no other fields than
these; of several models the last one counts, but each has to be one. -/
def readFileField (v : Option WordVocabulary) (field : Option String × JsonTree) :
    Option (Option WordVocabulary) := do
  let name ← field.1
  if name = "model" then (ofModel? field.2).map some
  else if name = "version" then if field.2.asString? = some "1.0" then some v else none
  else if name = "added_tokens" then
    match field.2 with
    | .array [] => some v
    | _ => none
  else if stepNames.contains name then if field.2.isNull then some v else none
  else none

/-- The vocabulary in the text of a tokenizer file. -/
def ofText? (text : String) : Option WordVocabulary := do
  let _ ← Value.parse? text
  match ← JsonTree.parse text with
  | .object fields => (← fields.foldlM readFileField none)
  | _ => none

end WordVocabulary

/-- Tokens for whole words. -/
def TokenBackend.ofWords (v : WordVocabulary) (config : Option String) : TokenBackend where
  name := "huggingface"
  encode := v.encode
  decode ids := .ok (v.decode ids)
  vocabularySize := v.ids.length
  maxTokenId := (v.ids.map (·.2)).max?
  endOfSequence := v.endOfSequence? config

/-- The files of a tokenizer, as far as they can be read. -/
structure TokenizerFiles where
  tokenizer : Option String
  config : Option String

/-- Why a backend was chosen. -/
inductive BackendChoice where
  | fromFile
  | noFile
  | unusableFile
deriving DecidableEq, Repr

/-- The backend of a tokenizer's files; without usable ones it is the byte-level one. -/
def TokenBackend.load (files : Option TokenizerFiles) : TokenBackend × BackendChoice :=
  match files with
  | none => (.byteLevel, .noFile)
  | some files =>
      match files.tokenizer.bind WordVocabulary.ofText? with
      | some v => (.ofWords v files.config, .fromFile)
      | none => (.byteLevel, .unusableFile)

end Guided
