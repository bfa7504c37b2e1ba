import Guided.Value.Outline

/-!
# Cache keys

A cached result is filed under the source of its query and the arguments it was invoked
with. Arguments are keyed by their compact JSON, which writes fields in order and is
therefore the same for equal arguments. Arguments that have no JSON form are keyed by
their outline, with a mark that no JSON begins with.

## Main definitions

* `CacheKey.ofArgs`, `CacheKey.ofOutline`, `CacheKey.shown`.
* `KeyedArgs`: arguments that may lack a JSON form.
-/
namespace Guided

/-- The character between source and arguments. -/
def keySeparator : Char := '\x00'

/-- A cache key. -/
structure CacheKey where
  text : String
deriving DecidableEq, Repr

namespace CacheKey

/-- The key of a source applied to arguments written as `rendered`. -/
def ofRendered (source : String) (rendered : List Char) : CacheKey :=
  ⟨String.ofList (source.toList ++ keySeparator :: rendered)⟩

/-- The key of a source applied to arguments with a JSON form. -/
def ofArgs (source : String) (args : Value) : CacheKey := ofRendered source args.chars

/-- The key of a source applied to arguments known by their outline. -/
def ofOutline (source : String) (outline : List Char) : CacheKey :=
  ofRendered source ("debug:".toList ++ outline)

/-- A key as messages show it, separators made visible. -/
def shown (key : CacheKey) : String :=
  String.ofList (key.text.toList.flatMap fun c => if c = keySeparator then [' ', '|', ' '] else [c])

end CacheKey

/-- Arguments of a cached call: a value, or entries named by bytes. -/
inductive KeyedArgs where
  | value (v : Value)
  | byteNamed (entries : List (List Nat × Value))

namespace KeyedArgs

/-- The order of names made of bytes: byte by byte, a beginning before its extensions. -/
def bytesLt : List Nat → List Nat → Bool
  | _, [] => false
  | [], _ :: _ => true
  | a :: s, b :: t => a < b || (a == b && bytesLt s t)

/-- Put a value under a name made of bytes. -/
def insertBytes : List (List Nat × Value) → List Nat → Value → List (List Nat × Value)
  | [], name, v => [(name, v)]
  | (key, old) :: rest, name, v =>
      if bytesLt name key then (name, v) :: (key, old) :: rest
      else if name = key then (name, v) :: rest
      else (key, old) :: insertBytes rest name v

/-- Arguments named by bytes, in order of names, a later entry replacing an earlier one. -/
def ofByteNamed (entries : List (List Nat × Value)) : KeyedArgs :=
  .byteNamed (entries.foldl (fun m e => insertBytes m e.1 e.2) [])

/-- A name made of bytes, as outlines show it. -/
def byteNameChars (name : List Nat) : List Char :=
  bracketed '[' ']' (name.map (Nat.toDigits 10))

/-- The JSON form of arguments; without entries it does not matter what names would be. -/
def json? : KeyedArgs → Option Value
  | .value v => some v
  | .byteNamed [] => some (.object [])
  | .byteNamed _ => none

/-- The outline of arguments. -/
def outlineChars : KeyedArgs → List Char
  | .value v => v.outlineChars
  | .byteNamed entries =>
      bracketed '\x7b' '\x7d'
        (entries.map fun e => byteNameChars e.1 ++ ':' :: ' ' :: e.2.outlineChars)

/-- Why arguments are known by their outline only. -/
def unkeyedMessage : String := "arguments cannot be keyed: key must be a string"

/-- The key of a source applied to arguments. -/
def key (source : String) (args : KeyedArgs) : CacheKey :=
  match args.json? with
  | some v => CacheKey.ofArgs source v
  | none => CacheKey.ofOutline source args.outlineChars

end KeyedArgs

end Guided
