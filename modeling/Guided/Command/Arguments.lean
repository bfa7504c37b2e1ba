import Guided.Decimal.Word

/-!
# Arguments of the command line

The words after the program's name: a subcommand, its positional arguments and its
options, in any order. An option takes the next word, or what follows an equals sign in
its own. After two hyphens every word is positional, and so is a single hyphen.

## Main definitions

* `Command`: what is asked for.
* `Command.ofWords?`: the command that words ask for, if they are well formed.
-/
namespace Guided

/-- Options of the check command. -/
structure CheckOptions where
  tokenizer : Option String
  maxTokens : Nat
  cache : Option String
  maxConcurrent : Nat
deriving DecidableEq, Repr

/-- What the command line asks for. -/
inductive Command where
  | derive (pattern text : String)
  | check (pattern text : String) (options : CheckOptions)
  | tokenize (text : String) (tokenizer : Option String)
deriving DecidableEq, Repr

/-- Words sorted into positional arguments and options. -/
structure SortedWords where
  positional : List String
  options : List (String × String)

/-- The name of a word that is an option, and its value if an equals sign is in it. -/
def optionOf? (word : String) : Option (String × Option String) :=
  match word.toList with
  | '-' :: '-' :: c :: name =>
      let name := c :: name
      match name.dropWhile (· != '=') with
      | [] => some (String.ofList name, none)
      | _ :: value => some (String.ofList (name.takeWhile (· != '=')), some (String.ofList value))
  | _ => none

/-- Whether a word may be a positional argument or the value of an option. -/
def isPlainWord (word : String) : Bool :=
  match word.toList with
  | '-' :: _ :: _ => false
  | _ => true

/-- Sort words by the names of options that are allowed. -/
def sortWords (allowed : List String) : List String → Option SortedWords
  | [] => some ⟨[], []⟩
  | "--" :: rest => some ⟨rest, []⟩
  | [word] =>
      match optionOf? word with
      | some (name, some value) =>
          if allowed.contains name then some ⟨[], [(name, value)]⟩ else none
      | some (_, none) => none
      | none => if isPlainWord word then some ⟨[word], []⟩ else none
  | word :: next :: rest =>
      match optionOf? word with
      | some (name, some value) =>
          if allowed.contains name then
            (sortWords allowed (next :: rest)).map fun s =>
              { s with options := (name, value) :: s.options }
          else none
      | some (name, none) =>
          if allowed.contains name ∧ isPlainWord next then
            (sortWords allowed rest).map fun s => { s with options := (name, next) :: s.options }
          else none
      | none =>
          if isPlainWord word then
            (sortWords allowed (next :: rest)).map fun s =>
              { s with positional := word :: s.positional }
          else none

/-- The value of an option; `none` if it is given twice. -/
def SortedWords.option? (s : SortedWords) (name : String) : Option (Option String) :=
  match s.options.filter (·.1 == name) with
  | [] => some none
  | [(_, value)] => some (some value)
  | _ => none

/-- The value of an option that names a file, which is not empty. -/
def SortedWords.path? (s : SortedWords) (name : String) : Option (Option String) :=
  match s.option? name with
  | some (some "") => none
  | other => other

/-- The number that a word spells in decimal, with or without a plus sign. -/
def countOfWord? (word : String) : Option Nat :=
  let digits := match word.toList with
    | '+' :: rest => rest
    | chars => chars
  if digits.isEmpty ∨ ¬ digits.all Char.isDigit then none
  else
    let n := digits.foldl (fun n c => n * 10 + (c.toNat - 48)) 0
    if n < word64Bound then some n else none

/-- The value of an option that is a count. -/
def SortedWords.count? (s : SortedWords) (name : String) (default : Nat) : Option Nat :=
  match s.option? name with
  | none => none
  | some none => some default
  | some (some word) => countOfWord? word

namespace Command

/-- The command of the words after `derive`. -/
def deriveOfWords? (words : List String) : Option Command := do
  let s ← sortWords [] words
  match s.positional with
  | [pattern, text] => some (.derive pattern text)
  | _ => none

/-- The command of the words after `check`. -/
def checkOfWords? (words : List String) : Option Command := do
  let s ← sortWords ["tokenizer", "max-tokens", "cache", "max-concurrent"] words
  let tokenizer ← s.path? "tokenizer"
  let maxTokens ← s.count? "max-tokens" 256
  let cache ← s.path? "cache"
  let maxConcurrent ← s.count? "max-concurrent" 8
  match s.positional with
  | [pattern, text] => some (.check pattern text ⟨tokenizer, maxTokens, cache, maxConcurrent⟩)
  | _ => none

/-- The command of the words after `tokenize`. -/
def tokenizeOfWords? (words : List String) : Option Command := do
  let s ← sortWords ["tokenizer"] words
  let tokenizer ← s.path? "tokenizer"
  match s.positional with
  | [text] => some (.tokenize text tokenizer)
  | _ => none

/-- The command that words ask for. -/
def ofWords? : List String → Option Command
  | "derive" :: words => deriveOfWords? words
  | "check" :: words => checkOfWords? words
  | "tokenize" :: words => tokenizeOfWords? words
  | _ => none

end Command

end Guided
