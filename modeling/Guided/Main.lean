import Guided.Command.Run

/-!
# The program

Reads the command line and the files it names, runs the command and prints its output.
-/

open Guided

/-- The text of a file, if it can be read. -/
def readFile? (path : String) : IO (Option String) :=
  try
    return some (← IO.FS.readFile path)
  catch _ => return none

/-- The configuration beside a tokenizer file. -/
def configPath (path : String) : String :=
  String.ofList ((path.toList.reverse.dropWhile (· != '/')).reverse) ++ "tokenizer_config.json"

/-- The tokenizer files at a path. -/
def readTokenizer (path : String) : IO TokenizerFiles := do
  return ⟨← readFile? path, ← readFile? (configPath path)⟩

/-- Run the command that the words ask for. -/
def main (words : List String) : IO UInt32 := do
  let result ←
    match Command.ofWords? words with
    | none => pure CommandOutput.misuse
    | some command => do
        let files ← command.tokenizerPath.mapM readTokenizer
        pure (command.run files)
  IO.print result.out
  IO.eprint result.err
  return result.code.toUInt32
