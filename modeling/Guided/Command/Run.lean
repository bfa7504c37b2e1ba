import Guided.Command.Arguments
import Guided.Engine.Run
import Guided.Stream.Event
import Guided.Token.Incremental

/-!
# Commands

What the commands print. `derive` shows a residual, `tokenize` shows token ids, and
`check` sends a text token by token through an engine with a pattern constraint.

## Main definitions

* `tokenEvents`: the events that a server would send for a text.
* `checkRun`: the run of an engine over them.
* `CommandOutput`, `Command.run`.
-/
namespace Guided

/-- What a command prints and the code it ends with. -/
structure CommandOutput where
  code : Nat
  out : String
  err : String
deriving DecidableEq, Repr

namespace CommandOutput

/-- Success with the given lines. -/
def success (lines : List String) : CommandOutput :=
  ⟨0, String.join (lines.map (· ++ "\n")), ""⟩

/-- Failure with an error, after the given lines. -/
def failure (lines : List String) (e : Error) : CommandOutput :=
  ⟨1, String.join (lines.map (· ++ "\n")), "Error: " ++ e.message ++ "\n"⟩

/-- Words that ask for no command. -/
def misuse : CommandOutput := ⟨2, "", ""⟩

end CommandOutput

/-- A truth value in a message. -/
def boolText (b : Bool) : String := if b then "true" else "false"

/-- A number in a message, filled up with blanks on the left. -/
def padLeft (width : Nat) (text : String) : String :=
  String.ofList (List.replicate (width - text.length) ' ') ++ text

/-- Token ids as JSON. -/
def idsText (ids : List Nat) : String :=
  String.ofList (jsonItemsChars (ids.map (Nat.toDigits 10)))

/-- Show the residual of a pattern after a text. -/
def runDerive (pattern text : String) : CommandOutput :=
  match Regex.parse pattern with
  | .error e => .failure [] e
  | .ok regex =>
      match regex.residual text with
      | none => .success ["rejected"]
      | some residual =>
          .success ["residual:  " ++ Pattern.text residual,
            "accepting: " ++ boolText (Pattern.acceptsEmpty residual)]

/-- Show the token ids of a text. -/
def runTokenize (backend : TokenBackend) (text : String) : CommandOutput :=
  match Tokenizer.create backend with
  | .error e => .failure [] e
  | .ok tokenizer =>
      match tokenizer.encode text.toList with
      | (.error e, _) => .failure [] e
      | (.ok ids, _) => .success [idsText ids]

/-- An event of the only stream of a check. -/
def checkEvent (id : Nat) (chunk : Option (List Char)) : TokenEvent :=
  ⟨1, id, chunk.map String.ofList, none, none⟩

/-- The events of ids in order, with the decoder behind them. -/
def eventsOfIds (t : Tokenizer) (d : IncrementalDecoder) :
    List Nat → Except Error (List TokenEvent × IncrementalDecoder)
  | [] => .ok ([], d)
  | id :: rest =>
      match d.add t id with
      | (.error e, _) => .error e
      | (.ok chunk, d) =>
          (eventsOfIds t d rest).map fun (events, d) => (checkEvent id chunk :: events, d)

/-- The last event of a text also carries what the decoder held back, and ends the
stream. -/
def endEvents (rest : Option (List Char)) : List TokenEvent → List TokenEvent
  | [] => []
  | [event] =>
      let text := match rest with
        | some rest => some (event.text.getD "" ++ String.ofList rest)
        | none => event.text
      [{ event with text, finishReason := some .stop }]
  | event :: more :: events => event :: endEvents rest (more :: events)

/-- The events that a server would send for a text. -/
def tokenEvents (t : Tokenizer) (text : List Char) : Except Error (List TokenEvent) :=
  match t.encode text with
  | (.error e, _) => .error e
  | (.ok ids, t) =>
      match eventsOfIds t .empty ids with
      | .error e => .error e
      | .ok (events, d) =>
          if events.isEmpty then .ok []
          else
            match d.flush t with
            | (.error e, _) => .error e
            | (.ok rest, _) => .ok (endEvents rest events)

/-- The variable that a check constrains. -/
def checkVariable : String := "VALUE"

/-- The constraint of a check: a pattern on its variable. -/
def checkConstraint (regex : Regex) : Constraint Unit :=
  .pattern ⟨checkVariable, 1⟩ ⟨checkVariable, 0⟩ checkVariable regex

/-- The engine of a check. -/
def checkEngine (regex : Regex) (maxTokens : Nat) : Engine Unit :=
  ⟨checkConstraint regex, checkVariable, maxTokens, defaultMaxRounds⟩

/-- A bench for constraints without nested runs. -/
def emptyBench : Bench Unit := ⟨.empty, none, (), 0⟩

/-- The run of a check over events. -/
def checkRun (regex : Regex) (maxTokens : Nat) (events : List TokenEvent) :
    Except Error EngineOutcome × List EngineEvent × Bench Unit :=
  (checkEngine regex maxTokens).run (.start "") events emptyBench

/-- A reason as the command line names it. -/
def FinishReason.shownName : FinishReason → String
  | .length => "MaxTokens"
  | .stop => "EosToken"
  | .violated => "ConstraintViolated"
  | .cancelled => "Cancelled"

/-- The line for an event. -/
def EngineEvent.line : EngineEvent → String
  | .token _ id text => "token " ++ padLeft 6 (toString id) ++ " " ++ quoted text
  | .finish _ reason => "finish    " ++ reason.shownName
  | .error _ message => "error     " ++ message

/-- The lines for the end of a run. -/
def EngineOutcome.lines (o : EngineOutcome) : List String :=
  ("accepted  " ++ boolText o.accepted) ::
    (o.values.map fun values => "values    " ++ (Value.object values).text).toList

/-- Send a text through an engine with a pattern constraint. -/
def runCheck (backend : TokenBackend) (pattern text : String) (maxTokens : Nat) :
    CommandOutput :=
  match Tokenizer.create backend with
  | .error e => .failure [] e
  | .ok tokenizer =>
      match tokenEvents tokenizer text.toList with
      | .error e => .failure [] e
      | .ok events =>
          match Regex.parse pattern with
          | .error e => .failure [] e
          | .ok regex =>
              match checkRun regex maxTokens events with
              | (.error e, emitted, _) => .failure (emitted.map EngineEvent.line) e
              | (.ok outcome, emitted, _) =>
                  .success (emitted.map EngineEvent.line ++ outcome.lines)

/-- The tokenizer file that a command reads. -/
def Command.tokenizerPath : Command → Option String
  | .derive _ _ => none
  | .check _ _ options => options.tokenizer
  | .tokenize _ tokenizer => tokenizer

/-- Run a command with the tokenizer files it asks for. A check has no nested runs, so
that neither a cache nor a limit on running them at once makes a difference. -/
def Command.run (command : Command) (files : Option TokenizerFiles) : CommandOutput :=
  let backend := (TokenBackend.load files).1
  match command with
  | .derive pattern text => runDerive pattern text
  | .check pattern text options => runCheck backend pattern text options.maxTokens
  | .tokenize text _ => runTokenize backend text

end Guided
