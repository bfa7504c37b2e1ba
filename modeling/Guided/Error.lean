import Guided.CallKey
import Guided.Pattern.Fault
import Guided.Pattern.Limits
import Guided.Value.Outline

/-!
# Errors

What can go wrong, by cause. The wording of every cause is in `Error.message` and
nowhere else.

## Main definitions

* `BindingFault`, `UnresolvedFault`, `RequestFault`, `TransportFault`, `TokenFault`,
  `InternalFault`: causes by area.
* `Error`, `Error.message`.
-/
namespace Guided

/-- Why a call of a nested query cannot be bound to its arguments. -/
inductive BindingFault where
  | firstArgument (query : String) (got : Option Value)
  | undefinedArgument (query name : String)
  | arity (query : String) (names : List String) (given : Nat)
  | unboundParameters (query : String) (names : List String)

/-- What has not been decided when it was needed. -/
inductive UnresolvedFault where
  | unknownVariable (name : String)
  | callResult (query variableName : String) (key : CallKey)
  | stillPending (variableName : String) (rounds : Nat)
  | nothingOutstanding (variableName : String)

/-- Faults of nested runs and their results. -/
inductive RequestFault where
  | alreadyPublished (key : CallKey)
  | nestedRunFailed (key : CallKey) (reason : String)
  | resolvedTwice

/-- Faults of the connection. -/
inductive TransportFault where
  | closed
  | noPayload (frame : String)

/-- Faults of tokenization. -/
inductive TokenFault where
  | notByteLevel (id : Nat)
  | noRoom (vocabularyRange : Nat)
  | exhausted
  | missingUnknown

/-- Faults that no input of a caller should lead to. -/
inductive InternalFault where
  | matchLimit (limit : MatchLimit)
  | notAnOwner (node : NodeId)
  | queryFailed (message : String)

/-- An error. -/
inductive Error where
  | invalidPattern (pattern : String) (offset : Nat) (fault : PatternFault)
  | unsupportedPattern (pattern : String) (offset : Nat) (construct : Construct)
  | binding (fault : BindingFault)
  | unresolved (fault : UnresolvedFault)
  | violated (text variableName pattern : String)
  | request (fault : RequestFault)
  | transport (fault : TransportFault)
  | token (fault : TokenFault)
  | internal (fault : InternalFault)
  | json
  | io

/-- A name in single quotes. -/
def named (name : String) : String := "'" ++ name ++ "'"

/-- The wording of a binding fault. -/
def BindingFault.message : BindingFault → String
  | .firstArgument query got =>
      let shown := match got with
        | none => "None"
        | some v => "Some(Value(" ++ v.outline ++ "))"
      "inline query " ++ named query ++
        " must be called with a variable as its first argument, got " ++ shown
  | .undefinedArgument query name =>
      "argument " ++ named name ++ " of inline query " ++ named query ++
        " is not defined in the calling scope"
  | .arity query names given =>
      "inline query " ++ named query ++ " takes " ++ toString names.length ++
        " argument(s) after the variable (" ++ String.intercalate ", " names ++ "), got " ++
        toString given
  | .unboundParameters query names =>
      "cannot resolve " ++ String.intercalate ", " names ++ " of inline query " ++
        named query ++ " from the calling scope"

/-- The wording of what is unresolved. -/
def UnresolvedFault.message : UnresolvedFault → String
  | .unknownVariable name => "variable " ++ named name
  | .callResult query variableName key =>
      "result of inline query " ++ named query ++ " for " ++ named variableName ++
        " (" ++ key.text ++ ")"
  | .stillPending variableName rounds =>
      "constraint on " ++ named variableName ++ " still pending after " ++ toString rounds ++
        " resolve rounds"
  | .nothingOutstanding variableName =>
      "constraint on " ++ named variableName ++
        " is pending but no nested query is outstanding"

/-- The wording of a fault of nested runs. -/
def RequestFault.message : RequestFault → String
  | .alreadyPublished key => "result for " ++ key.text ++ " already published"
  | .nestedRunFailed key reason => "nested query " ++ key.text ++ " failed: " ++ reason
  | .resolvedTwice => "promise resolved twice"

/-- The wording of a fault of the connection. -/
def TransportFault.message : TransportFault → String
  | .closed => "connection closed"
  | .noPayload frame => "frame without payload: " ++ quoted frame

/-- The wording of a fault of tokenization. -/
def TokenFault.message : TokenFault → String
  | .notByteLevel id => "id " ++ toString id ++ " is not a byte-level token"
  | .noRoom range =>
      "vocabulary range " ++ toString range ++ " leaves no room for special token ids"
  | .exhausted => "special token ids exhausted"
  | .missingUnknown => "WordLevel error: Missing [UNK] token from the vocabulary"

/-- The wording of an internal fault. -/
def InternalFault.message : InternalFault → String
  | .matchLimit .nesting => "regex compilation error: error parsing pattern 0"
  | .matchLimit .size => "regex compilation error: error building NFA"
  | .notAnOwner node => "node " ++ node.text ++ " does not own a variable"
  | .queryFailed message => message

/-- The wording of an error. -/
def Error.message : Error → String
  | .invalidPattern pattern offset fault =>
      "Invalid pattern " ++ quoted pattern ++ " at offset " ++ toString offset ++ ": " ++
        fault.message
  | .unsupportedPattern pattern offset construct =>
      "Unsupported pattern construct " ++ construct.message ++ " in " ++ quoted pattern ++
        " at offset " ++ toString offset
  | .binding fault => "Binding error: " ++ fault.message
  | .unresolved fault => "Unresolved: " ++ fault.message
  | .violated text variableName pattern =>
      "Constraint violated: value " ++ quoted text ++ " of " ++ named variableName ++
        " does not match /" ++ pattern ++ "/"
  | .request fault => "Scheduler error: " ++ fault.message
  | .transport fault => "Transport error: " ++ fault.message
  | .token fault => "Tokenizer error: " ++ fault.message
  | .internal fault => "Internal error: " ++ fault.message
  | .json => "JSON error"
  | .io => "IO error"

end Guided
