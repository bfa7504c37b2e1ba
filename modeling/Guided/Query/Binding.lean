import Guided.Query.Basic

/-!
# Binding a call

A call names the variable under test and passes further arguments by position. All other
parameters of the query are captured from where it is called: from local symbols, then
from global ones, then from the scope the query was defined in.

## Main definitions

* `Argument`, `CallerScope`, `InlineCall`.
* `bindCaptures`, `InlineCall.bind`.
-/
namespace Guided

/-- An argument at a call site. -/
inductive Argument where
  | reference (name : String)
  | value (v : Value)

/-- The symbols visible at a call site. -/
structure CallerScope where
  locals : Fields Value
  globals : Fields Value

/-- The value of a symbol; a local one hides a global one. -/
def CallerScope.lookup (c : CallerScope) (name : String) : Option Value :=
  (c.locals.find? name).or (c.globals.find? name)

/-- A call whose arguments are bound. -/
structure InlineCall (W : Type) where
  query : Query W
  variableName : String
  captures : Fields Value

/-- The values of positional arguments, left to right; a reference is looked up where the
call is made. -/
def positionalValues (query : String) (caller : CallerScope) :
    List Argument → Except Error (List Value)
  | [] => .ok []
  | .value v :: rest => (positionalValues query caller rest).map (v :: ·)
  | .reference name :: rest =>
      match caller.lookup name with
      | none => .error (.binding (.undefinedArgument query name))
      | some v => (positionalValues query caller rest).map (v :: ·)

/-- The value that a parameter gets when it is not passed by position. -/
def captured {W : Type} (query : Query W) (caller : CallerScope) (name : String) :
    Option Value :=
  (caller.lookup name).or (query.context.bind fun c => c.scope.resolve name)

/-- Bind each parameter that has no value yet, and list those that have none to get. -/
def captureParams {W : Type} (query : Query W) (caller : CallerScope) :
    List String → Fields Value → Fields Value × List String
  | [], bound => (bound, [])
  | name :: rest, bound =>
      if bound.contains name then captureParams query caller rest bound
      else
        match captured query caller name with
        | some v => captureParams query caller rest (bound.insert name v)
        | none =>
            let (bound, missing) := captureParams query caller rest bound
            (bound, name :: missing)

/-- The bindings of positional arguments. A query that is no function takes none, and
ignores them. -/
def bindPositional {W : Type} (query : Query W) (positional : List Value) :
    Except Error (Fields Value) :=
  match query.context with
  | none => .ok []
  | some c =>
      if c.argNames.length = positional.length then .ok (Fields.ofList (c.argNames.zip positional))
      else .error (.binding (.arity query.name c.argNames positional.length))

/-- All bindings of a call. -/
def bindCaptures {W : Type} (query : Query W) (positional : List Value) (caller : CallerScope) :
    Except Error (Fields Value) :=
  match bindPositional query positional with
  | .error e => .error e
  | .ok bound =>
      match captureParams query caller query.params bound with
      | (captures, []) => .ok captures
      | (_, missing) => .error (.binding (.unboundParameters query.name missing))

namespace InlineCall

variable {W : Type}

/-- Bind a call to its arguments, the first of which refers to the variable under test. -/
def bind (query : Query W) (args : List Argument) (caller : CallerScope) :
    Except Error (InlineCall W) :=
  match args with
  | [] => .error (.binding (.firstArgument query.name none))
  | .value v :: _ => .error (.binding (.firstArgument query.name (some v)))
  | .reference variableName :: rest =>
      match positionalValues query.name caller rest with
      | .error e => .error e
      | .ok positional => (bindCaptures query positional caller).map (⟨query, variableName, ·⟩)

/-- A call as messages show it. -/
def outline (call : InlineCall W) : String :=
  "InlineCallOp \x7b query: " ++ quoted call.query.name ++ ", variable: " ++
    quoted call.variableName ++ ", captures: " ++ outlineOfFields call.captures ++ " \x7d"

end InlineCall

end Guided
