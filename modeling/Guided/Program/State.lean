import Guided.Pattern.Regex
import Guided.Request.Promise

/-!
# Program states

A state is a snapshot: the prompt, the variables generated so far, the published results
of nested runs, and what pattern leaves retain between tokens. Every update makes a new
snapshot, so that branches with a common past never see each other's tokens or results.

## Main definitions

* `Variable`, `PatternState`, `ProgramState`.
* `ProgramState.beginVariable`, `withVariable`, `withToken`, `finishVariable`,
  `withResult`, `setPattern`.
-/
namespace Guided

/-- The text generated for a variable, and whether generation has stopped. -/
structure Variable where
  text : String
  finished : Bool
deriving DecidableEq, Repr

/-- A variable that has just been started. -/
def Variable.fresh : Variable := ⟨"", false⟩

/-- What a pattern leaf retains: how many bytes of its variable it has consumed, and the
residual after them. -/
structure PatternState where
  consumed : Nat
  residual : Option Pattern
deriving DecidableEq

/-- A snapshot of a program. -/
structure ProgramState where
  prompt : String
  vars : Fields Variable
  results : ResultTable
  patterns : List (NodeId × PatternState)

namespace ProgramState

/-- The state before any variable is started. -/
def start (prompt : String) : ProgramState := ⟨prompt, [], [], []⟩

/-- A variable that has been started. -/
def find? (s : ProgramState) (name : String) : Option Variable := s.vars.find? name

/-- What a pattern leaf retains. -/
def pattern? (s : ProgramState) (leaf : NodeId) : Option PatternState := s.patterns.lookup leaf

/-- Change a variable, after starting it if need be. -/
def updateVariable (s : ProgramState) (name : String) (f : Variable → Variable) : ProgramState :=
  { s with vars := s.vars.insert name (f ((s.find? name).getD Variable.fresh)) }

/-- Start a variable; one that has been started is kept. -/
def beginVariable (s : ProgramState) (name : String) : ProgramState := s.updateVariable name id

/-- Give a variable a text outright. -/
def withVariable (s : ProgramState) (name text : String) (finished : Bool) : ProgramState :=
  s.updateVariable name fun _ => ⟨text, finished⟩

/-- Append the text of a token to a variable. -/
def withToken (s : ProgramState) (name token : String) : ProgramState :=
  s.updateVariable name fun v => { v with text := v.text ++ token }

/-- Mark a variable as finished. -/
def finishVariable (s : ProgramState) (name : String) : ProgramState :=
  s.updateVariable name fun v => { v with finished := true }

/-- Publish the result of a nested run. -/
def withResult (s : ProgramState) (key : CallKey) (v : Value) : Except Error ProgramState :=
  (s.results.publish key v).map fun results => { s with results }

/-- Let a pattern leaf retain a state. -/
def setPattern (s : ProgramState) (leaf : NodeId) (p : PatternState) : ProgramState :=
  { s with patterns := (leaf, p) :: s.patterns.filter (·.1 != leaf) }

@[simp] theorem find?_updateVariable_self (s : ProgramState) (name : String)
    (f : Variable → Variable) :
    (s.updateVariable name f).find? name =
      some (f ((s.find? name).getD Variable.fresh)) := by
  simp [find?, updateVariable]

theorem find?_updateVariable_of_ne (s : ProgramState) {name other : String}
    (h : other ≠ name) (f : Variable → Variable) :
    (s.updateVariable name f).find? other = s.find? other := by
  simp [find?, updateVariable, Fields.find?_insert_of_ne _ h]

@[simp] theorem pattern?_setPattern_self (s : ProgramState) (leaf : NodeId) (p : PatternState) :
    (s.setPattern leaf p).pattern? leaf = some p := by
  simp [pattern?, setPattern]

end ProgramState

end Guided
