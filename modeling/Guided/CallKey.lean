/-!
# Names of nodes and of nested runs

Every node of a constraint has an identity of its own. A nested run is named by the node
that calls it and the prompt it is called under, so that evaluating a constraint again
under the same prompt asks for the same run.

## Main definitions

* `NodeId`, `CallKey`, and how messages show them.
-/
namespace Guided

/-- The identity of a node: a name for messages, and a number that tells apart nodes of
the same name. -/
structure NodeId where
  name : String
  serial : Nat
deriving DecidableEq, Repr

/-- A node in a message. -/
def NodeId.text (id : NodeId) : String := "<" ++ id.name ++ ">"

/-- A nested run: its call site and the prompt before it. -/
structure CallKey where
  site : NodeId
  prompt : String
deriving DecidableEq, Repr

/-- A nested run in a message, which shows its call site alone. -/
def CallKey.text (key : CallKey) : String := key.site.text

end Guided
