import Guided.Constraint.Basic
import Guided.Program.State

/-!
# Listing the nodes of a constraint

`walk` lists every node once, a node before its inputs and inputs in order. It keeps a
stack of nodes still to visit and decides only when it takes a node from it whether that
node has been listed before.

## Main definitions

* `Constraint.walk`: all nodes.
* `Constraint.inlineCalls`: the calls below connectives, which are all of them.
* `Constraint.callKeys`: the nested runs asked for in a state.
-/
namespace Guided

namespace Constraint

variable {W : Type}

/-- Whether a node has been listed. -/
def listed (out : List (Constraint W)) (id : NodeId) : Bool := out.any (·.id == id)

/-- List the nodes on a stack, and below them, behind those in `out`. -/
def walkFrom (stack out : List (Constraint W)) : List (Constraint W) :=
  match stack with
  | [] => out
  | node id operator inputs :: rest =>
      if listed out id then walkFrom rest out
      else walkFrom (inputs ++ rest) (out ++ [node id operator inputs])
termination_by weightOfAll stack
decreasing_by
  all_goals simp only [weightOfAll, weightOfAll_append, weight]
  all_goals omega

/-- Every node once, from the root downwards. -/
def walk (root : Constraint W) : List (Constraint W) := walkFrom [root] []

/-- The nested runs that a constraint asks for under a prompt, in the order of their
nodes. -/
def callKeys (root : Constraint W) (prompt : String) : List CallKey :=
  (root.walk.filter fun c => c.call?.isSome).map fun c => ⟨c.id, prompt⟩

end Constraint

mutual

/-- The calls at a node or below it through connectives, behind those in `out`. -/
def Constraint.collectCalls {W : Type} (out : List (Constraint W)) :
    Constraint W → List (Constraint W)
  | .node id operator inputs =>
      match operator with
      | .call _ =>
          if Constraint.listed out id then out else out ++ [.node id operator inputs]
      | .all | .any | .negation => Constraint.collectCallsOfAll out inputs
      | _ => out

/-- The calls of several nodes, one node after the other. -/
def Constraint.collectCallsOfAll {W : Type} (out : List (Constraint W)) :
    List (Constraint W) → List (Constraint W)
  | [] => out
  | c :: rest => Constraint.collectCallsOfAll (Constraint.collectCalls out c) rest

end

/-- The calls of a constraint, each once, in the order they are met. -/
def Constraint.inlineCalls {W : Type} (root : Constraint W) : List (Constraint W) :=
  Constraint.collectCalls [] root

end Guided
