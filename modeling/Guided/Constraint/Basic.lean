import Guided.Pattern.Regex
import Guided.Query.Binding

/-!
# Constraints

A constraint is a graph without cycles: connectives over leaves that look at a variable,
at a nested run or at nothing. It is kept as a tree in which a node that is used in
several places occurs in each of them, always with the same identity.

## Main definitions

* `Operator`, `Constraint`, and a constructor for every kind of node.
* `Constraint.id`, `Constraint.operator`, `Constraint.inputs`.
-/
namespace Guided

/-- A pattern that the text of a variable has to match. -/
structure PatternLeaf where
  variableName : String
  regex : Regex

/-- What a node does with the results of its inputs. -/
inductive Operator (W : Type) where
  | all
  | any
  | negation
  | reference (name : String)
  | constant (v : Value)
  | pattern (leaf : PatternLeaf)
  | call (call : InlineCall W)

/-- A node with its inputs. -/
inductive Constraint (W : Type) where
  | node (id : NodeId) (operator : Operator W) (inputs : List (Constraint W))

namespace Constraint

variable {W : Type}

/-- The identity of a node. -/
def id : Constraint W → NodeId
  | node id _ _ => id

/-- The operator of a node. -/
def operator : Constraint W → Operator W
  | node _ operator _ => operator

/-- The inputs of a node. -/
def inputs : Constraint W → List (Constraint W)
  | node _ _ inputs => inputs

/-- True when all operands are. -/
def all (id : NodeId) (operands : List (Constraint W)) : Constraint W := node id .all operands

/-- True when any operand is. -/
def any (id : NodeId) (operands : List (Constraint W)) : Constraint W := node id .any operands

/-- True when its operand is not. -/
def negation (id : NodeId) (operand : Constraint W) : Constraint W := node id .negation [operand]

/-- The text of a variable. -/
def reference (id : NodeId) (name : String) : Constraint W := node id (.reference name) []

/-- A fixed value. -/
def constant (id : NodeId) (v : Value) : Constraint W := node id (.constant v) []

/-- A pattern on a variable. The variable is an input, with an identity of its own. -/
def pattern (id inputId : NodeId) (variableName : String) (regex : Regex) : Constraint W :=
  node id (.pattern ⟨variableName, regex⟩) [reference inputId variableName]

/-- A call of a nested query. -/
def call (id : NodeId) (call : InlineCall W) : Constraint W := node id (.call call) []

/-- Whether the node is a connective. -/
def isConnective (c : Constraint W) : Bool :=
  match c.operator with
  | .all | .any | .negation => true
  | _ => false

/-- The call of a node that makes one. -/
def call? (c : Constraint W) : Option (InlineCall W) :=
  match c.operator with
  | .call call => some call
  | _ => none

/-- The pattern of a node that has one. -/
def pattern? (c : Constraint W) : Option PatternLeaf :=
  match c.operator with
  | .pattern leaf => some leaf
  | _ => none

/-- Whether the node decides the final value of a variable. -/
def owns (c : Constraint W) (variableName : String) : Bool :=
  match c.operator with
  | .pattern leaf => leaf.variableName == variableName
  | .call call => call.variableName == variableName
  | _ => false

end Constraint

mutual

/-- The number of nodes of a tree, shared ones counted wherever they occur. -/
def Constraint.weight {W : Type} : Constraint W → Nat
  | .node _ _ inputs => 1 + Constraint.weightOfAll inputs

/-- The number of nodes of several trees. -/
def Constraint.weightOfAll {W : Type} : List (Constraint W) → Nat
  | [] => 0
  | c :: rest => c.weight + Constraint.weightOfAll rest

end

theorem Constraint.weightOfAll_append {W : Type} (cs ds : List (Constraint W)) :
    Constraint.weightOfAll (cs ++ ds) =
      Constraint.weightOfAll cs + Constraint.weightOfAll ds := by
  induction cs with
  | nil => simp [Constraint.weightOfAll]
  | cons c cs ih => simp [Constraint.weightOfAll, ih, Nat.add_assoc]

end Guided
