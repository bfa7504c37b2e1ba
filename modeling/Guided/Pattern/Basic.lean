/-!
# Pattern trees

A pattern is a sequence of nodes; concatenation is implicit in list position. The
grammar is the part of the usual regular expressions that can be followed one
character at a time: literals, bracketed classes, counted repetition, alternation,
groups and the end anchor.

## Main definitions

* `Node`, `Pattern`: the tree, compared structurally.
* `Node.skippable`: passing over a node while a further character follows.
* `Node.acceptsEmpty`: matching nothing where no input remains.
* `Pattern.distinct`: sequences, each kept where it first stands.
-/
namespace Guided

/-- One member of a bracketed class. -/
inductive ClassItem where
  | single (c : Char)
  | range (low high : Char)
deriving DecidableEq, Repr

/-- Both ends of a range belong to it; a range whose ends are reversed is empty. -/
def ClassItem.contains : ClassItem → Char → Bool
  | .single a, c => a == c
  | .range low high, c => low ≤ c && c ≤ high

/-- One element of a pattern. A repetition without `max` is unbounded. A group only
keeps its parentheses: it matches what its inner sequence matches. -/
inductive Node where
  | literal (c : Char)
  | oneOf (items : List ClassItem)
  | repetition (min : Nat) (max : Option Nat) (body : List Node)
  | alternation (branches : List (List Node))
  | group (inner : List Node)
  | endAnchor

/-- A sequence of nodes. The empty sequence matches only the empty text. -/
abbrev Pattern := List Node

/-- A class is the union of its items. -/
def classContains (items : List ClassItem) (c : Char) : Bool :=
  items.any (·.contains c)

mutual

/-- Whether two nodes are the same tree. -/
def Node.same : Node → Node → Bool
  | .literal c, .literal d => c == d
  | .oneOf xs, .oneOf ys => decide (xs = ys)
  | .repetition m k p, .repetition m' k' q => m == m' && k == k' && Pattern.same p q
  | .alternation bs, .alternation bs' => Pattern.sameBranches bs bs'
  | .group p, .group q => Pattern.same p q
  | .endAnchor, .endAnchor => true
  | _, _ => false

/-- Whether two sequences are the same, node by node. -/
def Pattern.same : List Node → List Node → Bool
  | [], [] => true
  | a :: p, b :: q => a.same b && Pattern.same p q
  | _, _ => false

/-- Whether two lists of branches are the same, branch by branch. -/
def Pattern.sameBranches : List (List Node) → List (List Node) → Bool
  | [], [] => true
  | p :: bs, q :: bs' => Pattern.same p q && Pattern.sameBranches bs bs'
  | _, _ => false

end

mutual

theorem Node.same_iff : ∀ a b : Node, a.same b = true ↔ a = b
  | .literal _, b => by cases b <;> simp [Node.same]
  | .oneOf _, b => by cases b <;> simp [Node.same]
  | .repetition _ _ p, b => by
      cases b <;> simp [Node.same, Pattern.same_iff p, and_assoc]
  | .alternation bs, b => by cases b <;> simp [Node.same, Pattern.sameBranches_iff bs]
  | .group p, b => by cases b <;> simp [Node.same, Pattern.same_iff p]
  | .endAnchor, b => by cases b <;> simp [Node.same]

theorem Pattern.same_iff : ∀ p q : List Node, Pattern.same p q = true ↔ p = q
  | [], q => by cases q <;> simp [Pattern.same]
  | a :: p, q => by
      cases q with
      | nil => simp [Pattern.same]
      | cons b q => simp [Pattern.same, Node.same_iff a b, Pattern.same_iff p q]

theorem Pattern.sameBranches_iff :
    ∀ bs bs' : List (List Node), Pattern.sameBranches bs bs' = true ↔ bs = bs'
  | [], bs' => by cases bs' <;> simp [Pattern.sameBranches]
  | p :: bs, bs' => by
      cases bs' with
      | nil => simp [Pattern.sameBranches]
      | cons q bs' =>
          simp [Pattern.sameBranches, Pattern.same_iff p q, Pattern.sameBranches_iff bs bs']

end

instance : DecidableEq Node := fun a b => decidable_of_iff _ (Node.same_iff a b)

/-- Sequences, each kept only where it first stands. The length goes before the sequence,
so that sequences of different length are told apart without looking inside them. -/
def Pattern.distinct (ps : List Pattern) : List Pattern :=
  (ps.map fun p => (p.length, p)).eraseDups.map Prod.snd

/-- The lengths only save comparisons. -/
theorem Pattern.distinct_eq_eraseDups (ps : List Pattern) :
    Pattern.distinct ps = ps.eraseDups := by
  match ps with
  | [] => simp [Pattern.distinct]
  | p :: ps =>
      have hlater : ∀ q : Pattern, (!((q.length, q) == (p.length, p))) = !(q == p) := by
        intro q
        have hpair : (q.length, q) = (p.length, p) ↔ q = p := by
          constructor
          · exact congrArg Prod.snd
          · rintro rfl
            rfl
        exact congrArg (!·) (Bool.eq_iff_iff.2 (by simpa only [beq_iff_eq] using hpair))
      have hrest := Pattern.distinct_eq_eraseDups (ps.filter fun q => !(q == p))
      simp only [Pattern.distinct, List.map_cons, List.eraseDups_cons, List.filter_map,
        Function.comp_def, hlater] at hrest ⊢
      rw [hrest]
termination_by ps.length
decreasing_by exact Nat.lt_succ_of_le (List.length_filter_le _ _)

mutual

/-- Whether the node can be passed over while the next character belongs to what
follows it. The end anchor cannot: a following character means input has not ended. -/
def Node.skippable : Node → Bool
  | .literal _ | .oneOf _ | .endAnchor => false
  | .group inner => Pattern.skippable inner
  | .alternation branches => Pattern.anySkippable branches
  | .repetition min max body => min == 0 || max == some 0 || Pattern.skippable body

/-- A sequence is passed over when all of its nodes are. -/
def Pattern.skippable : List Node → Bool
  | [] => true
  | node :: rest => node.skippable && Pattern.skippable rest

/-- One branch that can be passed over is enough. -/
def Pattern.anySkippable : List (List Node) → Bool
  | [] => false
  | branch :: rest => Pattern.skippable branch || Pattern.anySkippable rest

end

mutual

/-- Whether the node matches the empty text at the end of input. -/
def Node.acceptsEmpty : Node → Bool
  | .literal _ | .oneOf _ => false
  | .endAnchor => true
  | .group inner => Pattern.acceptsEmpty inner
  | .alternation branches => Pattern.anyAcceptsEmpty branches
  | .repetition min max body => min == 0 || max == some 0 || Pattern.acceptsEmpty body

/-- A sequence matches the empty remaining input when all of its nodes do. -/
def Pattern.acceptsEmpty : List Node → Bool
  | [] => true
  | node :: rest => node.acceptsEmpty && Pattern.acceptsEmpty rest

/-- One branch that matches the empty remaining input is enough. -/
def Pattern.anyAcceptsEmpty : List (List Node) → Bool
  | [] => false
  | branch :: rest => Pattern.acceptsEmpty branch || Pattern.anyAcceptsEmpty rest

end

end Guided
