import Guided.Pattern.Parser

/-!
# The grammar of patterns

Which texts spell which trees, said without reading. A sequence spells its items one after
the other, and an item is an atom with at most one quantifier. Two rules look at what
follows: behind an item nothing may stand that has the form of a quantifier, so that a
brace is a character only where it begins none; and inside a class a hyphen behind a
character joins it to the next one, unless the class ends there.

Hexadecimal escapes are left out.

## Main definitions

* `ClassItemsSpelled`: the items of a class.
* `QuantifierForm`, `Bounds.Allowed`, `StartsQuantifier`: quantifiers and their bounds.
* `AtomSpelled`, `ItemSpelled`, `SequenceSpelled`, `BranchesSpelled`, `PatternSpelled`.
* `Pattern.groupDepth`: how deep the groups of a tree are nested.
-/
namespace Guided

/-- Characters that stand for themselves outside a class. -/
def isRaw (c : Char) : Bool :=
  !(['\\', '(', ')', '[', '$', '^', '.', '*', '+', '?', '|'].contains c)

/-- A character by what follows its backslash: a letter for a control character, or the
character itself if it is no ASCII letter or digit. -/
inductive EscapeSpelled : Char → Char → Prop
  | newline : EscapeSpelled '\n' 'n'
  | tab : EscapeSpelled '\t' 't'
  | carriageReturn : EscapeSpelled '\r' 'r'
  | formFeed : EscapeSpelled '\x0c' 'f'
  | verticalTab : EscapeSpelled '\x0b' 'v'
  | itself {c : Char} (h : c.isAlphanum = false) : EscapeSpelled c c

/-! ## Classes -/

/-- A character inside a class. -/
inductive ClassCharSpelled : Char → List Char → Prop
  | raw {c : Char} (h : c ≠ '\\') : ClassCharSpelled c [c]
  | escaped {c l : Char} (h : EscapeSpelled c l) : ClassCharSpelled c ['\\', l]

/-- An item of a class. A range cannot end in a bare bracket, which closes the class. -/
inductive ClassItemSpelled : ClassItem → List Char → Prop
  | single {c : Char} {s : List Char} (h : ClassCharSpelled c s) : ClassItemSpelled (.single c) s
  | range {low high : Char} {s t : List Char} (hlow : ClassCharSpelled low s)
      (hhigh : ClassCharSpelled high t) (hclose : t ≠ [']']) (hle : low ≤ high) :
      ClassItemSpelled (.range low high) (s ++ '-' :: t)

/-- Items of a class up to its closing bracket. Only the first item of all may begin with a
bare bracket, none may begin the name of a class, and a hyphen may follow a single character
only as the last thing in the class. -/
inductive ClassItemsSpelled : (first : Bool) → List ClassItem → List Char → Prop
  | nil : ClassItemsSpelled false [] []
  | cons {first : Bool} {item : ClassItem} {items : List ClassItem} {s t : List Char}
      (hitem : ClassItemSpelled item s) (hitems : ClassItemsSpelled false items t)
      (hclose : first = false → s.head? ≠ some ']') (hname : ¬ ['[', ':'] <+: s ++ t)
      (hhyphen : ∀ c, item = .single c → t.head? = some '-' → t = ['-']) :
      ClassItemsSpelled first (item :: items) (s ++ t)

/-! ## Quantifiers -/

/-- At least one decimal digit and nothing else. -/
def IsNumeral (digits : List Char) : Prop := digits ≠ [] ∧ ∀ c ∈ digits, c.isDigit = true

theorem isNumeral_toDigits (n : Nat) : IsNumeral (Nat.toDigits 10 n) :=
  ⟨Nat.toDigits_ne_nil, fun _ hc => Nat.isDigit_of_mem_toDigits (by decide) (by decide) hc⟩

/-- The bounds that a text has the form of, large and reversed ones among them. -/
inductive QuantifierForm : Bounds → List Char → Prop
  | star : QuantifierForm (0, none) ['*']
  | plus : QuantifierForm (1, none) ['+']
  | optional : QuantifierForm (0, some 1) ['?']
  | exactly {n : List Char} (hn : IsNumeral n) :
      QuantifierForm (numberOfDigits n, some (numberOfDigits n)) ('{' :: n ++ ['}'])
  | atLeast {n : List Char} (hn : IsNumeral n) :
      QuantifierForm (numberOfDigits n, none) ('{' :: n ++ [',', '}'])
  | atMost {m : List Char} (hm : IsNumeral m) :
      QuantifierForm (0, some (numberOfDigits m)) ('{' :: ',' :: m ++ ['}'])
  | between {n m : List Char} (hn : IsNumeral n) (hm : IsNumeral m) :
      QuantifierForm (numberOfDigits n, some (numberOfDigits m)) ('{' :: n ++ ',' :: m ++ ['}'])

/-- Bounds that fit in 32 bits and are in order. -/
def Bounds.Allowed (b : Bounds) : Prop :=
  b.1 < word32Bound ∧ ∀ m, b.2 = some m → m < word32Bound ∧ b.1 ≤ m

/-- A text begins with something of the form of a quantifier. -/
def StartsQuantifier (s : List Char) : Prop := ∃ b q, QuantifierForm b q ∧ q <+: s

/-! ## Patterns -/

mutual

/-- One atom. -/
inductive AtomSpelled : Node → List Char → Prop
  | endAnchor : AtomSpelled .endAnchor ['$']
  | raw {c : Char} (h : isRaw c = true) : AtomSpelled (.literal c) [c]
  | escaped {c l : Char} (h : EscapeSpelled c l) : AtomSpelled (.literal c) ['\\', l]
  | oneOf {items : List ClassItem} {s : List Char} (h : ClassItemsSpelled true items s)
      (hnegated : s.head? ≠ some '^') : AtomSpelled (.oneOf items) ('[' :: s ++ [']'])
  | group {p : List Node} {s : List Char} (h : PatternSpelled p s) :
      AtomSpelled (.group p) ('(' :: s ++ [')'])
  | unnumbered {p : List Node} {s : List Char} (h : PatternSpelled p s) :
      AtomSpelled (.group p) ('(' :: '?' :: ':' :: s ++ [')'])

/-- An atom, alone or with its quantifier. -/
inductive ItemSpelled : Node → List Char → Prop
  | once {atom : Node} {s : List Char} (h : AtomSpelled atom s) : ItemSpelled atom s
  | repeated {atom : Node} {s q : List Char} {min : Nat} {max : Option Nat}
      (h : AtomSpelled atom s) (hanchor : atom ≠ .endAnchor) (hform : QuantifierForm (min, max) q)
      (hallowed : Bounds.Allowed (min, max)) :
      ItemSpelled (.repetition min max [atom]) (s ++ q)

/-- Items one after the other, with no quantifier left behind any of them. -/
inductive SequenceSpelled : List Node → List Char → Prop
  | nil : SequenceSpelled [] []
  | cons {node : Node} {p : List Node} {s t : List Char} (hitem : ItemSpelled node s)
      (hrest : SequenceSpelled p t) (hbehind : ¬ StartsQuantifier t) :
      SequenceSpelled (node :: p) (s ++ t)

/-- Sequences separated by bars. -/
inductive BranchesSpelled : List (List Node) → List Char → Prop
  | single {p : List Node} {s : List Char} (h : SequenceSpelled p s) : BranchesSpelled [p] s
  | cons {p : List Node} {branches : List (List Node)} {s t : List Char}
      (h : SequenceSpelled p s) (hmore : BranchesSpelled branches t) :
      BranchesSpelled (p :: branches) (s ++ '|' :: t)

/-- A pattern: its only branch, or an alternation of several. -/
inductive PatternSpelled : List Node → List Char → Prop
  | ofBranches {branch : List Node} {more : List (List Node)} {s : List Char}
      (h : BranchesSpelled (branch :: more) s) :
      PatternSpelled (Pattern.ofBranches branch more) s

end

mutual

/-- How deep the groups below a node are nested. -/
def Node.groupDepth : Node → Nat
  | .literal _ | .oneOf _ | .endAnchor => 0
  | .repetition _ _ body => Pattern.groupDepth body
  | .alternation branches => Pattern.groupDepthOfAny branches
  | .group inner => Pattern.groupDepth inner + 1

/-- How deep the groups of a sequence are nested. -/
def Pattern.groupDepth : List Node → Nat
  | [] => 0
  | node :: rest => max node.groupDepth (Pattern.groupDepth rest)

/-- How deep the groups of several branches are nested. -/
def Pattern.groupDepthOfAny : List (List Node) → Nat
  | [] => 0
  | branch :: rest => max (Pattern.groupDepth branch) (Pattern.groupDepthOfAny rest)

end

theorem Pattern.groupDepth_append (p q : Pattern) :
    Pattern.groupDepth (p ++ q) = max (Pattern.groupDepth p) (Pattern.groupDepth q) := by
  induction p with
  | nil => simp [Pattern.groupDepth]
  | cons n p ih => rw [List.cons_append, Pattern.groupDepth, Pattern.groupDepth, ih, Nat.max_assoc]

@[simp] theorem Pattern.groupDepth_singleton (n : Node) :
    Pattern.groupDepth [n] = n.groupDepth := by
  simp [Pattern.groupDepth]

end Guided
