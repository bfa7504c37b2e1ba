import Guided.Pattern.FullMatch
import Guided.Proofs.Pattern.Meaning

/-!
# Whole-text matching decides the language

The marks inside a pattern stand for what may still be read: a mark continues with a text
if the text leads from the mark to the end of the pattern. Reading a character moves the
marks to where they continue with what follows the character, and a mark can leave where
it continues with nothing. So the marks left by a whole text can leave exactly when the
pattern takes that text.

## Main definitions

* `Node.Continues`, `Pattern.Continues`: what may still be read from the marks.
* `RoundsLeft`: how many rounds may follow a given one.

## Main statements

* `Pattern.leaves_iff`, `Pattern.continues_read_iff`: what the two passes over the marks do.
* `Pattern.matchesAll_iff`: a whole text is matched if and only if the pattern accepts it.
-/
namespace Guided

open List

/-- Whether `n` more rounds may follow the one with the given number. The round itself
has been entered, so that none more is never too many. -/
def RoundsLeft (min : Nat) (max : Option Nat) (round n : Nat) : Prop :=
  min ≤ round + 1 + n ∧ ∀ m, max = some m → n = 0 ∨ round + 1 + n ≤ m

mutual

/-- A mark in the node leads to its end by reading `u`, when `rest` remains after it. -/
def Node.Continues : Node → Marks → List Char → List Char → Prop
  | .literal _, marks, u, _ => marks.isOnCharacter = true ∧ u = []
  | .oneOf _, marks, u, _ => marks.isOnCharacter = true ∧ u = []
  | .endAnchor, _, _, _ => False
  | .group inner, marks, u, rest => Pattern.Continues inner marks.parts u rest
  | .alternation branches, marks, u, rest => Pattern.AnyContinues branches marks.parts u rest
  | .repetition min max body, marks, u, rest =>
      ∃ round ∈ marks.rounds, ∃ v w, u = v ++ w ∧
        Pattern.Continues body round.2 v (w ++ rest) ∧
          ∃ n, RoundsLeft min max round.1 n ∧ Times (Pattern.Matches body) n w rest

/-- A mark in the sequence leads to its end by reading `u`: first out of its node and then
through the nodes after it. -/
def Pattern.Continues : List Node → List Marks → List Char → List Char → Prop
  | node :: nodes, marks :: more, u, rest =>
      (∃ v w, u = v ++ w ∧ node.Continues marks v (w ++ rest) ∧
        Pattern.Matches nodes w rest) ∨ Pattern.Continues nodes more u rest
  | _, _, _, _ => False

/-- A mark in one of the branches leads to its end by reading `u`. -/
def Pattern.AnyContinues : List (List Node) → List Marks → List Char → List Char → Prop
  | branch :: branches, marks :: more, u, rest =>
      Pattern.Continues branch marks.parts u rest ∨ Pattern.AnyContinues branches more u rest
  | _, _, _, _ => False

end

namespace Marks

@[simp] theorem parts_ofParts (parts : List Marks) : (ofParts parts).parts = parts := by
  cases parts <;> rfl

@[simp] theorem rounds_ofRounds (rounds : List (Nat × List Marks)) :
    (ofRounds rounds).rounds = rounds := by
  cases rounds <;> rfl

@[simp] theorem isOnCharacter_ofCharacter (isRead : Bool) :
    (ofCharacter isRead).isOnCharacter = isRead := by
  cases isRead <;> rfl

theorem eq_none_of_not_isActive {marks : Marks} (h : marks.isActive = false) :
    marks = none := by
  cases marks with
  | none => rfl
  | _ => simp [isActive] at h

end Marks

section NoMarks

variable {u rest : List Char}

@[simp] theorem Pattern.continues_nil_nodes (marks : List Marks) :
    Pattern.Continues [] marks u rest ↔ False := by
  cases marks <;> simp only [Pattern.Continues]

@[simp] theorem Pattern.continues_nil (p : Pattern) :
    Pattern.Continues p [] u rest ↔ False := by
  cases p <;> simp only [Pattern.Continues]

@[simp] theorem Pattern.anyContinues_nil (branches : List Pattern) :
    Pattern.AnyContinues branches [] u rest ↔ False := by
  cases branches <;> simp only [Pattern.AnyContinues]

theorem Pattern.continues_cons (node : Node) (p : Pattern) (marks : Marks) (more : List Marks) :
    Pattern.Continues (node :: p) (marks :: more) u rest ↔
      (∃ v w, u = v ++ w ∧ node.Continues marks v (w ++ rest) ∧ Pattern.Matches p w rest) ∨
        Pattern.Continues p more u rest := by
  simp only [Pattern.Continues]

@[simp] theorem Node.continues_none (node : Node) : node.Continues .none u rest ↔ False := by
  cases node <;> simp [Node.Continues, Marks.isOnCharacter, Marks.parts, Marks.rounds]

/-- Marks that are left out because nothing is marked continue with nothing. -/
theorem Pattern.continues_before (node : Node) (p : Pattern) (marks : Marks)
    (more : List Marks) :
    Pattern.Continues (node :: p) (marks.before more) u rest ↔
      (∃ v w, u = v ++ w ∧ node.Continues marks v (w ++ rest) ∧ Pattern.Matches p w rest) ∨
        Pattern.Continues p more u rest := by
  rw [Marks.before]
  split
  · rename_i h
    obtain ⟨hmore, hmarks⟩ : more = [] ∧ marks.isActive = false := by simpa using h
    rw [hmore, Marks.eq_none_of_not_isActive hmarks]
    simp
  · exact Pattern.continues_cons node p marks more

theorem Pattern.anyContinues_before (branch : Pattern) (branches : List Pattern)
    (marks : Marks) (more : List Marks) :
    Pattern.AnyContinues (branch :: branches) (marks.before more) u rest ↔
      Pattern.Continues branch marks.parts u rest ∨
        Pattern.AnyContinues branches more u rest := by
  rw [Marks.before]
  split
  · rename_i h
    obtain ⟨hmore, hmarks⟩ : more = [] ∧ marks.isActive = false := by simpa using h
    rw [hmore, Marks.eq_none_of_not_isActive hmarks]
    simp [Marks.parts]
  · simp only [Pattern.AnyContinues]

end NoMarks

/-! ## Leaving -/

section Leaving

variable (rest : List Char)

/-- Rounds that are missing are made up for by rounds that take nothing. -/
theorem exists_roundsLeft_nil_iff {min : Nat} {max : Option Nat} {body : Pattern}
    (hbounds : ∀ m, max = some m → min ≤ m) (hbody : Pattern.WellFormed body) (r : Nat) :
    (if Pattern.passable rest.isEmpty body = true then 0 else min) ≤ r + 1 ↔
      ∃ n, RoundsLeft min max r n ∧ Times (Pattern.Matches body) n [] rest := by
  have hpass : Pattern.Matches body [] rest ↔ Pattern.passable rest.isEmpty body = true :=
    Pattern.matches_nil_iff body hbody rest
  simp only [times_nil_iff, hpass, RoundsLeft]
  by_cases hp : Pattern.passable rest.isEmpty body = true
  · rw [if_pos hp]
    constructor
    · intro _
      refine ⟨min - (r + 1), ⟨by omega, ?_⟩, Or.inr hp⟩
      intro m hm
      have hle : min ≤ m := hbounds m hm
      omega
    · exact fun _ => Nat.zero_le _
  · rw [if_neg hp]
    constructor
    · intro hmin
      exact ⟨0, ⟨by omega, fun m _ => Or.inl rfl⟩, Or.inl rfl⟩
    · intro hrounds
      obtain ⟨n, ⟨hmin, -⟩, hn | hp'⟩ := hrounds
      · omega
      · exact absurd hp' hp

mutual

/-- A mark can leave a node where it continues with nothing. -/
theorem Node.leaves_iff :
    ∀ node : Node, node.WellFormed → ∀ marks : Marks,
      node.leaves rest.isEmpty marks = true ↔ node.Continues marks [] rest
  | .literal _, _, marks => by simp [Node.leaves, Node.Continues]
  | .oneOf _, _, marks => by simp [Node.leaves, Node.Continues]
  | .endAnchor, _, marks => by simp [Node.leaves, Node.Continues]
  | .group inner, h, marks => by
      rw [Node.WellFormed] at h
      rw [Node.leaves, Node.Continues, Pattern.leaves_iff inner h false]
      simp
  | .alternation branches, h, marks => by
      rw [Node.WellFormed] at h
      rw [Node.leaves, Node.Continues]
      exact Pattern.anyLeaves_iff branches h.2 marks.parts
  | .repetition min max body, h, marks => by
      obtain ⟨hbounds, hbody⟩ : (∀ m, max = some m → min ≤ m) ∧ Pattern.WellFormed body := by
        simpa only [Node.WellFormed] using h
      have henough := exists_roundsLeft_nil_iff rest hbounds hbody
      rw [Node.leaves, Node.Continues, any_eq_true]
      simp only [Bool.and_eq_true, decide_eq_true_eq, henough,
        Pattern.leaves_iff body hbody false, Bool.false_eq_true, false_and, or_false]
      constructor
      · intro hleave
        obtain ⟨round, hround, hleft, hleaves⟩ := hleave
        exact ⟨round, hround, [], [], rfl, by simpa using hleaves, hleft⟩
      · intro hcontinues
        obtain ⟨round, hround, v, w, hvw, hleaves, hleft⟩ := hcontinues
        obtain ⟨rfl, rfl⟩ := append_eq_nil_iff.1 hvw.symm
        exact ⟨round, hround, hleft, by simpa using hleaves⟩

/-- A mark can leave a sequence where one continues with nothing, or where one that has
entered can pass all of it. -/
theorem Pattern.leaves_iff :
    ∀ p : List Node, Pattern.WellFormed p → ∀ (entered : Bool) (marks : List Marks),
      Pattern.leaves rest.isEmpty p entered marks = true ↔
        Pattern.Continues p marks [] rest ∨ entered = true ∧ Pattern.Matches p [] rest
  | [], _, entered, marks => by
      cases marks <;> simp [Pattern.leaves]
  | node :: p, h, entered, [] => by
      rw [Pattern.wellFormed_cons] at h
      rw [Pattern.leaves, Pattern.continues_nil, false_or,
        Pattern.matches_nil_iff (node :: p) (by simpa using h), Pattern.passable_cons]
      simp [Pattern.leaves_iff p h.2 true, Pattern.matches_nil_iff p h.2, and_assoc]
  | node :: p, h, entered, marks :: more => by
      rw [Pattern.wellFormed_cons] at h
      rw [Pattern.leaves, Pattern.leaves_iff p h.2, Pattern.continues_cons, Bool.or_eq_true,
        Bool.and_eq_true, node.leaves_iff h.1, ← node.matches_nil_iff h.1,
        Pattern.matches_cons]
      constructor
      · rintro (hmore | ⟨hnode | ⟨hentered, hnode⟩, hp⟩)
        · exact Or.inl (Or.inr hmore)
        · exact Or.inl (Or.inl ⟨[], [], rfl, hnode, hp⟩)
        · exact Or.inr ⟨hentered, [], [], rfl, hnode, hp⟩
      · rintro ((⟨v, w, hvw, hnode, hp⟩ | hmore) | ⟨hentered, v, w, hvw, hnode, hp⟩)
        · obtain ⟨rfl, rfl⟩ := append_eq_nil_iff.1 hvw.symm
          exact Or.inr ⟨Or.inl hnode, hp⟩
        · exact Or.inl hmore
        · obtain ⟨rfl, rfl⟩ := append_eq_nil_iff.1 hvw.symm
          exact Or.inr ⟨Or.inr ⟨hentered, hnode⟩, hp⟩

theorem Pattern.anyLeaves_iff :
    ∀ bs : List (List Node), Pattern.WellFormedEach bs → ∀ marks : List Marks,
      Pattern.anyLeaves rest.isEmpty bs marks = true ↔ Pattern.AnyContinues bs marks [] rest
  | [], _, marks => by cases marks <;> simp [Pattern.anyLeaves, Pattern.AnyContinues]
  | branch :: bs, _, [] => by simp [Pattern.anyLeaves]
  | branch :: bs, h, marks :: more => by
      rw [Pattern.WellFormedEach] at h
      rw [Pattern.anyLeaves, Pattern.AnyContinues, Bool.or_eq_true,
        Pattern.leaves_iff branch h.1 false, Pattern.anyLeaves_iff bs h.2]
      simp

end

end Leaving

/-! ## Reading a character -/

section Rounds

variable (read : Bool → List Marks → List Marks) (after before : Nat → List Marks → Prop)
  (entry : Nat → Prop)

/-- A mark that enters a round in which there were none. -/
theorem exists_enterRound_iff
    (hread : ∀ r entered marks,
      after r (read entered marks) ↔ before r marks ∨ entered = true ∧ entry r)
    (hafter : ∀ r, ¬ after r []) (hbefore : ∀ r, ¬ before r []) (entering : Option Nat) :
    (∃ round ∈ enterRound read entering, after round.1 round.2) ↔
      ∃ r, entering = some r ∧ entry r := by
  cases entering with
  | none => simp [enterRound]
  | some r =>
      have hr : after r (read true []) ↔ entry r := by simp [hread, hbefore]
      by_cases hempty : (read true []).isEmpty = true
      · have hnone : ¬ entry r := by
          rw [← hr, isEmpty_iff.1 hempty]
          exact hafter r
        simp [enterRound, hempty, hnone]
      · simp [enterRound, hempty, hr]

/-- A round is kept if there are marks in it, and without any nothing comes of it. -/
theorem exists_kept_iff (hafter : ∀ r, ¬ after r []) (r : Nat) (marks : List Marks)
    (later : List (Nat × List Marks)) :
    (∃ round ∈ (if marks.isEmpty then later else (r, marks) :: later),
      after round.1 round.2) ↔ after r marks ∨ ∃ round ∈ later, after round.1 round.2 := by
  by_cases hempty : marks.isEmpty = true
  · have hnone : ¬ after r marks := by
      rw [isEmpty_iff.1 hempty]
      exact hafter r
    simp [hempty, hnone]
  · simp [hempty]

/-- Reading moves the marks in every round, a mark that leaves a round enters the next,
and one that comes to the repetition enters the first. -/
theorem exists_readRounds_iff (next : Nat → Option Nat) (leaves : List Marks → Bool)
    (hread : ∀ r entered marks,
      after r (read entered marks) ↔ before r marks ∨ entered = true ∧ entry r)
    (hafter : ∀ r, ¬ after r []) (hbefore : ∀ r, ¬ before r [])
    (entering : Option Nat) (rounds : List (Nat × List Marks)) :
    (∃ round ∈ readRounds next leaves read entering rounds, after round.1 round.2) ↔
      (∃ r, entering = some r ∧ entry r) ∨
        ∃ round ∈ rounds, before round.1 round.2 ∨
          leaves round.2 = true ∧ ∃ r, next round.1 = some r ∧ entry r := by
  have henter := exists_enterRound_iff read after before entry hread hafter hbefore
  induction rounds generalizing entering with
  | nil => simpa [readRounds] using henter entering
  | cons round rest ih =>
      obtain ⟨r, marks⟩ := round
      let onward := if leaves marks then next r else none
      let here := read (entering == some r || onward == some r) marks
      have honward : (∃ k, onward = some k ∧ entry k) ↔
          leaves marks = true ∧ ∃ k, next r = some k ∧ entry k := by
        by_cases hleaves : leaves marks = true <;> simp [onward, hleaves]
      have hhere : after r here ↔
          before r marks ∨ (entering = some r ∨ onward = some r) ∧ entry r := by
        simp [here, hread]
      have hstep : readRounds next leaves read entering ((r, marks) :: rest) =
          (if entering == some r then [] else enterRound read entering) ++
            if here.isEmpty then
              readRounds next leaves read (if onward == some r then none else onward) rest
            else (r, here) ::
              readRounds next leaves read (if onward == some r then none else onward) rest := rfl
      rw [hstep]
      simp only [mem_append, or_and_right, exists_or, exists_kept_iff after hafter, hhere, ih,
        mem_cons, exists_eq_left, ← honward]
      -- a mark entering this very round is read together with those already in it
      by_cases hentering : entering = some r <;> by_cases hon : onward = some r <;>
        simp [hentering, hon, henter, or_assoc, or_comm, or_left_comm]

end Rounds

theorem roundsLeft_succ_iff {min : Nat} {max : Option Nat} {round n : Nat} :
    RoundsLeft min max round (n + 1) ↔
      ∃ r, nextRound min max round = some r ∧ RoundsLeft min max r n := by
  cases max with
  | none =>
      have hround : Nat.min (round + 1) min = round + 1 ∨
          Nat.min (round + 1) min = min ∧ min ≤ round + 1 := by
        rcases Nat.le_total (round + 1) min with h | h
        · exact Or.inl (Nat.min_eq_left h)
        · exact Or.inr ⟨Nat.min_eq_right h, h⟩
      simp only [RoundsLeft, nextRound, Option.some.injEq, exists_eq_left', reduceCtorEq,
        false_implies, implies_true, and_true]
      omega
  | some m =>
      simp only [RoundsLeft, nextRound, Option.some.injEq, forall_eq']
      by_cases h : round + 1 < m
      · simp only [if_pos h, Option.some.injEq, exists_eq_left']
        omega
      · simp only [if_neg h, reduceCtorEq, false_and, exists_false, iff_false, false_or]
        omega

theorem roundsLeft_first_iff {min : Nat} {max : Option Nat} {n : Nat} :
    (min ≤ n + 1 ∧ ∀ m, max = some m → n + 1 ≤ m) ↔
      ∃ r, firstRound max = some r ∧ RoundsLeft min max r n := by
  cases max with
  | none =>
      simp only [RoundsLeft, firstRound, reduceCtorEq, if_false, Option.some.injEq,
        exists_eq_left', false_implies, implies_true, and_true]
      omega
  | some m =>
      simp only [RoundsLeft, firstRound, Option.some.injEq, forall_eq']
      by_cases h : m = 0
      · simp only [if_pos h, reduceCtorEq, false_and, exists_false, iff_false]
        omega
      · simp only [if_neg h, Option.some.injEq, exists_eq_left']
        omega

section Reading

variable (c : Char)

/-- In round `r` of a repetition something is taken as `first` says, and after it what the
rounds that are left take. -/
def FromRound (min : Nat) (max : Option Nat) (body : Pattern)
    (first : List Char → List Char → Prop) (r : Nat) (u rest : List Char) : Prop :=
  ∃ v w, u = v ++ w ∧ first v (w ++ rest) ∧
    ∃ n, RoundsLeft min max r n ∧ Times (Pattern.Matches body) n w rest

theorem continues_repetition_iff {min : Nat} {max : Option Nat} {body : Pattern} {marks : Marks}
    {u rest : List Char} :
    (Node.repetition min max body).Continues marks u rest ↔ ∃ round ∈ marks.rounds,
      FromRound min max body (Pattern.Continues body round.2) round.1 u rest := by
  rw [Node.Continues]
  rfl

/-- After a character the marks in the rounds of a repetition continue as the law for its
body says: those in a round read on, and those that leave one read in the next. -/
theorem continues_read_repetition_iff {min : Nat} {max : Option Nat} {body : Pattern}
    (hbody : Pattern.WellFormed body)
    (ih : ∀ (entered : Bool) (marks : List Marks) (u rest : List Char),
      Pattern.Continues body (Pattern.read c body entered marks) u rest ↔
        Pattern.Continues body marks (c :: u) rest ∨
          entered = true ∧ Pattern.Matches body (c :: u) rest)
    (entered : Bool) (marks : Marks) (u rest : List Char) :
    (Node.repetition min max body).Continues
        ((Node.repetition min max body).read c entered marks) u rest ↔
      (Node.repetition min max body).Continues marks (c :: u) rest ∨
        entered = true ∧ (Node.repetition min max body).Matches (c :: u) rest := by
  have hread : ∀ r entered parts,
      FromRound min max body (Pattern.Continues body (Pattern.read c body entered parts)) r u rest ↔
        FromRound min max body (fun v x => Pattern.Continues body parts (c :: v) x) r u rest ∨
          entered = true ∧
            FromRound min max body (fun v x => Pattern.Matches body (c :: v) x) r u rest := by
    intro r entered parts
    simp only [FromRound, ih, or_and_right, and_or_left, exists_or, and_assoc, exists_and_left,
      and_left_comm]
  have hrounds := exists_readRounds_iff (Pattern.read c body)
    (fun r parts => FromRound min max body (Pattern.Continues body parts) r u rest)
    (fun r parts => FromRound min max body (fun v x => Pattern.Continues body parts (c :: v) x)
      r u rest)
    (fun r => FromRound min max body (fun v x => Pattern.Matches body (c :: v) x) r u rest)
    (nextRound min max) (Pattern.leaves false body false) hread
    (by simp [FromRound]) (by simp [FromRound])
    (if entered then firstRound max else none) marks.rounds
  have hskip := Pattern.matches_nil_of_cons hbody
  rw [Node.read, continues_repetition_iff, Marks.rounds_ofRounds, hrounds, or_comm]
  refine or_congr ?_ ?_
  · rw [continues_repetition_iff]
    refine exists_congr fun round => and_congr_right fun _ => ?_
    have hleaves : Pattern.leaves false body false round.2 = true ↔
        Pattern.Continues body round.2 [] (c :: u ++ rest) := by
      simpa using Pattern.leaves_iff (c :: u ++ rest) body hbody false round.2
    have hentry : (∃ r, nextRound min max round.1 = some r ∧
        FromRound min max body (fun v x => Pattern.Matches body (c :: v) x) r u rest) ↔
        ∃ n, RoundsLeft min max round.1 n ∧ Times (Pattern.Matches body) n (c :: u) rest := by
      rw [exists_times_cons_iff hskip]
      simp only [roundsLeft_succ_iff, FromRound]
      cases nextRound min max round.1 <;> simp
    rw [hleaves, hentry, FromRound, FromRound, exists_split_cons_iff, or_comm]
  · rw [Node.matches_repetition]
    simp only [← and_assoc]
    rw [exists_times_cons_iff hskip]
    simp only [roundsLeft_first_iff, FromRound]
    cases entered with
    | false => simp
    | true => cases firstRound max <;> simp

mutual

/-- After a character the marks in a node continue with what the marks before it continue
with behind the character, and so does a mark that has entered with it. -/
theorem Node.continues_read_iff :
    ∀ node : Node, node.WellFormed → ∀ (entered : Bool) (marks : Marks) (u rest : List Char),
      node.Continues (node.read c entered marks) u rest ↔
        node.Continues marks (c :: u) rest ∨ entered = true ∧ node.Matches (c :: u) rest
  | .literal a, _, entered, marks, u, rest => by
      simp only [Node.Continues, Node.read, Marks.isOnCharacter_ofCharacter, Bool.and_eq_true,
        beq_iff_eq, reduceCtorEq, and_false, false_or, Node.matches_literal, cons.injEq]
      constructor
      · intro h
        exact ⟨h.1.1, h.1.2.symm, h.2⟩
      · intro h
        exact ⟨⟨h.1, h.2.1.symm⟩, h.2.2⟩
  | .oneOf items, _, entered, marks, u, rest => by
      simp only [Node.Continues, Node.read, Marks.isOnCharacter_ofCharacter, Bool.and_eq_true,
        reduceCtorEq, and_false, false_or, Node.matches_oneOf, cons.injEq]
      constructor
      · intro h
        exact ⟨h.1.1, c, ⟨rfl, h.2⟩, h.1.2⟩
      · intro h
        obtain ⟨hentered, d, ⟨rfl, hu⟩, hd⟩ := h
        exact ⟨⟨hentered, hd⟩, hu⟩
  | .endAnchor, _, entered, marks, u, rest => by simp [Node.Continues]
  | .group inner, h, entered, marks, u, rest => by
      rw [Node.WellFormed] at h
      rw [Node.Continues, Node.Continues, Node.read, Marks.parts_ofParts, Node.matches_group]
      exact Pattern.continues_read_iff inner h entered marks.parts u rest
  | .alternation branches, h, entered, marks, u, rest => by
      rw [Node.WellFormed] at h
      rw [Node.Continues, Node.Continues, Node.read, Marks.parts_ofParts,
        Node.matches_alternation, ← Pattern.matchesAny_iff]
      exact Pattern.anyContinues_readEach_iff branches h.2 entered marks.parts u rest
  | .repetition min max body, h, entered, marks, u, rest => by
      obtain ⟨-, hbody⟩ : (∀ m, max = some m → min ≤ m) ∧ Pattern.WellFormed body := by
        simpa only [Node.WellFormed] using h
      exact continues_read_repetition_iff c hbody (Pattern.continues_read_iff body hbody)
        entered marks u rest

/-- The same for a sequence, where what leaves a node enters the next. -/
theorem Pattern.continues_read_iff :
    ∀ p : List Node, Pattern.WellFormed p →
      ∀ (entered : Bool) (marks : List Marks) (u rest : List Char),
        Pattern.Continues p (Pattern.read c p entered marks) u rest ↔
          Pattern.Continues p marks (c :: u) rest ∨
            entered = true ∧ Pattern.Matches p (c :: u) rest
  | [], _, entered, marks, u, rest => by cases marks <;> simp
  | node :: p, h, entered, [], u, rest => by
      rw [Pattern.wellFormed_cons] at h
      have hpass : node.passable false = true ↔ node.Matches [] (c :: u ++ rest) := by
        simpa using (node.matches_nil_iff h.1 (c :: u ++ rest)).symm
      rw [Pattern.read]
      cases entered with
      | false => simp
      | true =>
          rw [if_pos rfl, Pattern.continues_before, Pattern.continues_read_iff p h.2,
            Pattern.matches_cons, exists_split_cons_iff, hpass]
          simp [Node.continues_read_iff node h.1, or_comm]
  | node :: p, h, entered, marks :: more, u, rest => by
      rw [Pattern.wellFormed_cons] at h
      have hpass : node.passable false = true ↔ node.Matches [] (c :: u ++ rest) := by
        simpa using (node.matches_nil_iff h.1 (c :: u ++ rest)).symm
      have hleaves : node.leaves false marks = true ↔
          node.Continues marks [] (c :: u ++ rest) := by
        simpa using Node.leaves_iff (c :: u ++ rest) node h.1 marks
      have hhere : ∀ v x, node.Continues
          (if entered || marks.isActive then node.read c entered marks else .none) v x ↔
            node.Continues marks (c :: v) x ∨ entered = true ∧ node.Matches (c :: v) x := by
        intro v x
        by_cases hread : (entered || marks.isActive) = true
        · rw [if_pos hread]
          exact node.continues_read_iff h.1 entered marks v x
        · obtain ⟨hentered, hactive⟩ : entered = false ∧ marks.isActive = false := by
            simpa using hread
          obtain rfl : marks = .none := Marks.eq_none_of_not_isActive hactive
          simp [hentered, hactive]
      rw [Pattern.read, Pattern.continues_before, Pattern.continues_read_iff p h.2,
        Pattern.continues_cons, Pattern.matches_cons, exists_split_cons_iff,
        exists_split_cons_iff]
      simp only [hhere]
      rw [Bool.or_eq_true, Bool.and_eq_true, hpass, hleaves]
      constructor
      · intro hread
        rcases hread with ⟨v, w, hvw, hnode | ⟨hentered, hnode⟩, hp⟩ | hmore |
          ⟨hnode | ⟨hentered, hnode⟩, hp⟩
        · exact Or.inl (Or.inl (Or.inr ⟨v, w, hvw, hnode, hp⟩))
        · exact Or.inr ⟨hentered, Or.inr ⟨v, w, hvw, hnode, hp⟩⟩
        · exact Or.inl (Or.inr hmore)
        · exact Or.inl (Or.inl (Or.inl ⟨hnode, hp⟩))
        · exact Or.inr ⟨hentered, Or.inl ⟨hnode, hp⟩⟩
      · intro hread
        rcases hread with ((⟨hnode, hp⟩ | ⟨v, w, hvw, hnode, hp⟩) | hmore) |
          ⟨hentered, ⟨hnode, hp⟩ | ⟨v, w, hvw, hnode, hp⟩⟩
        · exact Or.inr (Or.inr ⟨Or.inl hnode, hp⟩)
        · exact Or.inl ⟨v, w, hvw, Or.inl hnode, hp⟩
        · exact Or.inr (Or.inl hmore)
        · exact Or.inr (Or.inr ⟨Or.inr ⟨hentered, hnode⟩, hp⟩)
        · exact Or.inl ⟨v, w, hvw, Or.inr ⟨hentered, hnode⟩, hp⟩

theorem Pattern.anyContinues_readEach_iff :
    ∀ bs : List (List Node), Pattern.WellFormedEach bs →
      ∀ (entered : Bool) (marks : List Marks) (u rest : List Char),
        Pattern.AnyContinues bs (Pattern.readEach c bs entered marks) u rest ↔
          Pattern.AnyContinues bs marks (c :: u) rest ∨
            entered = true ∧ Pattern.MatchesAny bs (c :: u) rest
  | [], _, entered, marks, u, rest => by
      cases marks <;> simp [Pattern.AnyContinues, Pattern.MatchesAny]
  | branch :: bs, h, entered, [], u, rest => by
      rw [Pattern.WellFormedEach] at h
      rw [Pattern.readEach]
      cases entered with
      | false => simp
      | true =>
          rw [if_pos rfl, Pattern.anyContinues_before, Marks.parts_ofParts,
            Pattern.continues_read_iff branch h.1, Pattern.anyContinues_readEach_iff bs h.2,
            Pattern.MatchesAny]
          simp
  | branch :: bs, h, entered, marks :: more, u, rest => by
      rw [Pattern.WellFormedEach] at h
      rw [Pattern.readEach, Pattern.anyContinues_before, Marks.parts_ofParts,
        Pattern.continues_read_iff branch h.1, Pattern.anyContinues_readEach_iff bs h.2,
        Pattern.AnyContinues, Pattern.MatchesAny, and_or_left]
      exact or_or_or_comm

end

end Reading

/-! ## Whole texts -/

namespace Pattern

variable {p : Pattern}

/-- The marks left by a text continue with what the marks before it continue with behind
the text. -/
theorem continues_marksAfter_iff (h : Pattern.WellFormed p) (marks : List Marks)
    (text u rest : List Char) :
    Pattern.Continues p (Pattern.marksAfter p marks text) u rest ↔
      Pattern.Continues p marks (text ++ u) rest := by
  induction text generalizing marks with
  | nil => simp [Pattern.marksAfter]
  | cons c text ih =>
      have hstep := ih (Pattern.read c p false marks)
      rw [Pattern.continues_read_iff c p h] at hstep
      simpa [Pattern.marksAfter] using hstep

/-- A whole text is matched exactly when the pattern accepts it. -/
theorem matchesAll_iff (h : Pattern.WellFormed p) (text : List Char) :
    Pattern.matchesAll p text = true ↔ Pattern.Accepts p text := by
  cases text with
  | nil => rw [Pattern.matchesAll, Pattern.accepts_nil_iff h]
  | cons c text =>
      have hleaves := Pattern.leaves_iff [] p h false
        (Pattern.marksAfter p (Pattern.read c p true []) text)
      rw [continues_marksAfter_iff h, Pattern.continues_read_iff c p h] at hleaves
      simpa [Pattern.matchesAll, Pattern.Accepts] using hleaves

end Pattern

end Guided
