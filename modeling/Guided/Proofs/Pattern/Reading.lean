import Guided.Pattern.Regex
import Guided.Proofs.Pattern.Meaning

/-!
# Read patterns are well-formed

The reader refuses bounds that are not in order, and makes an alternation only of a branch
and at least one more.

## Main statements

* `bind_eq_ok_iff`: how a reader made of two readers succeeds.
* `readBranches_item_iff`: what reading an item at the beginning of a branch consists of.
* `KeptByReading.of_readBranches`: what reading keeps, by induction over all branches.
* `BroughtAbout.forall_mem`: a property that reading brings about.
* `Pattern.ofChars_eq_ok_iff`: when a whole text is read.
* `Regex.wellFormed_of_parse`: a regex that has been read is well-formed.
-/
namespace Guided

/-- Two steps succeed if the first one does and the second does with its result. -/
theorem bind_eq_ok_iff {ε α β : Type} {x : Except ε α} {f : α → Except ε β} {b : β} :
    (x >>= f) = .ok b ↔ ∃ a, x = .ok a ∧ f a = .ok b := by
  cases x with
  | error e => simp [bind, Except.bind]
  | ok a => simp [bind, Except.bind]

theorem boundsOfDigits_le {low high rest : List Char} {comma : Bool} {min : Nat}
    {max : Option Nat} (h : boundsOfDigits low comma high rest = .ok (min, max)) :
    ∀ m, max = some m → min ≤ m := by
  intro m hm
  rw [boundsOfDigits] at h
  dsimp only at h
  split at h
  · simp [refuse] at h
  · split at h
    · simp only [Except.ok.injEq, Prod.mk.injEq] at h
      obtain ⟨hmin, hmax⟩ := h
      rw [hm, Option.some.injEq] at hmax
      omega
    · split at h
      · simp only [Except.ok.injEq, Prod.mk.injEq] at h
        simp [hm] at h
      · split at h
        · simp [refuse] at h
        · split at h
          · simp [refuse] at h
          · simp only [Except.ok.injEq, Prod.mk.injEq] at h
            obtain ⟨hmin, hmax⟩ := h
            rw [hm, Option.some.injEq] at hmax
            omega

theorem readBraces_le {s rest : List Char} {min : Nat} {max : Option Nat}
    (h : readBraces s = .ok (some ((min, max), rest))) : ∀ m, max = some m → min ≤ m := by
  rw [readBraces] at h
  dsimp only at h
  generalize (if (takeDigits s).2.head? = some ',' then takeDigits ((takeDigits s).2.drop 1)
    else ([], (takeDigits s).2)) = digits at h
  split at h
  · split at h
    · simp at h
    · obtain ⟨bounds, hbounds, hrest⟩ := bind_eq_ok_iff.1 h
      simp only [pure, Except.pure, Except.ok.injEq, Option.some.injEq, Prod.mk.injEq] at hrest
      obtain ⟨rfl, -⟩ := hrest
      exact boundsOfDigits_le hbounds
  · simp at h

theorem readBounds_le {s rest : List Char} {min : Nat} {max : Option Nat}
    (h : readBounds s = .ok (some ((min, max), rest))) : ∀ m, max = some m → min ≤ m := by
  unfold readBounds at h
  split at h
  · simp only [Except.ok.injEq, Option.some.injEq, Prod.mk.injEq] at h
    simp [← h.1.2]
  · simp only [Except.ok.injEq, Option.some.injEq, Prod.mk.injEq] at h
    simp [← h.1.2]
  · simp only [Except.ok.injEq, Option.some.injEq, Prod.mk.injEq] at h
    obtain ⟨⟨rfl, rfl⟩, -⟩ := h
    simp
  · exact readBraces_le h
  · simp at h

/-- What reading an atom other than a group gives: a class, an escaped character, the anchor,
or a character that has no meaning of its own. -/
theorem readAtom_cases {c : Char} {s rest : List Char} {atom : Node}
    (h : readAtom c s = .ok (atom, rest)) :
    (∃ items, c = '[' ∧ s.head? ≠ some '^' ∧
      readClassItems s.length true s = .ok (items, rest) ∧ atom = .oneOf items) ∨
    (∃ d, c = '\\' ∧ readEscape s = .ok (d, rest) ∧ atom = .literal d) ∨
    (c = '$' ∧ atom = .endAnchor ∧ rest = s) ∨
    (c ∉ ['[', '\\', '$', '^', '.', '*', '+', '?'] ∧ atom = .literal c ∧ rest = s) := by
  rw [readAtom] at h
  split at h
  · rename_i hclass
    rw [readClass] at h
    split at h
    · simp [leaveOut] at h
    · rename_i hnegated
      obtain ⟨⟨items, t⟩, hitems, h⟩ := bind_eq_ok_iff.1 h
      obtain ⟨rfl, rfl⟩ : Node.oneOf items = atom ∧ t = rest := by
        simpa [pure, Except.pure] using h
      exact .inl ⟨items, hclass, hnegated, hitems, rfl⟩
  · split at h
    · rename_i hescape
      obtain ⟨⟨d, t⟩, hread, h⟩ := bind_eq_ok_iff.1 h
      obtain ⟨rfl, rfl⟩ : Node.literal d = atom ∧ t = rest := by
        simpa [pure, Except.pure] using h
      exact .inr (.inl ⟨d, hescape, hread, rfl⟩)
    · split at h
      · rename_i hanchor
        obtain ⟨rfl, rfl⟩ : Node.endAnchor = atom ∧ s = rest := by simpa using h
        exact .inr (.inr (.inl ⟨hanchor, rfl, rfl⟩))
      · split at h
        · simp [leaveOut] at h
        · split at h
          · simp [leaveOut] at h
          · split at h
            · simp [refuse] at h
            · obtain ⟨rfl, rfl⟩ : Node.literal c = atom ∧ s = rest := by simpa using h
              refine .inr (.inr (.inr ⟨?_, rfl, rfl⟩))
              simp_all

/-- An atom is read alone, or with the quantifier behind it and no other one after that. -/
theorem readQuantified_cases {atom node : Node} {s rest : List Char}
    (h : readQuantified atom s = .ok (node, rest)) :
    (readBounds s = .ok none ∧ node = atom ∧ rest = s) ∨
    ∃ min max, readBounds s = .ok (some ((min, max), rest)) ∧ atom ≠ .endAnchor ∧
      checkAfterBounds rest = .ok () ∧ node = .repetition min max [atom] := by
  rw [readQuantified] at h
  obtain ⟨bounds, hbounds, h⟩ := bind_eq_ok_iff.1 h
  split at h
  · obtain ⟨rfl, rfl⟩ : atom = node ∧ s = rest := by simpa [pure, Except.pure] using h
    exact .inl ⟨hbounds, rfl, rfl⟩
  · rename_i min max t
    split at h
    · simp [refuse] at h
    · rename_i hanchor
      obtain ⟨⟨⟩, hcheck, h⟩ := bind_eq_ok_iff.1 h
      obtain ⟨rfl, rfl⟩ : Node.repetition min max [atom] = node ∧ t = rest := by
        simpa [pure, Except.pure] using h
      exact .inr ⟨min, max, hbounds, hanchor, hcheck, rfl⟩

/-- A quantifier keeps its bounds in order around a well-formed atom. -/
theorem wellFormed_of_readQuantified {atom node : Node} {s rest : List Char}
    (hatom : atom.WellFormed) (h : readQuantified atom s = .ok (node, rest)) :
    node.WellFormed := by
  rcases readQuantified_cases h with ⟨-, rfl, -⟩ | ⟨min, max, hbounds, -, -, rfl⟩
  · exact hatom
  · rw [Node.WellFormed]
    exact ⟨readBounds_le hbounds, by simpa using hatom⟩

theorem wellFormed_of_readAtom {c : Char} {atom : Node} {s rest : List Char}
    (h : readAtom c s = .ok (atom, rest)) : atom.WellFormed := by
  rcases readAtom_cases h with
    ⟨items, -, -, -, rfl⟩ | ⟨d, -, -, rfl⟩ | ⟨-, rfl, -⟩ | ⟨-, rfl, -⟩
  all_goals simp [Node.WellFormed]

theorem wellFormed_ofBranches {branch : Pattern} {more : List Pattern}
    (hbranch : Pattern.WellFormed branch) (hmore : ∀ p ∈ more, Pattern.WellFormed p) :
    Pattern.WellFormed (Pattern.ofBranches branch more) := by
  rw [Pattern.ofBranches]
  split
  · exact hbranch
  · simp only [Pattern.wellFormed_cons, Node.WellFormed, Pattern.wellFormed_nil, and_true]
    exact ⟨List.cons_ne_nil _ _,
      Pattern.wellFormedEach_iff.2 (List.forall_mem_cons.2 ⟨hbranch, hmore⟩)⟩

/-- How an atom behind its first character is read: a group by reading what is inside, and
anything else by itself. -/
def ReadsAtom (fuel levels : Nat) (c : Char) (s : List Char) (atom : Node) (rest : List Char) :
    Prop :=
  (c = '(' ∧ ∃ inside branch more, openGroup levels s = .ok inside ∧
    readBranches fuel (levels - 1) inside = .ok ((branch, more), ')' :: rest) ∧
      atom = .group (Pattern.ofBranches branch more)) ∨
  (c ≠ '(' ∧ readAtom c s = .ok (atom, rest))

/-- A branch that begins with an item is read as the item, its quantifier and the rest. -/
theorem readBranches_item_iff {fuel levels : Nat} {c : Char} {s rest : List Char}
    {branch : Pattern} {more : List Pattern} (hclose : c ≠ ')') (hbar : c ≠ '|') :
    readBranches (fuel + 1) levels (c :: s) = .ok ((branch, more), rest) ↔
      ∃ atom t node t' p, ReadsAtom fuel levels c s atom t ∧
        readQuantified atom t = .ok (node, t') ∧
        readBranches fuel levels t' = .ok ((p, more), rest) ∧ branch = node :: p := by
  have hitem : ∀ atom t, (readQuantified atom t >>= fun quantified =>
      readBranches fuel levels quantified.2 >>= fun branches =>
        pure ((quantified.1 :: branches.1.1, branches.1.2), branches.2)) =
        .ok ((branch, more), rest) ↔
      ∃ node t' p, readQuantified atom t = .ok (node, t') ∧
        readBranches fuel levels t' = .ok ((p, more), rest) ∧ branch = node :: p := by
    intro atom t
    simp only [bind_eq_ok_iff, Prod.exists, pure, Except.pure, Except.ok.injEq, Prod.mk.injEq]
    constructor
    · rintro ⟨node, t', hnode, p, more', rest', hread, ⟨rfl, rfl⟩, rfl⟩
      exact ⟨node, t', p, hnode, hread, rfl⟩
    · rintro ⟨node, t', p, hnode, hread, rfl⟩
      exact ⟨node, t', hnode, p, more, rest, hread, ⟨rfl, rfl⟩, rfl⟩
  rw [readBranches, if_neg hclose, if_neg hbar]
  dsimp only
  by_cases hopen : c = '('
  · simp only [ReadsAtom, hopen, ne_eq, not_true_eq_false, false_and, or_false, true_and]
    constructor
    · intro h
      obtain ⟨inside, hinside, h⟩ := bind_eq_ok_iff.1 h
      obtain ⟨⟨⟨b, m⟩, t⟩, hread, h⟩ := bind_eq_ok_iff.1 h
      dsimp only at h
      split at h
      · obtain ⟨node, t', p, hnode, hrest, rfl⟩ := (hitem _ _).1 h
        exact ⟨_, _, node, t', p, ⟨inside, b, m, hinside, hread, rfl⟩, hnode, hrest, rfl⟩
      · simp [refuse, bind, Except.bind] at h
    · rintro ⟨atom, t, node, t', p, ⟨inside, b, m, hinside, hread, rfl⟩, hnode, hrest, rfl⟩
      refine bind_eq_ok_iff.2 ⟨inside, hinside, bind_eq_ok_iff.2 ⟨_, hread, ?_⟩⟩
      exact (hitem _ _).2 ⟨node, t', p, hnode, hrest, rfl⟩
  · simp only [ReadsAtom, hopen, ne_eq, not_false_eq_true, false_and, false_or, true_and]
    constructor
    · intro h
      obtain ⟨⟨atom, t⟩, hread, h⟩ := bind_eq_ok_iff.1 h
      obtain ⟨node, t', p, hnode, hrest, rfl⟩ := (hitem _ _).1 h
      exact ⟨atom, t, node, t', p, hread, hnode, hrest, rfl⟩
    · rintro ⟨atom, t, node, t', p, hread, hnode, hrest, rfl⟩
      exact bind_eq_ok_iff.2 ⟨_, hread, (hitem _ _).2 ⟨node, t', p, hnode, hrest, rfl⟩⟩

/-- Before a closing parenthesis and at the end there is nothing to read. -/
theorem readBranches_of_closed {s : List Char} (h : ∀ c, s.head? = some c → c = ')')
    (fuel levels : Nat) : readBranches fuel levels s = .ok (([], []), s) := by
  cases fuel with
  | zero => rw [readBranches]
  | succ fuel =>
      cases s with
      | nil => simp [readBranches]
      | cons c s =>
          obtain rfl : c = ')' := h c rfl
          simp [readBranches]

/-- What holds of every text and the branches read from it, up to where reading stopped: it
holds where there is nothing to read, and a bar, an atom or a group before it keep it. -/
structure KeptByReading (P : List Char → Pattern → List Pattern → List Char → Prop) : Prop where
  closed : ∀ s, P s [] [] s
  bar : ∀ s branch more rest, P s branch more rest → P ('|' :: s) [] (branch :: more) rest
  atom : ∀ c s atom t node t' p more rest, readAtom c s = .ok (atom, t) →
    readQuantified atom t = .ok (node, t') → P t' p more rest → P (c :: s) (node :: p) more rest
  group : ∀ levels s inside b m t node t' p more rest, openGroup levels s = .ok inside →
    P inside b m (')' :: t) → readQuantified (.group (Pattern.ofBranches b m)) t = .ok (node, t') →
      P t' p more rest → P ('(' :: s) (node :: p) more rest

/-- By induction on the fuel. -/
theorem KeptByReading.of_readBranches {P : List Char → Pattern → List Pattern → List Char → Prop}
    (hP : KeptByReading P) {fuel levels : Nat} {s rest : List Char} {branch : Pattern}
    {more : List Pattern} (h : readBranches fuel levels s = .ok ((branch, more), rest)) :
    P s branch more rest := by
  induction fuel generalizing levels s rest branch more with
  | zero =>
      obtain ⟨⟨rfl, rfl⟩, rfl⟩ : ([] = branch ∧ [] = more) ∧ s = rest := by
        simpa [readBranches] using h
      exact hP.closed s
  | succ fuel ih =>
      cases s with
      | nil =>
          obtain ⟨⟨rfl, rfl⟩, rfl⟩ : ([] = branch ∧ [] = more) ∧ [] = rest := by
            simpa [readBranches] using h
          exact hP.closed []
      | cons c s =>
          by_cases hclose : c = ')'
          · rw [readBranches_of_closed (by simp [hclose])] at h
            obtain ⟨⟨rfl, rfl⟩, rfl⟩ : ([] = branch ∧ [] = more) ∧ c :: s = rest := by
              simpa using h
            exact hP.closed (c :: s)
          · by_cases hbar : c = '|'
            · rw [readBranches, if_neg hclose, if_pos hbar] at h
              obtain ⟨⟨⟨first, later⟩, t⟩, hread, h⟩ := bind_eq_ok_iff.1 h
              obtain ⟨⟨rfl, rfl⟩, rfl⟩ : ([] = branch ∧ first :: later = more) ∧ t = rest := by
                simpa [pure, Except.pure] using h
              rw [hbar]
              exact hP.bar s first later t (ih hread)
            · obtain ⟨atom, t, node, t', p, hatom, hnode, hread, rfl⟩ :=
                (readBranches_item_iff hclose hbar).1 h
              rcases hatom with ⟨rfl, inside, b, m, hopen, hinside, rfl⟩ | ⟨-, hatom⟩
              · exact hP.group _ _ _ _ _ _ _ _ _ _ _ hopen (ih hinside) hnode (ih hread)
              · exact hP.atom _ _ _ _ _ _ _ _ _ hatom hnode (ih hread)

/-- A property of nodes that reading brings about: atoms come with it, groups have it if the
nodes in them do, and quantifiers keep it. -/
structure BroughtAbout (P : Node → Prop) : Prop where
  atom : ∀ c s node rest, readAtom c s = .ok (node, rest) → P node
  group : ∀ branch more, (∀ p ∈ branch :: more, ∀ n ∈ p, P n) →
    P (.group (Pattern.ofBranches branch more))
  quantified : ∀ atom s node rest, P atom → readQuantified atom s = .ok (node, rest) → P node

/-- All nodes of the branches that are read have such a property. -/
theorem BroughtAbout.forall_mem {P : Node → Prop} (hP : BroughtAbout P) {fuel levels : Nat}
    {s rest : List Char} {branch : Pattern} {more : List Pattern}
    (h : readBranches fuel levels s = .ok ((branch, more), rest)) :
    ∀ p ∈ branch :: more, ∀ n ∈ p, P n := by
  have hfirst : ∀ node (p : Pattern) more, P node → (∀ q ∈ p :: more, ∀ n ∈ q, P n) →
      ∀ q ∈ (node :: p) :: more, ∀ n ∈ q, P n := by
    intro node p more hnode hrest
    rw [List.forall_mem_cons] at hrest
    exact List.forall_mem_cons.2 ⟨List.forall_mem_cons.2 ⟨hnode, hrest.1⟩, hrest.2⟩
  have hkept : KeptByReading fun _ branch more _ => ∀ p ∈ branch :: more, ∀ n ∈ p, P n := {
    closed := by simp
    bar := fun _ _ _ _ hmore => List.forall_mem_cons.2 ⟨by simp, hmore⟩
    atom := fun _ _ _ _ _ _ _ _ _ hatom hnode hrest =>
      hfirst _ _ _ (hP.quantified _ _ _ _ (hP.atom _ _ _ _ hatom) hnode) hrest
    group := fun _ _ _ _ _ _ _ _ _ _ _ _ hinside hnode hrest =>
      hfirst _ _ _ (hP.quantified _ _ _ _ (hP.group _ _ hinside) hnode) hrest }
  exact hkept.of_readBranches h

/-- A list of characters that is not too long is read as branches up to its end. -/
theorem Pattern.ofChars_eq_ok_iff {s : List Char} {p : Pattern} :
    Pattern.ofChars s = .ok p ↔ s.length ≤ maxPatternLength ∧ ∃ branch more,
      readBranches s.length maxGroupDepth s = .ok ((branch, more), []) ∧
        p = Pattern.ofBranches branch more := by
  rw [Pattern.ofChars]
  by_cases hlong : maxPatternLength < s.length
  · rw [if_pos hlong]
    simp [refuse, Nat.not_le.2 hlong]
  · rw [if_neg hlong, bind_eq_ok_iff]
    constructor
    · rintro ⟨⟨⟨branch, more⟩, rest⟩, hread, hp⟩
      dsimp only at hp
      split at hp
      · rename_i hrest
        obtain rfl : rest = [] := List.isEmpty_iff.1 hrest
        obtain rfl : Pattern.ofBranches branch more = p := by simpa [pure, Except.pure] using hp
        exact ⟨Nat.not_lt.1 hlong, branch, more, hread, rfl⟩
      · simp [refuse] at hp
    · rintro ⟨-, branch, more, hread, rfl⟩
      exact ⟨_, hread, rfl⟩

theorem broughtAbout_wellFormed : BroughtAbout Node.WellFormed where
  atom _ _ _ _ h := wellFormed_of_readAtom h
  group branch more h := by
    have hbranches : ∀ p ∈ branch :: more, Pattern.WellFormed p :=
      fun p hp => Pattern.wellFormed_iff.2 (h p hp)
    rw [List.forall_mem_cons] at hbranches
    rw [Node.WellFormed]
    exact wellFormed_ofBranches hbranches.1 hbranches.2
  quantified _ _ _ _ hatom h := wellFormed_of_readQuantified hatom h

theorem Pattern.wellFormed_of_ofChars {s : List Char} {p : Pattern}
    (h : Pattern.ofChars s = .ok p) : Pattern.WellFormed p := by
  obtain ⟨-, branch, more, hread, rfl⟩ := Pattern.ofChars_eq_ok_iff.1 h
  have hbranches : ∀ q ∈ branch :: more, Pattern.WellFormed q :=
    fun q hq => Pattern.wellFormed_iff.2 (broughtAbout_wellFormed.forall_mem hread q hq)
  rw [List.forall_mem_cons] at hbranches
  exact wellFormed_ofBranches hbranches.1 hbranches.2

theorem Pattern.parse_eq_ok_iff {text : String} {p : Pattern} :
    Pattern.parse text = .ok p ↔ Pattern.ofChars text.toList = .ok p := by
  rw [Pattern.parse]
  rcases Pattern.ofChars text.toList with ⟨fault | construct, unread⟩ | q
  · simp
  · simp
  · simp

theorem Regex.parse_eq_ok_iff {text : String} {r : Regex} :
    Regex.parse text = .ok r ↔ r.source = text ∧ Pattern.ofChars text.toList = .ok r.pattern := by
  obtain ⟨source, p⟩ := r
  rw [← Pattern.parse_eq_ok_iff, Regex.parse]
  cases Pattern.parse text with
  | error e => simp [Except.map]
  | ok q => simp [Except.map, eq_comm]

/-- A regex that has been read from a text is well-formed. -/
theorem Regex.wellFormed_of_parse {source : String} {r : Regex}
    (h : Regex.parse source = .ok r) : Pattern.WellFormed r.pattern :=
  Pattern.wellFormed_of_ofChars (Regex.parse_eq_ok_iff.1 h).2

end Guided
