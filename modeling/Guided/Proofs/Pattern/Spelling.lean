import Guided.Proofs.Pattern.Classes
import Guided.Proofs.Pattern.Refusals

/-!
# Reading is spelling

A text is read as a tree if and only if it spells the tree, is not too long and does not
nest groups too deeply. Reading is a function, so that a text spells one tree at most.

## Main statements

* `readBranches_of_spelled`, `spelled_of_readBranches`: branches, whatever follows them.
* `PatternSpelled.unique`: a text spells one tree at most.
* `Pattern.parse_eq_ok_iff_spelled`: what parsing accepts, and how it fails otherwise.
-/
namespace Guided

/-! ## Atoms -/

theorem AtomSpelled.exists_cons {atom : Node} {s : List Char} (h : AtomSpelled atom s) :
    ∃ c t, s = c :: t ∧ c ≠ ')' ∧ c ≠ '|' ∧ c ≠ '?' := by
  cases h with
  | endAnchor => exact ⟨'$', [], rfl, by decide, by decide, by decide⟩
  | @raw c h =>
      have hne : ∀ d, isRaw d = false → c ≠ d := by
        rintro d hd rfl
        simp [hd] at h
      exact ⟨c, [], rfl, hne ')' (by decide), hne '|' (by decide), hne '?' (by decide)⟩
  | escaped => exact ⟨'\\', _, rfl, by decide, by decide, by decide⟩
  | oneOf => exact ⟨'[', _, rfl, by decide, by decide, by decide⟩
  | group => exact ⟨'(', _, rfl, by decide, by decide, by decide⟩
  | unnumbered => exact ⟨'(', _, rfl, by decide, by decide, by decide⟩

theorem readClass_of_spelled {items : List ClassItem} {s : List Char}
    (h : ClassItemsSpelled true items s) (hnegated : s.head? ≠ some '^') (rest : List Char) :
    readClass (s ++ ']' :: rest) = .ok (.oneOf items, rest) := by
  have hne : (s ++ ']' :: rest).head? ≠ some '^' := by
    cases h with
    | cons hitem =>
        obtain ⟨c, t, rfl⟩ := hitem.exists_cons
        simpa using hnegated
  have hfuel : s.length < (s ++ ']' :: rest).length := by
    simp only [List.length_append, List.length_cons]
    omega
  have hread := readClassItems_of_spelled h hfuel rest
  rw [readClass, if_neg hne, hread]
  rfl

/-- An atom is a group, or it is read behind its first character. -/
theorem AtomSpelled.group_or_readAtom {atom : Node} {s : List Char} (h : AtomSpelled atom s) :
    (∃ p u opening, atom = .group p ∧ s = '(' :: opening ++ u ++ [')'] ∧
      (opening = [] ∨ opening = ['?', ':']) ∧ PatternSpelled p u) ∨
    ∃ c t, s = c :: t ∧ c ≠ '(' ∧ atom.groupDepth = 0 ∧
      ∀ rest, readAtom c (t ++ rest) = .ok (atom, rest) := by
  cases h with
  | group h => exact .inl ⟨_, _, [], rfl, rfl, .inl rfl, h⟩
  | unnumbered h => exact .inl ⟨_, _, ['?', ':'], rfl, rfl, .inr rfl, h⟩
  | endAnchor => exact .inr ⟨'$', [], rfl, by decide, rfl, fun rest => rfl⟩
  | escaped h =>
      refine .inr ⟨'\\', _, rfl, by decide, rfl, ?_⟩
      intro rest
      have hread := readEscape_of_spelled h rest
      simp [readAtom, hread, bind, Except.bind, pure, Except.pure]
  | @oneOf items s h hnegated =>
      refine .inr ⟨'[', s ++ [']'], rfl, by decide, rfl, ?_⟩
      intro rest
      simpa [readAtom] using readClass_of_spelled h hnegated rest
  | @raw c h =>
      have hne : ∀ d, isRaw d = false → c ≠ d := by
        rintro d hd rfl
        simp [hd] at h
      refine .inr ⟨c, [], rfl, hne '(' (by decide), rfl, ?_⟩
      intro rest
      simp [readAtom, hne '[' (by decide), hne '\\' (by decide), hne '$' (by decide),
        hne '^' (by decide), hne '.' (by decide), hne '*' (by decide), hne '+' (by decide),
        hne '?' (by decide)]

theorem spelled_of_readAtom {c : Char} {s rest : List Char} {atom : Node}
    (h : readAtom c s = .ok (atom, rest)) (hx : WithoutHex (c :: s)) (hopen : c ≠ '(')
    (hclose : c ≠ ')') (hbar : c ≠ '|') :
    ∃ u, s = u ++ rest ∧ AtomSpelled atom (c :: u) ∧ atom.groupDepth = 0 := by
  rcases readAtom_cases h with ⟨items, rfl, hnegated, hitems, rfl⟩ | ⟨d, rfl, hread, rfl⟩ |
    ⟨rfl, rfl, rfl⟩ | ⟨hraw, rfl, rfl⟩
  · have hsplit : '[' :: s = ['['] ++ s := rfl
    obtain ⟨body, rfl, hbody⟩ := spelled_of_readClassItems hitems (hsplit ▸ hx).of_append
    refine ⟨body ++ [']'], by simp, .oneOf hbody ?_, rfl⟩
    intro hhead
    obtain ⟨t, rfl⟩ := List.head?_eq_some_iff.1 hhead
    exact hnegated rfl
  · obtain ⟨l, rfl, hl⟩ := spelled_of_readEscape hread hx.head?_ne
    exact ⟨[l], rfl, .escaped hl, rfl⟩
  · exact ⟨[], rfl, .endAnchor, rfl⟩
  · refine ⟨[], rfl, .raw ?_, rfl⟩
    simp_all [isRaw]

/-! ## Items -/

theorem readQuantified_of_not_startsQuantifier {atom : Node} {s : List Char}
    (h : ¬ StartsQuantifier s) : readQuantified atom s = .ok (atom, s) := by
  rw [readQuantified, readBounds_eq_none_iff.2 h]
  rfl

theorem readQuantified_of_form {atom : Node} {min : Nat} {max : Option Nat} {q rest : List Char}
    (hanchor : atom ≠ .endAnchor) (hform : QuantifierForm (min, max) q)
    (hallowed : Bounds.Allowed (min, max)) (hbehind : ¬ StartsQuantifier rest) :
    readQuantified atom (q ++ rest) = .ok (.repetition min max [atom], rest) := by
  rw [readQuantified, readBounds_of_form hform hallowed]
  simp [bind, Except.bind, pure, Except.pure, hanchor, checkAfterBounds_eq_ok_iff.2 hbehind]

/-- An atom has been read with the quantifier behind it, and no other one follows. -/
theorem spelled_of_readQuantified {atom node : Node} {u s rest : List Char}
    (h : readQuantified atom s = .ok (node, rest)) (hatom : AtomSpelled atom u) :
    ∃ q, s = q ++ rest ∧ ItemSpelled node (u ++ q) ∧ node.groupDepth = atom.groupDepth ∧
      ¬ StartsQuantifier rest := by
  rcases readQuantified_cases h with
    ⟨hbounds, rfl, rfl⟩ | ⟨min, max, hbounds, hanchor, hcheck, rfl⟩
  · exact ⟨[], rfl, by simpa using .once hatom, rfl, readBounds_eq_none_iff.1 hbounds⟩
  · obtain ⟨q, rfl, hform, hallowed⟩ := form_of_readBounds hbounds
    refine ⟨q, rfl, .repeated hatom hanchor hform hallowed, ?_,
      checkAfterBounds_eq_ok_iff.1 hcheck⟩
    simp [Node.groupDepth, Pattern.groupDepth]

/-- An item begins like an atom. -/
theorem ItemSpelled.exists_cons {node : Node} {s : List Char} (h : ItemSpelled node s) :
    ∃ c t, s = c :: t ∧ c ≠ ')' ∧ c ≠ '|' ∧ c ≠ '?' := by
  cases h with
  | once h => exact h.exists_cons
  | repeated h =>
      obtain ⟨c, t, rfl, hc⟩ := h.exists_cons
      exact ⟨c, _, rfl, hc⟩

/-- An item is read as an atom and then its quantifier, which may be missing. -/
theorem ItemSpelled.exists_atom {node : Node} {s rest : List Char} (h : ItemSpelled node s)
    (hbehind : ¬ StartsQuantifier rest) :
    ∃ atom a q, s = a ++ q ∧ AtomSpelled atom a ∧ atom.groupDepth = node.groupDepth ∧
      readQuantified atom (q ++ rest) = .ok (node, rest) := by
  cases h with
  | once hatom =>
      exact ⟨node, s, [], by simp, hatom, rfl, readQuantified_of_not_startsQuantifier hbehind⟩
  | repeated hatom hanchor hform hallowed =>
      refine ⟨_, _, _, rfl, hatom, ?_, readQuantified_of_form hanchor hform hallowed hbehind⟩
      simp [Node.groupDepth, Pattern.groupDepth]

/-! ## Branches -/

section Branches

variable {branch : Pattern} {more : List Pattern} {s : List Char}

/-- Branches seen from their first character: there is none, or it is a bar, or it begins
an item. -/
theorem BranchesSpelled.cases_first (h : BranchesSpelled (branch :: more) s) :
    (s = [] ∧ branch = [] ∧ more = []) ∨
    (∃ t, s = '|' :: t ∧ branch = [] ∧ BranchesSpelled more t) ∨
    ∃ node p u t, s = u ++ t ∧ branch = node :: p ∧ ItemSpelled node u ∧
      ¬ StartsQuantifier t ∧ BranchesSpelled (p :: more) t := by
  cases h with
  | single h =>
      cases h with
      | nil => exact .inl ⟨rfl, rfl, rfl⟩
      | cons hitem hrest hbehind =>
          exact .inr (.inr ⟨_, _, _, _, rfl, rfl, hitem, hbehind, .single hrest⟩)
  | cons h hmore =>
      cases h with
      | nil => exact .inr (.inl ⟨_, rfl, rfl, hmore⟩)
      | cons hitem hrest hbehind =>
          refine .inr (.inr ⟨_, _, _, _, List.append_assoc _ _ _, rfl, hitem, ?_, .cons hrest hmore⟩)
          rwa [startsQuantifier_append_iff (by decide)]

theorem BranchesSpelled.item {node : Node} {t : List Char}
    (h : BranchesSpelled (branch :: more) t) (hitem : ItemSpelled node s)
    (hbehind : ¬ StartsQuantifier t) : BranchesSpelled ((node :: branch) :: more) (s ++ t) := by
  cases h with
  | single h => exact .single (.cons hitem h hbehind)
  | cons h hmore =>
      rw [← List.append_assoc]
      refine .cons (.cons hitem h ?_) hmore
      rwa [startsQuantifier_append_iff (by decide)] at hbehind

/-- No branches begin with a question mark, which would mark a group of another kind. -/
theorem BranchesSpelled.head?_ne (h : BranchesSpelled (branch :: more) s) :
    s.head? ≠ some '?' := by
  rcases h.cases_first with ⟨rfl, -, -⟩ | ⟨t, rfl, -, -⟩ | ⟨node, p, u, t, rfl, -, hitem, -, -⟩
  · simp
  · simp
  · obtain ⟨c, t', rfl, -, -, hc⟩ := hitem.exists_cons
    simpa using hc

theorem groupDepth_ofBranches (branch : Pattern) (more : List Pattern) :
    Pattern.groupDepth (Pattern.ofBranches branch more) =
      Pattern.groupDepthOfAny (branch :: more) := by
  cases more with
  | nil => simp [Pattern.ofBranches, Pattern.groupDepthOfAny]
  | cons p more => simp [Pattern.ofBranches, Node.groupDepth]

end Branches

/-- The mark of a group without a number is passed over, as long as a level is left. -/
theorem openGroup_append {opening u : List Char} {levels : Nat}
    (hopening : opening = [] ∨ opening = ['?', ':']) (hu : u.head? ≠ some '?')
    (hlevels : levels ≠ 0) : openGroup levels (opening ++ u) = .ok u := by
  rcases hopening with rfl | rfl
  · simp [openGroup, hu, hlevels]
  · simp [openGroup, hlevels]

/-- Reading branches with this fuel and so many levels finds what is spelled. -/
def ReadsSpelled (fuel levels : Nat) : Prop :=
  ∀ branch more s rest, BranchesSpelled (branch :: more) s →
    Pattern.groupDepthOfAny (branch :: more) ≤ levels → s.length ≤ fuel →
    (∀ c, rest.head? = some c → c = ')') →
    readBranches fuel levels (s ++ rest) = .ok ((branch, more), rest)

/-- An atom is read behind its first character, if what is inside groups is read. -/
theorem readsAtom_of_spelled {fuel levels : Nat} {atom : Node} {c : Char} {a : List Char}
    (h : AtomSpelled atom (c :: a)) (hdepth : atom.groupDepth ≤ levels)
    (hfuel : a.length ≤ fuel) (hread : ReadsSpelled fuel (levels - 1)) (rest : List Char) :
    ReadsAtom fuel levels c (a ++ rest) atom rest := by
  rcases h.group_or_readAtom with
    ⟨inner, u, opening, rfl, ha, hopening, hinner⟩ | ⟨d, b, hd, hopen, -, hother⟩
  · obtain ⟨rfl, rfl⟩ : c = '(' ∧ a = opening ++ (u ++ [')']) := by simpa using ha
    cases hinner with
    | @ofBranches branch more u hinner =>
        rw [Node.groupDepth, groupDepth_ofBranches] at hdepth
        refine .inl ⟨rfl, u ++ ')' :: rest, branch, more, ?_, ?_, rfl⟩
        · have hhead : (u ++ ')' :: rest).head? ≠ some '?' := by
            cases u with
            | nil => simp
            | cons d u => simpa using hinner.head?_ne
          have hlevels : levels ≠ 0 := by omega
          simpa using openGroup_append hopening hhead hlevels
        · refine hread branch more u (')' :: rest) hinner (by omega) ?_ (by simp)
          simp only [List.length_append, List.length_cons] at hfuel
          omega
  · obtain ⟨rfl, rfl⟩ : c = d ∧ a = b := by simpa using hd
    exact .inr ⟨hopen, hother rest⟩

/-- What spells branches is read as these branches, up to a closing parenthesis or the end.
By induction on the fuel, of which each character needs one unit at most. -/
theorem readBranches_of_spelled (fuel levels : Nat) : ReadsSpelled fuel levels := by
  induction fuel generalizing levels with
  | zero =>
      intro branch more s rest h hdepth hfuel hrest
      obtain rfl : s = [] := List.length_eq_zero_iff.1 (Nat.le_zero.1 hfuel)
      rcases h.cases_first with ⟨-, rfl, rfl⟩ | ⟨t, ht, -⟩ | ⟨node, p, u, t, ht, -, hitem, -⟩
      · exact readBranches_of_closed hrest 0 levels
      · simp at ht
      · obtain ⟨c, u, rfl, -⟩ := hitem.exists_cons
        simp at ht
  | succ fuel ih =>
      intro branch more s rest h hdepth hfuel hrest
      rcases h.cases_first with ⟨rfl, rfl, rfl⟩ | ⟨t, rfl, rfl, hmore⟩ |
        ⟨node, p, u, t, rfl, rfl, hitem, hbehind, hlater⟩
      · exact readBranches_of_closed hrest (fuel + 1) levels
      · cases more with
        | nil => cases hmore
        | cons q more =>
            have hlength : t.length ≤ fuel := by simpa using hfuel
            have hlevels : Pattern.groupDepthOfAny (q :: more) ≤ levels := by
              rw [Pattern.groupDepthOfAny] at hdepth
              exact Nat.le_trans (Nat.le_max_right _ _) hdepth
            have hread := ih levels q more t rest hmore hlevels hlength hrest
            simp [readBranches, hread, bind, Except.bind, pure, Except.pure]
      · have hnode : node.groupDepth ≤ levels := by
          simp only [Pattern.groupDepthOfAny, Pattern.groupDepth] at hdepth
          omega
        have hlevels : Pattern.groupDepthOfAny (p :: more) ≤ levels := by
          simp only [Pattern.groupDepthOfAny, Pattern.groupDepth] at hdepth ⊢
          omega
        have hbehind' : ¬ StartsQuantifier (t ++ rest) := by
          cases rest with
          | nil => rwa [List.append_nil]
          | cons c rest =>
              obtain rfl : c = ')' := hrest c rfl
              rwa [startsQuantifier_append_iff (by decide)]
        obtain ⟨atom, a, q, rfl, hatom, hsame, hquantified⟩ := hitem.exists_atom hbehind'
        obtain ⟨c, a, rfl, hclose, hbar, -⟩ := hatom.exists_cons
        simp only [List.cons_append, List.length_cons, List.length_append] at hfuel
        have hread := ih levels p more t rest hlater hlevels (by omega) hrest
        have hreads := readsAtom_of_spelled hatom (hsame ▸ hnode) (by omega) (ih (levels - 1))
          (q ++ (t ++ rest))
        simp only [List.cons_append, List.append_assoc]
        exact (readBranches_item_iff hclose hbar).2
          ⟨atom, q ++ (t ++ rest), node, t ++ rest, p, hreads, hquantified, hread, rfl⟩

theorem exists_of_openGroup {levels : Nat} {s inside : List Char}
    (h : openGroup levels s = .ok inside) :
    levels ≠ 0 ∧ ∃ opening, s = opening ++ inside ∧ (opening = [] ∨ opening = ['?', ':']) := by
  rw [openGroup] at h
  split at h
  · simp [leaveOut] at h
  · rename_i hmark
    dsimp only at h
    split at h
    · simp [refuse] at h
    · rename_i hlevels
      refine ⟨hlevels, ?_⟩
      by_cases hquestion : s.head? = some '?'
      · obtain ⟨t, rfl⟩ := List.head?_eq_some_iff.1 hquestion
        have hcolon : t.head? = some ':' := by simpa using hmark
        obtain ⟨t, rfl⟩ := List.head?_eq_some_iff.1 hcolon
        obtain rfl : t = inside := by simpa using h
        exact ⟨['?', ':'], rfl, .inr rfl⟩
      · obtain rfl : s = inside := by simpa [hquestion] using h
        exact ⟨[], rfl, .inl rfl⟩

/-- What has been read with this fuel is spelled by what was taken from the text, and reading
stops only before a closing parenthesis or at the end. -/
def SpellsRead (fuel : Nat) : Prop :=
  ∀ levels s rest branch more, readBranches fuel levels s = .ok ((branch, more), rest) →
    WithoutHex s → s.length ≤ fuel →
      ∃ u, s = u ++ rest ∧ BranchesSpelled (branch :: more) u ∧
        Pattern.groupDepthOfAny (branch :: more) ≤ levels ∧ ∀ c, rest.head? = some c → c = ')'

/-- An atom has been read, if what is inside groups is spelled by what was taken for it. -/
theorem spelled_of_readsAtom {fuel levels : Nat} {c : Char} {s rest : List Char} {atom : Node}
    (h : ReadsAtom fuel levels c s atom rest) (hread : SpellsRead fuel) (hx : WithoutHex (c :: s))
    (hfuel : s.length ≤ fuel) (hclose : c ≠ ')') (hbar : c ≠ '|') :
    ∃ a, s = a ++ rest ∧ AtomSpelled atom (c :: a) ∧ atom.groupDepth ≤ levels := by
  rcases h with ⟨rfl, inside, branch, more, hopened, hinside, rfl⟩ | ⟨hopen, hatom⟩
  · obtain ⟨hlevels, opening, rfl, hopening⟩ := exists_of_openGroup hopened
    have hx' : WithoutHex inside := (show WithoutHex (('(' :: opening) ++ inside) from hx).of_append
    rw [List.length_append] at hfuel
    obtain ⟨u, rfl, hu, hdepth, -⟩ := hread _ _ _ _ _ hinside hx' (by omega)
    have hgroup := PatternSpelled.ofBranches hu
    refine ⟨opening ++ (u ++ [')']), by simp, ?_, ?_⟩
    · rcases hopening with rfl | rfl
      · exact .group hgroup
      · exact .unnumbered hgroup
    · rw [Node.groupDepth, groupDepth_ofBranches]
      omega
  · obtain ⟨a, rfl, ha, hdepth⟩ := spelled_of_readAtom hatom hx hopen hclose hbar
    exact ⟨a, rfl, ha, by omega⟩

/-- Branches that have been read are spelled. By induction on the fuel. -/
theorem spelled_of_readBranches (fuel : Nat) : SpellsRead fuel := by
  -- where nothing is to be read, nothing has been read
  have hnothing : ∀ {fuel levels s rest branch more}, (∀ c, s.head? = some c → c = ')') →
      readBranches fuel levels s = .ok ((branch, more), rest) →
        ∃ u, s = u ++ rest ∧ BranchesSpelled (branch :: more) u ∧
          Pattern.groupDepthOfAny (branch :: more) ≤ levels ∧
            ∀ c, rest.head? = some c → c = ')' := by
    intro fuel levels s rest branch more hclosed h
    rw [readBranches_of_closed hclosed] at h
    obtain ⟨⟨rfl, rfl⟩, rfl⟩ : ([] = branch ∧ [] = more) ∧ s = rest := by simpa using h
    exact ⟨[], rfl, .single .nil, by simp [Pattern.groupDepthOfAny, Pattern.groupDepth], hclosed⟩
  induction fuel with
  | zero =>
      intro levels s rest branch more h _ hfuel
      obtain rfl : s = [] := List.length_eq_zero_iff.1 (Nat.le_zero.1 hfuel)
      exact hnothing (by simp) h
  | succ fuel ih =>
      intro levels s rest branch more h hx hfuel
      cases s with
      | nil => exact hnothing (by simp) h
      | cons c s =>
          have hlength : s.length ≤ fuel := by simpa using hfuel
          have hbehind : WithoutHex s := (show WithoutHex ([c] ++ s) from hx).of_append
          by_cases hclose : c = ')'
          · exact hnothing (by simp [hclose]) h
          · by_cases hbar : c = '|'
            · subst hbar
              rw [readBranches, if_neg hclose, if_pos rfl] at h
              obtain ⟨⟨⟨q, later⟩, rest'⟩, hread, hbranches⟩ := bind_eq_ok_iff.1 h
              obtain ⟨⟨rfl, rfl⟩, rfl⟩ : ([] = branch ∧ q :: later = more) ∧ rest' = rest := by
                simpa [pure, Except.pure] using hbranches
              obtain ⟨u, rfl, hu, hdepth, hend⟩ := ih _ _ _ _ _ hread hbehind hlength
              refine ⟨'|' :: u, rfl, .cons .nil hu, ?_, hend⟩
              rw [Pattern.groupDepthOfAny]
              exact Nat.max_le.2 ⟨Nat.zero_le _, hdepth⟩
            · obtain ⟨atom, t, node, t', p, hatom, hnode, hread, rfl⟩ :=
                (readBranches_item_iff hclose hbar).1 h
              obtain ⟨a, rfl, hspelled, hlevels⟩ :=
                spelled_of_readsAtom hatom ih hx hlength hclose hbar
              obtain ⟨q, rfl, hitem, hsame, hfollows⟩ := spelled_of_readQuantified hnode hspelled
              simp only [List.length_append] at hlength
              obtain ⟨u, rfl, hu, hdepth, hend⟩ :=
                ih _ _ _ _ _ hread hbehind.of_append.of_append (by omega)
              refine ⟨c :: a ++ q ++ u, by simp, hu.item hitem ?_, ?_, hend⟩
              · rintro ⟨b, r, hform, hprefix⟩
                exact hfollows ⟨b, r, hform, hprefix.trans (List.prefix_append u rest)⟩
              · simp only [Pattern.groupDepthOfAny, Pattern.groupDepth] at hdepth ⊢
                omega

/-! ## Whole texts -/

section Whole

variable {p q : Pattern} {s : List Char}

/-- **A text spells one tree at most.** Whatever its length and depth, the tree is the one
that enough fuel and levels make the reader find. -/
theorem PatternSpelled.unique (hp : PatternSpelled p s) (hq : PatternSpelled q s) : p = q := by
  cases hp with
  | @ofBranches p more _ hp =>
      cases hq with
      | @ofBranches q later _ hq =>
          have hread := readBranches_of_spelled s.length
            (max (Pattern.groupDepthOfAny (p :: more)) (Pattern.groupDepthOfAny (q :: later)))
          have hfirst := hread p more s [] hp (Nat.le_max_left _ _) (Nat.le_refl _) (by simp)
          have hsecond := hread q later s [] hq (Nat.le_max_right _ _) (Nat.le_refl _) (by simp)
          rw [hfirst] at hsecond
          simp only [Except.ok.injEq, Prod.mk.injEq, and_true] at hsecond
          rw [hsecond.1, hsecond.2]

theorem Pattern.ofChars_of_spelled (h : PatternSpelled p s) (hlength : s.length ≤ maxPatternLength)
    (hdepth : Pattern.groupDepth p ≤ maxGroupDepth) : Pattern.ofChars s = .ok p := by
  cases h with
  | @ofBranches branch more s h =>
      rw [groupDepth_ofBranches] at hdepth
      have hread := readBranches_of_spelled s.length maxGroupDepth branch more s [] h hdepth
        (Nat.le_refl _) (by simp)
      rw [List.append_nil] at hread
      exact Pattern.ofChars_eq_ok_iff.2 ⟨hlength, branch, more, hread, rfl⟩

theorem Pattern.spelled_of_ofChars (h : Pattern.ofChars s = .ok p) (hx : WithoutHex s) :
    PatternSpelled p s ∧ s.length ≤ maxPatternLength ∧ Pattern.groupDepth p ≤ maxGroupDepth := by
  obtain ⟨hlength, branch, more, hread, rfl⟩ := Pattern.ofChars_eq_ok_iff.1 h
  obtain ⟨u, hu, hspelled, hdepth, -⟩ :=
    spelled_of_readBranches _ _ _ _ _ _ hread hx (Nat.le_refl _)
  obtain rfl : s = u := by simpa using hu
  rw [groupDepth_ofBranches]
  exact ⟨.ofBranches hspelled, hlength, hdepth⟩

end Whole

/-- Parsing fails at a place in the text, for a fault or for a construct that is left out. -/
theorem Pattern.exists_error_of_parse_ne_ok {text : String}
    (h : ∀ p, Pattern.parse text ≠ .ok p) :
    ∃ before unread, text.toList = before ++ unread ∧
      ((∃ fault, Pattern.parse text = .error (.invalidPattern text before.length fault)) ∨
        ∃ construct,
          Pattern.parse text = .error (.unsupportedPattern text before.length construct)) := by
  cases hread : Pattern.ofChars text.toList with
  | ok p => exact absurd (Pattern.parse_eq_ok_iff.2 hread) (h p)
  | error r =>
      obtain ⟨before, hbefore⟩ := Pattern.unread_suffix_of_ofChars hread
      have hoffset : text.toList.length - r.unread.length = before.length := by
        rw [← hbefore, List.length_append]
        omega
      refine ⟨before, r.unread, hbefore.symm, ?_⟩
      obtain ⟨fault | construct, unread⟩ := r
      · exact .inl ⟨fault, by simp only [Pattern.parse, hread]; rw [hoffset]⟩
      · exact .inr ⟨construct, by simp only [Pattern.parse, hread]; rw [hoffset]⟩

/-- **What parsing accepts.** A text without hexadecimal escapes is parsed as a tree exactly
if it is not too long and spells the tree, with groups nested no deeper than is allowed;
there is only one such tree. Every other text is refused, for a fault or for a construct
that is left out, at an offset that lies in the text. -/
theorem Pattern.parse_eq_ok_iff_spelled (text : String) (hx : WithoutHex text.toList) :
    (∀ p, Pattern.parse text = .ok p ↔ text.toList.length ≤ maxPatternLength ∧
      PatternSpelled p text.toList ∧ Pattern.groupDepth p ≤ maxGroupDepth) ∧
    (∀ p q, PatternSpelled p text.toList → PatternSpelled q text.toList → p = q) ∧
    ((¬ ∃ p, text.toList.length ≤ maxPatternLength ∧ PatternSpelled p text.toList ∧
        Pattern.groupDepth p ≤ maxGroupDepth) →
      ∃ before unread, text.toList = before ++ unread ∧
        ((∃ fault, Pattern.parse text = .error (.invalidPattern text before.length fault)) ∨
          ∃ construct,
            Pattern.parse text = .error (.unsupportedPattern text before.length construct))) := by
  have hexact : ∀ p, Pattern.parse text = .ok p ↔ text.toList.length ≤ maxPatternLength ∧
      PatternSpelled p text.toList ∧ Pattern.groupDepth p ≤ maxGroupDepth := by
    intro p
    rw [Pattern.parse_eq_ok_iff]
    constructor
    · intro hread
      obtain ⟨hspelled, hlength, hdepth⟩ := Pattern.spelled_of_ofChars hread hx
      exact ⟨hlength, hspelled, hdepth⟩
    · rintro ⟨hlength, hspelled, hdepth⟩
      exact Pattern.ofChars_of_spelled hspelled hlength hdepth
  refine ⟨hexact, fun p q hp hq => hp.unique hq, ?_⟩
  intro hnone
  apply Pattern.exists_error_of_parse_ne_ok
  intro p hp
  exact hnone ⟨p, (hexact p).1 hp⟩

/-- A text with a bracket and hyphens in a class, a brace that is a character, and a group
without a number under a quantifier. -/
def bracedText : String := "(?:[]a-c-]|x\x7b,)\x7b2,\x7d\\$"

/-- The tree that this text spells. -/
def bracedPattern : Pattern :=
  [.repetition 2 none [.group [.alternation
    [[.oneOf [.single ']', .range 'a' 'c', .single '-']],
      [.literal 'x', .literal '\x7b', .literal ',']]]],
    .literal '$']

theorem Pattern.parse_spelled_braced :
    WithoutHex bracedText.toList ∧ Pattern.parse bracedText = .ok bracedPattern ∧
      PatternSpelled bracedPattern bracedText.toList := by
  have hx : WithoutHex bracedText.toList := by
    unfold WithoutHex
    decide +kernel
  have hread : (Pattern.ofChars bracedText.toList).toOption = some bracedPattern := by
    decide +kernel
  have hparse : Pattern.parse bracedText = .ok bracedPattern := by
    rw [Pattern.parse_eq_ok_iff]
    rcases hchars : Pattern.ofChars bracedText.toList with r | p
    · simp [hchars, Except.toOption] at hread
    · simpa [hchars, Except.toOption] using hread
  have hexact := (Pattern.parse_eq_ok_iff_spelled bracedText hx).1 bracedPattern
  exact ⟨hx, hparse, (hexact.1 hparse).2.1⟩

end Guided
