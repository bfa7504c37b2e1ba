import Guided.Proofs.Constraint.Following
import Guided.Proofs.Pattern.Assembling

/-!
# Pattern leaves whose text is replaced

A leaf retains how many bytes it has followed, but not which text they were. If its variable
is set to another text, what stands behind that many bytes is followed on from the old text.
So a leaf that follows one text after the other is about a text of its own, spliced together
from parts of them, and it is right about the last one just as far as the two agree.

## Main definitions

* `Splice`: the text followed last, and the text that it is taken for.
* `PatternLeaf.followAll`: the state behind texts that are followed one after the other.

## Main statements

* `PatternLeaf.followAll_eq_retained`: what is retained describes the spliced text.
* `PatternLeaf.followAll_fresh_iff`: when that is what the last text alone leads to.
-/
namespace Guided

/-! ## Spliced texts -/

/-- A text that has been followed, and the text that it is taken for. -/
structure Splice where
  text : String
  taken : List Char

namespace Splice

/-- A text that is followed from its beginning. -/
def start (text : String) : Splice := ⟨text, text.toList⟩

/-- If a character ends where the text before ended, the bytes up to there are not looked
at again, and what stands behind them is added to what was taken. -/
def next (s : Splice) (text : String) : Splice :=
  match dropBytes? s.text.utf8ByteSize text.toList with
  | none => start text
  | some rest => ⟨text, s.taken ++ rest⟩

/-- One text after the other. -/
def run (first : String) (texts : List String) : Splice := texts.foldl next (start first)

@[simp] theorem text_next (s : Splice) (text : String) : (s.next text).text = text := by
  rw [next]
  split <;> rfl

/-- The last text is the one that has been followed. -/
theorem text_run (first : String) (texts : List String) :
    (run first texts).text = texts.getLastD first := by
  rcases List.eq_nil_or_concat texts with rfl | ⟨texts, text, rfl⟩
  · rfl
  · rw [run, List.concat_eq_append, List.foldl_append, List.getLastD_concat]
    exact text_next _ text

end Splice

/-! ## What a leaf retains -/

namespace PatternLeaf

/-- The state behind texts that are followed one after the other. -/
def followAll (leaf : PatternLeaf) (first : String) (texts : List String) : PatternState :=
  texts.foldl (fun st text => leaf.follow (some st) text) (leaf.follow none first)

/-- A state that describes the text that the last one is taken for. -/
def retained (leaf : PatternLeaf) (s : Splice) : PatternState :=
  ⟨s.text.utf8ByteSize, Pattern.residual leaf.regex.pattern s.taken⟩

theorem retained_start (leaf : PatternLeaf) (text : String) :
    leaf.retained (.start text) = leaf.followFresh text := by
  rw [retained, Splice.start, followFresh, Regex.residual]

/-- Following one more text splices it. -/
theorem follow_retained (leaf : PatternLeaf) (s : Splice) (text : String) :
    leaf.follow (some (leaf.retained s)) text = leaf.retained (s.next text) := by
  cases hdrop : dropBytes? s.text.utf8ByteSize text.toList with
  | none =>
      simp only [follow, retained, Splice.next, hdrop]
      exact (leaf.retained_start text).symm
  | some rest =>
      simp only [follow, retained, Splice.next, hdrop, Pattern.residual_append]

/-- What is retained describes the spliced text. -/
theorem followAll_eq_retained (leaf : PatternLeaf) (first : String) (texts : List String) :
    leaf.followAll first texts = leaf.retained (Splice.run first texts) := by
  have hrun : ∀ s : Splice, texts.foldl (fun st text => leaf.follow (some st) text)
      (leaf.retained s) = leaf.retained (texts.foldl Splice.next s) := by
    induction texts with
    | nil => exact fun s => rfl
    | cons text texts ih =>
        intro s
        rw [List.foldl_cons, List.foldl_cons, follow_retained]
        exact ih (s.next text)
  exact hrun (.start first)

end PatternLeaf

/-! ## Spelling a text out -/

theorem Pattern.simplify_literals (s : List Char) :
    Pattern.simplify (s.map Node.literal) = s.map Node.literal := by
  induction s with
  | nil => rfl
  | cons c s ih => rw [List.map_cons, Pattern.simplify, Node.simplify, ih, List.singleton_append]

theorem Pattern.step_literals (a c : Char) (s : List Char) :
    Pattern.step ((a :: s).map Node.literal) c =
      if a = c then some (s.map Node.literal) else none := by
  rw [Pattern.step, Pattern.derivative, List.map_cons, Pattern.paths, Node.derivative]
  split
  · simp [Node.skippable, joinPaths, Pattern.distinct_eq_eraseDups, List.eraseDups_cons,
      Pattern.simplify_literals]
  · simp [Node.skippable, joinPaths, Pattern.distinct_eq_eraseDups]

/-- Characters one after the other are left with nothing by that text alone. -/
theorem Pattern.residual_literals_iff {s t : List Char} :
    Pattern.residual (s.map Node.literal) t = some [] ↔ t = s := by
  induction t generalizing s with
  | nil => simp [eq_comm]
  | cons c t ih =>
      cases s with
      | nil => simp
      | cons a s =>
          rw [Pattern.residual_cons, Pattern.step_literals]
          by_cases hac : a = c
          · simp [hac, ih]
          · have hca : c ≠ a := fun h => hac h.symm
            simp [hac, hca]

namespace PatternLeaf

/-- **What a leaf retains behind texts that need not go on from each other.** It has the
length of the last text and the residual of the spliced text. That is the state that the
last text alone leads to if and only if the two texts leave the same of the pattern; and
no leaf at all is misled only where the spliced text is the last text. -/
theorem followAll_fresh_iff (leaf : PatternLeaf) (first : String) (texts : List String) :
    let last := texts.getLastD first
    let taken := (Splice.run first texts).taken
    leaf.followAll first texts =
        ⟨last.utf8ByteSize, Pattern.residual leaf.regex.pattern taken⟩ ∧
      (leaf.followAll first texts = leaf.followFresh last ↔
        Pattern.residual leaf.regex.pattern taken = leaf.regex.residual last) ∧
      ((∀ other : PatternLeaf, other.followAll first texts = other.followFresh last) ↔
        taken = last.toList) := by
  intro last taken
  have hstate : ∀ other : PatternLeaf, other.followAll first texts =
      ⟨last.utf8ByteSize, Pattern.residual other.regex.pattern taken⟩ := by
    intro other
    rw [followAll_eq_retained, retained, Splice.text_run]
  have hfresh : ∀ other : PatternLeaf, other.followAll first texts = other.followFresh last ↔
      Pattern.residual other.regex.pattern taken = other.regex.residual last := by
    intro other
    rw [hstate, followFresh, PatternState.mk.injEq]
    exact and_iff_right rfl
  refine ⟨hstate leaf, hfresh leaf, ?_, ?_⟩
  · intro hall
    -- A pattern that spells the last text out tells all other texts from it.
    have hspelled := (hfresh ⟨"", .ofPattern (last.toList.map .literal)⟩).1 (hall _)
    rw [Regex.residual, Regex.ofPattern, Pattern.residual_literals_iff.2 rfl] at hspelled
    exact Pattern.residual_literals_iff.1 hspelled
  · intro htaken other
    rw [hfresh, htaken, Regex.residual]

/-- A leaf of the pattern `ab` that has rejected `b` keeps to that when the text becomes
`ab`, which it would accept. -/
theorem followAll_stale :
    let leaf : PatternLeaf := ⟨"X", ⟨"ab", [.literal 'a', .literal 'b']⟩⟩
    Regex.parse "ab" = .ok leaf.regex ∧ leaf.followAll "b" ["ab"] = ⟨2, none⟩ ∧
      leaf.followFresh "ab" = ⟨2, some []⟩ := by
  refine ⟨by rfl, by rfl, by rfl⟩

end PatternLeaf

end Guided
