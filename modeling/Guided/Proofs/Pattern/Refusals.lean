import Guided.Proofs.Pattern.Quantifiers

/-!
# Where reading stops

No reader looks back: what it leaves unread, whether it succeeds or refuses, is an end of
the text it was given. So a refusal names a place inside the text.

## Main statements

* `LeavesSuffix.bind`: two readers one after the other.
* `Pattern.unread_suffix_of_ofChars`: the place of a refusal.
-/
namespace Guided

/-- What a reader leaves of a text is an end of it, also when it refuses. -/
def LeavesSuffix {α : Type} (s : List Char) : Except Refusal (α × List Char) → Prop
  | .ok (_, rest) => rest <:+ s
  | .error r => r.unread <:+ s

section Combining

variable {α β : Type} {s t : List Char} {x : Except Refusal (α × List Char)}

@[simp] theorem leavesSuffix_ok {a : α} {rest : List Char} :
    LeavesSuffix s (.ok (a, rest)) ↔ rest <:+ s := Iff.rfl

@[simp] theorem leavesSuffix_pure {a : α} {rest : List Char} :
    LeavesSuffix s (pure (a, rest)) ↔ rest <:+ s := Iff.rfl

@[simp] theorem leavesSuffix_refuse {fault : PatternFault} {unread : List Char} :
    LeavesSuffix s (refuse fault unread : Except Refusal (α × List Char)) ↔ unread <:+ s := Iff.rfl

@[simp] theorem leavesSuffix_leaveOut {construct : Construct} {unread : List Char} :
    LeavesSuffix s (leaveOut construct unread : Except Refusal (α × List Char)) ↔
      unread <:+ s := Iff.rfl

theorem LeavesSuffix.of_eq_ok {a : α} {rest : List Char} (h : LeavesSuffix s x)
    (hx : x = .ok (a, rest)) : rest <:+ s := by
  rw [hx] at h
  exact h

theorem LeavesSuffix.mono (h : LeavesSuffix t x) (hts : t <:+ s) : LeavesSuffix s x := by
  cases x with
  | ok a => exact List.IsSuffix.trans h hts
  | error r => exact List.IsSuffix.trans h hts

/-- The second reader starts with what the first one has left. -/
theorem LeavesSuffix.bind {f : α × List Char → Except Refusal (β × List Char)}
    (h : LeavesSuffix s x) (hf : ∀ a rest, x = .ok (a, rest) → LeavesSuffix rest (f (a, rest))) :
    LeavesSuffix s (x >>= f) := by
  cases x with
  | error r => exact h
  | ok a => exact (hf a.1 a.2 rfl).mono h

end Combining

/-! ## Classes -/

theorem leavesSuffix_readHex (s : List Char) : LeavesSuffix s (readHex s) := by
  unfold readHex
  split
  · simp
  · split <;> simp
  · split
    · simp
    · split
      · exact List.suffix_append [_, _] _
      · simp

theorem leavesSuffix_readEscape (s : List Char) : LeavesSuffix s (readEscape s) := by
  unfold readEscape
  split
  · simp
  · rename_i c rest
    split
    · exact (leavesSuffix_readHex rest).mono (List.suffix_cons c rest)
    · split
      · exact List.suffix_cons c rest
      · repeat' split
        all_goals simp

theorem leavesSuffix_readClassChar (s : List Char) : LeavesSuffix s (readClassChar s) := by
  unfold readClassChar
  split
  · simp
  · rename_i c rest
    split
    · exact (leavesSuffix_readEscape rest).mono (List.suffix_cons c rest)
    · simp

theorem leavesSuffix_readClassItem (s : List Char) : LeavesSuffix s (readClassItem s) := by
  refine (leavesSuffix_readClassChar s).bind ?_
  intro low rest _
  dsimp only
  split
  · have hdrop : LeavesSuffix rest (readClassChar (rest.drop 1)) :=
      (leavesSuffix_readClassChar _).mono (List.drop_suffix 1 rest)
    refine hdrop.bind ?_
    intro high rest _
    dsimp only
    split <;> simp
  · simp

theorem leavesSuffix_readClassItems (fuel : Nat) (first : Bool) (s : List Char) :
    LeavesSuffix s (readClassItems fuel first s) := by
  induction fuel generalizing first s with
  | zero => cases s <;> simp [readClassItems]
  | succ fuel ih =>
      cases s with
      | nil => simp [readClassItems]
      | cons c rest =>
          rw [readClassItems]
          split
          · simp
          · split
            · simp
            · refine (leavesSuffix_readClassItem (c :: rest)).bind ?_
              intro item rest _
              refine (ih false rest).bind ?_
              intro items rest _
              simp

theorem leavesSuffix_readClass (s : List Char) : LeavesSuffix s (readClass s) := by
  unfold readClass
  split
  · simp
  · refine (leavesSuffix_readClassItems _ _ s).bind ?_
    intro items rest _
    simp

/-! ## Quantifiers -/

theorem unread_of_boundsOfDigits {low high rest : List Char} {comma : Bool} {r : Refusal}
    (h : boundsOfDigits low comma high rest = .error r) : r.unread = rest := by
  unfold boundsOfDigits at h
  dsimp only at h
  repeat' split at h
  all_goals first | (simp only [refuse, Except.error.injEq] at h; rw [← h]) | simp at h

theorem unread_suffix_of_readBraces {s : List Char} {r : Refusal}
    (h : readBraces s = .error r) : r.unread <:+ s := by
  rcases exists_form_or_readBraces_eq_none s with ⟨b, q, rest, rfl, hform⟩ | hnone
  · obtain ⟨low, comma, high, -, hread⟩ := readBraces_eq_of_form hform rest
    rw [hread] at h
    cases hbounds : boundsOfDigits low comma high rest with
    | ok b => simp [hbounds, Except.map] at h
    | error r' =>
        obtain rfl : r' = r := by simpa [hbounds, Except.map] using h
        rw [unread_of_boundsOfDigits hbounds]
        exact List.suffix_append q rest
  · simp [hnone] at h

theorem unread_suffix_of_readBounds {s : List Char} {r : Refusal}
    (h : readBounds s = .error r) : r.unread <:+ s := by
  unfold readBounds at h
  split at h
  · simp at h
  · simp at h
  · simp at h
  · exact (unread_suffix_of_readBraces h).trans (List.suffix_cons _ _)
  · simp at h

theorem unread_suffix_of_checkAfterBounds {s : List Char} {r : Refusal}
    (h : checkAfterBounds s = .error r) : r.unread <:+ s := by
  unfold checkAfterBounds at h
  split at h
  · simp only [leaveOut, Except.error.injEq] at h
    subst h
    exact List.suffix_refl _
  · simp only [leaveOut, Except.error.injEq] at h
    subst h
    exact List.suffix_refl _
  · simp only [refuse, Except.error.injEq] at h
    subst h
    exact List.suffix_refl _
  · rename_i rest
    cases hread : readBraces rest with
    | error r' =>
        obtain rfl : r' = r := by simpa [hread, bind, Except.bind] using h
        exact (unread_suffix_of_readBraces hread).trans (List.suffix_cons _ _)
    | ok found =>
        cases found with
        | none => simp [hread, bind, Except.bind] at h
        | some found =>
            obtain ⟨b, rest'⟩ := found
            obtain ⟨q, rfl, -⟩ := form_of_readBraces hread
            simp only [hread, bind, Except.bind, refuse, Except.error.injEq] at h
            rw [← h]
            exact List.suffix_append ('{' :: q) rest'
  · simp at h

theorem leavesSuffix_readQuantified (atom : Node) (s : List Char) :
    LeavesSuffix s (readQuantified atom s) := by
  rw [readQuantified]
  cases hbounds : readBounds s with
  | error r => exact unread_suffix_of_readBounds hbounds
  | ok found =>
      cases found with
      | none => exact List.suffix_refl s
      | some found =>
          obtain ⟨⟨min, max⟩, rest⟩ := found
          obtain ⟨q, rfl, -⟩ := form_of_readBounds hbounds
          have hrest : rest <:+ q ++ rest := List.suffix_append q rest
          simp only [bind, Except.bind]
          split
          · exact hrest
          · cases hcheck : checkAfterBounds rest with
            | error r => exact (unread_suffix_of_checkAfterBounds hcheck).trans hrest
            | ok _ => exact hrest

/-! ## Atoms and branches -/

theorem leavesSuffix_readAtom (c : Char) (s : List Char) :
    LeavesSuffix (c :: s) (readAtom c s) := by
  have hs : s <:+ c :: s := List.suffix_cons c s
  unfold readAtom
  split
  · exact (leavesSuffix_readClass s).mono hs
  · split
    · refine ((leavesSuffix_readEscape s).bind ?_).mono hs
      intro d rest _
      simp
    · split
      · exact hs
      · split
        · simp
        · split
          · simp
          · split
            · simp
            · exact hs

theorem suffix_of_openGroup (levels : Nat) (s : List Char) :
    (∀ inside, openGroup levels s = .ok inside → inside <:+ s) ∧
      ∀ r, openGroup levels s = .error r → r.unread <:+ s := by
  have hrest : (if s.head? = some '?' then s.drop 2 else s) <:+ s := by
    split
    · exact List.drop_suffix 2 s
    · exact List.suffix_refl s
  rw [openGroup]
  split
  · refine ⟨by simp [leaveOut], ?_⟩
    intro r hr
    simp only [leaveOut, Except.error.injEq] at hr
    subst hr
    exact List.suffix_refl s
  · dsimp only
    split
    · refine ⟨by simp [refuse], ?_⟩
      intro r hr
      simp only [refuse, Except.error.injEq] at hr
      rw [← hr]
      exact hrest
    · refine ⟨?_, by simp⟩
      intro inside hinside
      rw [← Except.ok.inj hinside]
      exact hrest

/-- By induction on the fuel; what is left behind an atom is never longer than the text. -/
theorem leavesSuffix_readBranches (fuel levels : Nat) (s : List Char) :
    LeavesSuffix s (readBranches fuel levels s) := by
  induction fuel generalizing levels s with
  | zero => simp [readBranches]
  | succ fuel ih =>
      cases s with
      | nil => simp [readBranches]
      | cons c s =>
          have hs : s <:+ c :: s := List.suffix_cons c s
          have hitem : ∀ atom t, LeavesSuffix t (readQuantified atom t >>= fun quantified =>
              readBranches fuel levels quantified.2 >>= fun branches =>
                pure ((quantified.1 :: branches.1.1, branches.1.2), branches.2)) := by
            intro atom t
            refine (leavesSuffix_readQuantified atom t).bind ?_
            intro node t' _
            refine (ih levels t').bind ?_
            intro branches rest _
            simp
          rw [readBranches]
          split
          · simp
          · split
            · refine ((ih levels s).bind ?_).mono hs
              intro branches rest _
              simp
            · dsimp only
              split
              · obtain ⟨hopened, hrefused⟩ := suffix_of_openGroup levels s
                cases hopen : openGroup levels s with
                | error r => exact (hrefused r hopen).trans hs
                | ok inside =>
                    have hinside : inside <:+ c :: s := (hopened inside hopen).trans hs
                    refine ((ih (levels - 1) inside).bind ?_).mono hinside
                    intro branches rest _
                    dsimp only
                    split
                    · exact (hitem _ _).mono (List.suffix_cons _ _)
                    · exact List.suffix_refl _
              · refine (leavesSuffix_readAtom c s).bind ?_
                intro atom rest _
                exact hitem atom rest

/-- The place of a refusal is inside the text. -/
theorem Pattern.unread_suffix_of_ofChars {s : List Char} {r : Refusal}
    (h : Pattern.ofChars s = .error r) : r.unread <:+ s := by
  rw [Pattern.ofChars] at h
  split at h
  · simp only [refuse, Except.error.injEq] at h
    subst h
    exact List.suffix_refl s
  · have hread := leavesSuffix_readBranches s.length maxGroupDepth s
    cases hbranches : readBranches s.length maxGroupDepth s with
    | error r' =>
        obtain rfl : r' = r := by simpa [hbranches, bind, Except.bind] using h
        rwa [hbranches] at hread
    | ok read =>
        obtain ⟨⟨branch, more⟩, rest⟩ := read
        rw [hbranches] at h hread
        simp only [bind, Except.bind] at h
        split at h
        · simp [pure, Except.pure] at h
        · simp only [refuse, Except.error.injEq] at h
          rw [← h]
          exact hread

end Guided
