import Guided.Proofs.Pattern.Refusals
import Guided.Proofs.Pattern.Terminals

/-!
# Readers at a backslash

A reader that is given a text with a backslash in it either stops before the backslash, or it
reads an escape there, or it is done with the text in another way: it has refused it already, or
the backslash is itself what an escape stands for. One reader after the other keeps this. Where
an escape is read, the reader only goes on with the character that it stands for and with the
text behind it; the tree that it makes names this character at a place that is known before.

## Main definitions

* `Pattern.characters`: the characters that a tree names, in the order of the text.
* `GoesOn`: what a reader may do when some characters have been named.
* `AtBackslash`: what a reader does at a backslash.

## Main statements

* `GoesOn.bind`, `AtBackslash.bind`: two readers one after the other.
-/
namespace Guided

/-! ## Characters in the order of the text -/

/-- The characters that an item of a class is written with. -/
def ClassItem.characters : ClassItem → List Char
  | .single c => [c]
  | .range low high => [low, high]

/-- The characters that a terminal names. -/
def Node.ownCharacters : Node → List Char
  | .literal c => [c]
  | .oneOf items => items.flatMap ClassItem.characters
  | _ => []

/-- The characters that a node names, from left to right. -/
def Node.characters (n : Node) : List Char := n.terminals.flatMap Node.ownCharacters

/-- The characters that a tree names, from left to right. -/
def Pattern.characters (p : Pattern) : List Char :=
  (Pattern.terminals p).flatMap Node.ownCharacters

/-- The characters of a branch and those that follow it. -/
def branchCharacters (branches : Pattern × List Pattern) : List Char :=
  Pattern.characters branches.1 ++ branches.2.flatMap Pattern.characters

section Characters

variable {n : Node} {p : Pattern} {branches more : List Pattern}

@[simp] theorem Node.characters_literal {c : Char} : (Node.literal c).characters = [c] := by
  simp [characters, terminals, ownCharacters]

@[simp] theorem Node.characters_oneOf {items : List ClassItem} :
    (Node.oneOf items).characters = items.flatMap ClassItem.characters := by
  simp [characters, terminals, ownCharacters]

@[simp] theorem Node.characters_group : (Node.group p).characters = Pattern.characters p := by
  simp [characters, Pattern.characters, terminals]

@[simp] theorem Node.characters_repetition {min : Nat} {max : Option Nat} :
    (Node.repetition min max p).characters = Pattern.characters p := by
  simp [characters, Pattern.characters, terminals]

@[simp] theorem Pattern.characters_nil : Pattern.characters [] = [] := by
  simp [characters]

@[simp] theorem Pattern.characters_cons :
    Pattern.characters (n :: p) = n.characters ++ Pattern.characters p := by
  simp [characters, Node.characters]

theorem Node.characters_alternation :
    (Node.alternation branches).characters = branches.flatMap Pattern.characters := by
  have heach : (Pattern.terminalsOfEach branches).flatMap ownCharacters =
      branches.flatMap Pattern.characters := by
    induction branches with
    | nil => simp [Pattern.terminalsOfEach]
    | cons branch branches ih =>
        simp [Pattern.terminalsOfEach, Pattern.characters, ih]
  rw [characters, terminals, heach]

@[simp] theorem Pattern.characters_ofBranches :
    Pattern.characters (Pattern.ofBranches p more) = branchCharacters (p, more) := by
  rw [ofBranches, branchCharacters]
  split
  · rename_i hmore
    simp [List.isEmpty_iff.1 hmore]
  · simp [Node.characters_alternation]

end Characters

/-! ## Going on -/

/-- What a reader may do with a text when the characters `before` have been named: it leaves an
end of the text, what it makes names these characters first, and at the end of the text it does
not miss what a backslash stands before. -/
structure GoesOn {α : Type} (chars : α → List Char) (before s : List Char)
    (x : Except Refusal (α × List Char)) : Prop where
  suffix : LeavesSuffix s x
  names : ∀ a rest, x = .ok (a, rest) → before <+: chars a
  complete : s = [] → x ≠ refuse .trailingBackslash []

section GoesOn

variable {α β : Type} {chars : α → List Char} {chars' : β → List Char}
  {before before' s : List Char} {x : Except Refusal (α × List Char)}

/-- A reader that starts with no character named. -/
theorem GoesOn.start {f : List Char → Except Refusal (α × List Char)}
    (hsuffix : ∀ s, LeavesSuffix s (f s)) (hnil : f [] ≠ refuse .trailingBackslash [])
    (s : List Char) : GoesOn chars [] s (f s) where
  suffix := hsuffix s
  names _ _ _ := List.nil_prefix
  complete := by
    rintro rfl
    exact hnil

theorem goesOn_ok_iff {a : α} : GoesOn chars before s (.ok (a, s)) ↔ before <+: chars a := by
  constructor
  · intro h
    exact h.names a s rfl
  · intro h
    refine ⟨List.suffix_refl s, ?_, by simp [refuse]⟩
    rintro b rest hb
    obtain ⟨rfl, rfl⟩ := Prod.mk.inj (Except.ok.inj hb)
    exact h

theorem goesOn_refuse {fault : PatternFault} (h : fault ≠ .trailingBackslash) :
    GoesOn chars before s (refuse fault s) where
  suffix := List.suffix_refl s
  names := by simp [refuse]
  complete _ := by simp [refuse, h]

/-- The second reader goes on from what the first one has named. -/
theorem GoesOn.bind {f : α × List Char → Except Refusal (β × List Char)}
    (h : GoesOn chars before s x)
    (hf : ∀ a rest, before <+: chars a → GoesOn chars' before' rest (f (a, rest))) :
    GoesOn chars' before' s (x >>= f) := by
  have hok : ∀ a rest, x = .ok (a, rest) → GoesOn chars' before' rest (f (a, rest)) :=
    fun a rest hx => hf a rest (h.names a rest hx)
  refine ⟨h.suffix.bind fun a rest hx => (hok a rest hx).suffix, ?_, ?_⟩
  · intro b t hb
    obtain ⟨⟨a, rest⟩, hx, hb⟩ := bind_eq_ok_iff.1 hb
    exact (hok a rest hx).names b t hb
  · rintro rfl
    cases hx : x with
    | error r =>
        rw [hx] at h
        intro hr
        refine h.complete rfl ?_
        simpa [bind, Except.bind, refuse] using hr
    | ok read =>
        obtain ⟨a, rest⟩ := read
        obtain rfl : rest = [] := List.suffix_nil.1 (h.suffix.of_eq_ok hx)
        exact (hok a [] hx).complete rfl

/-- What has been read is made part of something larger. -/
theorem GoesOn.map (h : GoesOn chars before s x) (make : α → β)
    (hmake : ∀ a, before <+: chars a → before' <+: chars' (make a)) :
    GoesOn chars' before' s (x >>= fun read => pure (make read.1, read.2)) :=
  h.bind fun a _ ha => goesOn_ok_iff.2 (hmake a ha)

end GoesOn

/-! ## At a backslash -/

/-- What a reader does with a text in which a backslash stands behind `w`. -/
inductive AtBackslash {α : Type} (chars : α → List Char)
    (f : List Char → Except Refusal (α × List Char)) (w : List Char) : Prop
  /-- It stops before the backslash, whatever follows. -/
  | stops (a : α) (w' : List Char)
      (h : ∀ after, f (w ++ '\\' :: after) = .ok (a, w' ++ '\\' :: after))
  /-- It reads an escape and goes on with its character, which what it makes has at a place. -/
  | reads (goOn : Char → List Char → Except Refusal (α × List Char)) (place : Nat)
      (hsuffix : ∀ c rest, LeavesSuffix rest (goOn c rest))
      (hplace : ∀ c rest a t, goOn c rest = .ok (a, t) → (chars a)[place]? = some c)
      (h : ∀ after, f (w ++ '\\' :: after) = readEscape after >>= fun read => goOn read.1 read.2)
  /-- It does not come to read an escape there. -/
  | passes (hrefused : f (w ++ ['\\']) ≠ refuse .trailingBackslash [])
      (hread : ∀ a rest, f (w ++ ['\\']) = .ok (a, rest) → rest = [])

section AtBackslash

variable {α β : Type} {chars : α → List Char} {chars' : β → List Char}
  {f f' : List Char → Except Refusal (α × List Char)} {w w' before : List Char}

/-- Readers that do the same here. -/
theorem AtBackslash.of_eq (h : ∀ after, f' (w' ++ '\\' :: after) = f (w ++ '\\' :: after))
    (hf : AtBackslash chars f w) : AtBackslash chars f' w' := by
  cases hf with
  | stops a t hstops => exact .stops a t fun after => (h after).trans (hstops after)
  | reads goOn place hsuffix hplace hreads =>
      exact .reads goOn place hsuffix hplace fun after => (h after).trans (hreads after)
  | passes hrefused hread => exact .passes (h [] ▸ hrefused) (h [] ▸ hread)

theorem AtBackslash.of_error {r : Refusal} (h : f (w ++ ['\\']) = .error r)
    (hr : r.cause ≠ .invalid .trailingBackslash) : AtBackslash chars f w := by
  refine .passes ?_ (by simp [h])
  rw [h, refuse]
  intro heq
  rw [Except.error.inj heq] at hr
  exact hr rfl

/-- The second reader goes on where the first one stops, and with what it makes of an escape. -/
theorem AtBackslash.bind {g : α × List Char → Except Refusal (β × List Char)}
    (before : List Char) (h : AtBackslash chars f w)
    (hg : ∀ a s, GoesOn chars' (before ++ chars a) s (g (a, s)))
    (hnext : ∀ a w', (∀ after, f (w ++ '\\' :: after) = .ok (a, w' ++ '\\' :: after)) →
      AtBackslash chars' (fun s => g (a, s)) w') :
    AtBackslash chars' (fun s => f s >>= g) w := by
  cases h with
  | stops a w' h =>
      refine (hnext a w' h).of_eq fun after => ?_
      rw [h after]
      rfl
  | reads goOn place hsuffix hplace h =>
      refine .reads (fun c rest => goOn c rest >>= g) (before.length + place) ?_ ?_ ?_
      · exact fun c rest => (hsuffix c rest).bind fun a t _ => (hg a t).suffix
      · intro c rest b t hb
        obtain ⟨⟨a, t'⟩, ha, hb⟩ := bind_eq_ok_iff.1 hb
        obtain ⟨more, hmore⟩ := (hg a t').names b t hb
        have hc := hplace c rest a t' ha
        have hlt := (List.getElem?_eq_some_iff.1 hc).1
        rw [← hmore, List.append_assoc, List.getElem?_append_right (Nat.le_add_right _ _),
          Nat.add_sub_cancel_left, List.getElem?_append_left hlt, hc]
      · intro after
        rw [h after, bind_assoc]
  | passes hrefused hread =>
      cases hf : f (w ++ ['\\']) with
      | error r =>
          rw [hf] at hrefused
          refine .passes ?_ fun b t hb => ?_
          · rw [hf]
            exact fun heq => hrefused (congrArg Except.error (Except.error.inj heq))
          · obtain ⟨read, hread, -⟩ := bind_eq_ok_iff.1 hb
            rw [hf] at hread
            cases hread
      | ok read =>
          obtain ⟨a, rest⟩ := read
          obtain rfl : rest = [] := hread a rest hf
          have hgoesOn := hg a []
          refine .passes ?_ fun b t hb => ?_
          · rw [hf]
            exact hgoesOn.complete rfl
          · rw [hf] at hb
            exact List.suffix_nil.1 (hgoesOn.suffix.of_eq_ok hb)

/-- What has been read is made part of something larger. -/
theorem AtBackslash.map (before : List Char) (h : AtBackslash chars f w) (make : α → β)
    (hmake : ∀ a, before ++ chars a <+: chars' (make a)) :
    AtBackslash chars' (fun s => f s >>= fun read => pure (make read.1, read.2)) w :=
  h.bind before (fun a _ => goesOn_ok_iff.2 (hmake a))
    fun a w' _ => .stops (make a) w' fun _ => rfl

end AtBackslash

end Guided
