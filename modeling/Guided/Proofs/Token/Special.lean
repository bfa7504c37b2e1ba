import Guided.Proofs.Decimal.Shortest
import Guided.Proofs.Fields
import Guided.Proofs.Token.Tokenizer
import Guided.Token.Tables
import Mathlib.Data.Nat.Log

/-!
# Special ids over time

Two tables show a list of names if the id of a name is its place in the list. They go on showing
it whatever is done with both, and give the same answers. The list itself is known from the
history: it has the names that were asked for since the last reset, in the order of their first
use, as many as there are ids for.

## Main definitions

* `SpecialTables.Shows`: tables that show a list of names.
* `firstUses`: the names that a history leaves in use.
* `SpecialTables.Registers`: what tables are to be at such names.

## Main statements

* `SpecialTokens.lt_baseFor`: special ids are above all ids of the vocabulary.
* `SpecialTables.Shows.step`, `SpecialTables.Shows.runSteps`: tables and list in step.
* `SpecialTokens.names_runSteps`: the names after a history.
* `SpecialTables.registers_after`: the tables after any history.
-/
namespace Guided

/-! ## The first special id -/

namespace SpecialTokens

/-- The first special id is the first power of ten with more digits than the range. -/
theorem baseFor_eq (range : Nat) : baseFor range = 10 ^ (Nat.log 10 range + 1) := by
  change 10 ^ (Nat.toDigits 10 range).length = 10 ^ (Nat.log 10 range + 1)
  rcases Nat.eq_zero_or_pos range with rfl | hpos
  · rfl
  · obtain ⟨k, hk, hlow, hhigh⟩ := exists_length_toDigits hpos.ne'
    rw [hk, Nat.log_eq_of_pow_le_of_lt_pow hlow hhigh]

/-- Special ids are above the range of the vocabulary. -/
theorem lt_baseFor (range : Nat) : range < baseFor range := by
  rw [baseFor_eq]
  exact Nat.lt_pow_succ_log_self (by decide) range

theorem create_eq_ok_iff {range : Nat} {t : SpecialTokens} :
    create range = .ok t ↔ baseFor range < word32Bound ∧ t = ⟨baseFor range, []⟩ := by
  rw [create]
  split
  · rename_i hfits
    simp [hfits, eq_comm]
  · rename_i hfits
    simp [hfits]

end SpecialTokens

/-- An id of a vocabulary: one of as many as there are entries, or one up to the largest. -/
def TokenBackend.Has (b : TokenBackend) (id : Nat) : Prop :=
  id < b.vocabularySize ∨ ∃ largest, b.maxTokenId = some largest ∧ id ≤ largest

theorem TokenBackend.Has.lt_vocabularyRange {b : TokenBackend} {id : Nat} (h : b.Has id) :
    id < b.vocabularyRange := by
  rcases h with h | ⟨largest, hlargest, h⟩
  · exact h.trans_le (Nat.le_max_right _ _)
  · refine (Nat.lt_succ_of_le h).trans_le ?_
    rw [vocabularyRange, hlargest]
    exact Nat.le_max_left _ _

/-! ## Tables that show a list -/

namespace SpecialTokens

variable {s : SpecialTokens} {name : String} {id : Nat}

theorem nameOf?_eq_some_iff :
    s.nameOf? id = some name ↔ ∃ i, s.names[i]? = some name ∧ id = s.base + i := by
  rw [nameOf?]
  constructor
  · intro h
    split at h
    · rename_i hbase
      exact ⟨id - s.base, h, by omega⟩
    · cases h
  · rintro ⟨i, hi, rfl⟩
    rw [if_pos (Nat.le_add_right _ _), Nat.add_sub_cancel_left, hi]

/-- A name in use has its place as its id. -/
theorem idFor_of_nameOf? (hnodup : s.names.Nodup) (h : s.nameOf? id = some name) :
    s.idFor name = .ok (id, s) := by
  obtain ⟨i, hi, rfl⟩ := nameOf?_eq_some_iff.1 h
  obtain ⟨hlt, hname⟩ := List.getElem?_eq_some_iff.1 hi
  have hmem : name ∈ s.names := List.mem_of_getElem? hi
  rw [idFor, if_pos (by simpa using hmem), ← hname, hnodup.idxOf_getElem]

theorem notMem_names_iff : name ∉ s.names ↔ ∀ id, s.nameOf? id ≠ some name := by
  constructor
  · intro hnot id hid
    obtain ⟨i, hi, -⟩ := nameOf?_eq_some_iff.1 hid
    exact hnot (List.mem_of_getElem? hi)
  · intro hnone hmem
    obtain ⟨i, hi⟩ := List.mem_iff_getElem?.1 hmem
    exact hnone _ (nameOf?_eq_some_iff.2 ⟨i, hi, rfl⟩)

/-- A further name has the id behind all others. -/
theorem nameOf?_append (s : SpecialTokens) (name : String) (id : Nat) :
    nameOf? { s with names := s.names ++ [name] } id =
      if id = s.base + s.names.length then some name else s.nameOf? id := by
  rw [nameOf?, nameOf?]
  dsimp only
  by_cases hbase : s.base ≤ id
  · rw [if_pos hbase, if_pos hbase]
    split
    · rename_i hid
      rw [hid, Nat.add_sub_cancel_left, List.getElem?_concat_length]
    · rename_i hid
      rw [List.getElem?_append]
      split
      · rfl
      · rename_i hlarge
        rw [List.getElem?_eq_none (by simp; omega), List.getElem?_eq_none (by omega)]
  · rw [if_neg hbase, if_neg hbase, if_neg (by omega)]

end SpecialTokens

namespace SpecialTables

/-- Tables show a list of names if ids count from the same number, there are as many names, and
both tables have each name at its place. -/
structure Shows (t : SpecialTables) (s : SpecialTokens) : Prop where
  base : t.base = s.base
  size : t.byName.length = s.names.length
  ids : ∀ name id, t.byName.find? name = some id ↔ s.nameOf? id = some name
  names : ∀ id, t.nameOf? id = s.nameOf? id

variable {t : SpecialTables} {s : SpecialTokens}

/-- A further name goes behind all others in the list, and into both tables. -/
theorem Shows.insert {name : String} (h : t.Shows s) (hknown : t.byName.find? name = none) :
    Shows ⟨s.base, t.byName.insert name (s.base + s.names.length),
      (s.base + s.names.length, name) :: t.byId⟩ { s with names := s.names ++ [name] } where
  base := rfl
  size := by
    rw [Fields.length_insert_of_find?_eq_none hknown, h.size, List.length_append]
    rfl
  ids other id := by
    rw [Fields.find?_insert, SpecialTokens.nameOf?_append]
    by_cases hid : id = s.base + s.names.length
    · rw [if_pos hid, hid]
      have hunused : t.byName.find? other ≠ some (s.base + s.names.length) := by
        rw [Ne, h.ids, SpecialTokens.nameOf?_eq_some_iff]
        rintro ⟨i, hi, heq⟩
        obtain rfl : s.names.length = i := Nat.add_left_cancel heq
        simp at hi
      by_cases hname : name = other
      · simp [hname]
      · simp [hname, hunused]
    · rw [if_neg hid, ← h.ids]
      by_cases hname : name = other
      · simp [← hname, hknown, Ne.symm hid]
      · rw [if_neg hname]
  names id := by
    rw [SpecialTokens.nameOf?_append, ← h.names, nameOf?, nameOf?, List.lookup_cons]
    by_cases hid : id = s.base + s.names.length
    · rw [if_pos hid, beq_iff_eq.2 hid]
    · rw [if_neg hid, beq_eq_false_iff_ne.2 hid]

/-- An id is given by the tables as by the list, and refused by both with the tables unchanged. -/
theorem Shows.idFor (h : t.Shows s) (hsound : s.Sound) (hbase : 0 < s.base) (name : String) :
    (∃ id later, s.idFor name = .ok (id, later) ∧ (t.idFor name).1 = .ok id ∧
      (t.idFor name).2.Shows later ∧ later.Sound ∧ later.base = s.base) ∨
    (∃ e, s.idFor name = .error e ∧ (t.idFor name).1 = .error e ∧ (t.idFor name).2 = t ∧
      name ∉ s.names ∧ s.base + s.names.length = word32Bound) := by
  have hcount : t.byName.length % word32Bound = s.names.length := by
    have hbounded := hsound.bounded
    rw [h.size, Nat.mod_eq_of_lt (by omega)]
  rw [SpecialTables.idFor]
  cases hknown : t.byName.find? name with
  | some id =>
      have hid := SpecialTokens.idFor_of_nameOf? hsound.nodup ((h.ids name id).1 hknown)
      exact .inl ⟨id, s, hid, rfl, h, hsound, rfl⟩
  | none =>
      have hnew : name ∉ s.names := by
        refine SpecialTokens.notMem_names_iff.2 fun id hid => ?_
        rw [(h.ids name id).2 hid] at hknown
        cases hknown
      dsimp only
      rw [hcount, h.base, SpecialTokens.idFor, if_neg (by simpa using hnew)]
      dsimp only
      by_cases hfits : s.base + s.names.length < word32Bound
      · rw [if_pos hfits, if_pos hfits]
        refine .inl ⟨_, _, rfl, rfl, h.insert hknown, ⟨?_, ?_⟩, rfl⟩
        · rw [← List.concat_eq_append]
          exact hsound.nodup.concat hnew
        · simp only [List.length_append, List.length_singleton]
          omega
      · rw [if_neg hfits, if_neg hfits]
        exact .inr ⟨_, rfl, rfl, rfl, hnew, le_antisymm hsound.bounded (not_lt.1 hfits)⟩

theorem Shows.reset (h : t.Shows s) : t.reset.Shows s.reset where
  base := h.base
  size := rfl
  ids name id := by simp [SpecialTables.reset, SpecialTokens.reset, SpecialTokens.nameOf?]
  names id := by
    simp [SpecialTables.reset, SpecialTokens.reset, SpecialTokens.nameOf?, SpecialTables.nameOf?]

/-- Each step gives the same answer, and keeps tables and list in step. -/
theorem Shows.step (h : t.Shows s) (hsound : s.Sound) (hbase : 0 < s.base) (x : SpecialStep) :
    (t.step x).1 = (s.step x).1 ∧ (t.step x).2.Shows (s.step x).2 ∧ (s.step x).2.Sound ∧
      (s.step x).2.base = s.base := by
  cases x with
  | idFor name =>
      rcases h.idFor hsound hbase name with
        ⟨id, later, hid, hgiven, hshows, hlater, heq⟩ | ⟨e, hid, hrefused, hsame, -, -⟩
      · simp only [SpecialTables.step, SpecialTokens.step, hid, hgiven]
        exact ⟨trivial, hshows, hlater, heq⟩
      · simp only [SpecialTables.step, SpecialTokens.step, hid, hrefused, hsame]
        exact ⟨trivial, h, hsound, trivial⟩
  | nameOf id =>
      simp only [SpecialTables.step, SpecialTokens.step, h.names]
      exact ⟨trivial, h, hsound, trivial⟩
  | reset =>
      refine ⟨rfl, h.reset, ⟨List.nodup_nil, ?_⟩, rfl⟩
      exact (Nat.le_add_right _ _).trans hsound.bounded

/-- By induction on the steps. -/
theorem Shows.runSteps (h : t.Shows s) (hsound : s.Sound) (hbase : 0 < s.base)
    (steps : List SpecialStep) :
    (runSteps SpecialTables.step t steps).1 = (runSteps SpecialTokens.step s steps).1 ∧
      (t.after steps).Shows (runSteps SpecialTokens.step s steps).2 ∧
      (runSteps SpecialTokens.step s steps).2.Sound ∧
      (runSteps SpecialTokens.step s steps).2.base = s.base := by
  induction steps generalizing t s with
  | nil => exact ⟨rfl, h, hsound, rfl⟩
  | cons x steps ih =>
      obtain ⟨hanswer, hshows, hlater, heq⟩ := h.step hsound hbase x
      obtain ⟨hanswers, hshown, hsounds, hbases⟩ := ih hshows hlater (heq ▸ hbase)
      refine ⟨?_, hshown, hsounds, hbases.trans heq⟩
      rw [runSteps_cons, runSteps_cons, hanswer, hanswers]

end SpecialTables

/-! ## The names in use -/

/-- The names that were asked for since the last reset, behind those asked for before. -/
def askedAfter (asked : List String) : List SpecialStep → List String
  | [] => asked
  | .idFor name :: steps => askedAfter (asked ++ [name]) steps
  | .nameOf _ :: steps => askedAfter asked steps
  | .reset :: steps => askedAfter [] steps

/-- The names in use after a history: those asked for since the last reset, each at its first
use, as long as there is room for one more. -/
def firstUses (room : Nat) (steps : List SpecialStep) : List String :=
  (askedAfter [] steps).eraseDups.take room

namespace SpecialTokens

variable {s : SpecialTokens} {asked : List String}

theorem eraseDups_concat (asked : List String) (name : String) :
    (asked ++ [name]).eraseDups =
      if name ∈ asked then asked.eraseDups else asked.eraseDups ++ [name] := by
  rw [List.eraseDups_append]
  split
  · rename_i hmem
    simp [List.removeAll, hmem]
  · rename_i hmem
    simp [List.removeAll, hmem, List.eraseDups_cons]

/-- Asking for an id adds a new name if there is an id for it, and changes nothing otherwise. -/
theorem step_idFor_snd (s : SpecialTokens) (name : String) :
    (s.step (.idFor name)).2 =
      if name ∉ s.names ∧ s.base + s.names.length < word32Bound
      then { s with names := s.names ++ [name] } else s := by
  rw [step, idFor]
  by_cases hknown : name ∈ s.names
  · simp [hknown]
  · by_cases hfits : s.base + s.names.length < word32Bound
    · simp [hknown, hfits]
    · simp [hknown, hfits]

/-- A name that is asked for is in use from then on, if there is room for it. -/
theorem names_idFor (hbase : s.base ≤ word32Bound)
    (hnames : s.names = asked.eraseDups.take (word32Bound - s.base)) (name : String) :
    (s.step (.idFor name)).2.names =
      (asked ++ [name]).eraseDups.take (word32Bound - s.base) := by
  have hlength := congrArg List.length hnames
  rw [List.length_take] at hlength
  rw [eraseDups_concat, step_idFor_snd]
  by_cases hmem : name ∈ asked
  · rw [if_pos hmem, ← hnames]
    split
    · -- A name that was asked for before is only missing when there is no room.
      rename_i hnew
      have hall : s.names = asked.eraseDups := by
        rw [hnames, List.take_of_length_le (by omega)]
      exact absurd (hall ▸ List.mem_eraseDups.2 hmem) hnew.1
    · rfl
  · have hnew : name ∉ s.names := fun hknown =>
      hmem (List.mem_eraseDups.1 (List.mem_of_mem_take (hnames ▸ hknown)))
    rw [if_neg hmem]
    by_cases hfits : s.base + s.names.length < word32Bound
    · have hall : s.names = asked.eraseDups := by
        rw [hnames, List.take_of_length_le (by omega)]
      rw [if_pos ⟨hnew, hfits⟩, ← hall, List.take_of_length_le]
      rw [List.length_append, List.length_singleton]
      omega
    · rw [if_neg fun h => hfits h.2, List.take_append_of_le_length (by omega)]
      exact hnames

/-- By induction on the steps, of which only those that ask for an id add names. -/
theorem names_runSteps (hbase : s.base ≤ word32Bound)
    (hnames : s.names = asked.eraseDups.take (word32Bound - s.base)) (steps : List SpecialStep) :
    (runSteps SpecialTokens.step s steps).2.names =
      (askedAfter asked steps).eraseDups.take (word32Bound - s.base) := by
  induction steps generalizing s asked with
  | nil => exact hnames
  | cons x steps ih =>
      rw [runSteps_cons]
      cases x with
      | idFor name =>
          have hsame : (s.step (.idFor name)).2.base = s.base := by
            rw [step_idFor_snd]
            split <;> rfl
          rw [askedAfter, ← hsame]
          exact ih (hsame ▸ hbase) (hsame ▸ names_idFor hbase hnames name)
      | nameOf id => exact ih hbase hnames
      | reset => exact ih hbase (by simp [step, reset])

/-- Names keep their ids as long as there is no reset. -/
theorem extends_runSteps {steps : List SpecialStep} (h : .reset ∉ steps) :
    s.Extends (runSteps SpecialTokens.step s steps).2 := by
  induction steps generalizing s with
  | nil => exact extends_refl s
  | cons x steps ih =>
      rw [List.mem_cons, not_or] at h
      rw [runSteps_cons]
      refine Extends.trans ?_ (ih h.2)
      cases x with
      | idFor name =>
          rw [step_idFor_snd]
          split
          · exact ⟨rfl, List.prefix_append _ _⟩
          · exact extends_refl s
      | nameOf id => exact extends_refl s
      | reset => exact absurd rfl h.1

end SpecialTokens

/-! ## Tables after a history -/

namespace SpecialTables

/-- What tables are to be when these names are in use: as many as the names, which are all
different; with the place of each name as its id, in both tables, counted from a first one
above the range of the vocabulary; and with all ids in 32 bits. -/
structure Registers (t : SpecialTables) (range : Nat) (names : List String) : Prop where
  nodup : names.Nodup
  size : t.byName.length = names.length
  idOf : ∀ name id, t.byName.find? name = some id ↔ ∃ i, names[i]? = some name ∧ id = t.base + i
  nameOf : ∀ id name, t.nameOf? id = some name ↔ ∃ i, names[i]? = some name ∧ id = t.base + i
  above : range < t.base
  fits : t.base + names.length ≤ 2 ^ 32

variable {t : SpecialTables} {s : SpecialTokens} {range : Nat}

theorem Shows.registers (h : t.Shows s) (hsound : s.Sound) (habove : range < s.base) :
    t.Registers range s.names where
  nodup := hsound.nodup
  size := h.size
  idOf name id := by rw [h.ids, SpecialTokens.nameOf?_eq_some_iff, h.base]
  nameOf id name := by rw [h.names, SpecialTokens.nameOf?_eq_some_iff, h.base]
  above := h.base ▸ habove
  fits := h.base ▸ hsound.bounded

/-- The ids in use are those from the first one on, as many as there are names. -/
theorem Registers.isSome_nameOf?_iff {names : List String} (h : t.Registers range names)
    (id : Nat) : (t.nameOf? id).isSome ↔ t.base ≤ id ∧ id < t.base + names.length := by
  rw [Option.isSome_iff_exists]
  simp only [h.nameOf]
  constructor
  · rintro ⟨name, i, hi, rfl⟩
    obtain ⟨hlt, -⟩ := List.getElem?_eq_some_iff.1 hi
    omega
  · rintro ⟨hbase, hlt⟩
    exact ⟨names[id - t.base], id - t.base, List.getElem?_eq_getElem (by omega), by omega⟩

theorem create_eq_ok_iff :
    create range = .ok t ↔ 10 ^ (Nat.log 10 range + 1) < 2 ^ 32 ∧
      t = ⟨10 ^ (Nat.log 10 range + 1), [], []⟩ := by
  rw [create, SpecialTokens.baseFor_eq]
  change (if 10 ^ (Nat.log 10 range + 1) < 2 ^ 32 then _ else _) = _ ↔ _
  split
  · rename_i hfits
    rw [Except.ok.injEq, eq_comm, and_iff_right hfits]
  · rename_i hfits
    exact ⟨nofun, fun h => absurd h.1 hfits⟩

theorem shows_nil (base : Nat) : Shows ⟨base, [], []⟩ ⟨base, []⟩ where
  base := rfl
  size := rfl
  ids name id := by simp [SpecialTokens.nameOf?]
  names id := by simp [SpecialTokens.nameOf?, nameOf?]

/-- Names keep their ids as long as there is no reset. -/
theorem Shows.find?_after {more : List SpecialStep} (h : t.Shows s) (hsound : s.Sound)
    (hbase : 0 < s.base) (hmore : .reset ∉ more) {name : String} {id : Nat}
    (hid : t.byName.find? name = some id) : (t.after more).byName.find? name = some id := by
  obtain ⟨-, hlater, -, -⟩ := h.runSteps hsound hbase more
  exact (hlater.ids name id).2
    ((SpecialTokens.extends_runSteps hmore).nameOf? ((h.ids name id).1 hid))

/-- **A registry after any history.** There is one exactly if ten to the number of decimal digits
of the vocabulary range fits in 32 bits. Names and ids then correspond one to one, and the ids
are those from this power of ten on, in the order in which the names were first used since the
last reset; all are above every id of the vocabulary. An id that is asked for is given, or there
is none left and the registry stays as it was. Ids stay the same up to the next reset. A list of
names gives the same answers all along. -/
theorem registers_after (range : Nat) :
    ((∃ start, create range = .ok start) ↔ 10 ^ (Nat.log 10 range + 1) < 2 ^ 32) ∧
    ∀ start, create range = .ok start → start.base = 10 ^ (Nat.log 10 range + 1) ∧
      ∀ steps, ∃ names, names = firstUses (2 ^ 32 - start.base) steps ∧
        (start.after steps).base = start.base ∧ (start.after steps).Registers range names ∧
        (∀ name id, (start.after steps).byName.find? name = some id ↔
          (start.after steps).nameOf? id = some name) ∧
        (∀ id, ((start.after steps).nameOf? id).isSome ↔
          start.base ≤ id ∧ id < start.base + names.length) ∧
        (∀ backend : TokenBackend, backend.vocabularyRange = range → ∀ known, backend.Has known →
          ∀ id, ((start.after steps).nameOf? id).isSome → known < id) ∧
        (∀ name, (∃ id, ((start.after steps).idFor name).1 = .ok id ∧
            ((start.after steps).idFor name).2.byName.find? name = some id) ∨
          (∃ e, ((start.after steps).idFor name).1 = .error e ∧
            ((start.after steps).idFor name).2 = start.after steps ∧
            name ∉ names ∧ start.base + names.length = 2 ^ 32)) ∧
        (∀ more, .reset ∉ more → ∀ name id, (start.after steps).byName.find? name = some id →
          (start.after (steps ++ more)).byName.find? name = some id) ∧
        ∃ s, SpecialTokens.create range = .ok s ∧
          (runSteps SpecialTables.step start steps).1 =
            (runSteps SpecialTokens.step s steps).1 := by
  constructor
  · simp only [create_eq_ok_iff, exists_and_left, exists_eq, and_true]
  intro start hstart
  obtain ⟨hfits, rfl⟩ := create_eq_ok_iff.1 hstart
  refine ⟨rfl, fun steps => ?_⟩
  have hpos : 0 < 10 ^ (Nat.log 10 range + 1) := Nat.pow_pos (by decide)
  have habove : range < 10 ^ (Nat.log 10 range + 1) :=
    SpecialTokens.baseFor_eq range ▸ SpecialTokens.lt_baseFor range
  generalize hfirst : 10 ^ (Nat.log 10 range + 1) = base at hfits hpos habove ⊢
  obtain ⟨hanswers, hshows, hsound, hbase⟩ :=
    (shows_nil base).runSteps ⟨List.nodup_nil, hfits.le⟩ hpos steps
  replace hbase : (runSteps SpecialTokens.step ⟨base, []⟩ steps).2.base = base := hbase
  have hnames : (runSteps SpecialTokens.step ⟨base, []⟩ steps).2.names =
      firstUses (2 ^ 32 - base) steps :=
    SpecialTokens.names_runSteps hfits.le List.take_nil.symm steps
  have hregisters := hshows.registers hsound (hbase.symm ▸ habove)
  rw [hnames] at hregisters
  have hsame : ((⟨base, [], []⟩ : SpecialTables).after steps).base = base :=
    hshows.base.trans hbase
  have hids := hregisters.isSome_nameOf?_iff
  rw [hsame] at hids
  refine ⟨_, rfl, hsame, hregisters, fun name id => ?_, hids, ?_, ?_, ?_, ⟨base, []⟩,
    SpecialTokens.create_eq_ok_iff.2 ?_, hanswers⟩
  · rw [hregisters.idOf, hregisters.nameOf]
  · rintro backend rfl known hknown id hid
    exact (hknown.lt_vocabularyRange.trans habove).trans_le ((hids id).1 hid).1
  · intro name
    rcases hshows.idFor hsound (hbase.symm ▸ hpos) name with
      ⟨id, later, hid, hgiven, hshown, -, -⟩ | ⟨e, -, hrefused, hkept, hnew, hfull⟩
    · exact .inl ⟨id, hgiven, (hshown.ids name id).2 (SpecialTokens.idFor_spec hid).2⟩
    · rw [hnames] at hnew
      rw [hbase, hnames] at hfull
      exact .inr ⟨e, hrefused, hkept, hnew, hfull⟩
  · intro more hmore name id hid
    rw [after, runSteps_append]
    exact hshows.find?_after hsound (hbase.symm ▸ hpos) hmore hid
  · rw [SpecialTokens.baseFor_eq, hfirst]
    exact ⟨hfits, rfl⟩

/-- Over bytes, names get the ids from 1000 on. A reset gives the first of them to the next name,
and a further name leaves the ids as they are. -/
theorem registers_after_reset :
    create 256 = .ok ⟨1000, [], []⟩ ∧ TokenBackend.byteLevel.vocabularyRange = 256 ∧
      ∃ t : SpecialTables, t = SpecialTables.after ⟨1000, [], []⟩
          [.idFor "a", .reset, .idFor "b", .idFor "a", .nameOf 1000] ∧
        t.Registers 256 ["b", "a"] ∧ t.byName.find? "a" = some 1001 ∧ 255 < 1001 ∧
        (t.after [.idFor "c"]).byName.find? "a" = some 1001 := by
  have hcreate : create 256 = .ok ⟨1000, [], []⟩ := rfl
  obtain ⟨-, hafter⟩ := (registers_after 256).2 _ hcreate
  obtain ⟨names, hnames, -, hregisters, -, -, habove, -, hstable, -⟩ :=
    hafter [.idFor "a", .reset, .idFor "b", .idFor "a", .nameOf 1000]
  obtain rfl : names = ["b", "a"] := hnames
  refine ⟨hcreate, rfl, _, rfl, hregisters, rfl, ?_, ?_⟩
  · exact habove .byteLevel rfl 255 (.inl (by decide)) 1001 (by decide)
  · exact hstable [.idFor "c"] (by simp) "a" 1001 rfl

end SpecialTables

end Guided
