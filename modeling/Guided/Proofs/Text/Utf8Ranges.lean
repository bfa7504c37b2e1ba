import Guided.Text.Utf8Ranges
import Mathlib.Algebra.BigOperators.Group.List.Basic
import Mathlib.Algebra.BigOperators.Ring.List
import Mathlib.Algebra.Order.BigOperators.Group.List
import Mathlib.Algebra.Order.Group.Nat
import Mathlib.Algebra.Ring.Nat

/-!
# How many sequences encode a range

A range of code points of one length is cut at most at both of its ends, once for each byte
behind the first. So there are few sequences for a range, and never more than it has code
points.

## Main statements

* `length_digitSequences_le`: sequences for numbers with a given count of digits.
* `length_digitSequences_le_size`: never more sequences than numbers.
* `sum_length_utf8Sequences_le`: the bytes of all sequences for a range.
-/
namespace Guided

open List

section Digits

variable {tail lead low high : Nat}

theorem length_of_mem_digitSequences {sequence : List ByteRange}
    (h : sequence ∈ digitSequences tail lead low high) : sequence.length = tail + 1 := by
  induction tail generalizing lead low high sequence with
  | zero => simp_all [digitSequences]
  | succ tail ih =>
      have hbehind : ∀ digit low high, ∀ s ∈ (digitSequences tail 0x80 low high).map
          ((lead + digit, lead + digit) :: ·), s.length = tail + 1 + 1 := by
        intro digit low high s hs
        obtain ⟨rest, hrest, rfl⟩ := mem_map.1 hs
        rw [length_cons, ih hrest]
      have hpresent : ∀ {p : Prop} [Decidable p] {sequences : List (List ByteRange)},
          sequence ∈ (if p then sequences else []) → sequence ∈ sequences := by
        intro p _ sequences hmem
        split at hmem
        · exact hmem
        · simp at hmem
      rw [digitSequences] at h
      dsimp only at h
      split at h
      · exact hbehind _ _ _ _ h
      · rw [mem_append, mem_append] at h
        rcases h with (h | h) | h
        · exact hbehind _ _ _ _ (hpresent h)
        · rw [mem_singleton.1 (hpresent h), length_cons, length_replicate]
        · exact hbehind _ _ _ _ (hpresent h)

/-- Numbers with several digits and different first ones: those behind the lowest first digit
unless all of them belong to the range, those behind the highest one likewise, and one
sequence for what is between. -/
theorem length_digitSequences_succ {unit : Nat} (hunit : unit = 64 ^ (tail + 1))
    (h : low / unit ≠ high / unit) :
    (digitSequences (tail + 1) lead low high).length =
      (if low % unit ≠ 0 then (digitSequences tail 0x80 (low % unit) (unit - 1)).length else 0) +
        (if (if low % unit ≠ 0 then low / unit + 1 else low / unit) <
            (if high % unit ≠ unit - 1 then high / unit else high / unit + 1) then 1 else 0) +
        (if high % unit ≠ unit - 1 then
          (digitSequences tail 0x80 0 (high % unit)).length else 0) := by
  subst hunit
  rw [digitSequences]
  simp only [Nat.pow_eq, if_neg h, length_append, apply_ite length, length_map, length_nil,
    length_singleton]

theorem length_digitSequences_of_eq {unit : Nat} (hunit : unit = 64 ^ (tail + 1))
    (h : low / unit = high / unit) :
    (digitSequences (tail + 1) lead low high).length =
      (digitSequences tail 0x80 (low % unit) (high % unit)).length := by
  subst hunit
  rw [digitSequences]
  simp only [Nat.pow_eq, if_pos h, length_map]

/-- Every digit behind the first adds a sequence at each end that is not whole. -/
theorem length_digitSequences_le (lead : Nat) {atLow atHigh : Nat}
    (hlow : low % 64 ^ tail ≠ 0 → tail ≤ atLow)
    (hhigh : high % 64 ^ tail ≠ 64 ^ tail - 1 → tail ≤ atHigh) :
    (digitSequences tail lead low high).length ≤ 1 + atLow + atHigh := by
  induction tail generalizing lead low high atLow atHigh with
  | zero =>
      simp only [digitSequences, length_singleton]
      omega
  | succ tail ih =>
      obtain ⟨unit, hunit⟩ : ∃ unit, unit = 64 ^ (tail + 1) := ⟨_, rfl⟩
      have hpow : unit = 64 ^ tail * 64 := hunit.trans (Nat.pow_succ ..)
      have hpos : 0 < 64 ^ tail := Nat.pos_of_ne_zero (by simp)
      have hends : (unit - 1) % 64 ^ tail = 64 ^ tail - 1 := by
        have hsplit : unit - 1 = 64 ^ tail - 1 + 64 ^ tail * 63 := by omega
        rw [hsplit, Nat.add_mul_mod_self_left, Nat.mod_eq_of_lt (by omega)]
      rw [← hunit] at hlow hhigh
      by_cases heq : low / unit = high / unit
      · rw [length_digitSequences_of_eq hunit heq]
        apply ih
        · intro h
          have hcut : low % unit ≠ 0 := by
            intro hzero
            simp [hzero] at h
          exact Nat.le_of_succ_le (hlow hcut)
        · intro h
          have hcut : high % unit ≠ unit - 1 := by
            intro hwhole
            exact h (hwhole ▸ hends)
          exact Nat.le_of_succ_le (hhigh hcut)
      · rw [length_digitSequences_succ hunit heq]
        have hbefore : low % unit ≠ 0 →
            (digitSequences tail 0x80 (low % unit) (unit - 1)).length ≤ 1 + tail + 0 :=
          fun _ => ih 0x80 (fun _ => Nat.le_refl tail) (fun h => absurd hends h)
        have hafter : high % unit ≠ unit - 1 →
            (digitSequences tail 0x80 0 (high % unit)).length ≤ 1 + 0 + tail :=
          fun _ => ih 0x80 (fun h => absurd (Nat.zero_mod _) h) (fun _ => Nat.le_refl tail)
        repeat' split
        all_goals omega

/-- There are never more sequences than numbers. -/
theorem length_digitSequences_le_size (tail lead : Nat) (h : low ≤ high) :
    (digitSequences tail lead low high).length ≤ high + 1 - low := by
  induction tail generalizing lead low high with
  | zero =>
      simp only [digitSequences, length_singleton]
      omega
  | succ tail ih =>
      obtain ⟨unit, hunit⟩ : ∃ unit, unit = 64 ^ (tail + 1) := ⟨_, rfl⟩
      have hpos : 0 < unit := hunit ▸ Nat.pos_of_ne_zero (by simp)
      have hlow := Nat.div_add_mod low unit
      have hhigh := Nat.div_add_mod high unit
      have hlowlt := Nat.mod_lt low hpos
      have hhighlt := Nat.mod_lt high hpos
      by_cases heq : low / unit = high / unit
      · rw [length_digitSequences_of_eq hunit heq]
        rw [heq] at hlow
        have hle : low % unit ≤ high % unit := by omega
        have hrest := ih 0x80 hle
        omega
      · have hlt : low / unit < high / unit := by
          have hle := Nat.div_le_div_right (c := unit) h
          omega
        obtain ⟨between, hbetween⟩ := Nat.exists_eq_add_of_lt hlt
        have hwidth : unit * (high / unit) = unit * (low / unit) + unit * between + unit := by
          rw [hbetween, Nat.mul_add, Nat.mul_add, Nat.mul_one]
        have hsome : 0 < between → unit ≤ unit * between := Nat.le_mul_of_pos_right unit
        have hbefore := ih 0x80 (show low % unit ≤ unit - 1 by omega)
        have hafter := ih 0x80 (Nat.zero_le (high % unit))
        rw [length_digitSequences_succ hunit heq]
        repeat' split
        all_goals omega

end Digits

section Blocks

variable {low high next : Nat} {blocks : List ((Nat × Nat) × Nat × Nat)}

/-- How many code points of a range a block of the encoding has. -/
def codePointsIn (low high : Nat) (block : (Nat × Nat) × Nat × Nat) : Nat :=
  min high block.1.2 + 1 - max low block.1.1

/-- Blocks one behind the other share a range among them. -/
theorem sum_codePointsIn_le
    (hordered : blocks.Pairwise fun block behind => block.1.2 < behind.1.1)
    (hblocks : ∀ block ∈ blocks, next ≤ block.1.1 ∧ block.1.1 ≤ block.1.2) :
    (blocks.map (codePointsIn low high)).sum ≤ high + 1 - max low next := by
  induction blocks generalizing next with
  | nil => simp
  | cons block blocks ih =>
      rw [pairwise_cons] at hordered
      have hblock := hblocks block mem_cons_self
      have hbehind := ih hordered.2 fun behind hmem =>
        ⟨hordered.1 behind hmem, (hblocks behind (mem_cons_of_mem _ hmem)).2⟩
      rw [map_cons, sum_cons, codePointsIn]
      omega

/-- The sequences for what a range has in a block of the encoding. -/
def blockSequences (low high : Nat) (block : (Nat × Nat) × Nat × Nat) : List (List ByteRange) :=
  if max low block.1.1 ≤ min high block.1.2 then
    digitSequences block.2.1 block.2.2 (max low block.1.1) (min high block.1.2)
  else []

theorem utf8Sequences_eq_flatMap :
    utf8Sequences low high = utf8Blocks.flatMap (blockSequences low high) := rfl

theorem length_pos_of_mem_utf8Sequences {sequence : List ByteRange}
    (h : sequence ∈ utf8Sequences low high) : 0 < sequence.length := by
  rw [utf8Sequences_eq_flatMap] at h
  obtain ⟨block, -, h⟩ := mem_flatMap.1 h
  rw [blockSequences] at h
  split at h
  · rw [length_of_mem_digitSequences h]
    exact Nat.succ_pos _
  · simp at h

/-- The bytes of the sequences for what a range has in a block. -/
theorem sum_length_blockSequences_le (low high : Nat) (block : (Nat × Nat) × Nat × Nat) :
    ((blockSequences low high block).map length).sum ≤
      (block.2.1 + 1) * min (2 * block.2.1 + 1) (codePointsIn low high block) := by
  obtain ⟨⟨first, last⟩, tail, lead⟩ := block
  rw [blockSequences]
  dsimp only
  split
  · rename_i hle
    have hall : ∀ n ∈ (digitSequences tail lead (max low first) (min high last)).map length,
        n = tail + 1 := by
      intro n hn
      obtain ⟨sequence, hmem, rfl⟩ := mem_map.1 hn
      exact length_of_mem_digitSequences hmem
    have hsize := length_digitSequences_le_size tail lead hle
    have hcount : (digitSequences tail lead (max low first) (min high last)).length ≤
        1 + tail + tail :=
      length_digitSequences_le lead (fun _ => Nat.le_refl tail) (fun _ => Nat.le_refl tail)
    rw [eq_replicate_of_mem hall, length_map, sum_replicate_nat, Nat.mul_comm]
    apply Nat.mul_le_mul_left
    simp only [codePointsIn]
    omega
  · simp

end Blocks

/-- The sequences for a range have few bytes, and at most four for a code point. -/
theorem sum_length_utf8Sequences_le (low high : Nat) :
    ((utf8Sequences low high).map length).sum ≤ min 65 (4 * (high + 1 - low)) := by
  have hblocks : ((utf8Sequences low high).map length).sum =
      (utf8Blocks.map fun block => ((blockSequences low high block).map length).sum).sum := by
    rw [utf8Sequences_eq_flatMap, flatMap_def, map_flatten, sum_flatten, map_map, map_map]
    rfl
  have hfew : (utf8Blocks.map fun block => ((blockSequences low high block).map length).sum).sum ≤
      (utf8Blocks.map fun block => (block.2.1 + 1) * (2 * block.2.1 + 1)).sum :=
    sum_le_sum fun block _ => (sum_length_blockSequences_le low high block).trans
      (Nat.mul_le_mul_left _ (Nat.min_le_left _ _))
  have htail : ∀ block ∈ utf8Blocks, block.2.1 + 1 ≤ 4 := by decide
  have hpoints : (utf8Blocks.map fun block =>
      ((blockSequences low high block).map length).sum).sum ≤
        (utf8Blocks.map fun block => 4 * codePointsIn low high block).sum :=
    sum_le_sum fun block hblock => (sum_length_blockSequences_le low high block).trans
      (Nat.mul_le_mul (htail block hblock) (Nat.min_le_right _ _))
  have hshared : (utf8Blocks.map (codePointsIn low high)).sum ≤ high + 1 - max low 0 :=
    sum_codePointsIn_le (by decide) (by decide)
  have htotal : (utf8Blocks.map fun block => (block.2.1 + 1) * (2 * block.2.1 + 1)).sum = 65 := rfl
  rw [sum_map_mul_left] at hpoints
  omega

end Guided
