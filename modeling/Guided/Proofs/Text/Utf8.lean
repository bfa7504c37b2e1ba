import Guided.Text.Bytes
import Guided.Text.Utf8

/-!
# Reading what was encoded

Decoding is a reader with a state: it gives out characters byte by byte, and a last one if
the bytes end within a character. Behind the encoding of a character it is back where it
began, so the encoding of a text is read as that text whatever comes next.

## Main definitions

* `outputFrom`, `stateFrom`: what a reader gives out, and where it ends.

## Main statements

* `Utf8State.readAll_eq`: decoding as a reader.
* `output_utf8Bytes`, `state_utf8Bytes`: the encoding of a text is read as the text.
* `Utf8State.read_eq_or`: readers in different states come together.
-/
namespace Guided

/-! ## Readers -/

section Readers

variable {σ α β : Type} (read : σ → α → List β × σ)

/-- What a reader gives out for inputs one after the other. -/
def outputFrom (state : σ) : List α → List β
  | [] => []
  | a :: rest => (read state a).1 ++ outputFrom (read state a).2 rest

/-- The state of a reader behind inputs. -/
def stateFrom (state : σ) : List α → σ
  | [] => state
  | a :: rest => stateFrom (read state a).2 rest

@[simp] theorem outputFrom_nil (state : σ) : outputFrom read state [] = [] := rfl

@[simp] theorem stateFrom_nil (state : σ) : stateFrom read state [] = state := rfl

theorem outputFrom_cons (state : σ) (a : α) (rest : List α) : outputFrom read state (a :: rest) =
    (read state a).1 ++ outputFrom read (read state a).2 rest := rfl

theorem stateFrom_cons (state : σ) (a : α) (rest : List α) :
    stateFrom read state (a :: rest) = stateFrom read (read state a).2 rest := rfl

theorem stateFrom_append (state : σ) (xs ys : List α) :
    stateFrom read state (xs ++ ys) = stateFrom read (stateFrom read state xs) ys := by
  induction xs generalizing state with
  | nil => rfl
  | cons a xs ih => exact ih (read state a).2

theorem outputFrom_append (state : σ) (xs ys : List α) : outputFrom read state (xs ++ ys) =
    outputFrom read state xs ++ outputFrom read (stateFrom read state xs) ys := by
  induction xs generalizing state with
  | nil => rfl
  | cons a xs ih =>
      rw [List.cons_append, outputFrom_cons, ih, outputFrom_cons, stateFrom_cons, List.append_assoc]

end Readers

/-! ## Bytes of one character -/

namespace Utf8State

theorem readAll_eq (state : Utf8State) (bytes : List Nat) :
    readAll state bytes = outputFrom read state bytes ++ finish (stateFrom read state bytes) := by
  induction bytes generalizing state with
  | nil => rfl
  | cons b bytes ih =>
      rw [readAll, ih, outputFrom_cons, stateFrom_cons, List.append_assoc]

theorem read_none (b : Nat) : read none b = start b := rfl

/-- A first byte that announces one more. -/
theorem start_two {n : Nat} (hlow : 0x80 ≤ n) (hhigh : n < 0x800) :
    start (0xC0 + n / 0x40) = ([], some ⟨n / 0x40, 1, 0x80, 0xBF⟩) := by
  have hascii : ¬ 0xC0 + n / 0x40 < 0x80 := by omega
  have hlead : ¬ 0xC0 + n / 0x40 < 0xC2 := by omega
  have htwo : 0xC0 + n / 0x40 < 0xE0 := by omega
  rw [start, if_neg hascii, if_neg hlead, if_pos htwo, Nat.add_sub_cancel_left]

/-- A first byte that announces two more. -/
theorem start_three {n : Nat} (hhigh : n < 0x10000) :
    start (0xE0 + n / 0x1000) = ([], some ⟨n / 0x1000, 2,
      if n / 0x1000 = 0 then 0xA0 else 0x80, if n / 0x1000 = 0xD then 0x9F else 0xBF⟩) := by
  have hascii : ¬ 0xE0 + n / 0x1000 < 0x80 := by omega
  have hlead : ¬ 0xE0 + n / 0x1000 < 0xC2 := by omega
  have htwo : ¬ 0xE0 + n / 0x1000 < 0xE0 := by omega
  have hthree : 0xE0 + n / 0x1000 < 0xF0 := by omega
  have hfirst : 0xE0 + n / 0x1000 = 0xE0 ↔ n / 0x1000 = 0 := by omega
  have hsurrogate : 0xE0 + n / 0x1000 = 0xED ↔ n / 0x1000 = 0xD := by omega
  rw [start, if_neg hascii, if_neg hlead, if_neg htwo, if_pos hthree, Nat.add_sub_cancel_left]
  simp only [hfirst, hsurrogate]

/-- A first byte that announces three more. -/
theorem start_four {n : Nat} (hhigh : n < 0x110000) :
    start (0xF0 + n / 0x40000) = ([], some ⟨n / 0x40000, 3,
      if n / 0x40000 = 0 then 0x90 else 0x80, if n / 0x40000 = 4 then 0x8F else 0xBF⟩) := by
  have hascii : ¬ 0xF0 + n / 0x40000 < 0x80 := by omega
  have hlead : ¬ 0xF0 + n / 0x40000 < 0xC2 := by omega
  have htwo : ¬ 0xF0 + n / 0x40000 < 0xE0 := by omega
  have hthree : ¬ 0xF0 + n / 0x40000 < 0xF0 := by omega
  have hfour : 0xF0 + n / 0x40000 < 0xF5 := by omega
  have hfirst : 0xF0 + n / 0x40000 = 0xF0 ↔ n / 0x40000 = 0 := by omega
  have hlast : 0xF0 + n / 0x40000 = 0xF4 ↔ n / 0x40000 = 4 := by omega
  rw [start, if_neg hascii, if_neg hlead, if_neg htwo, if_neg hthree, if_pos hfour,
    Nat.add_sub_cancel_left]
  simp only [hfirst, hlast]

/-- A byte that continues a character, with further ones missing. -/
theorem read_more {bits missing low high d : Nat} (hd : d < 0x40) (hlow : low ≤ 0x80 + d)
    (hhigh : 0x80 + d ≤ high) (hmissing : 1 < missing) :
    read (some ⟨bits, missing, low, high⟩) (0x80 + d) =
      ([], some ⟨bits * 0x40 + d, missing - 1, 0x80, 0xBF⟩) := by
  have hbits : (0x80 + d) % 0x40 = d := by omega
  simp [read, hlow, hhigh, hbits, Nat.not_le.2 hmissing]

/-- A byte that completes a character. -/
theorem read_last {bits low high d : Nat} (hd : d < 0x40) (hlow : low ≤ 0x80 + d)
    (hhigh : 0x80 + d ≤ high) :
    read (some ⟨bits, 1, low, high⟩) (0x80 + d) = ([Char.ofNat (bits * 0x40 + d)], none) := by
  have hbits : (0x80 + d) % 0x40 = d := by omega
  simp [read, hlow, hhigh, hbits]

/-! ## Synchronization -/

/-- The bounds of the next byte are those of bytes that continue a character. -/
def Bounded (state : Utf8State) : Prop := ∀ p, state = some p → 0x80 ≤ p.low ∧ p.high ≤ 0xBF

theorem bounded_none : Bounded none := by
  intro p hp
  simp at hp

theorem bounded_start (b : Nat) : Bounded (start b).2 := by
  intro p hp
  rw [start] at hp
  split at hp
  · simp at hp
  · split at hp
    · simp at hp
    · split at hp
      · obtain rfl := Option.some.inj hp
        simp
      · split at hp
        · obtain rfl := Option.some.inj hp
          dsimp only
          constructor <;> split <;> omega
        · split at hp
          · obtain rfl := Option.some.inj hp
            dsimp only
            constructor <;> split <;> omega
          · simp at hp

theorem bounded_read {state : Utf8State} (h : Bounded state) (b : Nat) :
    Bounded (read state b).2 := by
  cases state with
  | none => exact bounded_start b
  | some p =>
      rw [Utf8State.read]
      split
      · dsimp only
        split
        · exact bounded_none
        · intro q hq
          obtain rfl := Option.some.inj hq
          simp
      · exact bounded_start b

/-- A byte leaves every reader where it leaves one that is between characters, except that
one which continues a character is nothing to the latter. -/
theorem read_eq_or {state : Utf8State} (h : Bounded state) (b : Nat) :
    (read state b).2 = (read none b).2 ∨ (read none b).2 = none := by
  cases state with
  | none => exact .inl rfl
  | some p =>
      by_cases hcontinues : p.low ≤ b ∧ b ≤ p.high
      · obtain ⟨hlow, hhigh⟩ := h p rfl
        have hascii : ¬ b < 0x80 := by omega
        have hlead : b < 0xC2 := by omega
        right
        rw [read_none, start, if_neg hascii, if_pos hlead]
      · left
        simp [read, hcontinues]

end Utf8State

/-! ## Encoded texts -/

open Utf8State

/-- The bytes of a character are read as the character, and nothing is left unfinished. -/
theorem read_utf8CharBytes (c : Char) : outputFrom read none (utf8CharBytes c) = [c] ∧
    stateFrom read none (utf8CharBytes c) = none := by
  have hvalid : c.toNat < 0xD800 ∨ 0xDFFF < c.toNat ∧ c.toNat < 0x110000 := c.valid
  have hc : Char.ofNat c.toNat = c := Char.ofNat_toNat c
  generalize hn : c.toNat = n at hvalid hc
  rw [utf8CharBytes, hn]
  have hd : n % 0x40 < 0x40 := Nat.mod_lt _ (by decide)
  have hd' : n / 0x40 % 0x40 < 0x40 := Nat.mod_lt _ (by decide)
  have hd'' : n / 0x1000 % 0x40 < 0x40 := Nat.mod_lt _ (by decide)
  by_cases hone : n < 0x80
  · simp [hone, outputFrom_cons, stateFrom_cons, Utf8State.read, start, hc]
  · by_cases htwo : n < 0x800
    · have hlast : read (some ⟨n / 0x40, 1, 0x80, 0xBF⟩) (0x80 + n % 0x40) = _ :=
        read_last hd (by omega) (by omega)
      have hbits : n / 0x40 * 0x40 + n % 0x40 = n := by omega
      rw [hbits, hc] at hlast
      have hfirst : read none (0xC0 + n / 0x40) = _ := start_two (by omega) htwo
      rw [if_neg hone, if_pos htwo]
      simp only [outputFrom_cons, stateFrom_cons, hfirst, hlast, outputFrom_nil, stateFrom_nil,
        List.nil_append, List.append_nil, and_self]
    · by_cases hthree : n < 0x10000
      · have hfirst : read none (0xE0 + n / 0x1000) = _ := start_three hthree
        have hmore : read (some ⟨n / 0x1000, 2, if n / 0x1000 = 0 then 0xA0 else 0x80,
            if n / 0x1000 = 0xD then 0x9F else 0xBF⟩) (0x80 + n / 0x40 % 0x40) = _ :=
          read_more hd' (by split <;> omega) (by split <;> omega) (by decide)
        have hlast : read (some ⟨n / 0x1000 * 0x40 + n / 0x40 % 0x40, 1, 0x80, 0xBF⟩)
            (0x80 + n % 0x40) = _ :=
          read_last hd (by omega) (by omega)
        have hbits : (n / 0x1000 * 0x40 + n / 0x40 % 0x40) * 0x40 + n % 0x40 = n := by omega
        rw [hbits, hc] at hlast
        rw [if_neg hone, if_neg htwo, if_pos hthree]
        simp only [outputFrom_cons, stateFrom_cons, hfirst, hmore, hlast, outputFrom_nil,
          stateFrom_nil, List.nil_append, List.append_nil, and_self]
      · have hhigh : n < 0x110000 := by omega
        have hfirst : read none (0xF0 + n / 0x40000) = _ := start_four hhigh
        have hsecond : read (some ⟨n / 0x40000, 3, if n / 0x40000 = 0 then 0x90 else 0x80,
            if n / 0x40000 = 4 then 0x8F else 0xBF⟩) (0x80 + n / 0x1000 % 0x40) = _ :=
          read_more hd'' (by split <;> omega) (by split <;> omega) (by decide)
        have hthird : read (some ⟨n / 0x40000 * 0x40 + n / 0x1000 % 0x40, 2, 0x80, 0xBF⟩)
            (0x80 + n / 0x40 % 0x40) = _ :=
          read_more hd' (by omega) (by omega) (by decide)
        have hlast : read (some ⟨(n / 0x40000 * 0x40 + n / 0x1000 % 0x40) * 0x40 +
            n / 0x40 % 0x40, 1, 0x80, 0xBF⟩) (0x80 + n % 0x40) = _ :=
          read_last hd (by omega) (by omega)
        have hbits : ((n / 0x40000 * 0x40 + n / 0x1000 % 0x40) * 0x40 + n / 0x40 % 0x40) * 0x40 +
            n % 0x40 = n := by omega
        rw [hbits, hc] at hlast
        rw [if_neg hone, if_neg htwo, if_neg hthree]
        simp only [outputFrom_cons, stateFrom_cons, hfirst, hsecond, hthird, hlast,
          outputFrom_nil, stateFrom_nil, List.nil_append, List.append_nil, and_self]

/-- Behind the bytes of a text nothing is left unfinished. -/
theorem state_utf8Bytes (s : List Char) : stateFrom read none (utf8Bytes s) = none := by
  induction s with
  | nil => rfl
  | cons c s ih =>
      rw [utf8Bytes, List.flatMap_cons, stateFrom_append, (read_utf8CharBytes c).2]
      exact ih

/-- The bytes of a text are read as the text. -/
theorem output_utf8Bytes (s : List Char) : outputFrom read none (utf8Bytes s) = s := by
  induction s with
  | nil => rfl
  | cons c s ih =>
      obtain ⟨houtput, hstate⟩ := read_utf8CharBytes c
      rw [utf8Bytes, List.flatMap_cons, outputFrom_append, houtput, hstate, List.singleton_append]
      exact congrArg (c :: ·) ih

/-- Decoding gives back what was encoded. -/
theorem decodeLossy_utf8Bytes (s : List Char) : decodeLossy (utf8Bytes s) = s := by
  rw [decodeLossy, readAll_eq, output_utf8Bytes, state_utf8Bytes]
  simp [finish]

/-- The bytes of a text are bytes. -/
theorem lt_of_mem_utf8Bytes {s : List Char} {b : Nat} (h : b ∈ utf8Bytes s) : b < 0x100 := by
  obtain ⟨c, -, hb⟩ := List.mem_flatMap.1 h
  have hvalid : c.toNat < 0xD800 ∨ 0xDFFF < c.toNat ∧ c.toNat < 0x110000 := c.valid
  rw [utf8CharBytes] at hb
  generalize c.toNat = n at hvalid hb
  split at hb
  · simp only [List.mem_singleton] at hb
    omega
  · split at hb
    · simp only [List.mem_cons, List.not_mem_nil, or_false] at hb
      omega
    · split at hb
      · simp only [List.mem_cons, List.not_mem_nil, or_false] at hb
        omega
      · simp only [List.mem_cons, List.not_mem_nil, or_false] at hb
        omega

theorem length_utf8CharBytes (c : Char) : (utf8CharBytes c).length = c.utf8Size := by
  have hn : c.toNat = c.val.toNat := rfl
  simp only [utf8CharBytes, Char.utf8Size, UInt32.le_iff_toNat_le, UInt32.toNat_ofNatLT, hn,
    apply_ite List.length, List.length_cons, List.length_nil]
  repeat' split
  all_goals omega

/-- The bytes of a text are as many as it is long in bytes. -/
theorem length_utf8Bytes (s : List Char) : (utf8Bytes s).length = utf8Length s := by
  induction s with
  | nil => rfl
  | cons c s ih =>
      rw [utf8Bytes, List.flatMap_cons, List.length_append, length_utf8CharBytes, utf8Length_cons]
      exact congrArg (c.utf8Size + ·) ih

end Guided
