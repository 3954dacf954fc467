import Skt.Lib.Mixing
import Skt.Lib.WordBits

/-!
# Gray transcoding

`bin2gray` and `gray2bin` of `bit_utils.hpp`, for a word of any width; the
signedness of the word plays no part in either. The one is a single exclusive-or
with the word's upper slice, the other a loop that rewrites the word in place
from the top bit down, every turn reading the bit the turn before it has
written.

What the loop leaves is determined by that: each of its bits is the code's own
bit against the result's next higher one (`getLsbD_gray2bin`), which is how the
code was made. Bits above the width are clear, so that the top bit needs no case
of its own, and the two functions are inverse to each other bit by bit.

The point of the code is that neighbouring words have codes that differ in one
bit. An increment flips an initial run of the bits, and the code, which compares
neighbouring bits, only sees where the run ends.
-/

namespace Skt.Hardware

open Bits

variable {W : ℕ}

/-- `bin2gray`: the slice `x(W-1, 1)` is the word moved down by one, widened
again with a clear bit. -/
def bin2gray (x : BitVec W) : BitVec W :=
  x ^^^ (x.extractLsb' 1 (W - 1)).setWidth W

/-- The loop of `gray2bin` from index `i` down, on the word `y` it rewrites. -/
def gray2binFrom : ℕ → BitVec W → BitVec W
  | 0, y => y
  | i + 1, y => gray2binFrom i (setBit y i (y.getLsbD (i + 1) ^^ y.getLsbD i))

/-- `gray2bin`: the loop starts below the top bit, which stays as it is. -/
def gray2bin (x : BitVec W) : BitVec W := gray2binFrom (W - 1) x

/-! ## The bits of both

Each function is characterized by its bits, and the other results use nothing
else of them. -/

/-- The code is the word against itself moved down by one. -/
theorem bin2gray_eq (x : BitVec W) : bin2gray x = Mixing.xorShift 1 x := by
  unfold bin2gray Mixing.xorShift
  congr 1
  refine BitVec.eq_of_getLsbD_eq fun i hi => ?_
  rw [BitVec.getLsbD_setWidth, BitVec.getLsbD_extractLsb',
    BitVec.getLsbD_ushiftRight]
  by_cases hi' : 1 + i < W
  · simp [hi, show i < W - 1 by omega]
  · rw [BitVec.getLsbD_of_ge x (1 + i) (by omega),
      Bool.and_false, Bool.and_false]

/-- **A bit of the code** is a bit of the word against the next higher one. -/
theorem getLsbD_bin2gray (x : BitVec W) (i : ℕ) :
    (bin2gray x).getLsbD i = (x.getLsbD i ^^ x.getLsbD (i + 1)) := by
  rw [bin2gray_eq, Mixing.xorShift, BitVec.getLsbD_xor,
    BitVec.getLsbD_ushiftRight, Nat.add_comm]

/-- What the loop of `gray2bin` has done when the index has come down to `i`:
the bits below are still the code's, and the others are solved for the word. -/
structure Solved (g y : BitVec W) (i : ℕ) : Prop where
  below : ∀ j < i, y.getLsbD j = g.getLsbD j
  above : ∀ j, i ≤ j → y.getLsbD j = (g.getLsbD j ^^ y.getLsbD (j + 1))

/-- Before the loop the top bit is solved: it is the code's bit, and there is
none above it. -/
theorem Solved.start (g : BitVec W) : Solved g g (W - 1) where
  below _ _ := rfl
  above j hj := by
    rw [BitVec.getLsbD_of_ge g (j + 1) (by omega), Bool.xor_false]

/-- **One turn solves one bit more.** -/
theorem Solved.turn {g y : BitVec W} {i : ℕ}
    (h : Solved g y (i + 1)) (hi : i < W) :
    Solved g (setBit y i (y.getLsbD (i + 1) ^^ y.getLsbD i)) i where
  below j hj := by
    rw [getLsbD_setBit_of_ne _ _ (by omega)]
    exact h.below j (by omega)
  above j hj := by
    rw [getLsbD_setBit_of_ne (j := j + 1) _ _ (by omega)]
    rcases Nat.eq_or_lt_of_le hj with rfl | hlt
    · rw [getLsbD_setBit_self _ _ hi, h.below i (by omega), Bool.xor_comm]
    · rw [getLsbD_setBit_of_ne _ _ (by omega)]
      exact h.above j hlt

/-- The whole loop solves the word, by induction on the index. -/
theorem Solved.loop {g y : BitVec W} {i : ℕ} (h : Solved g y i) (hi : i ≤ W) :
    Solved g (gray2binFrom i y) 0 := by
  induction i generalizing y with
  | zero => exact h
  | succ i ih => exact ih (h.turn hi) (Nat.le_of_succ_le hi)

/-- **A bit of the decoded word** is the code's bit against the decoded word's
next higher one. -/
theorem getLsbD_gray2bin (g : BitVec W) (i : ℕ) :
    (gray2bin g).getLsbD i = (g.getLsbD i ^^ (gray2bin g).getLsbD (i + 1)) :=
  ((Solved.start g).loop (Nat.sub_le W 1)).above i (Nat.zero_le i)

/-! ## Each inverts the other

One direction bit by bit, the other because no two words share a code. -/

/-- Encoding what was decoded. -/
theorem bin2gray_gray2bin (g : BitVec W) : bin2gray (gray2bin g) = g := by
  refine BitVec.eq_of_getLsbD_eq fun i _ => ?_
  rw [getLsbD_bin2gray, getLsbD_gray2bin g i, Bool.xor_assoc,
    Bool.xor_self, Bool.xor_false]

/-- A word is determined by its code, from the top bit down. -/
theorem bin2gray_injective : Function.Injective (bin2gray (W := W)) := by
  rw [funext bin2gray_eq]
  exact Mixing.xorShift_injective Nat.one_pos

/-- Decoding what was encoded. -/
theorem gray2bin_bin2gray (x : BitVec W) : gray2bin (bin2gray x) = x :=
  bin2gray_injective (bin2gray_gray2bin (bin2gray x))

/-! ## Adjacent codes

Words are compared with their successors, the last word excepted. -/

/-- **The codes of neighbours differ in one bit**: the increment flips an
initial run of the bits, and the code only sees where the run ends. -/
theorem existsUnique_bin2gray_ne {x : BitVec W} (hx : x.toNat < 2 ^ W - 1) :
    ∃! i, i < W ∧ (bin2gray x).getLsbD i ≠ (bin2gray (x + 1#W)).getLsbD i := by
  obtain ⟨t, ht, hrun⟩ := exists_carryChain_bitVec hx
  have hcode : ∀ i, (bin2gray x).getLsbD i ≠ (bin2gray (x + 1#W)).getLsbD i
    ↔ i = t := by
    intro i
    rw [getLsbD_bin2gray, getLsbD_bin2gray]
    rcases Nat.lt_trichotomy i t with hlt | rfl | hgt
    · -- both bits are inside the run, and both flip
      have h₁ := (hrun i).mpr (by omega)
      have h₂ := (hrun (i + 1)).mpr (by omega)
      rw [Bool.eq_not.mpr h₁, Bool.eq_not.mpr h₂, Bool.not_xor_not]
      exact iff_of_false (fun h => h rfl) (by omega)
    · -- the end of the run
      have h₁ := (hrun i).mpr (le_refl i)
      have h₂ : x.getLsbD (i + 1) = (x + 1#W).getLsbD (i + 1) := by
        by_contra h
        exact absurd ((hrun (i + 1)).mp h) (by omega)
      rw [Bool.eq_not.mpr h₁, h₂, Bool.not_xor]
      exact iff_of_true (Bool.not_ne_self _) rfl
    · -- neither bit flips
      have heq : ∀ j, t < j → x.getLsbD j = (x + 1#W).getLsbD j :=
        fun j hj => by
        by_contra h
        exact absurd ((hrun j).mp h) (by omega)
      rw [heq i hgt, heq (i + 1) (by omega)]
      exact iff_of_false (fun h => h rfl) (by omega)
  exact ⟨t, ⟨ht, (hcode t).mpr rfl⟩, fun i hi => (hcode i).mp hi.2⟩

/-- **Gray transcoding at every width**: the two functions are inverse to each
other, and the codes of neighbouring words differ in exactly one bit. -/
theorem gray_transcoding (x : BitVec W) :
    gray2bin (bin2gray x) = x ∧ bin2gray (gray2bin x) = x
      ∧ (x.toNat < 2 ^ W - 1
        → ∃! i, i < W ∧ (bin2gray x).getLsbD i
          ≠ (bin2gray (x + 1#W)).getLsbD i) :=
  ⟨gray2bin_bin2gray x, bin2gray_gray2bin x, existsUnique_bin2gray_ne⟩

end Skt.Hardware
