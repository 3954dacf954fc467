import Skt.Lib.WordBits
import Skt.Hardware.Sketches

/-!
# One-hot transcoding

`lsab_hot`, `msab_hot`, `hot2bin`, `bin2hot` and `ctz` of `bit_utils.hpp`, for a
word of any width; the signedness of the word plays no part in them. Each is a
different trick: the word and its negative, two reversals, a nested loop that
ors the indices of the set bits, a single written bit, and the leading zeros of
the reversed word. What they share is the position of a bit, and each of them is
described by where it puts or finds it.

The inner loop of `hot2bin` counts in a register of `clog2 (W + 1)` bits, which
is just wide enough for the `W` that ends it. The definition rests on this: a
narrower counter would start over and the loop would not end.

A result that is not one-hot is not excluded anywhere: `hot2bin` ors the indices
of all set bits, and the header says that its result is undefined for such
words. They are left out where a position is spoken of.
-/

namespace Skt.Hardware

open Bits

variable {W : ℕ}

/-! ## The source's helpers

In the order of the header, with `ctz` in front since it needs no loop. -/

/-- `lsab_hot`: the word and its negative, `x & (~x+1)`. -/
def lsabHot (x : BitVec W) : BitVec W := x &&& (~~~x + 1#W)

/-- `msab_hot`: the lowest bit of the reversed word, reversed again. -/
def msabHot (x : BitVec W) : BitVec W := (lsabHot x.reverse).reverse

/-- `ctz`: the leading zeros of the reversed word, in a register of the same
width. -/
def ctz (x : BitVec W) : BitVec (clog2 (W + 1)) := clz x.reverse

/-- The loop counter does not wrap before the loop ends, since its register
holds the width as well. -/
theorem toNat_counter_succ {j : BitVec (clog2 (W + 1))} (h : j.toNat < W) :
    (j + 1).toNat = j.toNat + 1 := by
  have hW : W + 1 ≤ 2 ^ clog2 (W + 1) := le_two_pow_clog2 (W + 1)
  have hlt : 1 < 2 ^ clog2 (W + 1) := by omega
  have hone : (1 : BitVec (clog2 (W + 1))).toNat = 1 := Nat.mod_eq_of_lt hlt
  rw [BitVec.toNat_add, hone, Nat.mod_eq_of_lt (by omega)]

/-- A turn of the inner loop of `hot2bin`: bit `i` of the result takes in bit
`j` of the word if `j` has bit `i`. -/
def selectTurn (x : BitVec W) (i : ℕ) (j : BitVec (clog2 (W + 1)))
    (res : BitVec (clog2 W)) :
    BitVec (clog2 W) :=
  if j.getLsbD i then setBit res i (res.getLsbD i || x.getLsbD j.toNat) else res

/-- The inner loop from counter `j` on. It ends because the counter is not too
narrow for the bound of the loop. -/
def selectFrom (x : BitVec W) (i : ℕ) (j : BitVec (clog2 (W + 1)))
    (res : BitVec (clog2 W)) :
    BitVec (clog2 W) :=
  if j.toNat < W then selectFrom x i (j + 1) (selectTurn x i j res) else res
termination_by W - j.toNat
decreasing_by
  rw [toNat_counter_succ (by assumption)]
  omega

/-- `hot2bin`: the outer loop over the bits of the result, which starts from
zero. -/
def hot2bin (x : BitVec W) : BitVec (clog2 W) :=
  (List.range (clog2 W)).foldl (fun res i => selectFrom x i 0 res) 0

/-- `bin2hot`: one bit of a word of zeros, `2^W` bits wide, is written. -/
def bin2hot (x : BitVec W) : BitVec (pow2 W) := setBit 0 x.toNat true

/-! ## Counting and isolating

For words that have a set bit, in terms of the lowest or the highest of them. -/

/-- **`ctz` is the index of the lowest set bit.** Reversing the word turns the
zeros below it into leading zeros. -/
theorem toNat_ctz {x : BitVec W} {p : ℕ} (h : LowestBit x p) :
    (ctz x).toNat = p := by
  have hp := h.lt
  rw [ctz, toNat_clz, h.reverse.leadingZeros]
  omega

/-- `lsab_hot` keeps the lowest set bit alone. -/
theorem hotAt_lsabHot {x : BitVec W} {p : ℕ} (h : LowestBit x p) :
    HotAt (lsabHot x) p := by
  rw [lsabHot, ← BitVec.neg_eq_not_add]
  exact h.hotAt_and_neg

/-- `msab_hot` keeps the highest set bit alone. -/
theorem hotAt_msabHot {x : BitVec W} {p : ℕ} (h : HighestBit x p) :
    HotAt (msabHot x) p := by
  have hp := h.lt
  have hhot := (hotAt_lsabHot h.reverse).reverse
  rwa [show W - 1 - (W - 1 - p) = p by omega] at hhot

/-! ## Selective oring

The two loops of `hot2bin`, from the inside out. Nothing is assumed of the word
before the last step. -/

/-- A turn ors into one bit of the result and leaves the others. -/
theorem getLsbD_selectTurn {i : ℕ} (hi : i < clog2 W) (x : BitVec W)
    (j : BitVec (clog2 (W + 1))) (res : BitVec (clog2 W)) (b : ℕ) :
    (selectTurn x i j res).getLsbD b = true
      ↔ res.getLsbD b = true
        ∨ b = i ∧ j.toNat.testBit i = true ∧ x.getLsbD j.toNat = true := by
  rw [BitVec.testBit_toNat, selectTurn]
  cases hji : j.getLsbD i with
  | false =>
    rw [if_neg Bool.false_ne_true]
    exact (or_iff_left fun h => Bool.false_ne_true h.2.1).symm
  | true =>
    rw [if_pos rfl]
    by_cases hb : b = i
    · rw [hb, getLsbD_setBit_self _ _ hi, Bool.or_eq_true]
      exact or_congr_right ⟨fun h => ⟨rfl, rfl, h⟩, fun h => h.2.2⟩
    · rw [getLsbD_setBit_of_ne _ _ hb]
      exact (or_iff_left fun h => hb h.1).symm

/-- The whole inner loop ors all bits whose index has bit `i`, by induction on
the counter. -/
theorem getLsbD_selectFrom {i : ℕ} (hi : i < clog2 W) (x : BitVec W)
    (j : BitVec (clog2 (W + 1))) (res : BitVec (clog2 W)) (b : ℕ) :
    (selectFrom x i j res).getLsbD b = true
      ↔ res.getLsbD b = true
        ∨ b = i ∧ ∃ k, j.toNat ≤ k ∧ k < W ∧ k.testBit i = true
          ∧ x.getLsbD k = true := by
  induction j, res using selectFrom.induct (x := x) (i := i) with
  | case1 j res hj ih =>
    rw [selectFrom, if_pos hj, ih, getLsbD_selectTurn hi,
      toNat_counter_succ hj, or_assoc,
      ← and_or_left]
    refine or_congr_right (and_congr_right fun _ => ?_)
    -- the turn takes in the index at the counter, the rest of the loop those
    -- behind it
    constructor
    · rintro (⟨hbit, hset⟩ | ⟨k, hk, hrest⟩)
      · exact ⟨j.toNat, le_refl _, hj, hbit, hset⟩
      · exact ⟨k, Nat.le_of_succ_le hk, hrest⟩
    · rintro ⟨k, hk, hkW, hbit, hset⟩
      rcases Nat.eq_or_lt_of_le hk with rfl | hlt
      · exact Or.inl ⟨hbit, hset⟩
      · exact Or.inr ⟨k, hlt, hkW, hbit, hset⟩
  | case2 j res hj =>
    rw [selectFrom, if_neg hj]
    refine (or_iff_left ?_).symm
    rintro ⟨-, k, hk, hkW, -⟩
    exact hj (lt_of_le_of_lt hk hkW)

/-- The outer loop after some of its turns: the bits of the result up to there
are done. -/
theorem getLsbD_foldl_selectFrom (x : BitVec W) {n : ℕ}
    (hn : n ≤ clog2 W) (b : ℕ) :
    ((List.range n).foldl (fun res i => selectFrom x i 0 res) 0).getLsbD b
      = true
      ↔ b < n ∧ ∃ k < W, k.testBit b = true ∧ x.getLsbD k = true := by
  induction n with
  | zero =>
    refine iff_of_false ?_ fun h => Nat.not_lt_zero b h.1
    rw [List.range_zero, List.foldl_nil]
    exact Bool.eq_false_iff.mp BitVec.getLsbD_zero
  | succ n ih =>
    rw [List.range_succ, List.foldl_append, List.foldl_cons, List.foldl_nil,
      getLsbD_selectFrom (by omega), ih (by omega)]
    constructor
    · rintro (⟨hb, hrest⟩ | ⟨rfl, k, -, hrest⟩)
      · exact ⟨Nat.lt_succ_of_lt hb, hrest⟩
      · exact ⟨Nat.lt_succ_self b, k, hrest⟩
    · rintro ⟨hb, k, hrest⟩
      rcases Nat.lt_succ_iff_lt_or_eq.mp hb with hb | rfl
      · exact Or.inl ⟨hb, k, hrest⟩
      · exact Or.inr ⟨rfl, k, Nat.zero_le k, hrest⟩

/-- **`hot2bin` ors the indices of the set bits**, of any word. -/
theorem getLsbD_hot2bin (x : BitVec W) (b : ℕ) :
    (hot2bin x).getLsbD b = true
      ↔ b < clog2 W ∧ ∃ k < W, k.testBit b = true ∧ x.getLsbD k = true :=
  getLsbD_foldl_selectFrom x (le_refl _) b

/-- **Of a one-hot word it is the position.** -/
theorem toNat_hot2bin {x : BitVec W} {p : ℕ} (h : HotAt x p) :
    (hot2bin x).toNat = p := by
  refine Nat.eq_of_testBit_eq fun b => Bool.eq_iff_iff.mpr ?_
  rw [BitVec.testBit_toNat, getLsbD_hot2bin]
  constructor
  · rintro ⟨-, k, -, hbit, hset⟩
    rwa [(h k).mp hset] at hbit
  · intro hbit
    refine ⟨?_, p, h.lt, hbit, (h p).mpr rfl⟩
    -- the index fits the result
    by_contra hb
    have hlt : p < 2 ^ b :=
      lt_of_lt_of_le (lt_of_lt_of_le h.lt (le_two_pow_clog2 W))
      (Nat.pow_le_pow_right (by decide) (Nat.le_of_not_lt hb))
    rw [Nat.testBit_lt_two_pow hlt] at hbit
    exact Bool.false_ne_true hbit

/-- `bin2hot` writes the bit at its argument. -/
theorem hotAt_bin2hot (i : BitVec W) : HotAt (bin2hot i) i.toNat := by
  have hi : i.toNat < pow2 W := by
    rw [pow2_eq]
    exact i.isLt
  intro b
  rw [bin2hot, getLsbD_setBit]
  split
  · next hb => exact iff_of_true rfl hb.1
  · next hb => exact iff_of_false (by simp) fun he => hb ⟨he, hi⟩

/-! ## Transcoding

The widths of the two directions fit because the logarithm undoes the power. -/

/-- Decoding an encoded index gives the index. -/
theorem hot2bin_bin2hot (i : BitVec W) :
    (hot2bin (bin2hot i)).cast (clog2_pow2 W) = i := by
  refine BitVec.eq_of_toNat_eq ?_
  rw [BitVec.toNat_cast, toNat_hot2bin (hotAt_bin2hot i)]

/-- Encoding the index of a one-hot word gives the word. -/
theorem bin2hot_hot2bin {h : BitVec (pow2 W)} (hhot : OneHot h) :
    bin2hot ((hot2bin h).cast (clog2_pow2 W)) = h := by
  obtain ⟨p, hp⟩ := hhot.exists_hotAt
  have hencoded := hotAt_bin2hot ((hot2bin h).cast (clog2_pow2 W))
  rw [BitVec.toNat_cast, toNat_hot2bin hp] at hencoded
  exact hencoded.eq hp

/-- **One-hot transcoding agrees with prefix and suffix counting at every
width**: the lowest and the highest set bit of a word other than zero come out
alone, their positions are what the zeros are counted to, and encoding and
decoding undo each other. -/
theorem one_hot_transcoding (W M : ℕ) :
    (∀ x : BitVec W, x ≠ 0 →
      OneHot (lsabHot x) ∧ OneHot (msabHot x)
        ∧ (hot2bin (lsabHot x)).toNat = (ctz x).toNat
        ∧ ((hot2bin (msabHot x)).toNat : ℤ) = W - 1 - (clz x).toNat)
    ∧ (∀ i : BitVec M, (hot2bin (bin2hot i)).cast (clog2_pow2 M) = i)
    ∧ ∀ h : BitVec (pow2 M), OneHot h → bin2hot
      ((hot2bin h).cast (clog2_pow2 M)) = h := by
  refine ⟨fun x hx => ?_, hot2bin_bin2hot, fun h => bin2hot_hot2bin⟩
  obtain ⟨p, hp⟩ := exists_lowestBit hx
  obtain ⟨q, hq⟩ := exists_highestBit hx
  have hlow := hotAt_lsabHot hp
  have hhigh := hotAt_msabHot hq
  refine ⟨hlow.oneHot, hhigh.oneHot, ?_, ?_⟩
  · rw [toNat_hot2bin hlow, toNat_ctz hp]
  · have hqW := hq.lt
    rw [toNat_hot2bin hhigh, toNat_clz, hq.leadingZeros]
    omega

/-- The theorem at a word of odd width and at one of the one-hot bytes. -/
theorem one_hot_transcoding_five :
    (OneHot (lsabHot 0b10110#5) ∧ OneHot (msabHot 0b10110#5)
        ∧ (hot2bin (lsabHot 0b10110#5)).toNat = (ctz 0b10110#5).toNat
        ∧ ((hot2bin (msabHot 0b10110#5)).toNat : ℤ)
          = 5 - 1 - (clz 0b10110#5).toNat)
      ∧ bin2hot ((hot2bin (BitVec.ofNat (pow2 3) 32)).cast (clog2_pow2 3))
        = BitVec.ofNat (pow2 3) 32 :=
  ⟨(one_hot_transcoding 5 3).1 0b10110#5 (by decide),
    (one_hot_transcoding 5 3).2.2 (BitVec.ofNat (pow2 3) 32) (by decide)⟩

end Skt.Hardware
