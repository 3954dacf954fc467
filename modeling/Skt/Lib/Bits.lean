import Mathlib

/-!
# Words, slices and leading zeros

Facts about fixed-width words that are read through their numerical value: the
bits `[a, a + p)` of a word are `n / 2 ^ a % 2 ^ p`, and the number of leading
zeros is what the bit length leaves of the width.

Programs write the same things in different ways. A slice is a mask, a shift and
a mask, or a range of a hardware register; a fill with ones is a shift and an
or, or an addition and a subtraction around a shift. The lemmas bring each of
them to the numerical form, in which they can be compared.
-/

namespace Bits

/-! ## Leading zeros -/

/-- The number of leading zeros of `n` written on `w` bits. For zero it is all
of them, where the instruction that many programs call is left undefined. -/
def leadingZeros (w n : ℕ) : ℕ := w - n.size

/-- There are no more leading zeros than bits. -/
theorem leadingZeros_le (w n : ℕ) : leadingZeros w n ≤ w := Nat.sub_le _ _

/-- Zero is all leading zeros, since its bit length is zero. -/
@[simp] theorem leadingZeros_zero (w : ℕ) : leadingZeros w 0 = w := by
  simp [leadingZeros]

/-- Appending `p` ones on the right lengthens a number by `p` bits. The ones
make it hold for zero, too: what is appended then is the whole number. -/
theorem size_mul_two_pow_add (n p : ℕ) :
    (n * 2 ^ p + (2 ^ p - 1)).size = n.size + p := by
  have hp : 0 < 2 ^ p := Nat.two_pow_pos p
  refine le_antisymm ?_ ?_
  · rw [Nat.size_le, pow_add]
    have hn : n + 1 ≤ 2 ^ n.size := Nat.lt_size_self n
    calc n * 2 ^ p + (2 ^ p - 1) < (n + 1) * 2 ^ p := by
          rw [Nat.add_mul]; omega
      _ ≤ 2 ^ n.size * 2 ^ p := Nat.mul_le_mul_right _ hn
  · rcases Nat.eq_zero_or_pos n with rfl | hn
    · rcases Nat.eq_zero_or_pos p with rfl | hp'
      · simp
      · have h2 : 2 ^ (p - 1) ≤ 2 ^ p - 1 := by
          have : 2 ^ p = 2 * 2 ^ (p - 1) := by rw [← pow_succ']; congr 1; omega
          have := Nat.two_pow_pos (p - 1)
          omega
        have : p - 1 < (0 * 2 ^ p + (2 ^ p - 1)).size := by
          rw [Nat.lt_size]; omega
        simp only [Nat.size_zero]
        omega
    · have hs : 0 < n.size := Nat.size_pos.mpr hn
      have hlow : 2 ^ (n.size - 1) ≤ n := Nat.lt_size.mp (by omega)
      have : n.size - 1 + p < (n * 2 ^ p + (2 ^ p - 1)).size := by
        rw [Nat.lt_size, pow_add]
        exact le_add_right (Nat.mul_le_mul_right _ hlow)
      omega

/-- **Leading zeros do not see ones appended on the right.** The ones only bound
the count, so that a word whose upper part is zero has a definite one. -/
theorem leadingZeros_fill (w p n : ℕ) :
    leadingZeros (w + p) (n * 2 ^ p + (2 ^ p - 1)) = leadingZeros w n := by
  unfold leadingZeros
  rw [size_mul_two_pow_add]
  omega

/-- **The leading zeros of a word cut in two**: those of the upper half unless
it is empty, in which case the lower half is looked at.

This is how the leading zeros of a wide word are counted with an instruction for
a narrow one. -/
theorem leadingZeros_split (w v hi lo : ℕ) (hlo : lo < 2 ^ v) :
    leadingZeros (w + v) (hi * 2 ^ v + lo)
      = if hi ≠ 0 then leadingZeros w hi else leadingZeros v lo + w := by
  unfold leadingZeros
  split
  · next h =>
    have hs : (hi * 2 ^ v + lo).size = hi.size + v := by
      refine le_antisymm ?_ ?_
      · rw [Nat.size_le, pow_add]
        calc hi * 2 ^ v + lo < (hi + 1) * 2 ^ v := by rw [Nat.add_mul]; omega
          _ ≤ 2 ^ hi.size * 2 ^ v := Nat.mul_le_mul_right _
            (Nat.lt_size_self hi)
      · have hp : 0 < hi.size := Nat.size_pos.mpr (by omega)
        have hl : 2 ^ (hi.size - 1) ≤ hi := Nat.lt_size.mp (by omega)
        have : hi.size - 1 + v < (hi * 2 ^ v + lo).size := by
          rw [Nat.lt_size, pow_add]
          exact le_add_right (Nat.mul_le_mul_right _ hl)
        omega
    rw [hs]
    omega
  · next h =>
    obtain rfl : hi = 0 := by simpa using h
    have hv : lo.size ≤ v := Nat.size_le.mpr hlo
    rw [Nat.zero_mul, Nat.zero_add]
    omega

/-! ## The add-shift-subtract fill -/

/-- **Adding one, shifting and subtracting one** shifts ones in from the
right, and the carry that runs out at the top is the borrow that comes back:
on `W`-bit words `((h + 1) << p) - 1` is the low `W - p` bits of `h` followed
by `p` ones, for every `h`. -/
theorem toNat_fill {W : ℕ} (h : BitVec W) (p : ℕ) (hp : p ≤ W) (hW : 0 < W) :
    (((h + 1#W) <<< p) - 1#W).toNat
      = h.toNat % 2 ^ (W - p) * 2 ^ p + (2 ^ p - 1) := by
  have hpow : 2 ^ W = 2 ^ (W - p) * 2 ^ p := by rw [← pow_add]; congr 1; omega
  have hq : 0 < 2 ^ p := Nat.two_pow_pos p
  have hm : 0 < 2 ^ (W - p) := Nat.two_pow_pos _
  have h1 : 1 < 2 ^ W := Nat.one_lt_two_pow (by omega)
  have hone : (1#W).toNat = 1 := by simp [Nat.mod_eq_of_lt h1]
  have hshift : ((h + 1#W) <<< p).toNat
      = (h.toNat + 1) % 2 ^ (W - p) * 2 ^ p := by
    rw [BitVec.toNat_shiftLeft, BitVec.toNat_add, hone, Nat.shiftLeft_eq, hpow,
      Nat.mul_mod_mul_right, Nat.mod_mod_of_dvd _ (Dvd.intro _ rfl)]
  have hr : h.toNat % 2 ^ (W - p) < 2 ^ (W - p) := Nat.mod_lt _ hm
  rw [BitVec.toNat_sub, hone, hshift, Nat.add_mod h.toNat 1]
  rcases Nat.lt_or_ge (h.toNat % 2 ^ (W - p) + 1) (2 ^ (W - p)) with hlt | hge
  · -- no carry out of the low part: the borrow stays inside it
    have h1' : 1 % 2 ^ (W - p) = 1 := Nat.mod_eq_of_lt (by omega)
    rw [h1', Nat.mod_eq_of_lt hlt, Nat.add_mul]
    have hle : h.toNat % 2 ^ (W - p) * 2 ^ p + 2 ^ p ≤ 2 ^ W := by
      rw [hpow, ← Nat.succ_mul]
      exact Nat.mul_le_mul_right _ (by omega)
    rw [show 2 ^ W - 1 + (h.toNat % 2 ^ (W - p) * 2 ^ p + 1 * 2 ^ p)
        = (h.toNat % 2 ^ (W - p) * 2 ^ p + (2 ^ p - 1)) + 2 ^ W by omega,
      Nat.add_mod_right, Nat.mod_eq_of_lt (by omega)]
  · -- the low part is all ones: the sum wraps to zero and the borrow refills it
    have hz : (h.toNat % 2 ^ (W - p) + 1 % 2 ^ (W - p)) % 2 ^ (W - p) = 0 := by
      rcases Nat.lt_or_ge 1 (2 ^ (W - p)) with h1' | h1'
      · rw [Nat.mod_eq_of_lt h1',
          show h.toNat % 2 ^ (W - p) + 1 = 2 ^ (W - p) by omega, Nat.mod_self]
      · rw [show 2 ^ (W - p) = 1 by omega, Nat.mod_one]
    rw [hz, Nat.zero_mul, Nat.add_zero, Nat.mod_eq_of_lt (by omega), hpow,
      show h.toNat % 2 ^ (W - p) = 2 ^ (W - p) - 1 by omega, Nat.sub_mul]
    have : 1 * 2 ^ p ≤ 2 ^ (W - p) * 2 ^ p := Nat.mul_le_mul_right _ (by omega)
    omega

/-! ## Widening, narrowing and single bits -/

/-- Sign extension adds no low bits: narrowing gives back the word that was
widened. -/
theorem setWidth_signExtend {w W : ℕ} (hW : w ≤ W) (c : BitVec w) :
    (c.signExtend W).setWidth w = c := by
  ext i hi
  rw [BitVec.getElem_setWidth, BitVec.getLsbD_signExtend]
  simp [hi, show i < W by omega]

/-- Masking with two singles out the second bit, in its place. -/
theorem and_two {W : ℕ} (y : BitVec W) :
    (y &&& 2#W) = if y.getLsbD 1 then 2#W else 0#W := by
  have h : 2#W = BitVec.twoPow W 1 :=
    BitVec.eq_of_toNat_eq (by rw [BitVec.toNat_twoPow, BitVec.toNat_ofNat])
  rw [h, BitVec.and_twoPow]

/-- **The mixed-width update**: a word widened with its sign, moved by `+1` or
`-1` according to a bit, and narrowed back, is the word moved by as much.

The bit is found by masking with two and taking one away, which leaves `1` or
`-1` without a branch. -/
theorem setWidth_signExtend_add_bit {w W : ℕ} (hW : w ≤ W)
    (c : BitVec w) (y : BitVec W) :
    (c.signExtend W + ((y &&& 2#W) - 1#W)).setWidth w
      = c + BitVec.ofInt w (if y.getLsbD 1 then 1 else -1) := by
  have hsub : ∀ a : ℕ, (BitVec.ofNat W a - 1#W).setWidth w
    = BitVec.ofNat w a + -1#w := by
    intro a
    rw [BitVec.sub_eq_add_neg, BitVec.setWidth_add _ _ hW,
      BitVec.setWidth_neg_of_le hW,
      BitVec.setWidth_ofNat_of_le hW, BitVec.setWidth_ofNat_of_le hW]
  rw [BitVec.setWidth_add _ _ hW, setWidth_signExtend hW, and_two]
  congr 1
  split
  · rw [hsub, ← BitVec.sub_eq_add_neg, BitVec.sub_eq_iff_eq_add,
      BitVec.ofInt_ofNat,
      ← BitVec.ofNat_add]
  · rw [hsub, BitVec.zero_add, BitVec.ofInt_neg, BitVec.ofInt_ofNat]

/-! ## Slices -/

/-- The bits `[a, a + p)` of a number; bits beyond its length read as zero. -/
def slice (n a p : ℕ) : ℕ := n / 2 ^ a % 2 ^ p

/-- A slice of `p` bits is below `2 ^ p`, so it can index a table of that
size. -/
theorem slice_lt (n a p : ℕ) : slice n a p < 2 ^ p :=
  Nat.mod_lt _ (Nat.two_pow_pos p)

/-- Masking a word with `2 ^ p - 1` keeps its low `p` bits. The mask is cut off
at the width of the word, which takes nothing away. -/
theorem toNat_and_mask {W : ℕ} (x : BitVec W) (p : ℕ) :
    (x &&& BitVec.ofNat W (2 ^ p - 1)).toNat = slice x.toNat 0 p := by
  have hx := x.isLt
  rw [BitVec.toNat_and, BitVec.toNat_ofNat]
  rcases Nat.lt_or_ge p W with h | h
  · have h1 : 2 ^ p < 2 ^ W := Nat.pow_lt_pow_right (by omega) h
    rw [Nat.mod_eq_of_lt (by omega), Nat.and_two_pow_sub_one_eq_mod]
    simp [slice]
  · -- the mask has at least the width of the word and changes nothing
    have hdvd : 2 ^ W ∣ 2 ^ p := pow_dvd_pow 2 h
    have hm : (2 ^ p - 1) % 2 ^ W = 2 ^ W - 1 := by
      obtain ⟨c, hc⟩ := hdvd
      have hpos : 0 < c := by
        rcases Nat.eq_zero_or_pos c with rfl | hc0
        · have := Nat.two_pow_pos p; omega
        · exact hc0
      have hWp := Nat.two_pow_pos W
      obtain ⟨d, rfl⟩ : ∃ d, c = d + 1 := ⟨c - 1, by omega⟩
      rw [hc, Nat.mul_succ, show 2 ^ W * d + 2 ^ W - 1
        = (2 ^ W - 1) + 2 ^ W * d by omega,
        Nat.add_mul_mod_self_left, Nat.mod_eq_of_lt (by omega)]
    have hle : 2 ^ W ≤ 2 ^ p := Nat.pow_le_pow_right (by omega) h
    rw [hm, Nat.and_two_pow_sub_one_eq_mod, Nat.mod_eq_of_lt hx]
    simp [slice, Nat.mod_eq_of_lt (lt_of_lt_of_le hx hle)]

/-- A slice below a cut does not see the cut. -/
theorem slice_mod {n a p W : ℕ} (h : a + p ≤ W) :
    slice (n % 2 ^ W) a p = slice n a p := by
  unfold slice
  rw [← Nat.sub_add_cancel (le_trans (Nat.le_add_right a p) h),
    pow_add, Nat.mul_comm,
    Nat.mod_mul_right_div_self, Nat.mod_mod_of_dvd _ (pow_dvd_pow 2 (by omega))]

/-- Slicing after a right shift is slicing further up. -/
theorem slice_div (n a b p : ℕ) :
    slice (n / 2 ^ a) b p = slice n (a + b) p := by
  unfold slice
  rw [Nat.div_div_eq_div_mul, ← pow_add]

/-- A mask after a right shift keeps the slice from there. The word is read with
zeros above its width, as an unsigned shift brings them in. -/
theorem toNat_ushiftRight_and_mask {W : ℕ} (x : BitVec W) (a p : ℕ) :
    (x >>> a &&& BitVec.ofNat W (2 ^ p - 1)).toNat = slice x.toNat a p := by
  rw [toNat_and_mask, BitVec.toNat_ushiftRight,
    Nat.shiftRight_eq_div_pow, slice_div,
    Nat.add_zero]

/-- A slice beyond the word is zero, whatever the word. -/
theorem slice_of_le {W : ℕ} {x : BitVec W} {a : ℕ} (h : W ≤ a) (p : ℕ) :
    slice x.toNat a p = 0 := by
  have hlt : x.toNat < 2 ^ a := lt_of_lt_of_le x.isLt
    (Nat.pow_le_pow_right Nat.two_pos h)
  rw [slice, Nat.div_eq_of_lt hlt, Nat.zero_mod]

/-- Slices differ where one of their bits does. -/
theorem slice_ne {W : ℕ} {x y : BitVec W} {a p i : ℕ} (hi : i < p)
    (h : x.getLsbD (a + i) ≠ y.getLsbD (a + i)) :
    slice x.toNat a p ≠ slice y.toNat a p := by
  have hbit : ∀ z : BitVec W, (slice z.toNat a p).testBit i
    = z.getLsbD (a + i) := fun z => by
    rw [slice, Nat.testBit_mod_two_pow, decide_eq_true hi, Bool.true_and,
      Nat.testBit_div_two_pow,
      Nat.add_comm]
    rfl
  intro heq
  rw [← hbit x, ← hbit y, heq] at h
  exact h rfl

/-- A signed word keeps a number of absolute value below `2 ^ 31`: the number is
what is read back from it. -/
theorem toInt_ofInt_of_abs_le {n : ℕ} {a : ℤ} (ha : |a| ≤ n) (hn : n < 2 ^ 31) :
    (BitVec.ofInt 32 a).toInt = a := by
  have h := abs_le.mp ha
  rw [BitVec.toInt_ofInt]
  exact Int.bmod_eq_of_le (by omega) (by omega)

end Bits
