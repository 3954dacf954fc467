import Skt.Software.Collector
import Skt.Hardware.Sketches

/-!
# Two ways to a rank

The kernel slices the hash word in two and counts the leading zeros of the lower
part. The software has one shift, one count and no slice: it adds one to the
hash word, shifts the bucket bits out, subtracts one, and counts the leading
zeros of what is left. The borrow of the subtraction undoes the carry of the
addition, even where the addition wraps, and leaves the lower part followed by
ones, so that the count ends inside the lower part or at the first of these.
Both compute the bucket and the rank of `Skt.Sketch`.

The ones that are shifted in are the point of the trick. The count of leading
zeros is a compiler builtin that is undefined at zero, and a lower part of zeros
would be zero after the shift; followed by ones it is not, and the count of its
zeros is then its width. For 128-bit words the software counts in two halves,
which is the instance of `ClzNz` at that width.
-/

namespace Skt.Hardware

open Bits

variable {W : ℕ} [ClzNz W]

/-- **Software and kernel read a hash word alike**, at `p` bucket bits: the same
bucket, the same rank, and no undefined count on the way. -/
structure RanksAlike (p : ℕ) (h : BitVec W) : Prop where
  /-- `hashv >> rest_c` is the top slice. -/
  bucket : (h >>> (W - p)).toNat = (h.extractLsb' (W - p) p).toNat
  /-- `clz_nz` has an argument it is defined for. -/
  defined : ((h + 1#W) <<< p) - 1#W ≠ 0
  /-- The software's count is the kernel's count of the lower slice. -/
  rank : ClzNz.clzNz (((h + 1#W) <<< p) - 1#W) + 1
    = 1 + (clz (h.setWidth (W - p))).toNat
  /-- These are the bucket and the rank the kernel maps the hash word to. -/
  ranked : ((ranked W p h).1.toNat, (ranked W p h).2.toNat)
    = ((h >>> (W - p)).toNat, ClzNz.clzNz (((h + 1#W) <<< p) - 1#W) + 1)
  /-- The largest rank, where the lower slice is all zeros. -/
  zeros : h.setWidth (W - p) = 0 →
    ClzNz.clzNz (((h + 1#W) <<< p) - 1#W) + 1 = W - p + 1
  /-- The smallest rank, where the addition wraps. -/
  ones : h = BitVec.allOnes W → ClzNz.clzNz (((h + 1#W) <<< p) - 1#W) + 1 = 1

/-- A number of all ones has no leading zeros, which is the case in which the
addition wraps. -/
theorem leadingZeros_two_pow_sub_one (n : ℕ) :
    leadingZeros n (2 ^ n - 1) = 0 := by
  have h := leadingZeros_fill 0 n 0
  rwa [Nat.zero_mul, Nat.zero_add, Nat.zero_add, leadingZeros_zero] at h

/-- The two agree wherever there is a bucket and something left below it. With
no bucket bits, or with nothing below them, one of the shifts of the software is
by the full width. -/
theorem ranksAlike {p : ℕ} (hp : 1 ≤ p) (hpW : p < W) (h : BitVec W) :
    RanksAlike p h := by
  have hW : 0 < W := by omega
  obtain ⟨hbucket, hrank⟩ := toNat_ranked hpW.le h
  have hshift : (h >>> (W - p)).toNat = Sketch.hllBucket p h := by
    rw [BitVec.toNat_ushiftRight, Nat.shiftRight_eq_div_pow]
    rfl
  have hfill := clzNz_fill p hpW.le hW h
  refine ⟨hshift.trans hbucket.symm, fill_ne_zero hp hpW.le h, ?_, ?_, ?_, ?_⟩
  · rw [hfill, toNat_clz, BitVec.toNat_setWidth]
    rfl
  · rw [hbucket, hrank, hshift, hfill]
  · intro hz
    have hlow : h.toNat % 2 ^ (W - p) = 0 := by
      rw [← BitVec.toNat_setWidth, hz]
      rfl
    rw [hfill, Sketch.hllRank, hlow, leadingZeros_zero, Nat.add_comm]
  · intro hones
    have hslice : h.setWidth (W - p) = BitVec.allOnes (W - p) := by
      rw [hones]
      ext i hi
      rw [BitVec.getElem_setWidth, BitVec.getLsbD_allOnes,
        BitVec.getElem_allOnes]
      exact decide_eq_true (by omega)
    have hlow : h.toNat % 2 ^ (W - p) = 2 ^ (W - p) - 1 := by
      rw [← BitVec.toNat_setWidth, hslice, BitVec.toNat_allOnes]
    rw [hfill, Sketch.hllRank, hlow, leadingZeros_two_pow_sub_one]

/-- **The software rank trick equals the hardware rank**, at every width of a
hash word, for every precision and every hash value. -/
theorem software_rank_eq_hardware_rank :
    (∀ p, 1 ≤ p → p < 32 → ∀ h : BitVec 32, RanksAlike p h)
      ∧ (∀ p, 1 ≤ p → p < 64 → ∀ h : BitVec 64, RanksAlike p h)
      ∧ (∀ p, 1 ≤ p → p < 128 → ∀ h : BitVec 128, RanksAlike p h) :=
  ⟨fun _ hp hW h => ranksAlike hp hW h, fun _ hp hW h => ranksAlike hp hW h,
    fun _ hp hW h => ranksAlike hp hW h⟩

end Skt.Hardware
