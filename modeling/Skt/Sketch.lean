import Skt.Lib.Bits
import Skt.Lib.Tally

/-!
# What the three sketches are

A multi-sketch summarises a multiset of items by the words an item is hashed to.
This module says what each of the three tables holds, with no reference to how
it is computed: every entry is a function of the *multiset* of the items
absorbed, of the hash function and of the dimensions of the table.

* The **HyperLogLog** registers: the top `p` bits of a hash word pick a bucket,
  the leading zeros of the remaining bits give a rank, and a bucket keeps the
  maximal rank of its items.
* The **Fast-AGMS** counters: row `j` reads the bits `[j(p+1), j(p+1)+p]` of the
  hash word, `p` of them the bucket and the last one the sign, and a bucket
  keeps the sum of the signs of its items.
* The **Count-Min** counters: row `j` reads the bits `[jq, (j+1)q)` and a bucket
  counts its items.

Bits beyond the width of the hash word read as zero. Both implementations, in
software and in hardware, are proved to compute these functions, and what the
sketches are good for, the estimates made from them, is proved of these
functions as well.

Counters are exact numbers here. The words that hold them in an implementation
are these numbers modulo a power of two, and where a bound makes the two the
same the results say so.
-/

namespace Sketch

open Bits Tally

variable {X : Type*} {W : ℕ}

/-! ## HyperLogLog

The registers keep maxima, so they are the same for a multiset and for the set
of its items. -/

/-- The bucket of a hash word: its top `p` bits, read as a number. -/
def hllBucket (p : ℕ) (h : BitVec W) : ℕ := h.toNat / 2 ^ (W - p)

/-- The rank of a hash word: one more than the leading zeros of what is below
the bucket bits. Where these bits are all zero, the rank is one more than their
number. -/
def hllRank (p : ℕ) (h : BitVec W) : ℕ :=
  1 + leadingZeros (W - p) (h.toNat % 2 ^ (W - p))

/-- **The HyperLogLog registers**: the maximal rank of the items of a bucket,
zero for an empty bucket. Since every rank is positive, zero marks the buckets
that no item has. -/
def hll (p : ℕ) (hash : X → BitVec W) (D : Multiset X) (b : ℕ) : ℕ :=
  ((D.filter (fun x => hllBucket p (hash x) = b)).map
    (fun x => hllRank p (hash x))).sup

/-- A bucket is one of `2 ^ p`, the entries of the table. -/
theorem hllBucket_lt (p : ℕ) (hp : p ≤ W) (h : BitVec W) :
    hllBucket p h < 2 ^ p := by
  unfold hllBucket
  rw [Nat.div_lt_iff_lt_mul (Nat.two_pow_pos _), ← pow_add,
    Nat.add_sub_cancel' hp]
  exact h.isLt

/-- A rank is at least one, so an item is always seen in its bucket. -/
theorem one_le_hllRank (p : ℕ) (h : BitVec W) : 1 ≤ hllRank p h :=
  Nat.le_add_right _ _

/-- A rank is at most one more than the bits it is read from, which decides how
wide a register has to be. -/
theorem hllRank_le (p : ℕ) (h : BitVec W) : hllRank p h ≤ 1 + (W - p) :=
  Nat.add_le_add_left (leadingZeros_le _ _) 1

/-- The registers are a tally of maxima: what an implementation with several
lanes computes is combined with the maximum again. -/
theorem hll_eq_tally (p : ℕ) (hash : X → BitVec W) (D : Multiset X) (b : ℕ) :
    hll p hash D b
      = tally max 0 (fun x => hllBucket p (hash x))
        (fun x => hllRank p (hash x)) D b :=
  rfl

/-- A register never exceeds the largest rank. -/
theorem hll_le (p : ℕ) (hash : X → BitVec W) (D : Multiset X) (b : ℕ) :
    hll p hash D b ≤ 1 + (W - p) := by
  refine Multiset.sup_le.mpr (fun r hr => ?_)
  obtain ⟨x, -, rfl⟩ := Multiset.mem_map.mp hr
  exact hllRank_le p (hash x)

/-- A register is empty when no item has its bucket. Linear counting is based on
the number of these. -/
theorem hll_eq_zero_iff (p : ℕ) (hash : X → BitVec W) (D : Multiset X) (b : ℕ) :
    hll p hash D b = 0 ↔ ∀ x ∈ D, hllBucket p (hash x) ≠ b := by
  unfold hll
  rw [← Nat.le_zero, Multiset.sup_le]
  constructor
  · intro h x hx hb
    have hrank := h (hllRank p (hash x))
      (Multiset.mem_map_of_mem _ (Multiset.mem_filter.mpr ⟨hx, hb⟩))
    have := one_le_hllRank p (hash x)
    omega
  · intro h r hr
    obtain ⟨x, hx, -⟩ := Multiset.mem_map.mp hr
    exact absurd (Multiset.mem_filter.mp hx).2
      (h x (Multiset.mem_filter.mp hx).1)

/-- **Repetitions do not count**: the registers depend on which items there are
only, which is what makes them a sketch of the number of distinct items. -/
theorem hll_eq_of_mem_iff (p : ℕ) (hash : X → BitVec W) {D E : Multiset X}
    (h : ∀ x, x ∈ D ↔ x ∈ E) (b : ℕ) : hll p hash D b = hll p hash E b := by
  have hle : ∀ {D E : Multiset X}, (∀ x ∈ D, x ∈ E) →
    hll p hash D b ≤ hll p hash E b := by
    intro D E hsub
    refine Multiset.sup_le.mpr fun r hr => ?_
    obtain ⟨x, hx, rfl⟩ := Multiset.mem_map.mp hr
    obtain ⟨hmem, hb⟩ := Multiset.mem_filter.mp hx
    exact Multiset.le_sup
      (Multiset.mem_map_of_mem _ (Multiset.mem_filter.mpr ⟨hsub x hmem, hb⟩))
  exact le_antisymm (hle fun x => (h x).mp) (hle fun x => (h x).mpr)

/-- Nothing is cut off at the full width, so the hash word as it is and the hash
word read through a field of its width give the same registers. -/
theorem hll_setWidth_self {W' : ℕ} (h : W' = W) (p : ℕ)
    (hash : X → BitVec W) (D : Multiset X)
    (b : ℕ) : hll p (fun x => (hash x).setWidth W') D b = hll p hash D b := by
  subst h
  simp only [BitVec.setWidth_eq]

/-- Items may be hashed before they are sketched, as in a pipeline with the hash
in a stage of its own. -/
theorem hll_map {Y : Type*} (p : ℕ) (hash : X → BitVec W) (f : Y → X)
    (D : Multiset Y) (b : ℕ) :
    hll p hash (D.map f) b = hll p (fun y => hash (f y)) D b := by
  simp only [hll_eq_tally]
  exact tally_map max 0 _ _ f D b

/-! ## Fast-AGMS

Each row splits the items over its buckets and adds them up with random signs.
The squares of the sums estimate how many pairs of equal items there are. -/

/-- The bucket of row `j`: `p` bits of the hash word, the row's own ones. -/
def agmsKey (p j : ℕ) (h : BitVec W) : ℕ := slice h.toNat (j * (p + 1)) p

/-- A bucket is one of `2 ^ p`, the entries of a row. -/
theorem agmsKey_lt (p j : ℕ) (h : BitVec W) :
    agmsKey p j h < 2 ^ p := slice_lt _ _ _

/-- The sign of row `j`: the bit above the bucket bits, where a set bit counts
up and a clear one down. -/
def agmsSign (p j : ℕ) (h : BitVec W) : ℤ :=
  if h.toNat.testBit (j * (p + 1) + p) then 1 else -1

/-- **The Fast-AGMS counters**: the sum of the signs of the items of a bucket.
Equal items have equal signs, so they add up. -/
def agms (p : ℕ) (hash : X → BitVec W) (D : Multiset X) (j k : ℕ) : ℤ :=
  ((D.filter (fun x => agmsKey p j (hash x) = k)).map
    (fun x => agmsSign p j (hash x))).sum

/-- The counters are a tally of signs, and thus of any part of the items added
to that of the rest. -/
theorem agms_eq_tally (p : ℕ) (hash : X → BitVec W) (D : Multiset X) (j k : ℕ) :
    agms p hash D j k
      = tally (fun a b : ℤ => a + b) 0 (fun x => agmsKey p j (hash x))
          (fun x => agmsSign p j (hash x)) D k :=
  (tally_add_eq_sum _ _ _ _).symm

/-- Items may be hashed before they are sketched. -/
theorem agms_map {Y : Type*} (p : ℕ) (hash : X → BitVec W)
    (f : Y → X) (D : Multiset Y) (j k : ℕ) :
    agms p hash (D.map f) j k = agms p (fun y => hash (f y)) D j k := by
  simp only [agms_eq_tally]
  exact tally_map (fun a b : ℤ => a + b) 0 _ _ f D k

/-- **A counter is a difference**: of the items of its bucket with the sign bit
set, and those with the sign bit clear. It can be read off two counts, neither
of which needs a sign. -/
theorem agms_eq_sub (p : ℕ) (hash : X → BitVec W) (D : Multiset X) (j k : ℕ) :
    agms p hash D j k
      = ((D.filter (fun x => agmsKey p j (hash x) = k
            ∧ (hash x).toNat.testBit (j * (p + 1) + p) = true)).card : ℤ)
        - ((D.filter (fun x => agmsKey p j (hash x) = k
            ∧ (hash x).toNat.testBit (j * (p + 1) + p) = false)).card : ℤ) := by
  induction D using Multiset.induction_on with
  | empty => rfl
  | cons x D ih =>
    have hstep : agms p hash (x ::ₘ D) j k
        = agms p hash D j k + if agmsKey p j (hash x)
          = k then agmsSign p j (hash x) else 0 := by
      rw [agms_eq_tally, agms_eq_tally, ← Multiset.singleton_add, add_comm,
        tally_add_singleton (fun a b : ℤ => a + b) 0]
      split
      · rfl
      · rw [add_zero]
    rw [hstep, ih, agmsSign, Multiset.filter_cons, Multiset.filter_cons]
    by_cases hk : agmsKey p j (hash x) = k
    · cases hb : (hash x).toNat.testBit (j * (p + 1) + p) with
      | true =>
        simp [hk]
        ring
      | false =>
        simp [hk]
        ring
    · simp [hk]

/-- **The self-join size a row estimates**: the sum of its squared counters. It
is a number of pairs, so it grows with the square of the number of items. -/
def agmsSumq (p : ℕ) (hash : X → BitVec W) (D : Multiset X) (j : ℕ) : ℤ :=
  ∑ k ∈ Finset.range (2 ^ p), agms p hash D j k ^ 2

/-- A sign is one in absolute value, and its square is one. -/
theorem sq_agmsSign (p j : ℕ) (h : BitVec W) : agmsSign p j h ^ 2 = 1 := by
  unfold agmsSign
  split <;> rfl

/-- The counters of an item that comes a number of times: all of it is in one
bucket, with one sign. -/
theorem agms_replicate (p : ℕ) (hash : X → BitVec W) (n : ℕ) (x : X) (j k : ℕ) :
    agms p hash (Multiset.replicate n x) j k
      = if agmsKey p j (hash x) = k then n * agmsSign p j (hash x) else 0 := by
  unfold agms
  by_cases hkey : agmsKey p j (hash x) = k
  · rw [if_pos hkey, Multiset.filter_eq_self.mpr (fun y hy => by
      rwa [Multiset.eq_of_mem_replicate hy]), Multiset.map_replicate,
        Multiset.sum_replicate,
      nsmul_eq_mul]
  · rw [if_neg hkey, Multiset.filter_eq_nil.mpr (fun y hy => by
      rwa [Multiset.eq_of_mem_replicate hy])]
    rfl

/-- **An item that comes `n` times joins itself in `n ^ 2` ways**, in every row
and whatever the hash function. So the estimate is exact for it. -/
theorem agmsSumq_replicate (p : ℕ) (hash : X → BitVec W)
    (n : ℕ) (x : X) (j : ℕ) :
    agmsSumq p hash (Multiset.replicate n x) j = n ^ 2 := by
  unfold agmsSumq
  simp only [agms_replicate, ite_pow, mul_pow, sq_agmsSign, mul_one]
  rw [zero_pow two_ne_zero, Finset.sum_ite_eq,
    if_pos (Finset.mem_range.mpr (agmsKey_lt p j (hash x)))]

/-- **Two items in a row**: they join each other when they share a bucket, and
then the signs decide in which direction the estimate is off. -/
theorem agmsSumq_pair (p : ℕ) (hash : X → BitVec W) (x y : X) (j : ℕ) :
    agmsSumq p hash {x, y} j
      = if agmsKey p j (hash x) = agmsKey p j (hash y)
        then (agmsSign p j (hash x) + agmsSign p j (hash y)) ^ 2 else 2 := by
  have hone : ∀ (z : X) (k : ℕ), agms p hash {z} j k
      = if agmsKey p j (hash z) = k then agmsSign p j (hash z)
        else 0 := fun z k => by
    have h := agms_replicate p hash 1 z j k
    rwa [Multiset.replicate_one, Nat.cast_one, one_mul] at h
  have hpair : ∀ k, agms p hash {x, y} j k = agms p hash {x} j k
    + agms p hash {y} j k := fun k => by
    simp only [agms_eq_tally]
    exact tally_add (fun a b : ℤ => a + b) 0 _ _ {x} {y} k
  have hmem : ∀ z : X, agmsKey p j (hash z) ∈ Finset.range (2 ^ p) := fun z =>
    Finset.mem_range.mpr (agmsKey_lt p j (hash z))
  unfold agmsSumq
  simp only [hpair, hone]
  by_cases hkey : agmsKey p j (hash x) = agmsKey p j (hash y)
  · have hsq : ∀ k,
      ((if agmsKey p j (hash x) = k then agmsSign p j (hash x) else 0)
        + (if agmsKey p j (hash y) = k then agmsSign p j (hash y) else 0)) ^ 2
        = if agmsKey p j (hash y) = k
          then (agmsSign p j (hash x) + agmsSign p j (hash y)) ^ 2
            else 0 := fun k => by
      rw [hkey]
      split <;> simp
    rw [if_pos hkey, Finset.sum_congr rfl (fun k _ => hsq k),
      Finset.sum_ite_eq, if_pos (hmem y)]
  · have hsq : ∀ k,
      ((if agmsKey p j (hash x) = k then agmsSign p j (hash x) else 0)
        + (if agmsKey p j (hash y) = k then agmsSign p j (hash y) else 0)) ^ 2
        = (if agmsKey p j (hash x) = k then 1 else 0)
          + (if agmsKey p j (hash y) = k then 1 else 0) := fun k => by
      by_cases hx : agmsKey p j (hash x) = k
      · have hy : agmsKey p j (hash y) ≠ k := fun hy => hkey (hx.trans hy.symm)
        simp [hx, hy, sq_agmsSign]
      · rw [if_neg hx, if_neg hx, zero_add, zero_add, ite_pow, sq_agmsSign,
          zero_pow two_ne_zero]
    rw [if_neg hkey, Finset.sum_congr rfl (fun k _ => hsq k),
      Finset.sum_add_distrib,
      Finset.sum_ite_eq, Finset.sum_ite_eq, if_pos (hmem x), if_pos (hmem y)]
    rfl

/-- **An AGMS row beyond the hash word** joins all items, whatever they are. All
its bits read as zero, so there is one bucket and one sign. -/
theorem agmsSumq_of_beyond (h : W ≤ j * (p + 1))
    (hash : X → BitVec W) (D : Multiset X) :
    agmsSumq p hash D j = (D.card : ℤ) ^ 2 := by
  have hzero : ∀ k, agms p hash D j k
      = agms p (fun x : BitVec W => x) (Multiset.replicate D.card 0) j k :=
        fun k => by
    rw [← Multiset.map_const', agms_map, agms_eq_tally, agms_eq_tally]
    refine tally_congr _ 0 (fun x => ?_) (fun x => ?_) D
    · rw [agmsKey, agmsKey, slice_of_le h, slice_of_le h]
    · have hbit : ∀ y : BitVec W, y.toNat.testBit (j * (p + 1) + p)
        = false := fun y =>
        BitVec.getLsbD_of_ge y _ (by omega)
      rw [agmsSign, agmsSign, hbit, hbit]
  unfold agmsSumq
  rw [Finset.sum_congr rfl fun k _ => congrArg (· ^ 2) (hzero k)]
  exact agmsSumq_replicate p (fun x : BitVec W => x) D.card 0 j

/-- A row does not see what is cut off above its bits. A narrower hash word
serves as long as all rows fit into it. -/
theorem agms_setWidth {W' p j : ℕ} (h : (j + 1) * (p + 1) ≤ W')
    (hash : X → BitVec W) (D : Multiset X) (k : ℕ) :
    agms p (fun x => (hash x).setWidth W') D j k = agms p hash D j k := by
  have hrow : j * (p + 1) + (p + 1) ≤ W' := by rwa [← Nat.succ_mul]
  have hkey : ∀ x, agmsKey p j ((hash x).setWidth W')
    = agmsKey p j (hash x) := fun x => by
    unfold agmsKey
    rw [BitVec.toNat_setWidth, slice_mod (by omega)]
  have hsign : ∀ x, agmsSign p j ((hash x).setWidth W')
    = agmsSign p j (hash x) := fun x => by
    unfold agmsSign
    rw [BitVec.toNat_setWidth, Nat.testBit_mod_two_pow,
      decide_eq_true (show j * (p + 1) + p < W' by omega), Bool.true_and]
  rw [agms_eq_tally, agms_eq_tally]
  exact tally_congr _ 0 (fun x => by rw [hkey]) hsign D

/-- The number of items of a bucket bounds its counter, in absolute value. -/
theorem abs_agms_le (p : ℕ) (hash : X → BitVec W) (D : Multiset X) (j k : ℕ) :
    |agms p hash D j k|
      ≤ ((D.filter (fun x => agmsKey p j (hash x) = k)).card : ℤ) := by
  have hsign : ∀ x, |agmsSign p j (hash x)| = 1 := fun x => by
    unfold agmsSign
    split <;> rfl
  refine Multiset.abs_sum_le_sum_abs.trans_eq ?_
  rw [Multiset.map_map]
  simp [hsign]

/-- The number of items bounds every counter, so a word of a width that holds
the number and a sign holds the counters. -/
theorem abs_agms_le_card (p : ℕ) (hash : X → BitVec W)
    (D : Multiset X) (j k : ℕ) :
    |agms p hash D j k| ≤ (D.card : ℤ) :=
  (abs_agms_le p hash D j k).trans
    (by exact_mod_cast Multiset.card_le_card (Multiset.filter_le _ D))

/-- **The self-join size of a row is at most the square of the number of
items.** It is the bound for the width of an accumulator of squares. -/
theorem agmsSumq_le (p : ℕ) (hash : X → BitVec W) (D : Multiset X) (j : ℕ) :
    agmsSumq p hash D j ≤ (D.card : ℤ) ^ 2 := by
  set cnt := fun k => (D.filter (fun x => agmsKey p j (hash x) = k)).card
  have hcnt : ∑ k ∈ Finset.range (2 ^ p), cnt k = D.card :=
    sum_card_filter (fun x => agmsKey_lt p j (hash x)) D
  calc agmsSumq p hash D j ≤ ∑ k ∈ Finset.range (2 ^ p), (cnt k : ℤ) ^ 2 :=
        Finset.sum_le_sum
          (fun k _ => sq_le_sq' (neg_le_of_abs_le (abs_agms_le p hash D j k))
          (le_of_abs_le (abs_agms_le p hash D j k)))
    _ ≤ (∑ k ∈ Finset.range (2 ^ p), (cnt k : ℤ)) ^ 2 :=
        Finset.sum_sq_le_sq_sum_of_nonneg (fun k _ => Int.natCast_nonneg _)
    _ = (D.card : ℤ) ^ 2 := by rw [← hcnt]; push_cast; rfl

/-! ## Count-Min

Each row counts its items by bucket. A counter exceeds the number of times an
item comes by the items it shares its bucket with. -/

/-- The bucket of row `j`: `q` bits of the hash word, the row's own ones. -/
def cmKey (q j : ℕ) (h : BitVec W) : ℕ := slice h.toNat (j * q) q

/-- A bucket is one of `2 ^ q`, the entries of a row. -/
theorem cmKey_lt (q j : ℕ) (h : BitVec W) :
    cmKey q j h < 2 ^ q := slice_lt _ _ _

/-- **The Count-Min counters**: the number of items of a bucket, repetitions
included. -/
def cm (q : ℕ) (hash : X → BitVec W) (D : Multiset X) (j k : ℕ) : ℕ :=
  (D.filter (fun x => cmKey q j (hash x) = k)).card

/-- The counters are a tally of ones. -/
theorem cm_eq_tally (q : ℕ) (hash : X → BitVec W) (D : Multiset X) (j k : ℕ) :
    cm q hash D j k
      = tally (fun a b : ℕ => a + b) 0 (fun x => cmKey q j (hash x))
        (fun _ => 1) D k :=
  (tally_one_eq_card _ _ _).symm

/-- Items may be hashed before they are sketched. -/
theorem cm_map {Y : Type*} (q : ℕ) (hash : X → BitVec W)
    (f : Y → X) (D : Multiset Y)
    (j k : ℕ) : cm q hash (D.map f) j k = cm q (fun y => hash (f y)) D j k := by
  simp only [cm_eq_tally]
  exact tally_map (fun a b : ℕ => a + b) 0 _ _ f D k

/-- A row does not see what is cut off above its bits, as with the counters of
Fast-AGMS but without a sign bit between the rows. -/
theorem cm_setWidth {W' q j : ℕ} (h : (j + 1) * q ≤ W') (hash : X → BitVec W)
    (D : Multiset X) (k : ℕ) :
    cm q (fun x => (hash x).setWidth W') D j k = cm q hash D j k := by
  have hrow : j * q + q ≤ W' := by rwa [← Nat.succ_mul]
  have hkey : ∀ x, cmKey q j ((hash x).setWidth W')
    = cmKey q j (hash x) := fun x => by
    unfold cmKey
    rw [BitVec.toNat_setWidth, slice_mod hrow]
  rw [cm_eq_tally, cm_eq_tally]
  exact tally_congr _ 0 (fun x => by rw [hkey]) (fun _ => rfl) D

/-- **A row counts every item once**, in one of its buckets. -/
theorem sum_cm (q : ℕ) (hash : X → BitVec W) (D : Multiset X) (j : ℕ) :
    ∑ k ∈ Finset.range (2 ^ q), cm q hash D j k = D.card :=
  sum_card_filter (fun x => cmKey_lt q j (hash x)) D

/-- The sum of the squared counters of a Count-Min row. Unlike with signs, items
that share a bucket always add to it. -/
def cmSumq (q : ℕ) (hash : X → BitVec W) (D : Multiset X) (j : ℕ) : ℕ :=
  ∑ k ∈ Finset.range (2 ^ q), cm q hash D j k ^ 2

/-- **A Count-Min row beyond the hash word**, likewise: all items are in its
bucket zero. -/
theorem cmSumq_of_beyond (h : W ≤ j * q)
    (hash : X → BitVec W) (D : Multiset X) :
    cmSumq q hash D j = D.card ^ 2 := by
  have hcm : ∀ k, cm q hash D j k = if 0 = k then D.card else 0 := fun k => by
    have hkey : ∀ x, cmKey q j (hash x) = 0 := fun x => slice_of_le h q
    simp only [cm, hkey]
    split
    · next hk => rw [Multiset.filter_eq_self.mpr fun _ _ => hk]
    · next hk =>
        rw [Multiset.filter_eq_nil.mpr fun _ _ => hk, Multiset.card_zero]
  unfold cmSumq
  simp only [hcm, ite_pow, zero_pow two_ne_zero]
  rw [Finset.sum_ite_eq, if_pos (Finset.mem_range.mpr (Nat.two_pow_pos q))]

/-- Two items of different buckets count one each. -/
theorem cmSumq_pair {hash : X → BitVec W} {x y : X}
    (h : cmKey q j (hash x) ≠ cmKey q j (hash y)) :
    cmSumq q hash {x, y} j = 2 := by
  have hcm : ∀ k, cm q hash {x, y} j k ^ 2
      = (if cmKey q j (hash x) = k then 1 else 0)
        + (if cmKey q j (hash y) = k then 1 else 0) :=
    fun k => by
      rw [cm, show ({x, y} : Multiset X) = x ::ₘ y ::ₘ 0 from rfl]
      by_cases hx : cmKey q j (hash x) = k
      · have hy : cmKey q j (hash y) ≠ k := fun hy => h (hx.trans hy.symm)
        simp [hx, hy]
      · by_cases hy : cmKey q j (hash y) = k
          <;> simp [hx, hy, Multiset.filter_singleton]
  have hmem : ∀ z : X, cmKey q j (hash z) ∈ Finset.range (2 ^ q) := fun z =>
    Finset.mem_range.mpr (cmKey_lt q j (hash z))
  unfold cmSumq
  rw [Finset.sum_congr rfl fun k _ => hcm k,
    Finset.sum_add_distrib, Finset.sum_ite_eq,
    Finset.sum_ite_eq, if_pos (hmem x), if_pos (hmem y)]

end Sketch
