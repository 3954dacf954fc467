import Skt.Software.Checked
import Skt.Software.Median

/-!
# Rows that are rows of the hash

A row of the AGMS and Count-Min tables takes its bucket and its sign from bits
of the hash word, the next row from the bits above: the loops shift the word
from row to row. The kernel asserts at compile time that the word is long enough
for all rows. The software accepts any number of rows from one to eight and any
number of bucket bits from four to sixteen with any hash function.

Where the rows ask for more bits than the word has, the last rows find zeros
there: all items land in one bucket, with one sign, and the row's value is the
square of the number of items whatever the data is.

Where the word is long enough, no bit of it is the same for all items, with any
of the hash functions, and so no row is. That is a property of the five hash
functions, which is shown by a few keys whose words differ in all their bits
between them.
-/

namespace Skt

open Bits

variable {W : ℕ}

/-! ## No bit of a hash word is constant -/

/-- No bit is the same in all hash words. -/
def Varies (hash : BitVec 32 → BitVec W) : Prop :=
  ∀ i < W, ∃ x y, (hash x).getLsbD i ≠ (hash y).getLsbD i

/-- **A few items are enough**: if the hash words of some differ from the word
of one in every bit. The fold collects the bits in which any of them differs. -/
theorem varies_of_foldr {hash : BitVec 32 → BitVec W} (x : BitVec 32)
    (ys : List (BitVec 32))
    (h : ys.foldr (fun y seen => (hash x ^^^ hash y) ||| seen) 0#W
      = BitVec.allOnes W) :
    Varies hash := by
  intro i hi
  have hor : ∀ ys : List (BitVec 32),
      (ys.foldr (fun y seen => (hash x ^^^ hash y) ||| seen) 0#W).getLsbD i
        = true
        → ∃ y, (hash x).getLsbD i ≠ (hash y).getLsbD i := by
    intro ys
    induction ys with
    | nil => simp
    | cons y ys ih =>
      intro hbit
      rw [List.foldr_cons, BitVec.getLsbD_or, Bool.or_eq_true] at hbit
      rcases hbit with hbit | hbit
      · rw [BitVec.getLsbD_xor] at hbit
        exact ⟨y, Bool.xor_iff_ne.mp hbit⟩
      · exact ih hbit
  obtain ⟨y, hy⟩ :=
    hor ys (by rw [h, BitVec.getLsbD_allOnes, decide_eq_true hi])
  exact ⟨x, y, hy⟩

/-- The two words of four items, which between them differ from the first in
every bit. They are computed once and serve the two functions that return
them. -/
theorem murmur3Words_items :
    murmur3Words 0 = (0x135e37a7cb2203e6#64, 0x180a7b9449ea1660#64)
      ∧ murmur3Words 3374 = (0xa1a746f034cf740e#64, 0xc165e6492e9b6b1f#64)
      ∧ murmur3Words 20872 = (0xbf09c948919897f6#64, 0xf79318a5b735d485#64)
      ∧ murmur3Words 263 = (0x5aca950e7d306ad9#64, 0x2c3d919f4c43e36e#64) := by
  refine ⟨?_, ?_, ?_, ?_⟩ <;> simp [murmur3Words, rotl64, fmix64]

/-- **No bit of a hash word is constant**, with any of the hash functions, so
every bit tells some two items apart. -/
theorem hash_varies (h : HashE) : Varies (hash h) := by
  obtain ⟨h₀, h₁, h₂, h₃⟩ := murmur3Words_items
  cases h with
  | ident => exact varies_of_foldr 0 [0xFFFFFFFF#32] (by decide)
  | sip =>
    have h₀ : hashSip 0 = 0x34c0e02aa57e7b58#64 := by
      simp [hashSip, sipRound, rotl64]
    have h₁ : hashSip 13455 = 0x4b3e3dfdeb838cbd#64 := by
      simp [hashSip, sipRound, rotl64]
    have h₂ : hashSip 20499 = 0x9aafc2c65018b327#64 := by
      simp [hashSip, sipRound, rotl64]
    refine varies_of_foldr 0 [13455, 20499] ?_
    simp only [List.foldr_cons, List.foldr_nil, hash, h₀, h₁, h₂]
    decide
  | murmur3_32 =>
    refine varies_of_foldr 0 [152, 108] ?_
    simp only [List.foldr_cons, List.foldr_nil, hash]
    decide
  | murmur3_64 =>
    refine varies_of_foldr 0 [3374, 20872, 263] ?_
    simp only [List.foldr_cons, List.foldr_nil, hash,
      hashMurmur3_64, h₀, h₁, h₂, h₃]
    decide
  | murmur3_128 =>
    refine varies_of_foldr 0 [3374, 20872, 263] ?_
    simp only [List.foldr_cons, List.foldr_nil, hash,
      hashMurmur3_128, h₀, h₁, h₂, h₃]
    decide

/-! ## The bits of a row

What a row reads is taken from the loops of the source: the hash word as it is
after the turns before, masked and shifted as the turn does. -/

section Rows

variable {p q j : ℕ}

/-- The hash word turn `j` of the AGMS loop works on, the first component of the
loop's state. The table does not enter. -/
def agmsHashv (p j : ℕ) (hashv : BitVec W) : BitVec W :=
  ((agmsTurn p)^[j] (hashv, 0, [])).1

/-- The bucket turn `j` of the AGMS loop takes, `arow_ofs` of the source. -/
def agmsRowOfs (p j : ℕ) (hashv : BitVec W) : ℕ :=
  (agmsHashv p j hashv &&& BitVec.ofNat W (2 ^ p - 1)).toNat

/-- What turn `j` of the AGMS loop adds to the bucket, `(ahashv&2) - 1` of the
source: one or minus one. -/
def agmsRowInc (p j : ℕ) (hashv : BitVec W) : BitVec W :=
  ((agmsHashv p j hashv >>> (p - 1)) &&& 2#W) - 1#W

/-- The hash word turn `j` of the Count-Min loop works on. -/
def cmHashv (q j : ℕ) (hashv : BitVec W) : BitVec W :=
  ((cmTurn q)^[j] (hashv, 0, [])).1

/-- The bucket turn `j` of the Count-Min loop takes. -/
def cmRowOfs (q j : ℕ) (hashv : BitVec W) : ℕ :=
  (cmHashv q j hashv &&& BitVec.ofNat W (2 ^ q - 1)).toNat

/-- The bucket of an AGMS row is a slice of the hash word, one row's bits
further up for each turn. -/
theorem agmsRowOfs_eq (hp : 0 < p) (hW : 32 ≤ W) (j : ℕ) (hashv : BitVec W) :
    agmsRowOfs p j hashv = Sketch.agmsKey p j hashv := by
  unfold agmsRowOfs agmsHashv
  rw [agmsTurn_iterate p hp hW]
  exact toNat_ushiftRight_and_mask hashv (j * (p + 1)) p

/-- The increment of an AGMS row reads the bit above, and reads zero when there
is none. -/
theorem agmsRowInc_eq (hp : 0 < p) (hW : 32 ≤ W) (j : ℕ) (hashv : BitVec W) :
    agmsRowInc p j hashv
      = (if hashv.getLsbD (j * (p + 1) + p) then 2#W else 0#W) - 1#W := by
  unfold agmsRowInc agmsHashv
  rw [agmsTurn_iterate p hp hW, and_two, BitVec.getLsbD_ushiftRight,
    BitVec.getLsbD_ushiftRight,
    show j * (p + 1) + (p - 1 + 1) = j * (p + 1) + p by omega]

/-- The bucket of a Count-Min row is a slice of the hash word, without a bit
between the rows. -/
theorem cmRowOfs_eq (q j : ℕ) (hashv : BitVec W) :
    cmRowOfs q j hashv = Sketch.cmKey q j hashv := by
  unfold cmRowOfs cmHashv
  rw [cmTurn_iterate]
  exact toNat_ushiftRight_and_mask hashv (j * q) q

end Rows

/-! ## The value of a row

The value of an AGMS row is what `merge_columns` computes of it; that of a
Count-Min row is stated alike, to have one notion of a row that tells
nothing. -/

namespace SktCollector

/-- The sum of the squared counters of a Count-Min row. -/
def cmRowSum (c : SktCollector) (j : ℕ) : ℕ :=
  ∑ k ∈ Finset.range (2 ^ c.pCm),
    (c.tableCm.getD (j * 2 ^ c.pCm + k) 0).toNat ^ 2

/-- It is that of the sketch, for fewer than `2 ^ 32` items, so that no counter
has wrapped. -/
theorem Holds.cmRowSum_eq {c : SktCollector}
    {D : Multiset (BitVec 32)} (h : c.Holds D) (hcard : D.card < 2 ^ 32) {j : ℕ}
    (hj : j < c.rCm) :
    c.cmRowSum j = Sketch.cmSumq c.pCm (hash c.dispatch) D j := by
  refine Finset.sum_congr rfl fun k hk => ?_
  have hle : Sketch.cm c.pCm (hash c.dispatch) D j k ≤ D.card :=
    Multiset.card_le_card (Multiset.filter_le _ D)
  rw [List.getD_eq_getElem?_getD, h.cm j k hj (Finset.mem_range.mp hk),
    Option.getD_some,
    BitVec.toNat_ofNat, Nat.mod_eq_of_lt (by omega)]

end SktCollector

/-! ## Real rows

A row is real when its bits are bits of the hash word. What the row is good for
follows, and fails otherwise, so that the two are equivalent in the end. -/

/-- A fresh collector that has collected a data list. -/
def collected (hp ar ap cr cp : ℕ) (h : HashE)
    (data : List (BitVec 32)) : SktCollector :=
  (SktCollector.new hp ar ap cr cp h).collect data

/-- It holds the list, as a multiset. -/
theorem holds_collected {hp ap : ℕ} (hhp : hp ≤ 16) (hap : 0 < ap)
    (ar cr cp : ℕ) (h : HashE) (data : List (BitVec 32)) :
    (collected hp ar ap cr cp h data).Holds (data : Multiset (BitVec 32)) := by
  have hholds :=
    (SktCollector.holds_new hp ar ap cr cp h).collect ⟨hhp, hap⟩ data
  rwa [zero_add] at hholds

/-- **A real AGMS row**: its bits, the highest of which is the sign, lie inside
the hash word, and neither bucket nor sign is the same for all items. -/
structure AgmsRowReal (h : HashE) (p j : ℕ) : Prop where
  /-- The bits of the row are bits of the hash word. -/
  inside : j * (p + 1) + p < h.width
  /-- Some two items fall into different buckets. -/
  buckets : ∃ x y, agmsRowOfs p j (hash h x) ≠ agmsRowOfs p j (hash h y)
  /-- Some two items have different signs. -/
  signs : ∃ x y, agmsRowInc p j (hash h x) ≠ agmsRowInc p j (hash h y)

/-- **A real Count-Min row**: its bits lie inside the hash word, and its bucket
is not the same for all items. -/
structure CmRowReal (h : HashE) (q j : ℕ) : Prop where
  inside : j * q + q ≤ h.width
  buckets : ∃ x y, cmRowOfs q j (hash h x) ≠ cmRowOfs q j (hash h y)

/-- **Every configured row is a real hash row**, and no row has its value forced
to the square of the number of items. The last two fields give a data list for
each row on which its value is another one. -/
structure RowsReal (hp ar ap cr cp : ℕ) (h : HashE) : Prop where
  agms : ∀ j < ar, AgmsRowReal h ap j
  cm : ∀ j < cr, CmRowReal h cp j
  /-- No row counts all items in one bucket whatever they are: some data give it
  another sum of squares. -/
  agmsFree : ∀ j < ar, ∃ data : List (BitVec 32),
    (collected hp ar ap cr cp h data).rowSum j ≠ (data.length : ℤ) ^ 2
  /-- The same of the Count-Min rows. -/
  cmFree : ∀ j < cr, ∃ data : List (BitVec 32),
    (collected hp ar ap cr cp h data).cmRowSum j ≠ data.length ^ 2

variable {hp ar ap cr cp : ℕ} {h : HashE}

/-- **A row inside the hash word is real**: no bit of the word is constant. -/
theorem agmsRowReal {p j : ℕ} (hp : 0 < p) (hin : j * (p + 1) + p < h.width) :
    AgmsRowReal h p j where
  inside := hin
  buckets := by
    obtain ⟨x, y, hne⟩ := hash_varies h (j * (p + 1)) (by omega)
    refine ⟨x, y, ?_⟩
    rw [agmsRowOfs_eq hp h.le_width, agmsRowOfs_eq hp h.le_width]
    exact slice_ne hp hne
  signs := by
    obtain ⟨x, y, hne⟩ := hash_varies h (j * (p + 1) + p) hin
    have htwo : 2#h.width - 1#h.width ≠ 0#h.width - 1#h.width := fun heq => by
      have h4 : 2 ^ 2 ≤ 2 ^ h.width :=
        Nat.pow_le_pow_right Nat.two_pos (by have := h.le_width; omega)
      have hnat := congrArg BitVec.toNat ((BitVec.sub_left_inj _).mp heq)
      rw [BitVec.toNat_ofNat, BitVec.toNat_ofNat, Nat.mod_eq_of_lt (by omega),
        Nat.zero_mod] at hnat
      omega
    refine ⟨x, y, ?_⟩
    rw [agmsRowInc_eq hp h.le_width, agmsRowInc_eq hp h.le_width]
    cases hx : (hash h x).getLsbD (j * (p + 1) + p) with
    | true =>
      rw [hx] at hne
      rw [Bool.eq_false_iff.mpr fun hy => hne hy.symm]
      exact htwo
    | false =>
      rw [hx] at hne
      rw [Bool.eq_true_of_not_eq_false fun hy => hne hy.symm]
      exact htwo.symm

/-- The same of a Count-Min row, which needs a bit to tell items apart. -/
theorem cmRowReal {q j : ℕ} (hq : 0 < q) (hin : j * q + q ≤ h.width) :
    CmRowReal h q j where
  inside := hin
  buckets := by
    obtain ⟨x, y, hne⟩ := hash_varies h (j * q) (by omega)
    refine ⟨x, y, ?_⟩
    rw [cmRowOfs_eq, cmRowOfs_eq]
    exact slice_ne hq hne

/-- **Two items of different buckets** join themselves only, which makes two and
not four. They are what a real row has by definition. -/
theorem AgmsRowReal.exists_data {j : ℕ} (hrow : AgmsRowReal h ap j)
    (hhp : hp ≤ 16) (hap : 0 < ap)
    (hj : j < ar) : ∃ data : List (BitVec 32),
      (collected hp ar ap cr cp h data).rowSum j ≠ (data.length : ℤ) ^ 2 := by
  obtain ⟨x, y, hne⟩ := hrow.buckets
  rw [agmsRowOfs_eq hap h.le_width, agmsRowOfs_eq hap h.le_width] at hne
  refine ⟨[x, y], ?_⟩
  rw [(holds_collected hhp hap ar cr cp h [x, y]).rowSum_eq (by simp) hj]
  have hpair := Sketch.agmsSumq_pair ap (hash h) x y j
  rw [if_neg hne] at hpair
  show Sketch.agmsSumq ap (hash h) {x, y} j ≠ 4
  rw [hpair]
  decide

/-- The same of a Count-Min row. -/
theorem CmRowReal.exists_data {j : ℕ} (hrow : CmRowReal h cp j)
    (hhp : hp ≤ 16) (hap : 0 < ap)
    (hj : j < cr) : ∃ data : List (BitVec 32),
      (collected hp ar ap cr cp h data).cmRowSum j ≠ data.length ^ 2 := by
  obtain ⟨x, y, hne⟩ := hrow.buckets
  rw [cmRowOfs_eq, cmRowOfs_eq] at hne
  refine ⟨[x, y], ?_⟩
  rw [(holds_collected hhp hap ar cr cp h [x, y]).cmRowSum_eq (by simp) hj]
  show Sketch.cmSumq cp (hash h) {x, y} j ≠ 4
  rw [Sketch.cmSumq_pair hne]
  decide

/-- The last of `r` rows ends inside a word exactly where all of them fit. -/
theorem last_row_le {r b n : ℕ} (hr : 1 ≤ r) :
    (r - 1) * b + b ≤ n ↔ r * b ≤ n := by
  rw [← Nat.succ_mul, Nat.succ_eq_add_one, Nat.sub_add_cancel hr]

/-- Every row ends before the last or with it. -/
theorem row_le {r b j n : ℕ} (hj : j < r) (h : r * b ≤ n) : j * b + b ≤ n := by
  rw [← Nat.succ_mul]
  exact (Nat.mul_le_mul_right b hj).trans h

/-- **The rows of an accepted configuration are real just when the hash word has
bits for all of them** – the law the kernel asserts. The hypothesis is the check
`skt_bench` makes of its arguments; the law is not part of it. -/
theorem rows_real_iff (hargs : checkArguments hp ar ap cr cp = .ok ()) :
    RowsReal hp ar ap cr cp h ↔ ar * (ap + 1) ≤ h.width
      ∧ cr * cp ≤ h.width := by
  obtain ⟨hhp, ⟨har, -⟩, ⟨hap, -⟩, ⟨hcr, -⟩, hcp, -⟩ :=
    checkArguments_eq_ok hargs
  constructor
  · intro hreal
    refine ⟨(last_row_le har).mp ?_,
      (last_row_le hcr).mp (hreal.cm (cr - 1) (by omega)).inside⟩
    exact (hreal.agms (ar - 1) (by omega)).inside
  · rintro ⟨hagms, hcm⟩
    have hrow : ∀ j < ar, AgmsRowReal h ap j := fun j hj =>
      agmsRowReal (by omega) (row_le hj hagms)
    have hrow' : ∀ j < cr, CmRowReal h cp j := fun j hj =>
      cmRowReal (by omega) (row_le hj hcm)
    exact ⟨hrow, hrow', fun j hj => (hrow j hj).exists_data hhp (by omega) hj,
      fun j hj => (hrow' j hj).exists_data hhp (by omega) hj⟩

/-- The documented dimensions with a hash word that is long enough for them. -/
theorem rows_real_iff_instance :
    RowsReal 16 6 13 6 13 .murmur3_128
      ↔ 6 * (13 + 1) ≤ HashE.murmur3_128.width ∧ 6 * 13
        ≤ HashE.murmur3_128.width :=
  rows_real_iff (show checkArguments 16 6 13 6 13 = .ok () from rfl)

/-- **The documented call has rows beyond the hash word**: six rows of fourteen
and of thirteen bits in a word of sixty-four. The sixth row of either table has
the square of the number of items for its value on every data list. -/
theorem not_rowsReal :
    checkArguments 16 6 13 6 13 = .ok () ∧ ¬ RowsReal 16 6 13 6 13 .murmur3_64
      ∧ ∀ data : List (BitVec 32), data.length < 2 ^ 31 →
        (collected 16 6 13 6 13 .murmur3_64 data).rowSum 5
          = (data.length : ℤ) ^ 2
          ∧ (collected 16 6 13 6 13 .murmur3_64 data).cmRowSum 5
            = data.length ^ 2 := by
  refine ⟨rfl, fun hreal => ?_, fun data hlen => ?_⟩
  · exact absurd (hreal.agms 5 (by decide)).inside (by decide)
  · have hholds := @holds_collected 16 13 (by decide) (by decide) 6 6 13
      .murmur3_64 data
    constructor
    · rw [hholds.rowSum_eq hlen (show 5 < 6 by decide)]
      exact Sketch.agmsSumq_of_beyond (show 64 ≤ 5 * (13 + 1) by decide) _ _
    · rw [hholds.cmRowSum_eq (lt_trans hlen (by decide)) (show 5 < 6 by decide)]
      exact Sketch.cmSumq_of_beyond (show 64 ≤ 5 * 13 by decide) _ _

end Skt
