import Skt.Lib.Tables
import Skt.Sketch
import Skt.Software.Hash

/-!
# The software collector

`SktCollector` of `skt.hpp` keeps the three tables of a multi-sketch together
with their dimensions and the hash function its dispatch entry was chosen by.
`collect` runs the template `skt_collect_base` at that hash function; `merge`
and `clean` are loops over the tables.

Table entries are 32-bit words. The entries of the AGMS table are `signed` in
the source: the words below are their two's complement patterns, and an addition
of two entries is the addition of the patterns.

The shifts and indices of the collection loop are total here. Which calls of the
source they stand for, that is for which dimensions and hash functions every
shift amount and every index of a call is in range, is the subject of
`Skt.Software.Checked`.
-/

namespace Skt

open Bits Table

/-! ## Counting leading zeros -/

/-- `__builtin_clz` and `__builtin_clzl`, which count the leading zeros of a
word of their width. The instruction is undefined at zero, where the word is
said to be all leading zeros; the loop does not call it there. -/
def builtinClz {w : ℕ} (x : BitVec w) : ℕ := leadingZeros w x.toNat

/-- The overloads of `clz_nz`, one per width of a hash word. The template does
not compile at another width, and the class is what says so here. -/
class ClzNz (W : ℕ) where
  /-- The overload. -/
  clzNz : BitVec W → ℕ
  /-- Every overload counts leading zeros. -/
  clzNz_eq : ∀ x, clzNz x = leadingZeros W x.toNat

instance : ClzNz 32 := ⟨fun x => builtinClz x, fun _ => rfl⟩

instance : ClzNz 64 := ⟨fun x => builtinClz x, fun _ => rfl⟩

/-- The overload for `uint128_t`, assembled from two 64-bit counts. The mask of
the source is `~0ULL`, the low half of the word, and the initial value of its
variable answers for a word that is zero. -/
def clzNz128 (x : BitVec 128) : ℕ :=
  let hi := (x >>> 64).setWidth 64
  let lo := (x &&& 0xFFFFFFFFFFFFFFFF#128).setWidth 64
  if hi ≠ 0 then builtinClz hi
  else if lo ≠ 0 then builtinClz lo + 64
  else 128

/-- **The count assembled from two halves is the count of the word.** All three
branches of the source are met by a word, so all three are needed. -/
theorem clzNz128_eq (x : BitVec 128) :
    clzNz128 x = leadingZeros 128 x.toNat := by
  have hx := x.isLt
  have hhi : ((x >>> 64).setWidth 64).toNat = x.toNat / 2 ^ 64 := by
    rw [BitVec.toNat_setWidth, BitVec.toNat_ushiftRight,
      Nat.shiftRight_eq_div_pow]
    exact Nat.mod_eq_of_lt (by omega)
  have hlo : ((x &&& 0xFFFFFFFFFFFFFFFF#128).setWidth 64).toNat
    = x.toNat % 2 ^ 64 := by
    have h := toNat_and_mask x 64
    rw [BitVec.toNat_setWidth]
    erw [h]
    simp [slice]
  have hsplit := leadingZeros_split 64 64 (x.toNat / 2 ^ 64) (x.toNat % 2 ^ 64)
    (Nat.mod_lt _ (by decide))
  rw [Nat.div_add_mod'] at hsplit
  have hz : ∀ y : BitVec 64, y ≠ 0 ↔ y.toNat ≠ 0 := fun y =>
    not_congr ⟨fun h => by rw [h]; rfl, fun h => BitVec.eq_of_toNat_eq h⟩
  unfold clzNz128 builtinClz
  simp only [hz, hhi, hlo]
  rw [hsplit]
  split
  · rfl
  · split
    · rfl
    · next h => rw [not_not.mp h, leadingZeros_zero]

instance : ClzNz 128 := ⟨clzNz128, clzNz128_eq⟩

/-- The overload the template picks at each hash function. -/
instance (h : HashE) : ClzNz h.width :=
  match h with
  | .ident => inferInstanceAs (ClzNz 32)
  | .sip => inferInstanceAs (ClzNz 64)
  | .murmur3_32 => inferInstanceAs (ClzNz 32)
  | .murmur3_64 => inferInstanceAs (ClzNz 64)
  | .murmur3_128 => inferInstanceAs (ClzNz 128)

/-! ## The collection loop

The loop of `skt_collect_base` keeps a copy of the hash word for each of the two
counter sketches, from which it shifts out the bits of one row after the
other. -/

/-- The three tables a collection loop writes to, as the pointers it is
given. -/
@[ext] structure SktTables where
  /-- `hll_buckets` -/
  bucketsHll : List (BitVec 32)
  /-- `agms_buckets` -/
  tableAgms : List (BitVec 32)
  /-- `cm_buckets` -/
  tableCm : List (BitVec 32)
  deriving DecidableEq

section CollectBase

variable {W : ℕ}

/-- The HyperLogLog update of one item. The source reads the bucket by shifting
the hash word down and the rank by filling it with ones from below; the
comparison `lzcnt >= *bucket` goes before the increment. -/
def hllUpdate [ClzNz W] (hpVal : ℕ) (hashv : BitVec W)
    (buckets : List (BitVec 32)) :
    List (BitVec 32) :=
  let restC := W - hpVal
  let lzcnt := BitVec.ofNat 32 (ClzNz.clzNz (((hashv + 1#W) <<< hpVal) - 1#W))
  buckets.modify (hashv >>> restC).toNat (fun bucket =>
    if bucket ≤ lzcnt then lzcnt + 1#32 else bucket)

/-- One turn of the AGMS loop, on `ahashv`, `agms_row_base` and the table. The
`signed` entry is widened to the hash word for the addition and narrowed back.

The two shifts of the source, by `abit_shift` and by 2, take a row off the hash
word and leave the sign bit at the second place in between, where `(ahashv&2)-1`
finds it. -/
def agmsTurn (apVal : ℕ) (s : BitVec W × ℕ × List (BitVec 32)) :
    BitVec W × ℕ × List (BitVec 32) :=
  let (ahashv, rowBase, table) := s
  let rowStride := 2 ^ apVal
  let ofsMask := BitVec.ofNat W (rowStride - 1)
  let rowOfs := (ahashv &&& ofsMask).toNat
  let ahashv := ahashv >>> (apVal - 1)
  let table := table.modify (rowBase + rowOfs) (fun c =>
    (c.signExtend W + ((ahashv &&& 2#W) - 1#W)).setWidth 32)
  let ahashv := ahashv >>> 2
  (ahashv, rowBase + rowStride, table)

/-- One turn of the Count-Min loop, on `chashv`, `cm_row_base` and the table.
The mask is taken of the low bits and the shift drops them. -/
def cmTurn (cpVal : ℕ) (s : BitVec W × ℕ × List (BitVec 32)) :
    BitVec W × ℕ × List (BitVec 32) :=
  let (chashv, rowBase, table) := s
  let rowStride := 2 ^ cpVal
  let ofsMask := BitVec.ofNat W (rowStride - 1)
  let table :=
    table.modify (rowBase + (chashv &&& ofsMask).toNat) (fun c => c + 1#32)
  (chashv >>> cpVal, rowBase + rowStride, table)

/-- One turn of the loop over the items: all three tables are updated from the
same hash word. The row bases start at the beginning of their tables for every
item. -/
def collectItem [ClzNz W] (hash : BitVec 32 → BitVec W)
    (hpVal arVal apVal crVal cpVal : ℕ)
    (t : SktTables) (x : BitVec 32) : SktTables :=
  let hashv := hash x
  { bucketsHll := hllUpdate hpVal hashv t.bucketsHll
    tableAgms := ((agmsTurn apVal)^[arVal] (hashv, 0, t.tableAgms)).2.2
    tableCm := ((cmTurn cpVal)^[crVal] (hashv, 0, t.tableCm)).2.2 }

/-- `skt_collect_base`: the loop over the items, on the tables that are
given. -/
def sktCollectBase [ClzNz W] (hash : BitVec 32 → BitVec W)
    (data : List (BitVec 32))
    (t : SktTables) (hpVal arVal apVal crVal cpVal : ℕ) : SktTables :=
  data.foldl (collectItem hash hpVal arVal apVal crVal cpVal) t

/-! ### What one turn does

The loops are described by the functions of `Skt.Sketch`. A row of the source is
a stretch of the hash word that has been shifted down to its low bits; a row of
the specification is a slice of the word as it is. -/

/-- **After `n` turns of the AGMS loop** the hash word is shifted by `n` rows,
the row base stands at row `n`, and every row before it had its entry moved
by the sign read from that row's bits. -/
theorem agmsTurn_iterate (p : ℕ) (hp : 0 < p) (hW : 32 ≤ W) (hashv : BitVec W)
    (t : List (BitVec 32)) (n : ℕ) :
    (agmsTurn p)^[n] (hashv, 0, t)
      = (hashv >>> (n * (p + 1)), n * 2 ^ p,
          rowUpdates (2 ^ p) (fun j => Sketch.agmsKey p j hashv)
            (fun j c => c + BitVec.ofInt 32
              (Sketch.agmsSign p j hashv)) n t) := by
  induction n with
  | zero => simp [rowUpdates]
  | succ n ih =>
    rw [Function.iterate_succ_apply', ih, rowUpdates_succ]
    have hofs : (hashv >>> (n * (p + 1)) &&& BitVec.ofNat W (2 ^ p - 1)).toNat
        = Sketch.agmsKey p n hashv :=
      toNat_ushiftRight_and_mask hashv (n * (p + 1)) p
    have hbit : (hashv >>> (n * (p + 1)) >>> (p - 1)).getLsbD 1
        = hashv.toNat.testBit (n * (p + 1) + p) := by
      rw [BitVec.getLsbD_ushiftRight, BitVec.getLsbD_ushiftRight,
        BitVec.getLsbD]
      congr 1
      omega
    have hshift : n * (p + 1) + (p - 1 + 2) = (n + 1) * (p + 1) := by
      rw [Nat.add_mul]; omega
    simp only [agmsTurn, hofs, setWidth_signExtend_add_bit hW,
      hbit, Sketch.agmsSign]
    rw [← BitVec.shiftRight_add, ← BitVec.shiftRight_add, hshift,
      Nat.succ_mul n (2 ^ p)]

/-- **After `n` turns of the Count-Min loop**, likewise with rows of `q`
bits and increments. -/
theorem cmTurn_iterate (q : ℕ) (hashv : BitVec W)
    (t : List (BitVec 32)) (n : ℕ) :
    (cmTurn q)^[n] (hashv, 0, t)
      = (hashv >>> (n * q), n * 2 ^ q,
          rowUpdates (2 ^ q) (fun j => Sketch.cmKey q j hashv)
            (fun _ c => c + 1#32) n t) := by
  induction n with
  | zero => simp [rowUpdates]
  | succ n ih =>
    rw [Function.iterate_succ_apply', ih, rowUpdates_succ]
    have hofs : (hashv >>> (n * q) &&& BitVec.ofNat W (2 ^ q - 1)).toNat
        = Sketch.cmKey q n hashv :=
      toNat_ushiftRight_and_mask hashv (n * q) q
    simp only [cmTurn, hofs]
    rw [← BitVec.shiftRight_add, Nat.succ_mul, Nat.succ_mul]

/-- **The fill and the count give the rank.** The carry of `hashv + 1` and the
ones shifted in below it leave the leading zeros of what follows the bucket
bits. It holds at the hash word of all ones, too, where `hashv + 1` is zero. -/
theorem clzNz_fill [ClzNz W] (p : ℕ) (hp : p ≤ W) (hW : 0 < W)
    (hashv : BitVec W) :
    ClzNz.clzNz (((hashv + 1#W) <<< p) - 1#W) + 1 = Sketch.hllRank p hashv := by
  rw [ClzNz.clzNz_eq, toNat_fill hashv p hp hW, Sketch.hllRank, Nat.add_comm 1]
  have h := leadingZeros_fill (W - p) p (hashv.toNat % 2 ^ (W - p))
  rw [Nat.sub_add_cancel hp] at h
  rw [h]

/-- **The count is never asked for the leading zeros of zero**: the fill ends in
a one. With no bucket bits there is no fill and the count may be asked. -/
theorem fill_ne_zero {p : ℕ} (hpos : 0 < p) (hp : p ≤ W) (hashv : BitVec W) :
    ((hashv + 1#W) <<< p) - 1#W ≠ 0 := by
  intro hzero
  have h := toNat_fill hashv p hp (by omega)
  have hones : 1 < 2 ^ p := Nat.one_lt_two_pow hpos.ne'
  rw [hzero] at h
  simp only [BitVec.ofNat_eq_ofNat, BitVec.toNat_ofNat, Nat.zero_mod] at h
  omega

/-- **The HyperLogLog update raises the entry of the item's bucket to the
item's rank.** -/
theorem hllUpdate_eq [ClzNz W] (p : ℕ) (hp : p ≤ W)
    (hW : 0 < W) (hashv : BitVec W) (buckets : List (BitVec 32)) :
    hllUpdate p hashv buckets
      = buckets.modify (Sketch.hllBucket p hashv) (fun bucket =>
          if bucket ≤ BitVec.ofNat 32 (Sketch.hllRank p hashv - 1)
          then BitVec.ofNat 32 (Sketch.hllRank p hashv) else bucket) := by
  unfold hllUpdate Sketch.hllBucket
  rw [← clzNz_fill p hp hW hashv, Nat.add_sub_cancel]
  simp only [BitVec.toNat_ushiftRight, Nat.shiftRight_eq_div_pow,
    ← BitVec.ofNat_add]

end CollectBase

/-! ## The collector -/

/-- `SktCollector`: the tables with their dimensions and dispatch entry. The
lengths are those the constructor allocates, and no method changes them. -/
structure SktCollector extends SktTables where
  /-- `m_p_hll` -/
  pHll : ℕ
  /-- `m_r_agms` -/
  rAgms : ℕ
  /-- `m_p_agms` -/
  pAgms : ℕ
  /-- `m_r_cm` -/
  rCm : ℕ
  /-- `m_p_cm` -/
  pCm : ℕ
  /-- `m_dispatch`, named by the hash function it was looked up for -/
  dispatch : HashE
  /-- The arrays have the lengths they were allocated with, which no operation
  changes. A collector with other ones cannot be built. -/
  length_bucketsHll : bucketsHll.length = 2 ^ pHll
  length_tableAgms : tableAgms.length = 2 ^ pAgms * rAgms
  length_tableCm : tableCm.length = 2 ^ pCm * rCm

/-- The lengths of the tables survive an item: an update writes in place. -/
theorem length_collectItem {W : ℕ} [ClzNz W] (hash : BitVec 32 → BitVec W)
    (hp ar ap cr cp : ℕ) (t : SktTables) (x : BitVec 32) :
    (collectItem hash hp ar ap cr cp t x).bucketsHll.length
      = t.bucketsHll.length
      ∧ (collectItem hash hp ar ap cr cp t x).tableAgms.length
        = t.tableAgms.length
      ∧ (collectItem hash hp ar ap cr cp t x).tableCm.length
        = t.tableCm.length := by
  have hagms : ∀ n (s : BitVec W × ℕ × List (BitVec 32)),
      ((agmsTurn ap)^[n] s).2.2.length = s.2.2.length := by
    intro n s
    induction n with
    | zero => rfl
    | succ n ih => rw [Function.iterate_succ_apply', agmsTurn,
      List.length_modify, ih]
  have hcm : ∀ n (s : BitVec W × ℕ × List (BitVec 32)),
      ((cmTurn cp)^[n] s).2.2.length = s.2.2.length := by
    intro n s
    induction n with
    | zero => rfl
    | succ n ih => rw [Function.iterate_succ_apply', cmTurn,
      List.length_modify, ih]
  exact ⟨List.length_modify _ _ _, hagms _ _, hcm _ _⟩

/-- The lengths of the tables survive the collection loop. -/
theorem length_sktCollectBase {W : ℕ} [ClzNz W] (hash : BitVec 32 → BitVec W)
    (data : List (BitVec 32)) (t : SktTables) (hp ar ap cr cp : ℕ) :
    (sktCollectBase hash data t hp ar ap cr cp).bucketsHll.length
      = t.bucketsHll.length
      ∧ (sktCollectBase hash data t hp ar ap cr cp).tableAgms.length
        = t.tableAgms.length
      ∧ (sktCollectBase hash data t hp ar ap cr cp).tableCm.length
        = t.tableCm.length := by
  unfold sktCollectBase
  induction data generalizing t with
  | nil => exact ⟨rfl, rfl, rfl⟩
  | cons x data ih =>
    obtain ⟨h1, h2, h3⟩ := length_collectItem hash hp ar ap cr cp t x
    obtain ⟨i1, i2, i3⟩ := ih (collectItem hash hp ar ap cr cp t x)
    exact ⟨i1.trans h1, i2.trans h2, i3.trans h3⟩

namespace SktCollector

/-- The constructor, which allocates zeroed tables of `1<<p` entries for each
row. -/
def new (hpVal arVal apVal crVal cpVal : ℕ) (hash : HashE) : SktCollector where
  bucketsHll := List.replicate (2 ^ hpVal) 0
  tableAgms := List.replicate (2 ^ apVal * arVal) 0
  tableCm := List.replicate (2 ^ cpVal * crVal) 0
  pHll := hpVal
  rAgms := arVal
  pAgms := apVal
  rCm := crVal
  pCm := cpVal
  dispatch := hash
  length_bucketsHll := List.length_replicate
  length_tableAgms := List.length_replicate
  length_tableCm := List.length_replicate

/-- `collect`: the dispatch entry run over the data. It may be called any number
of times, and each call goes on with the tables as the last one left them. -/
def collect (c : SktCollector) (data : List (BitVec 32)) : SktCollector :=
  { c with
    toSktTables :=
      sktCollectBase (hash c.dispatch) data c.toSktTables c.pHll
        c.rAgms c.pAgms c.rCm c.pCm
    length_bucketsHll := by
      rw [(length_sktCollectBase _ _ _ _ _ _ _ _).1, c.length_bucketsHll]
    length_tableAgms := by
      rw [(length_sktCollectBase _ _ _ _ _ _ _ _).2.1, c.length_tableAgms]
    length_tableCm := by
      rw [(length_sktCollectBase _ _ _ _ _ _ _ _).2.2, c.length_tableCm] }

/-- `merge0`: the three compatibility checks, then one loop per table, with the
bounds taken from `other`. The hash functions are not compared.

The entries of the AGMS table are `signed`, and `*ref += cand` adds them as
two's complement words, as the compiled addition does; C++ itself leaves a sum
out of the range of an `int` undefined. `merge0Columns` has a range check at
every addition instead, since its sums are read as numbers and not merged any
further. -/
def merge0 (this other : SktCollector) : Except String SktCollector :=
  if this.pHll ≠ other.pHll then
    .error "HLL incompatible bucket sets."
  else if this.pAgms ≠ other.pAgms ∨ this.rAgms ≠ other.rAgms then
    .error "AGMS incompatible table."
  else if this.pCm ≠ other.pCm ∨ this.rCm ≠ other.rCm then
    .error "CM incompatible table."
  else
    let mHll := 2 ^ other.pHll
    let mAgms := 2 ^ other.pAgms * other.rAgms
    let mCm := 2 ^ other.pCm * other.rCm
    .ok { this with
      bucketsHll := forEach mHll (fun i ref =>
        let cand := other.bucketsHll.getD i 0
        if ref < cand then cand else ref) this.bucketsHll
      tableAgms :=
        forEach mAgms (fun i ref => ref + other.tableAgms.getD i 0)
          this.tableAgms
      tableCm :=
        forEach mCm (fun i ref => ref + other.tableCm.getD i 0) this.tableCm
      length_bucketsHll := by rw [length_forEach, this.length_bucketsHll]
      length_tableAgms := by rw [length_forEach, this.length_tableAgms]
      length_tableCm := by rw [length_forEach, this.length_tableCm] }

/-- `clean`: every entry of every table is set to zero. The dimensions and the
dispatch entry stay. -/
def clean (this : SktCollector) : SktCollector :=
  { this with
    bucketsHll := forEach (2 ^ this.pHll) (fun _ _ => 0) this.bucketsHll
    tableAgms := forEach (2 ^ this.pAgms * this.rAgms)
      (fun _ _ => 0) this.tableAgms
    tableCm := forEach (2 ^ this.pCm * this.rCm) (fun _ _ => 0) this.tableCm
    length_bucketsHll := by rw [length_forEach, this.length_bucketsHll]
    length_tableAgms := by rw [length_forEach, this.length_tableAgms]
    length_tableCm := by rw [length_forEach, this.length_tableCm] }

end SktCollector

end Skt
