import Skt.Sketch
import Skt.Hardware.BitUtils
import Skt.Hardware.BasicSketch
import Skt.Hardware.Rows

/-!
# The three sketches of the kernel

What `hll_sketch`, `agms_sketch` and `cm_sketch` do to a hash word, and what
follows their rows: the cardinality estimator, and the sums of squares. Each of
the three fills the network of rows with its lambdas, and its update is one of
the operations that network needs: the maximum of ranks, or the addition of
counters, which wraps at 32 bits.

The tables their rows write are the abstract sketches of `Skt.Sketch`, at the
hash words the kernel computes. That is the last section, and it is the bridge
to the software, whose tables are the same abstract sketches. For HyperLogLog
the two are equal as numbers, since a rank fits its register; for the counters
they are equal modulo `2 ^ 32`, and become equal as numbers where the counts are
bounded.
-/

namespace Skt.Hardware

open Streams Tally Bits

/-! ## HyperLogLog

The hash word is cut at `H - P`: the top `P` bits are the bucket, and the
leading zeros of the others make the rank. -/

/-- `clz` of `bit_utils.hpp`, in a register that is wide enough for the width
itself, which is its value at zero. -/
def clz {W : ℕ} (x : BitVec W) : BitVec (clog2 (W + 1)) :=
  BitVec.ofNat _ (leadingZeros W x.toNat)

/-- The register is wide enough. -/
theorem toNat_clz {W : ℕ} (x : BitVec W) :
    (clz x).toNat = leadingZeros W x.toNat := by
  have hlz := leadingZeros_le W x.toNat
  rw [clz, BitVec.toNat_ofNat]
  exact Nat.mod_eq_of_lt (lt_of_lt_of_le (by omega) (le_two_pow_clog2 _))

/-- `T_RANK`: wide enough for the `H - P + 2` ranks from `0` to `H - P + 1`.
Rank `0` stands for an empty bucket. -/
abbrev Rank (H P : ℕ) := BitVec (clog2 (H - P + 2))

/-- The lambda of `hll_sketch`: bucket and rank of a hash word. The rank of a
word whose lower part is zero is `H - P + 1`. -/
def ranked (H P : ℕ) (hash : BitVec H) : BitVec P × Rank H P :=
  let buck := hash.extractLsb' (H - P) P
  let rank := BitVec.ofNat _ (1 + (clz (hash.setWidth (H - P))).toNat)
  (buck, rank)

/-- The functions of `hll_sketch`. Its `map` is the `split` to a single row, and
its collectors and its reduction take maxima. -/
def hllFunctions (H P : ℕ) : RowFunctions 1 H P (Rank H P) (Rank H P) where
  key x _ := x.map (ranked H P)
  update a b := stdMax a b
  reduce a b := ⟨b.last, stdMax a.val b.val⟩

/-- The floating-point operations of the estimator, and the bits of a float.
They are a parameter of the kernel, since no result on schedules, tables or
records depends on how they round. The accumulator is handed to them as it is,
an unsigned number with `H - P + 1` binary places. -/
structure HllFloat (H P : ℕ) where
  /-- The type of the result, `float` in the source. -/
  F : Type
  /-- `ALPHAM2 / accu.to_float()` -/
  raw : BitVec (H + 1) → F
  /-- `card <= 2.5*M` -/
  small : F → Bool
  /-- `M*logf((float)M / (float)zeros)` -/
  linear : BitVec (P + 1) → F
  /-- The bits of a float. -/
  bits : F → BitVec 32

/-- The operations of the repository: `float` with `double` constants, which C++
promotes to and rounds back at the assignment. -/
def HllFloat.single (H P : ℕ) : HllFloat H P where
  F := Float32
  raw accu :=
    let m := Float.ofNat (2 ^ P)
    (m * (m * (0.7213 / (1 + 1.079 / m)))).toFloat32
      / (Float32.ofNat accu.toNat).scaleB (-(H - P + 1))
  small card := decide (card.toFloat ≤ 2.5 * Float.ofNat (2 ^ P))
  linear zeros :=
    Float32.ofNat (2 ^ P)
      * (Float32.ofNat (2 ^ P) / Float32.ofNat zeros.toNat).log
  bits card := card.toBits.toBitVec

/-- The state of `HllEstimator`: the count of empty buckets and the exact
accumulator, `accu_t = ap_ufixed<H+1, P>`, as the word of its bits. -/
@[ext] structure HllEstimator (H P : ℕ) where
  /-- `zeros`: how many of the ranks were zero. -/
  zeros : BitVec (P + 1)
  /-- `accu`: the bits of the fixed-point number, the last of which is
  `2^-(H-P+1)`. -/
  accu : BitVec (H + 1)

namespace HllEstimator

variable {H P : ℕ}

/-- The state at power-up and after every estimate. -/
def init : HllEstimator H P := ⟨0, 0⟩

/-- A rank is accumulated: `2^(-rank)` is one bit of the accumulator, at `H-P+1
- rank`. Both registers wrap where they are too narrow; that they are not is
proved where the estimate is. -/
def add (s : HllEstimator H P) (rank : Rank H P) : HllEstimator H P where
  zeros := if rank = 0 then s.zeros + 1 else s.zeros
  accu := s.accu + BitVec.twoPow (H + 1) (H - P + 1 - rank.toNat)

/-- The estimate, with the refinement by linear counting for small values if
there is an empty bucket. -/
def card (fl : HllFloat H P) (s : HllEstimator H P) : fl.F :=
  let card := fl.raw s.accu
  if fl.small card then if s.zeros
    ≠ 0 then fl.linear s.zeros else card else card

/-- `estimate`: one call. The rank with `last` is accumulated before the
estimate is written, and the state is reset in the same call. -/
def estimate (fl : HllFloat H P) (s : HllEstimator H P)
    (src : Fifo (Flit (Rank H P)))
    (dst : Fifo fl.F) : HllEstimator H P × Fifo (Flit (Rank H P)) × Fifo fl.F :=
  match src.readNb with
  | none => (s, src, dst)
  | some (x, src) =>
    let s := s.add x.val
    if x.last then (init, src, dst.write (s.card fl)) else (s, src, dst)

/-- The estimate from the ranks of a job. -/
def cardOf (fl : HllFloat H P) (ranks : List (Rank H P)) : fl.F :=
  (ranks.foldl add init).card fl

/-- **The equation of the estimator**: one estimate per job of ranks, and the
state is that of the open job. -/
structure Estimated (fl : HllFloat H P) (s : HllEstimator H P)
    (src : List (Flit (Rank H P)))
    (dst : List fl.F) : Prop where
  state : s = (partOf src).foldl add init
  dst : dst = (jobsOf src).map (cardOf fl)

variable (fl : HllFloat H P) (s : HllEstimator H P)
    (src : Fifo (Flit (Rank H P)))
  (dst : Fifo fl.F)

/-- A call of `estimate` is idle on an empty input and takes one rank in
otherwise. -/
theorem estimate_cases :
    (src.readNb = none ∧ estimate fl s src dst = (s, src, dst))
    ∨ ∃ x src', src.readNb = some (x, src')
      ∧ estimate fl s src dst
        = if x.last then (init, src', dst.write ((s.add x.val).card fl))
          else (s.add x.val, src', dst) := by
  unfold estimate
  cases h : src.readNb with
  | none => exact Or.inl ⟨rfl, rfl⟩
  | some p => exact Or.inr ⟨p.1, p.2, rfl, rfl⟩

variable {fl s src dst} in
/-- **Every call keeps the equation**: a rank extends the open job, or completes
it. -/
theorem estimate_sound (h : Estimated fl s src.consumed dst.written) :
    Estimated fl (estimate fl s src dst).1 (estimate fl s src dst).2.1.consumed
      (estimate fl s src dst).2.2.written := by
  rcases estimate_cases fl s src dst with ⟨-, he⟩ | ⟨x, src', hx, he⟩
  · rw [he]
    exact h
  · have hadd : s.add x.val
      = (partOf src.consumed ++ [x.val]).foldl add init := by
      rw [List.foldl_append, ← h.state]
      rfl
    rw [he]
    cases hlast : x.last with
    | true =>
      refine ⟨?_, ?_⟩
      · simp only [if_true, Fifo.consumed_of_readNb hx, partOf_concat, hlast]
        rfl
      · simp only [if_true, Fifo.consumed_of_readNb hx, jobsOf_concat, hlast,
          Fifo.written_write, h.dst, hadd, List.map_append, List.map_singleton]
        rfl
    | false =>
      refine ⟨?_, ?_⟩
      · simp only [Bool.false_eq_true, if_false,
          Fifo.consumed_of_readNb hx, partOf_concat,
          hlast, hadd]
      · simp only [Bool.false_eq_true, if_false,
          Fifo.consumed_of_readNb hx, jobsOf_concat,
          hlast, h.dst]

@[simp] theorem written_estimate :
    (estimate fl s src dst).2.1.written = src.written := by
  rcases estimate_cases fl s src dst with ⟨-, he⟩ | ⟨x, src', hx, he⟩
  · rw [he]
  · rw [he]
    split <;> exact Fifo.written_of_readNb hx

@[simp] theorem consumed_estimate : (estimate fl s src dst).2.2.consumed
    = dst.consumed := by
  rcases estimate_cases fl s src dst with ⟨-, he⟩ | ⟨x, src', hx, he⟩
  · rw [he]
  · rw [he]
    split <;> rfl

/-- A call of `estimate` lets its streams grow. -/
theorem estimate_grows : Grows src (estimate fl s src dst).2.1
    ∧ Grows dst (estimate fl s src dst).2.2 := by
  rcases estimate_cases fl s src dst with ⟨-, he⟩ | ⟨x, src', hx, he⟩
  · rw [he]
    exact ⟨Growing.refl _, Growing.refl _⟩
  · rw [he]
    split
    · exact ⟨Fifo.grows_of_readNb hx, Fifo.grows_write _ _⟩
    · exact ⟨Fifo.grows_of_readNb hx, Growing.refl _⟩

variable {fl s src dst} in
/-- **An idle `estimate` has nothing left to do**: its input is empty. -/
theorem estimate_idle (h : (estimate fl s src dst).2.1 = src) :
    src.pending = [] := by
  rcases estimate_cases fl s src dst with ⟨hx, -⟩ | ⟨x, src', hx, he⟩
  · exact Fifo.readNb_eq_none.mp hx
  · rw [he] at h
    refine absurd ?_ (Fifo.ne_of_readNb hx)
    split at h <;> exact h

end HllEstimator

/-! ## Fast-AGMS

A row takes `1 + P` bits of the hash word, the key below and the sign on top. -/

/-- The lambda of `agms_sketch`: key and sign bit of row `idx`, from its own
slice of the hash word. -/
def agmsed (H P idx : ℕ) (x : BitVec H) : BitVec P × BitVec 1 :=
  let hashSlice := x.extractLsb' (idx * (1 + P)) (1 + P)
  (hashSlice.extractLsb' 0 P, hashSlice.extractLsb' P 1)

/-- The increment of a sign bit: `b? 1 : -1`. -/
def agmsInc (b : BitVec 1) : BitVec 32 := if b = 1 then 1 else -1

/-- The functions of `agms_sketch`. The counters are `ap_int<32>`, whose
addition wraps, so that they are words here and read as signed where they are
squared. -/
def agmsFunctions (R H P : ℕ) : RowFunctions R H P (BitVec 1) (BitVec 32) where
  key x idx := x.map (agmsed H P idx)
  update a b := a + agmsInc b
  reduce a b := ⟨b.last, a.val + b.val⟩

/-- The lambda of the folds: `a + b*b` on a signed `b`. The product of two
`ap_int<32>` has 64 bits, and only the sum can wrap. -/
def addSquare (a : BitVec 64) (b : BitVec 32) : BitVec 64 :=
  a + b.signExtend 64 * b.signExtend 64

/-! ## Count-Min

A row takes `P` bits of the hash word and counts by one. -/

/-- The lambda of `cm_sketch`: key and increment of row `idx`. -/
def cmined (H P idx : ℕ) (x : BitVec H) : BitVec P × BitVec 32 :=
  let hashSlice := x.extractLsb' (P * idx) P
  (hashSlice, 1)

/-- The functions of `cm_sketch`, on counters that wrap. -/
def cmFunctions (R H P : ℕ) : RowFunctions R H P (BitVec 32) (BitVec 32) where
  key x idx := x.map (cmined H P idx)
  update a b := a + b
  reduce a b := ⟨b.last, a.val + b.val⟩

/-! ## The operations of the tables

What the network of rows asks of an update and a reduction: that they are one
commutative and associative operation, with the cleared memory as its neutral
element. -/

instance {w : ℕ} : Std.Commutative (stdMax (w := w)) :=
  ⟨fun a b => BitVec.eq_of_toNat_eq
    (by rw [toNat_stdMax, toNat_stdMax, max_comm])⟩

instance {w : ℕ} : Std.Associative (stdMax (w := w)) :=
  ⟨fun a b c => BitVec.eq_of_toNat_eq (by simp only [toNat_stdMax, max_assoc])⟩

instance {w : ℕ} : Std.LawfulIdentity (stdMax (w := w)) 0 where
  left_id a := BitVec.eq_of_toNat_eq
    (by rw [toNat_stdMax]; exact Nat.zero_max _)
  right_id a := BitVec.eq_of_toNat_eq
    (by rw [toNat_stdMax]; exact Nat.max_zero _)

/-- Addition of counters, for both of the counting sketches. -/
def addCount (a b : BitVec 32) : BitVec 32 := a + b

instance : Std.Commutative addCount := ⟨fun a b => BitVec.add_comm a b⟩

instance : Std.Associative addCount := ⟨fun a b c => BitVec.add_assoc a b c⟩

instance : Std.LawfulIdentity addCount 0 where
  left_id a := BitVec.zero_add a
  right_id a := BitVec.add_zero a

theorem hllFunctions_isSketch (H P : ℕ) :
    (hllFunctions H P).IsSketch (fun _ => ranked H P) stdMax id :=
  ⟨fun _ _ => rfl, fun _ _ => rfl, fun _ _ => rfl⟩

theorem agmsFunctions_isSketch (R H P : ℕ) :
    (agmsFunctions R H P).IsSketch (fun j => agmsed H P j) addCount agmsInc :=
  ⟨fun _ _ => rfl, fun _ _ => rfl, fun _ _ => rfl⟩

theorem cmFunctions_isSketch (R H P : ℕ) :
    (cmFunctions R H P).IsSketch (fun j => cmined H P j) addCount id :=
  ⟨fun _ _ => rfl, fun _ _ => rfl, fun _ _ => rfl⟩

/-! ## The tables are the sketches

For a multiset of hash words first, whatever hash they come from, and then for
the items of a job. -/

section Tables

variable {R H P : ℕ}

/-- The joined ranks of a job, bucket by bucket. -/
def hllTable (H P : ℕ) (hash : BitVec 32 → BitVec H)
    (items : Multiset (BitVec 32)) :
    BitVec P → Rank H P :=
  rowTable stdMax (fun _ : Fin 1 => ranked H P) id hash 0 items

/-- The counters of an AGMS row of a job, all lanes together. -/
def agmsTable (H P : ℕ) (hash : BitVec 32 → BitVec H) (j : Fin R)
    (items : Multiset (BitVec 32)) : BitVec P → BitVec 32 :=
  rowTable addCount (fun j : Fin R => agmsed H P j) agmsInc hash j items

/-- The counters of a Count-Min row of a job, all lanes together. -/
def cmTable (H P : ℕ) (hash : BitVec 32 → BitVec H) (j : Fin R)
    (items : Multiset (BitVec 32)) : BitVec P → BitVec 32 :=
  rowTable addCount (fun j : Fin R => cmined H P j) id hash j items

/-- Bucket and rank are those of the sketch: the slices and the count of leading
zeros are the same bits of the hash word. -/
theorem toNat_ranked (hP : P ≤ H) (h : BitVec H) :
    (ranked H P h).1.toNat = Sketch.hllBucket P h ∧ (ranked H P h).2.toNat
      = Sketch.hllRank P h := by
  constructor
  · show (h.extractLsb' (H - P) P).toNat = _
    rw [BitVec.extractLsb'_toNat, Nat.shiftRight_eq_div_pow]
    exact Nat.mod_eq_of_lt (Sketch.hllBucket_lt P hP h)
  · have hlz := leadingZeros_le (H - P) (h.toNat % 2 ^ (H - P))
    show (BitVec.ofNat (clog2 (H - P + 2))
      (1 + (clz (h.setWidth (H - P))).toNat)).toNat = _
    rw [toNat_clz, BitVec.toNat_setWidth, BitVec.toNat_ofNat]
    exact Nat.mod_eq_of_lt (lt_of_lt_of_le (by omega) (le_two_pow_clog2 _))

/-- The joined ranks of a job of hash words are its HyperLogLog registers. -/
theorem toNat_hashedTable_hll (hP : P ≤ H)
    (hashes : Multiset (BitVec H)) (j : Fin 1) (k : BitVec P) :
    (hashedTable stdMax (fun _ : Fin 1 => ranked H P) id j hashes k).toNat
      = Sketch.hll P id hashes k.toNat := by
  unfold hashedTable
  rw [Sketch.hll_eq_tally,
    tally_hom stdMax 0 _ _ 0 BitVec.toNat rfl toNat_stdMax]
  refine tally_congr max 0 (fun h => ?_) (fun h => (toNat_ranked hP h).2) hashes
  rw [← BitVec.toNat_inj, (toNat_ranked hP h).1]
  rfl

/-- **The joined ranks are the HyperLogLog registers**, as numbers: a rank never
exceeds its register. -/
theorem toNat_hllTable (hP : P ≤ H) (hash : BitVec 32 → BitVec H)
    (items : Multiset (BitVec 32)) (k : BitVec P) :
    (hllTable H P hash items k).toNat = Sketch.hll P hash items k.toNat := by
  unfold hllTable
  rw [← hashedTable_map, toNat_hashedTable_hll hP, Sketch.hll_map]
  rfl

/-- A slice of a word is the slice of its number. -/
theorem toNat_extractLsb'_slice {W : ℕ} (x : BitVec W) (a p : ℕ) :
    (x.extractLsb' a p).toNat = slice x.toNat a p := by
  rw [BitVec.extractLsb'_toNat, Nat.shiftRight_eq_div_pow]
  rfl

/-- Key and sign are those of the sketch, row by row. -/
theorem agmsed_eq (h : BitVec H) (j : ℕ) :
    (agmsed H P j h).1.toNat = Sketch.agmsKey P j h
      ∧ agmsInc (agmsed H P j h).2
        = BitVec.ofInt 32 (Sketch.agmsSign P j h) := by
  have hcomm : j * (1 + P) = j * (P + 1) := by rw [Nat.add_comm]
  constructor
  · show ((h.extractLsb' (j * (1 + P)) (1 + P)).extractLsb' 0 P).toNat = _
    rw [toNat_extractLsb'_slice, toNat_extractLsb'_slice, hcomm]
    unfold Sketch.agmsKey slice
    rw [pow_zero, Nat.div_one,
      Nat.mod_mod_of_dvd _ (pow_dvd_pow 2 (Nat.le_add_left P 1))]
  · have hbit : (agmsed H P j h).2 = 1
      ↔ h.toNat.testBit (j * (P + 1) + P) = true := by
      rw [← BitVec.toNat_inj]
      show ((h.extractLsb' (j * (1 + P)) (1 + P)).extractLsb' P 1).toNat = 1 ↔ _
      rw [toNat_extractLsb'_slice, toNat_extractLsb'_slice, hcomm,
        Nat.testBit_eq_decide_div_mod_eq,
        decide_eq_true_iff, pow_add, ← Nat.div_div_eq_div_mul]
      unfold slice
      rw [Nat.add_comm 1 P, pow_succ, Nat.mod_mul_right_div_self,
        pow_one, Nat.mod_mod]
    unfold agmsInc Sketch.agmsSign
    by_cases hb : h.toNat.testBit (j * (P + 1) + P) = true
    · rw [if_pos (hbit.mpr hb), if_pos hb]
      rfl
    · rw [if_neg (mt hbit.mp hb), if_neg hb]
      rfl

/-- The counters of an AGMS row of a job of hash words are its Fast-AGMS
counters, modulo `2 ^ 32`. -/
theorem hashedTable_agms (hashes : Multiset (BitVec H))
    (j : Fin R) (k : BitVec P) :
    hashedTable addCount (fun j : Fin R => agmsed H P j) agmsInc j hashes k
      = BitVec.ofInt 32 (Sketch.agms P id hashes j k.toNat) := by
  unfold hashedTable
  rw [Sketch.agms_eq_tally, tally_hom (fun a b : ℤ => a + b) 0 _ _ 0
    (BitVec.ofInt 32) rfl
    (fun a b => (BitVec.ofInt_add a b : _ = addCount _ _))]
  refine tally_congr addCount 0 (fun h => ?_)
    (fun h => (agmsed_eq h j).2) hashes
  rw [← BitVec.toNat_inj, (agmsed_eq h j).1]
  rfl

/-- **The counters of an AGMS row are the Fast-AGMS counters**, modulo
`2 ^ 32`. -/
theorem agmsTable_eq (hash : BitVec 32 → BitVec H) (j : Fin R)
    (items : Multiset (BitVec 32)) (k : BitVec P) :
    agmsTable H P hash j items k
      = BitVec.ofInt 32 (Sketch.agms P hash items j k.toNat) := by
  unfold agmsTable
  rw [← hashedTable_map, hashedTable_agms, Sketch.agms_map]
  rfl

/-- A fold of squares adds their sum, modulo `2 ^ 64`. -/
theorem foldl_addSquare (l : List (BitVec 32)) (a : BitVec 64) :
    l.foldl addSquare a
      = a + BitVec.ofInt 64 (l.map (fun c => c.toInt ^ 2)).sum := by
  induction l generalizing a with
  | nil => simp
  | cons c l ih =>
    have hsquare : addSquare a c = a + BitVec.ofInt 64 (c.toInt ^ 2) := by
      rw [pow_two, BitVec.ofInt_mul]
      rfl
    rw [List.foldl_cons, ih, hsquare, List.map_cons,
      List.sum_cons, BitVec.ofInt_add,
      BitVec.add_assoc]

/-- **A fold of squares is their sum**, when it fits. A sum of squares is not
negative, so that only the upper bound is needed. -/
theorem toNat_foldl_addSquare {l : List (BitVec 32)}
    (h : (l.map (fun c => c.toInt ^ 2)).sum < 2 ^ 64) :
    ((l.foldl addSquare 0).toNat : ℤ) = (l.map (fun c => c.toInt ^ 2)).sum := by
  have hnonneg : 0 ≤ (l.map (fun c => c.toInt ^ 2)).sum :=
    List.sum_nonneg (fun x hx => by
      obtain ⟨c, -, rfl⟩ := List.mem_map.mp hx
      exact sq_nonneg _)
  rw [foldl_addSquare, zero_add, BitVec.toNat_ofInt,
    Int.toNat_of_nonneg (Int.emod_nonneg _ (by norm_num)),
      Int.emod_eq_of_lt hnonneg (by exact_mod_cast h)]

/-- The counters of a Count-Min row of a job of hash words are its Count-Min
counters, modulo `2 ^ 32`. -/
theorem hashedTable_cm (hashes : Multiset (BitVec H))
    (j : Fin R) (k : BitVec P) :
    hashedTable addCount (fun j : Fin R => cmined H P j) id j hashes k
      = BitVec.ofNat 32 (Sketch.cm P id hashes j k.toNat) := by
  unfold hashedTable
  rw [Sketch.cm_eq_tally, tally_hom (fun a b : ℕ => a + b) 0 _ _ 0
    (BitVec.ofNat 32) rfl
    (fun a b => (BitVec.ofNat_add a b : _ = addCount _ _))]
  refine tally_congr addCount 0 (fun h => ?_) (fun h => rfl) hashes
  rw [← BitVec.toNat_inj]
  show (h.extractLsb' (P * j) P).toNat = _ ↔ _
  rw [toNat_extractLsb'_slice, Nat.mul_comm]
  rfl

/-- **The counters of a Count-Min row are the Count-Min counters**, modulo
`2 ^ 32`. -/
theorem cmTable_eq (hash : BitVec 32 → BitVec H) (j : Fin R)
    (items : Multiset (BitVec 32)) (k : BitVec P) :
    cmTable H P hash j items k
      = BitVec.ofNat 32 (Sketch.cm P hash items j k.toNat) := by
  unfold cmTable
  rw [← hashedTable_map, hashedTable_cm, Sketch.cm_map]
  rfl

end Tables

end Skt.Hardware
