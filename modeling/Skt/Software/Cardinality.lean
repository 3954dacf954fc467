import Skt.Software.Collector

/-!
# The cardinality estimate of the software

`SktCollector::estimate_cardinality` turns the HyperLogLog registers into a
number: the raw estimate from the sum of `2 ^ (-rank)`, or linear counting when
that is small and some registers are empty.

Its operations on floating-point numbers are read as exact ones on rational
numbers, where a division by zero is infinite. The logarithm of linear counting
is any function: a `CardEstimate` only says which branch was taken, and with
what.

The weights of the ranks are not computed in the source but written down as bit
patterns. That these are the doubles they should be is proved, for every rank
below 1023; a register never holds more than 129.
-/

namespace Skt

/-! ## Estimates -/

/-- **What an estimator returns**: the raw estimate, or linear counting with a
number of empty buckets. Estimators of different arithmetic are compared by
these. -/
inductive CardEstimate where
  /-- Linear counting, by the number of empty buckets. -/
  | linear (zeros : ℕ)
  /-- The raw estimate, infinite where nothing is divided by. -/
  | raw (card : WithTop ℚ)
  deriving DecidableEq

/-- The value of an estimate over `m` buckets: linear counting is `M * log(M /
zeros)`. -/
def CardEstimate.value (log : ℚ → ℚ) (m : ℕ) : CardEstimate → WithTop ℚ
  | .linear zeros => ((m * log (m / zeros) : ℚ) : WithTop ℚ)
  | .raw card => card

/-- Division of non-negative numbers, infinite when it is by zero, as the
division of two such doubles is. -/
def quotient (x y : ℚ) : WithTop ℚ :=
  if y = 0 then ⊤ else ((x / y : ℚ) : WithTop ℚ)

/-! ## The sum of the registers -/

/-- The double the loop adds up for a rank, `2 ^ (-rank)`.

The source builds it from the bits `(1023-rank)<<52`. These are a normal double
of this value as long as the rank is below 1023 (`doubleValue_trick`). The
registers of a collector are bounded by one more than the bits of the hash word
that are not bucket bits, which is 129 at most and thus far below that bound. -/
def rankWeight (rank : BitVec 32) : ℚ := (1 / 2) ^ rank.toNat

/-- The value of a normal double, from its bits: the sign on top, eleven bits of
exponent with a bias of 1023, and the fraction behind a leading one. -/
def doubleValue (bits : BitVec 64) : Option ℚ :=
  let sign : ℚ := if bits.msb then -1 else 1
  let exponent := (bits.extractLsb' 52 11).toNat
  let fraction := (bits.extractLsb' 0 52).toNat
  if 0 < exponent ∧ exponent < 2047 then
    some (sign * (1 + fraction / 2 ^ 52) * 2 ^ ((exponent : ℤ) - 1023))
  else none

/-- **The exponent trick**: `(UINT64_C(1023)-rank)<<52`, read as a double, is `2
^ (-rank)`, down to the smallest normal double. At a rank of 1023 the exponent
bits are zero, and the pattern stands for zero. -/
theorem doubleValue_trick {rank : BitVec 32} (h : rank.toNat < 1023) :
    doubleValue ((1023#64 - rank.setWidth 64) <<< 52)
      = some (rankWeight rank) := by
  have hsub : (1023#64 - rank.setWidth 64).toNat = 1023 - rank.toNat := by
    rw [BitVec.toNat_sub_of_le
      (by rw [BitVec.le_def, BitVec.toNat_setWidth]; simp; omega)]
    rw [BitVec.toNat_setWidth, Nat.mod_eq_of_lt (by omega), BitVec.toNat_ofNat,
      Nat.mod_eq_of_lt (by norm_num)]
  have hbits : ((1023#64 - rank.setWidth 64) <<< 52).toNat
    = (1023 - rank.toNat) * 2 ^ 52 := by
    rw [BitVec.toNat_shiftLeft, hsub, Nat.shiftLeft_eq,
      Nat.mod_eq_of_lt (by omega)]
  have hexponent :
    (((1023#64 - rank.setWidth 64) <<< 52).extractLsb' 52 11).toNat
      = 1023 - rank.toNat := by
    rw [BitVec.extractLsb'_toNat, hbits, Nat.shiftRight_eq_div_pow,
      Nat.mul_div_cancel _ (Nat.two_pow_pos 52), Nat.mod_eq_of_lt (by omega)]
  have hfraction :
    (((1023#64 - rank.setWidth 64) <<< 52).extractLsb' 0 52).toNat = 0 := by
    rw [BitVec.extractLsb'_toNat, hbits, Nat.shiftRight_zero, Nat.mul_mod_left]
  have hsign : ((1023#64 - rank.setWidth 64) <<< 52).msb = false := by
    rw [BitVec.msb_eq_false_iff_two_mul_lt, hbits]
    omega
  unfold doubleValue rankWeight
  simp only [hexponent, hfraction, hsign]
  rw [if_pos (by omega)]
  have hpow : (2 : ℚ) ^ (((1023 - rank.toNat : ℕ) : ℤ) - 1023)
    = (1 / 2) ^ rank.toNat := by
    have hexp : ((1023 - rank.toNat : ℕ) : ℤ) - 1023
      = -(rank.toNat : ℤ) := by omega
    rw [hexp, zpow_neg, zpow_natCast, one_div, inv_pow]
  rw [hpow]
  simp

/-! ## The estimator -/

namespace SktCollector

/-- One turn of the loop over the registers, on `zeros` and `rawest`. An empty
register counts as a zero and adds a weight of one. -/
def estimateTurn (buckets : List (BitVec 32)) (s : ℕ × ℚ) (i : ℕ) : ℕ × ℚ :=
  let (zeros, rawest) := s
  let rank := buckets.getD i 0
  (if rank = 0 then zeros + 1 else zeros, rawest + rankWeight rank)

/-- `estimate_cardinality`. The small range correction is the only one; that for
the large range is commented out in the source. -/
def estimateCardinality (c : SktCollector) : CardEstimate :=
  let m : ℚ := 2 ^ c.pHll
  let alpha : ℚ := (0.7213 * m) / (m + 1.079)
  let (zeros, sum) := (List.range (2 ^ c.pHll)).foldl
    (estimateTurn c.bucketsHll) (0, 0)
  let rawest := quotient (alpha * m * m) sum
  if rawest ≤ ((2.5 * m : ℚ) : WithTop ℚ) then
    if zeros ≠ 0 then .linear zeros else .raw rawest
  else .raw rawest

/-- **The loop counts the empty registers and adds up all the weights.** The
order of the registers does not matter to either. -/
theorem foldl_estimateTurn (buckets : List (BitVec 32)) :
    (List.range buckets.length).foldl (estimateTurn buckets) (0, 0)
      = (buckets.count 0, (buckets.map rankWeight).sum) := by
  induction buckets using List.reverseRecOn with
  | nil => rfl
  | append_singleton buckets rank ih =>
    -- the turns before the last one do not see the last register
    have hbefore : (List.range buckets.length).foldl
      (estimateTurn (buckets ++ [rank])) (0, 0)
        = (List.range buckets.length).foldl (estimateTurn buckets) (0, 0) := by
      refine List.foldl_ext _ _ _ (fun s i hi => ?_)
      unfold estimateTurn
      rw [List.getD_append _ _ _ _ (List.mem_range.mp hi)]
    rw [List.length_append, List.length_singleton, List.range_succ,
      List.foldl_append, hbefore, ih,
      List.foldl_cons, List.foldl_nil, List.count_append,
        List.count_singleton, List.map_append,
      List.sum_append, List.map_singleton, List.sum_singleton]
    unfold estimateTurn
    rw [List.getD_append_right _ _ _ _ le_rfl, Nat.sub_self]
    refine Prod.ext ?_ rfl
    show (if rank = 0 then buckets.count 0 + 1 else buckets.count 0) = _
    by_cases hrank : rank = 0
    · rw [if_pos hrank, if_pos (by simpa using hrank)]
    · rw [if_neg hrank, if_neg (by simpa using hrank), Nat.add_zero]

end SktCollector

end Skt
