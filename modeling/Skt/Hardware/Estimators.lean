import Skt.Hardware.HllSketch
import Skt.Software.Cardinality

/-!
# Two cardinality estimators

The kernel and the software estimate a cardinality from the same registers, with
the same constants: `HllEstimator` adds up `2 ^ (-rank)` in a fixed-point
accumulator, `estimate_cardinality` in a floating-point number. Their operations
on floating-point numbers are read as exact ones here, and the accumulator keeps
its width. The logarithm is left open: the two hand it the same argument.

So the two differ just where the accumulator wraps: when all registers are
empty. The comment of the estimator says that the accumulator is then ignored in
favour of linear counting, but the raw estimate is what decides about that, and
with nothing to divide by it is infinite.

The software does not compute a power: it puts `1023 - rank` into the exponent
of a double. For ranks below `1023` that is the weight, and a register of the
repository holds at most `129`.
-/

namespace Skt.Hardware

open Streams

/-- The floating-point operations of the estimator, exact: a rational number or
infinity for the raw estimate, and linear counting by its argument. The bits of
the result are not looked at. -/
def HllFloat.exact (H P : ℕ) : HllFloat H P where
  F := CardEstimate
  raw accu :=
    let m : ℚ := 2 ^ P
    .raw (quotient (m * (m * (0.7213 / (1 + 1.079 / m))))
      (accu.toNat / 2 ^ (H - P + 1)))
  small
    | .raw card => decide (card ≤ ((2.5 * 2 ^ P : ℚ) : WithTop ℚ))
    | .linear _ => false
  linear zeros := .linear zeros.toNat
  bits _ := 0

namespace HllEstimator

variable {H P : ℕ}

/-- **A vector of ranks streamed through the estimator**, one call for each of
them and `last` on the last. -/
def feed (fl : HllFloat H P) (ranks : List (Rank H P)) :
    HllEstimator H P × Fifo (Flit (Rank H P)) × Fifo fl.F :=
  (fun p => p.1.estimate fl p.2.1 p.2.2)^[ranks.length]
    (init, ⟨[], frame ranks⟩, Fifo.new)

/-- Every call takes in one rank, as long as there are ranks left, and the
equation of the estimator is kept. -/
theorem iterate_estimate (fl : HllFloat H P)
    (src : Fifo (Flit (Rank H P))) (n : ℕ) (hn : src.consumed = [])
    (hle : n ≤ src.written.length) :
    let p := (fun p => p.1.estimate fl p.2.1 p.2.2)^[n] (init, src, Fifo.new)
    Estimated fl p.1 p.2.1.consumed p.2.2.written
      ∧ p.2.1.consumed.length = n ∧ p.2.1.written = src.written := by
  induction n with
  | zero =>
    refine ⟨?_, ?_, rfl⟩
    · show Estimated fl init src.consumed []
      rw [hn]
      exact ⟨rfl, rfl⟩
    · show src.consumed.length = 0
      rw [hn]
      rfl
  | succ n ih =>
    obtain ⟨hsound, hlength, hwritten⟩ := ih (Nat.le_of_succ_le hle)
    rw [Function.iterate_succ_apply']
    set p := (fun p : HllEstimator H P × Fifo (Flit (Rank H P)) × Fifo fl.F =>
      p.1.estimate fl p.2.1 p.2.2)^[n] (init, src, Fifo.new)
    refine ⟨estimate_sound hsound, ?_,
      (written_estimate fl p.1 p.2.1 p.2.2).trans hwritten⟩
    rcases estimate_cases fl p.1 p.2.1 p.2.2 with ⟨hnone, -⟩ | ⟨x, src', hx, he⟩
    · -- there is still a rank to read
      have hall := congrArg List.length
        (Fifo.consumed_eq_written (Fifo.readNb_eq_none.mp hnone))
      rw [hwritten, hlength] at hall
      omega
    · have hsrc : (p.1.estimate fl p.2.1 p.2.2).2.1 = src' := by
        rw [he]
        split <;> rfl
      show (p.1.estimate fl p.2.1 p.2.2).2.1.consumed.length = n + 1
      rw [hsrc, Fifo.consumed_of_readNb hx, List.length_append, hlength]
      rfl

/-- **The estimator writes one estimate** for a vector of ranks, that of the
whole vector. -/
theorem written_feed (fl : HllFloat H P) {ranks : List (Rank H P)}
    (hne : ranks ≠ []) :
    (feed fl ranks).2.2.written = [cardOf fl ranks] := by
  have hwritten : (⟨[], frame ranks⟩ : Fifo (Flit (Rank H P))).written
    = frame ranks := rfl
  obtain ⟨hsound, hlength, hsrc⟩ :=
    iterate_estimate fl ⟨[], frame ranks⟩ ranks.length rfl
    (by rw [hwritten, length_frame])
  have hconsumed := (Fifo.consumed_isPrefix _).eq_of_length (by
    rw [hlength, hsrc, hwritten, length_frame])
  have hjobs : jobsOf (frame ranks) = [ranks] := by
    have hall : ∀ job ∈ [ranks], job ≠ [] := by simpa using hne
    have h := jobsOf_flatMap_frame hall
    rwa [List.flatMap_singleton] at h
  have hdst := hsound.dst
  rw [hconsumed, hsrc, hwritten, hjobs] at hdst
  exact hdst

end HllEstimator

/-! ## The agreement

It is asked of the branch that is taken and of the value that comes out. -/

/-- **Both estimators do the same with the same registers**: the estimator of
the kernel writes one estimate, from the same branch with the same count of
empty buckets or the same raw estimate, and it is of the same value whatever the
logarithm is. -/
def EstimatorsAgree {H P : ℕ} (ranks : List (Rank H P))
    (c : SktCollector) : Prop :=
  (HllEstimator.feed (.exact H P) ranks).2.2.written = [c.estimateCardinality]
  ∧ ∀ log, (HllEstimator.feed (.exact H P) ranks).2.2.written.map
      (CardEstimate.value log (2 ^ P))
        = [c.estimateCardinality.value log (2 ^ P)]

section Agreement

variable {H P : ℕ} {ranks : List (Rank H P)} {c : SktCollector}

/-- The two constants are the same, though the divisions are nested
differently. -/
theorem alpha_eq {m : ℚ} (hm : 0 < m) :
    m * (m * (0.7213 / (1 + 1.079 / m)))
      = (0.7213 * m) / (m + 1.079) * m * m := by
  have hsum : m + 1.079 ≠ 0 := by positivity
  have hone : 1 + 1.079 / m ≠ 0 := by positivity
  field_simp

/-- What the software's loop gathers, from the ranks of the kernel: the same
count of empty buckets and the same sum, in the unit of the integers. -/
theorem foldl_estimateTurn_eq (hranks : ∀ r ∈ ranks, r.toNat ≤ H - P + 1)
    (hbuckets : c.bucketsHll.map BitVec.toNat = ranks.map BitVec.toNat) :
    (List.range (2 ^ c.pHll)).foldl
      (SktCollector.estimateTurn c.bucketsHll) (0, 0)
      = (ranks.count 0, (HllEstimator.mass ranks : ℚ) / 2 ^ (H - P + 1)) := by
  have hinj : ∀ w, Function.Injective (BitVec.toNat : BitVec w → ℕ) :=
    fun _ _ _ =>
    BitVec.eq_of_toNat_eq
  have hcount : c.bucketsHll.count 0 = ranks.count 0 := by
    rw [← List.count_map_of_injective _ _ (hinj _), hbuckets]
    exact List.count_map_of_injective ranks BitVec.toNat (hinj _) 0
  have hsum : (c.bucketsHll.map rankWeight).sum
      = (ranks.map (fun r => (1 / 2 : ℚ) ^ r.toNat)).sum := by
    have hmap := congrArg (List.map (fun n => (1 / 2 : ℚ) ^ n)) hbuckets
    rw [List.map_map, List.map_map] at hmap
    exact congrArg List.sum hmap
  rw [← c.length_bucketsHll, SktCollector.foldl_estimateTurn, hcount, hsum,
    HllEstimator.mass_div hranks]

/-- **The weights are the doubles the source builds.** The software writes `1023
- rank` into the exponent of a double. A rank below `1023` gives a normal
double, and its value is the weight that is added up; the ranks of a `H`-bit
hash word with `P` bits for the bucket are at most `H - P + 1`, for every hash
function of the repository at most `129`. -/
theorem doubleValue_bucketsHll (hlt : H - P + 1 < 1023)
    (hranks : ∀ r ∈ ranks, r.toNat ≤ H - P + 1)
    (hbuckets : c.bucketsHll.map BitVec.toNat = ranks.map BitVec.toNat) :
    ∀ rank ∈ c.bucketsHll,
      doubleValue ((1023#64 - rank.setWidth 64) <<< 52)
        = some (rankWeight rank) := by
  intro rank hrank
  have hmem : rank.toNat ∈ ranks.map BitVec.toNat :=
    hbuckets ▸ List.mem_map_of_mem hrank
  obtain ⟨r, hr, heq⟩ := List.mem_map.mp hmem
  exact doubleValue_trick (heq ▸ (hranks r hr).trans_lt hlt)

/-- **Where the accumulator does not wrap, the estimates are the same**, branch
by branch. -/
theorem cardOf_exact (hpHll : c.pHll = P) (hlength : ranks.length = 2 ^ P)
    (hranks : ∀ r ∈ ranks, r.toNat ≤ H - P + 1)
    (hbuckets : c.bucketsHll.map BitVec.toNat = ranks.map BitVec.toNat)
    (hmass : HllEstimator.mass ranks < 2 ^ (H + 1)) :
    HllEstimator.cardOf (.exact H P) ranks = c.estimateCardinality := by
  have hloop := foldl_estimateTurn_eq hranks hbuckets
  have haccu : (ranks.foldl HllEstimator.add .init).accu.toNat
    = HllEstimator.mass ranks := by
    rw [HllEstimator.toNat_accu_foldl, Nat.mod_eq_of_lt hmass]
  have hzeros : (ranks.foldl HllEstimator.add .init).zeros.toNat
    = ranks.count 0 := by
    have hle : ranks.count 0 ≤ 2 ^ P := hlength ▸ List.count_le_length
    rw [HllEstimator.toNat_zeros_foldl, Nat.mod_eq_of_lt]
    exact hle.trans_lt (Nat.pow_lt_pow_right one_lt_two (Nat.lt_succ_self P))
  have hempty : (ranks.foldl HllEstimator.add .init).zeros ≠ 0
    ↔ ranks.count 0 ≠ 0 := by
    rw [← hzeros, Ne, Ne, ← BitVec.toNat_inj]
    rfl
  -- both divide the same numbers
  have hraw : (HllFloat.exact H P).raw (ranks.foldl HllEstimator.add .init).accu
      = .raw (quotient ((0.7213 * 2 ^ P) / (2 ^ P + 1.079) * 2 ^ P * 2 ^ P)
          ((HllEstimator.mass ranks : ℚ) / 2 ^ (H - P + 1))) := by
    show CardEstimate.raw
      (quotient (2 ^ P * (2 ^ P * (0.7213 / (1 + 1.079 / 2 ^ P)))) _) = _
    rw [alpha_eq (by positivity), haccu]
  unfold HllEstimator.cardOf HllEstimator.card SktCollector.estimateCardinality
  rw [hloop, hpHll, hraw]
  show (if decide (_ ≤ _) = true then if _ then CardEstimate.linear
    _ else _ else _) = _
  rw [if_congr hempty (congrArg CardEstimate.linear hzeros) rfl]
  simp only [decide_eq_true_eq]

/-- **An empty sketch** makes the accumulator wrap to zero, and the kernel's
estimate infinite; the software's never is. -/
theorem cardOf_exact_of_forall_zero (hP : P ≤ H)
    (hlength : ranks.length = 2 ^ P) (hzero : ∀ r ∈ ranks, r.toNat = 0)
    (hbuckets : c.bucketsHll.map BitVec.toNat = ranks.map BitVec.toNat) :
    HllEstimator.cardOf (.exact H P) ranks ≠ c.estimateCardinality := by
  have hloop := foldl_estimateTurn_eq
    (fun r hr => by rw [hzero r hr]; exact Nat.zero_le _)
    hbuckets
  have hmass := HllEstimator.mass_of_forall_zero hP hlength hzero
  have haccu : (ranks.foldl HllEstimator.add .init).accu.toNat = 0 := by
    rw [HllEstimator.toNat_accu_foldl, hmass, Nat.mod_self]
  have hinfinite : HllEstimator.cardOf (.exact H P) ranks = .raw ⊤ := by
    have hraw : (HllFloat.exact H P).raw
      (ranks.foldl HllEstimator.add .init).accu = .raw ⊤ := by
      show CardEstimate.raw (quotient _ ((_ : ℕ) / 2 ^ (H - P + 1))) = _
      rw [haccu, Nat.cast_zero, zero_div]
      exact congrArg CardEstimate.raw (if_pos rfl)
    unfold HllEstimator.cardOf HllEstimator.card
    rw [hraw]
    refine if_neg (fun hsmall => ?_)
    have hle : (⊤ : WithTop ℚ) ≤ ((2.5 * 2 ^ P : ℚ) : WithTop ℚ) :=
      of_decide_eq_true hsmall
    exact WithTop.coe_ne_top (top_le_iff.mp hle)
  have hsum : (HllEstimator.mass ranks : ℚ) / 2 ^ (H - P + 1) ≠ 0 := by
    rw [hmass]
    positivity
  have hfinite : c.estimateCardinality ≠ .raw ⊤ := by
    unfold SktCollector.estimateCardinality
    rw [hloop]
    dsimp only
    rw [quotient, if_neg hsum]
    split
    · split <;> simp
    · simp
  exact fun heq => hfinite (heq.symm.trans hinfinite)

/-- **The estimators agree unless all registers are empty.** The statement is
about exact weights. They are what the source adds up as long as `H - P + 1 <
1023`, by `doubleValue_bucketsHll`: with the hash functions of the repository no
rank exceeds `129`. From rank `1023` on the exponent field would be zero or
negative, and the bits would stand for another number. -/
theorem estimators_agree_iff (hPH : P < H) (hpHll : c.pHll = P)
    (hlength : ranks.length = 2 ^ P) (hranks : ∀ r ∈ ranks, r.toNat ≤ H - P + 1)
    (hbuckets : c.bucketsHll.map BitVec.toNat = ranks.map BitVec.toNat) :
    EstimatorsAgree ranks c ↔ ∃ r ∈ ranks, r ≠ 0 := by
  have hne : ranks ≠ [] := List.ne_nil_of_length_pos
    (by rw [hlength]; exact Nat.two_pow_pos P)
  have hzero : ∀ r : Rank H P, r = 0 ↔ r.toNat = 0 := fun r => by
    rw [← BitVec.toNat_inj]
    rfl
  unfold EstimatorsAgree
  rw [HllEstimator.written_feed _ hne]
  constructor
  · rintro ⟨hsame, -⟩
    by_contra hnone
    refine cardOf_exact_of_forall_zero hPH.le hlength (fun r hr => ?_) hbuckets
      (List.singleton_inj.mp hsame)
    exact (hzero r).mp (not_not.mp (fun hr' => hnone ⟨r, hr, hr'⟩))
  · rintro ⟨r, hr, hpos⟩
    have hcard := cardOf_exact hpHll hlength hranks hbuckets
      (HllEstimator.mass_lt hPH.le hlength ⟨r, hr, mt (hzero r).mpr hpos⟩)
    exact ⟨congrArg (fun e => [e]) hcard, fun log =>
      congrArg (fun e => [CardEstimate.value log (2 ^ P) e]) hcard⟩

/-- Two registers, one of them empty: both count linearly, with one empty bucket
of two. -/
theorem estimators_agree_iff_instance :
    let c : SktCollector :=
      { SktCollector.new 1 1 1 1 1 .ident
        with bucketsHll := [2, 0], length_bucketsHll := rfl }
    EstimatorsAgree (H := 2) (P := 1) [2, 0] c
      ↔ ∃ r ∈ ([2, 0] : List (Rank 2 1)), r ≠ 0 := by
  intro c
  exact estimators_agree_iff (by decide) rfl rfl (by decide) rfl

/-- **The estimators disagree on an empty sketch**: the kernel's estimate is
infinite, and the software counts linearly and gets zero. -/
theorem not_estimatorsAgree :
    ¬ EstimatorsAgree (H := 2) (P := 1) [0, 0]
    (SktCollector.new 1 1 1 1 1 .ident) := by
  rintro ⟨hsame, -⟩
  rw [HllEstimator.written_feed _ (by simp)] at hsame
  exact cardOf_exact_of_forall_zero (by decide) rfl (by decide) (by decide)
    (List.singleton_inj.mp hsame)

end Agreement

end Skt.Hardware
