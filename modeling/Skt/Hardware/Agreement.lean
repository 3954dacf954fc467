import Skt.Software.Summary
import Skt.Hardware.Schedules

/-!
# The kernel and the software

The kernel and the software collector were written apart: one slices a hash word
for parallel lanes and rows, the other shifts it along in a loop. Both compute
the sketches of `Skt.Sketch`, the software from the 128-bit hash word and the
kernel from its low `HASH_BITS` bits.

Slices at the bottom of the word do not see the difference, so the counters of
the two agree, and `counters_agree` says so of every run. Bucket and rank of
HyperLogLog are at its top: they agree only if nothing is cut off. With the
width of the repository something is, and `ranks_disagree` shows a job whose one
rank stands in another bucket than in the software. Neither side is wrong by
itself, each keeps the registers of its own hash word; but registers of the one
must not be merged with registers of the other.
-/

namespace Skt.Hardware

open Streams

section Software

variable (cfg : Config) {hp : ℕ} (job : List (BitVec (cfg.n0 * 32)))

/-- The kernel's hash word is the software's, cut to its width, since both start
from the same seed. -/
theorem Config.hash_eq :
    cfg.hash = fun x => (hashMurmur3_128 x).setWidth cfg.hashBits :=
  funext fun x => murmur3_128_eq cfg.hashBits x

/-- **The software's collector of a job**: a fresh one with the rows of the
kernel, after its items. -/
def collectorOf (hp : ℕ) : SktCollector :=
  (SktCollector.new hp cfg.rAgms cfg.pAgms cfg.rCm cfg.pCm .murmur3_128).collect
    (itemsOf job)

/-- It holds the sketches of the items, for any precision the hash word
admits. -/
theorem holds_collectorOf (hhp : hp ≤ 128) :
    (collectorOf cfg job hp).Summarizes hashMurmur3_128 hp cfg.rAgms
      cfg.pAgms cfg.rCm cfg.pCm
      (itemsOf job : List (BitVec 32)) := by
  have h := sktCollectBase_summarizes hashMurmur3_128
    (by decide) le_rfl hhp cfg.pAgms_pos
    (itemsOf job)
    (SktCollector.holds_new hp cfg.rAgms cfg.pAgms cfg.rCm cfg.pCm .murmur3_128)
  rwa [zero_add] at h

/-! ## Count-Min

The rows of the software stand one behind the other in one table, in the order
in which `Concat` sends those of the kernel. -/

/-- **The counts of the kernel are the Count-Min table of the software.** -/
theorem countList_eq (fl : HllFloat cfg.hashBits cfg.pHll)
    (N : ℕ) (hhp : hp ≤ 128) :
    (resultOf cfg fl N job).countList = (collectorOf cfg job hp).tableCm := by
  have hlen := (collectorOf cfg job hp).length_tableCm
  refine List.ext_getElem? (fun i => ?_)
  rcases Nat.lt_or_ge i (cfg.rCm * 2 ^ cfg.pCm) with hi | hi
  · have hj : i / 2 ^ cfg.pCm < cfg.rCm :=
      Nat.div_lt_of_lt_mul (by rwa [Nat.mul_comm])
    have hk : i % 2 ^ cfg.pCm < 2 ^ cfg.pCm := Nat.mod_lt i (Nat.two_pow_pos _)
    have hrow : (i / 2 ^ cfg.pCm + 1) * cfg.pCm ≤ cfg.hashBits :=
      le_trans (Nat.mul_le_mul_right _ hj) cfg.cm_le
    have hentry := (holds_collectorOf cfg job hhp).cm _ _ hj hk
    have hcount := (resultOf cfg fl N job).getElem?_countList ⟨_, hj⟩ hk
    dsimp only at hcount
    rw [Nat.div_add_mod'] at hentry hcount
    rw [hcount, hentry]
    refine congrArg some ?_
    show cmTable cfg.hashBits cfg.pCm cfg.hash ⟨_, hj⟩
      (itemsOf job : List _) _ = _
    rw [cmTable_eq, cfg.hash_eq, Sketch.cm_setWidth hrow, BitVec.toNat_ofNat,
      Nat.mod_eq_of_lt hk]
  · rw [List.getElem?_eq_none (by rwa [JobResult.length_countList]),
      List.getElem?_eq_none]
    rw [hlen]
    show 2 ^ cfg.pCm * cfg.rCm ≤ i
    rwa [Nat.mul_comm]

/-! ## Fast-AGMS

The kernel emits no counters, only the sums of their squares. -/

/-- The sum of squares of a row of the software's table, as an integer. The
software keeps the row and computes its sums elsewhere. -/
def sumOfSquares (c : SktCollector) (j : ℕ) : ℤ :=
  ∑ k ∈ Finset.range (2 ^ c.pAgms),
    (c.tableAgms.getD (j * 2 ^ c.pAgms + k) 0).toInt ^ 2

/-- The counters of a row of the kernel are the row of the software's table. -/
theorem agmsCounts_eq (hhp : hp ≤ 128) (j : Fin cfg.rAgms) :
    agmsCounts cfg job j = (List.range (2 ^ cfg.pAgms)).map (fun k =>
      (collectorOf cfg job hp).tableAgms.getD (j * 2 ^ cfg.pAgms + k) 0) := by
  have hrow : (j.val + 1) * (cfg.pAgms + 1) ≤ cfg.hashBits := by
    rw [Nat.add_comm cfg.pAgms]
    exact le_trans (Nat.mul_le_mul_right _ j.isLt) cfg.agms_le
  refine List.map_congr_left (fun k hk => ?_)
  have hk' := List.mem_range.mp hk
  rw [List.getD_eq_getElem?_getD,
    (holds_collectorOf cfg job hhp).agms j k j.isLt hk',
    agmsTable_eq, cfg.hash_eq, Sketch.agms_setWidth hrow, BitVec.toNat_ofNat,
      Nat.mod_eq_of_lt hk']
  rfl

/-- The squares of a row of the software's table add up to the self-join size of
the row. Fewer than `2^31` items keep the counters exact. -/
theorem sumOfSquares_eq (hhp : hp ≤ 128) (hlen : (itemsOf job).length < 2 ^ 31)
    (j : Fin cfg.rAgms) :
    sumOfSquares (collectorOf cfg job hp) j
      = Sketch.agmsSumq cfg.pAgms hashMurmur3_128
      (itemsOf job : List (BitVec 32)) j := by
  refine Finset.sum_congr rfl (fun k hk => ?_)
  have hentry := (holds_collectorOf cfg job hhp).agms j k j.isLt
    (Finset.mem_range.mp hk)
  show ((collectorOf cfg job hp).tableAgms.getD
    (j * 2 ^ cfg.pAgms + k) 0).toInt ^ 2 = _
  rw [List.getD_eq_getElem?_getD, hentry, Option.getD_some,
    Bits.toInt_ofInt_of_abs_le (Sketch.abs_agms_le_card _ _ _ _ _)
      (by rwa [Multiset.coe_card])]

/-- **The value of an AGMS row is the exact sum of squares** of the row of the
software's table. -/
theorem toNat_agms (fl : HllFloat cfg.hashBits cfg.pHll)
    (N : ℕ) (hhp : hp ≤ 128) (hlen : (itemsOf job).length < 2 ^ 31)
    (j : Fin cfg.rAgms) :
    (((resultOf cfg fl N job).agms j).toNat : ℤ)
      = sumOfSquares (collectorOf cfg job hp) j := by
  have hsum : ((agmsCounts cfg job j).map (fun c => c.toInt ^ 2)).sum
      = sumOfSquares (collectorOf cfg job hp) j := by
    rw [agmsCounts_eq cfg job hhp, List.map_map]
    show _ = ((Multiset.range (2 ^ cfg.pAgms)).map _).sum
    rw [← Multiset.coe_range, Multiset.map_coe, Multiset.sum_coe]
    rfl
  have hle : sumOfSquares (collectorOf cfg job hp) j
    ≤ ((itemsOf job).length : ℤ) ^ 2 := by
    rw [sumOfSquares_eq cfg job hhp hlen]
    exact Sketch.agmsSumq_le _ _ _ _
  have hlt : ((itemsOf job).length : ℤ) ^ 2 < 2 ^ 64 := by
    have hsq : ((itemsOf job).length : ℤ) ^ 2 < (2 ^ 31) ^ 2 :=
      pow_lt_pow_left₀ (by exact_mod_cast hlen)
        (Int.natCast_nonneg _) two_ne_zero
    exact hsq.trans (by norm_num)
  rw [← hsum]
  exact toNat_foldl_addSquare (hsum ▸ hle.trans_lt hlt)

/-! ## HyperLogLog

The registers are compared as numbers, because the widths of the ranks are
different. -/

/-- **The registers of the kernel's hash words**: the HyperLogLog sketch of the
items, with the software's hash words cut to the width of the kernel. -/
def hllRegisters : List ℕ :=
  (List.range (2 ^ cfg.pHll)).map (Sketch.hll cfg.pHll
    (fun x => (hashMurmur3_128 x).setWidth cfg.hashBits)
      (itemsOf job : List (BitVec 32)))

/-- The joined ranks of a job are the registers, for every precision up to the
width of the hash word. -/
theorem map_toNat_ranksOf (hP : cfg.pHll ≤ cfg.hashBits) :
    (ranksOf cfg job).map BitVec.toNat = hllRegisters cfg job := by
  unfold ranksOf tableList hllRegisters
  rw [List.map_map]
  refine List.map_congr_left (fun k hk => ?_)
  show (hllTable _ _ _ _ _).toNat = _
  rw [toNat_hllTable hP, cfg.hash_eq, BitVec.toNat_ofNat,
    Nat.mod_eq_of_lt (List.mem_range.mp hk)]

/-- The software's registers are those of the whole hash words, of 128 bits. -/
theorem map_toNat_bucketsHll (hhp : hp ≤ 128) :
    (collectorOf cfg job hp).bucketsHll.map BitVec.toNat
      = (List.range (2 ^ hp)).map
        (Sketch.hll hp hashMurmur3_128 (itemsOf job : List (BitVec 32))) := by
  refine List.ext_getElem? (fun b => ?_)
  rw [List.getElem?_map, List.getElem?_map]
  rcases Nat.lt_or_ge b (2 ^ hp) with hb | hb
  · have hlt := hll_lt_word hashMurmur3_128 le_rfl hp
      (itemsOf job : List (BitVec 32)) b
    rw [(holds_collectorOf cfg job hhp).hll b hb,
      List.getElem?_range hb, Option.map_some,
      Option.map_some, BitVec.toNat_ofNat, Nat.mod_eq_of_lt hlt]
  · rw [List.getElem?_eq_none
      ((collectorOf cfg job hp).length_bucketsHll.trans_le hb),
      List.getElem?_eq_none (by rwa [List.length_range])]
    rfl

/-- **With whole hash words the registers are the software's**: cutting to 128
bits cuts nothing. -/
theorem hllRegisters_eq (hW : cfg.hashBits = 128)
    (hP : cfg.pHll ≤ cfg.hashBits) :
    hllRegisters cfg job
      = (collectorOf cfg job cfg.pHll).bucketsHll.map BitVec.toNat := by
  rw [map_toNat_bucketsHll cfg job (hP.trans hW.le)]
  exact List.map_congr_left (fun b _ => Sketch.hll_setWidth_self hW _ _ _ _)

end Software

/-! ## Counters of a run

From the results of a job to what has been written on the streams. -/

namespace Kernel

variable {cfg : Config} {fl : HllFloat cfg.hashBits cfg.pHll} {N : ℕ}
  {jobs : List (List (BitVec (cfg.n0 * 32)))}
  {input : List (Axis (cfg.n0 * 32))}

/-- The counts of the jobs are the tables of the software. -/
theorem flatMap_countList (fl : HllFloat cfg.hashBits cfg.pHll) (N : ℕ)
    (jobs : List (List (BitVec (cfg.n0 * 32)))) {hp : ℕ} (hhp : hp ≤ 128) :
    jobs.flatMap (fun job => frame (resultOf cfg fl N job).countList)
      = jobs.flatMap (fun job => frame (collectorOf cfg job hp).tableCm) :=
  List.flatMap_congr
    (fun job _ => congrArg frame (countList_eq cfg job fl N hhp))

/-- The values of the AGMS rows are the sums of squares of the software. -/
theorem map_toNat_agms (fl : HllFloat cfg.hashBits cfg.pHll) (N : ℕ)
    {hp : ℕ} (hhp : hp ≤ 128)
    (hlen : ∀ job ∈ jobs, (itemsOf job).length < 2 ^ 31) (j : Fin cfg.rAgms) :
    (jobs.map (fun job => (resultOf cfg fl N job).agms j)).map
      (fun v => (v.toNat : ℤ))
      = jobs.map (fun job => sumOfSquares (collectorOf cfg job hp) j) := by
  rw [List.map_map]
  exact List.map_congr_left
    (fun job hjob => toNat_agms cfg job fl N hhp (hlen job hjob) j)

/-- **Hardware and software agree on Count-Min and Fast-AGMS.** In every run
`cm_sketch` emits the counts of the software's tables, job by job, and
`agms_sketch` the exact sums of squares of the rows of its AGMS tables; when the
run has come to rest it has emitted all of them. -/
theorem counters_agree (hN : 0 < N) (hN0 : N ≤ cfg.n0)
    (hjobs : ∀ job ∈ jobs, job ≠ [])
    (hlen : ∀ job ∈ jobs, (itemsOf job).length < 2 ^ 31)
    (hinput : input.map Axis.flit = jobs.flatMap frame) {hp : ℕ} (hhp : hp ≤ 16)
    (order : Schedule cfg N) :
    let s := (start fl N input).after order
    (s.io.cmCounts.written <+: jobs.flatMap
      (fun job => frame (collectorOf cfg job hp).tableCm)
        ∧ ∀ j, (s.io.agmsSums j).written.map (fun v => (v.toNat : ℤ))
          <+: jobs.map (fun job => sumOfSquares (collectorOf cfg job hp) j))
      ∧ (s.Quiescent →
        s.io.cmCounts.written = jobs.flatMap
          (fun job => frame (collectorOf cfg job hp).tableCm)
          ∧ ∀ j, (s.io.agmsSums j).written.map (fun v => (v.toNat : ℤ))
            = jobs.map
              (fun job => sumOfSquares (collectorOf cfg job hp) j)) := by
  intro s
  have hwide : hp ≤ 128 := hhp.trans (by decide)
  have hs : s.Sound jobs := sound_after hN hN0 hjobs hinput order
  refine ⟨⟨?_, fun j => ?_⟩, fun hq => ?_⟩
  · rw [← flatMap_countList fl N jobs hwide]
    exact hs.cmCounts_isPrefix
  · rw [← map_toNat_agms fl N hwide hlen j]
    exact (hs.agmsSums_isPrefix hjobs hN j).map _
  · have hc := hs.complete hjobs hN hN0 hq
    refine ⟨?_, fun j => ?_⟩
    · rw [hc.cmCounts, flatMap_countList fl N jobs hwide]
    · rw [hc.agmsSums j, map_toNat_agms fl N hwide hlen j]

/-- The agreement at work: a job of sixteen items and one of thirty-two. -/
theorem counters_agree_instance :
    let jobs : List (List (BitVec (Config.shipped.n0 * 32))) := [[7], [1, 2]]
    let s := (start (HllFloat.single _ Config.shipped.pHll) 16
      [⟨7, BitVec.allOnes _, true⟩, ⟨1, BitVec.allOnes _, false⟩,
        ⟨2, BitVec.allOnes _, true⟩]).after (.emulation 5 0)
    (s.io.cmCounts.written
        <+: jobs.flatMap
          (fun job => frame (collectorOf Config.shipped job 16).tableCm)
        ∧ ∀ j, (s.io.agmsSums j).written.map (fun v => (v.toNat : ℤ))
          <+: jobs.map
            (fun job => sumOfSquares (collectorOf Config.shipped job 16) j))
      ∧ (s.Quiescent →
        s.io.cmCounts.written
          = jobs.flatMap
            (fun job => frame (collectorOf Config.shipped job 16).tableCm)
          ∧ ∀ j, (s.io.agmsSums j).written.map (fun v => (v.toNat : ℤ))
            = jobs.map
              (fun job =>
                sumOfSquares (collectorOf Config.shipped job 16) j)) :=
  counters_agree (by decide) (by decide) (by simp)
    (by simp only [List.forall_mem_cons, length_itemsOf]; decide) rfl le_rfl _

/-! ## Ranks of a run

What the estimator is given, in every state of every run. -/

/-- **The joined ranks are the HyperLogLog sketch of the kernel's hash words.**
In every run `hll_sketch` feeds its estimator the registers of the items, job by
job, from the software's hash words cut to the width of the kernel; when the run
has come to rest it has fed it all of them. Where nothing is cut off they are
the registers of the software. -/
theorem ranks_are_registers (hN : 0 < N) (hN0 : N ≤ cfg.n0)
    (hP : cfg.pHll ≤ cfg.hashBits) (hjobs : ∀ job ∈ jobs, job ≠ [])
    (hinput : input.map Axis.flit = jobs.flatMap frame)
    (order : Schedule cfg N) :
    let s := (start fl N input).after order
    (s.hll.counts 0).written.map (Flit.map BitVec.toNat)
        <+: jobs.flatMap (fun job => frame (hllRegisters cfg job))
      ∧ (s.Quiescent → (s.hll.counts 0).written.map (Flit.map BitVec.toNat)
        = jobs.flatMap (fun job => frame (hllRegisters cfg job)))
      ∧ (cfg.hashBits = 128 → ∀ job, hllRegisters cfg job
        = (collectorOf cfg job cfg.pHll).bucketsHll.map BitVec.toNat) := by
  intro s
  have hs : s.Sound jobs := sound_after hN hN0 hjobs hinput order
  have hmap : (jobs.flatMap (fun job => frame (ranksOf cfg job))).map
    (Flit.map BitVec.toNat)
      = jobs.flatMap (fun job => frame (hllRegisters cfg job)) := by
    rw [List.map_flatMap]
    refine List.flatMap_congr (fun job _ => ?_)
    rw [← frame_map, map_toNat_ranksOf cfg job hP]
  refine ⟨?_, fun hq => ?_, fun hW job => hllRegisters_eq cfg job hW hP⟩
  · rw [← hmap]
    exact (hs.hll_isPrefix hjobs hN).map _
  · rw [(hs.complete hjobs hN hN0 hq).ranks, hmap]

/-- The registers of a run of the repository's kernel, whose hash words have 84
bits. -/
theorem ranks_are_registers_instance :
    let jobs : List (List (BitVec (Config.shipped.n0 * 32))) := [[7], [1, 2]]
    let s := (start (HllFloat.single _ Config.shipped.pHll) 16
      [⟨7, BitVec.allOnes _, true⟩, ⟨1, BitVec.allOnes _, false⟩,
        ⟨2, BitVec.allOnes _, true⟩]).after (.emulation 5 0)
    (s.hll.counts 0).written.map (Flit.map BitVec.toNat)
        <+: jobs.flatMap (fun job => frame (hllRegisters Config.shipped job))
      ∧ (s.Quiescent → (s.hll.counts 0).written.map (Flit.map BitVec.toNat)
        = jobs.flatMap (fun job => frame (hllRegisters Config.shipped job)))
      ∧ (Config.shipped.hashBits = 128 →
        ∀ job, hllRegisters Config.shipped job
          = (collectorOf Config.shipped job Config.shipped.pHll).bucketsHll.map
            BitVec.toNat) :=
  ranks_are_registers (by decide) (by decide) (by decide) (by simp) rfl _

/-- The items of a word of zeros, one for each lane. -/
theorem itemsOf_zero (N0 : ℕ) :
    itemsOf [(0 : BitVec (N0 * 32))] = List.replicate N0 0 := by
  refine List.eq_replicate_iff.mpr ⟨by simp, fun x hx => ?_⟩
  simp only [itemsOf, List.flatMap_singleton, wordItems, List.mem_map] at hx
  obtain ⟨i, -, rfl⟩ := hx
  exact BitVec.eq_of_toNat_eq (by simp [laneOf])

/-- **The kernel of the repository cuts hash words**: a job of sixteen zeros has
its rank in another bucket than in the software. -/
theorem ranks_disagree :
    let s := fun schedule => (start (HllFloat.single _ Config.shipped.pHll) 16
      [⟨0, BitVec.allOnes _, true⟩]).run schedule
    (∃ schedule, (s schedule).Quiescent)
      ∧ ∀ schedule, (s schedule).Quiescent →
        ((s schedule).hll.counts 0).written.map (Flit.map BitVec.toNat)
          ≠ frame ((collectorOf Config.shipped
            [0] Config.shipped.pHll).bucketsHll.map
            BitVec.toNat) := by
  intro s
  have hjobs : ∀ job ∈ [[(0 : BitVec (Config.shipped.n0 * 32))]],
    job ≠ [] := by simp
  refine ⟨exists_quiescent _ (by decide) (by decide) hjobs rfl,
    fun schedule hq heq => ?_⟩
  have hs : (s schedule).Sound [[0]] :=
    sound_run (by decide) (by decide) hjobs rfl schedule
  have hranks := congrArg (List.map (Flit.map BitVec.toNat))
    (hs.complete hjobs (by decide) (by decide) hq).ranks
  rw [heq, List.flatMap_singleton, ← frame_map,
    map_toNat_ranksOf _ _ (by decide)] at hranks
  have hlists := congrArg (List.map Flit.val) hranks
  rw [map_val_frame, map_val_frame,
    map_toNat_bucketsHll _ _ (by decide)] at hlists
  -- the bucket of the cut hash word of zero is empty in the software
  unfold hllRegisters at hlists
  have hbucket : 41318 < 2 ^ Config.shipped.pHll := by decide
  have hentry := List.map_inj_left.mp hlists 41318 (List.mem_range.mpr hbucket)
  rw [itemsOf_zero] at hentry
  have hsoftware : Sketch.hll Config.shipped.pHll hashMurmur3_128
      (List.replicate Config.shipped.n0 0 : List (BitVec 32)) 41318 = 0 :=
    (Sketch.hll_eq_zero_iff _ _ _ _).mpr (fun x hx => by
      rw [List.eq_of_mem_replicate hx]
      decide)
  rw [hsoftware, eq_comm, Sketch.hll_eq_zero_iff] at hentry
  exact hentry 0 (List.mem_replicate.mpr ⟨by decide, rfl⟩) (by decide)

end Kernel

end Skt.Hardware
