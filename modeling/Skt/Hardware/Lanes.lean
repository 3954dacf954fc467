import Skt.Hardware.Transfer

/-!
# The number of lanes

The lanes are there for throughput: the sketches of a job do not depend on how
many there are. The summary of a word does, because its sum and its sum of
squares are kept in registers that are `clog2` of the number of *lanes* wider
than an item, while a word has `N0` items whatever the lanes. Two numbers of
lanes give the same records for all jobs if and only if these logarithms agree.

The header sets the number of lanes and the kernel file the number of items, and
both are 16: the registers are as wide as a word needs, and any number of lanes
above eight gives the same results. With eight lanes a word of large items loses
the top bit of its sum.
-/

namespace Skt.Hardware

open Streams

/-! ## Statistics and lanes

The condition on a job, and that nothing else of its results looks at the number
of lanes. -/

/-- **The word sums of a job agree** for two numbers of lanes: what is left of
them in the registers adds up to the same, modulo the width of the record. -/
def SumsAgree {N0 : ℕ} (N₁ N₂ : ℕ) (job : List (BitVec (N0 * 32))) : Prop :=
  (job.map (fun x => wordSum x % 2 ^ (32 + clog2 N₁))).sum
      ≡ (job.map (fun x => wordSum x % 2 ^ (32 + clog2 N₂))).sum [MOD 2 ^ 64]
    ∧ (job.map (fun x => wordSumq x % 2 ^ (64 + clog2 N₁))).sum
      ≡ (job.map (fun x => wordSumq x % 2 ^ (64 + clog2 N₂))).sum [MOD 2 ^ 96]

instance {N0 N₁ N₂ : ℕ} (job : List (BitVec (N0 * 32))) :
    Decidable (SumsAgree N₁ N₂ job) :=
  inferInstanceAs (Decidable (_ ∧ _))

/-- They agree if nothing is different about the registers, for every job. -/
theorem SumsAgree.of_clog2_eq {N0 N₁ N₂ : ℕ} (h : clog2 N₁ = clog2 N₂)
    (job : List (BitVec (N0 * 32))) : SumsAgree N₁ N₂ job := by
  unfold SumsAgree
  rw [h]
  exact ⟨rfl, rfl⟩

theorem SumsAgree.symm {N0 N₁ N₂ : ℕ} {job : List (BitVec (N0 * 32))}
    (h : SumsAgree N₁ N₂ job) :
    SumsAgree N₂ N₁ job :=
  ⟨h.1.symm, h.2.symm⟩

section Results

variable {cfg : Config} (fl : HllFloat cfg.hashBits cfg.pHll) (N₁ N₂ : ℕ)

/-- The statistics of a job are the same exactly if its word sums agree: count,
minimum and maximum are the same in any case. -/
theorem basic_eq_iff (job : List (BitVec (cfg.n0 * 32))) :
    (resultOf cfg fl N₁ job).basic = (resultOf cfg fl N₂ job).basic
      ↔ SumsAgree N₁ N₂ job := by
  have hofNat : ∀ {w a b : ℕ}, BitVec.ofNat w a = BitVec.ofNat w b
    ↔ a ≡ b [MOD 2 ^ w] := by
    intro w a b
    rw [← BitVec.toNat_inj, BitVec.toNat_ofNat, BitVec.toNat_ofNat]
    rfl
  show BasicSketch.jobStats cfg.n0 (job.map (summaryOf (clog2 N₁)))
    = BasicSketch.jobStats cfg.n0 (job.map (summaryOf (clog2 N₂))) ↔ _
  rw [jobStats_map_summaryOf, jobStats_map_summaryOf, BasicStats.ext_iff]
  simp only [true_and, hofNat]
  rfl

/-- **The results of a job are the same up to its word sums**: nothing else
looks at the number of lanes. -/
theorem resultOf_eq {job : List (BitVec (cfg.n0 * 32))}
    (h : SumsAgree N₁ N₂ job) :
    resultOf cfg fl N₁ job = resultOf cfg fl N₂ job := by
  have hbasic := (basic_eq_iff fl N₁ N₂ job).mpr h
  unfold resultOf at hbasic ⊢
  dsimp only at hbasic
  rw [hbasic]

/-- The record of a job determines its statistics, as the host reads them, so
that a difference in them is seen. -/
theorem basic_eq_of_words {F : Type} {R C P : ℕ}
    {bits : F → BitVec 32} (hP : 0 < P) {r r' : JobResult F R C P}
    (h : r.words bits 0 = r'.words bits 0) :
    r.basic = r'.basic := by
  have hr := @read_words _ _ _ _ bits hP r 0
  have hr' := @read_words _ _ _ _ bits hP r' 0
  rw [h] at hr
  exact BasicStats.ext (hr.cnt.symm.trans hr'.cnt) (hr.min.symm.trans hr'.min)
    (hr.max.symm.trans hr'.max) (hr.sum.symm.trans hr'.sum)
    (BitVec.eq_of_toNat_eq (hr.sumq.symm.trans hr'.sumq))

/-- **The records of a sequence of jobs are the same exactly if the word sums of
all its jobs agree.** -/
theorem records_eq_iff (jobs : List (List (BitVec (cfg.n0 * 32)))) :
    Kernel.records fl N₁ jobs = Kernel.records fl N₂ jobs
      ↔ ∀ job ∈ jobs, SumsAgree N₁ N₂ job := by
  have hne : ∀ N,
    ∀ ws ∈ jobs.map (fun job => (resultOf cfg fl N job).words fl.bits 0),
      ws ≠ [] := by
    intro N ws hws
    obtain ⟨job, -, rfl⟩ := List.mem_map.mp hws
    rw [← List.length_pos_iff, ← length_frame,
      length_frame_words cfg.rCm_pos cfg.pCm_pos]
    exact recordLength_pos _ _ _
  constructor
  · intro h job hjob
    have hflit := congrArg (List.map Axis.flit) h
    unfold Kernel.records at hflit
    rw [List.map_map, List.map_map] at hflit
    have hframes := (List.map_id' _).symm.trans (hflit.trans (List.map_id' _))
    rw [← List.flatMap_map,
      ← List.flatMap_map (fun job => (resultOf cfg fl N₂ job).words fl.bits 0)]
      at hframes
    have hjobs := congrArg jobsOf hframes
    rw [jobsOf_flatMap_frame (hne N₁), jobsOf_flatMap_frame (hne N₂)] at hjobs
    exact (basic_eq_iff fl N₁ N₂ job).mp
      (basic_eq_of_words cfg.pCm_pos (List.map_inj_left.mp hjobs job hjob))
  · intro h
    unfold Kernel.records
    refine congrArg (List.map Axis.ofFlit)
      (List.flatMap_congr (fun job hjob => ?_))
    rw [resultOf_eq fl N₁ N₂ (h job hjob)]

end Results

/-! ## Registers that are too narrow

The other direction needs one job on which the results differ. -/

/-- **Where the logarithms differ, some word tells**: one more item of all ones
than the narrower register has room for. -/
theorem not_sumsAgree {N0 N₁ N₂ : ℕ} (hN0 : N0 < 2 ^ 32) (hN₂ : N₂ ≤ N0)
    (h : clog2 N₁ < clog2 N₂) :
    ¬ SumsAgree N₁ N₂ (transferred N0
      (List.replicate (2 ^ clog2 N₁ + 1) (BitVec.allOnes 32))) := by
  have hlt : 2 ^ clog2 N₁ < N₂ := two_pow_lt_of_lt_clog2 h
  have hpow : 2 ^ clog2 N₁ + 1 ≤ 2 ^ clog2 N₂ :=
    Nat.pow_lt_pow_right (by decide) h
  have hpos : 0 < 2 ^ clog2 N₁ := Nat.two_pow_pos _
  generalize ht : 2 ^ clog2 N₁ = t at hlt hpow hpos ⊢
  have hlen : (List.replicate (t + 1) (BitVec.allOnes 32)).length = t + 1 :=
    List.length_replicate
  generalize hitems : List.replicate (t + 1) (BitVec.allOnes 32)
    = items at hlen ⊢
  -- the items fit a single word
  obtain ⟨h₁, h₂⟩ := beatCount_spec (show 0 < N0 by omega) items.length
  obtain ⟨x, hx⟩ : ∃ x, transferred N0 items = [x] := by
    refine List.length_eq_one_iff.mp ?_
    rw [length_transferred]
    have hcount : 0 < beatCount (4 * N0) (4 * items.length) :=
      Nat.pos_of_mul_pos_right (lt_of_lt_of_le (by omega) h₁)
    have hone : beatCount (4 * N0) (4 * items.length) < 2 :=
      Nat.lt_of_mul_lt_mul_right (a := N0) (by omega)
    omega
  have hsum : wordSum x = (t + 1) * (2 ^ 32 - 1) := by
    have hall := sum_map_itemsOf BitVec.toNat (transferred N0 items)
    rw [itemsOf_transferred items (by omega), hx, List.map_append,
      List.sum_append, ← hitems,
      List.map_replicate, List.map_replicate,
        List.sum_replicate, List.sum_replicate,
      BitVec.toNat_allOnes, show (0 : BitVec 32).toNat = 0 from rfl,
        nsmul_zero, Nat.add_zero,
      smul_eq_mul, List.map_singleton, List.sum_singleton] at hall
    exact hall
  rintro ⟨hagree, -⟩
  rw [hx, List.map_singleton, List.map_singleton, List.sum_singleton,
    List.sum_singleton, hsum,
    Nat.ModEq, pow_add, pow_add, ht] at hagree
  have hwide : (t + 1) * (2 ^ 32 - 1) % (2 ^ 32 * 2 ^ clog2 N₂)
    = (t + 1) * (2 ^ 32 - 1) :=
    Nat.mod_eq_of_lt (by omega)
  have hnarrow : (t + 1) * (2 ^ 32 - 1) % (2 ^ 32 * t) < 2 ^ 32 * t :=
    Nat.mod_lt _ (by omega)
  rw [hwide] at hagree
  generalize (t + 1) * (2 ^ 32 - 1) % (2 ^ 32 * t) = n at hagree hnarrow
  rw [Nat.mod_eq_of_lt (show n < 2 ^ 64 by omega),
    Nat.mod_eq_of_lt (show (t + 1) * (2 ^ 32 - 1) < 2 ^ 64 by omega)] at hagree
  omega

/-! ## Runs with different lanes

Runs of two kernels, each with its own schedule and its own lanes. -/

namespace Kernel

variable {cfg : Config} {fl : HllFloat cfg.hashBits cfg.pHll} {N₁ N₂ : ℕ}
  {jobs : List (List (BitVec (cfg.n0 * 32)))}
  {input : List (Axis (cfg.n0 * 32))}

/-- **The same results**: the same records up to the cycle counts, the same
joined ranks and what the estimator accumulates of them, the same AGMS sums and
the same Count-Min counts. -/
structure SameResults (s : Kernel cfg fl N₁) (t : Kernel cfg fl N₂) : Prop where
  /-- The same beats on `dst`, up to the cycle counts. -/
  output : s.output = t.output
  ranks : (s.hll.counts 0).written = (t.hll.counts 0).written
  /-- The same registers of the estimator when it divides. -/
  accumulated : (jobsOf (s.hll.counts 0).written).map
    (List.foldl HllEstimator.add .init)
    = (jobsOf (t.hll.counts 0).written).map (List.foldl HllEstimator.add .init)
  agmsSums : ∀ j, (s.io.agmsSums j).written = (t.io.agmsSums j).written
  cmCounts : s.io.cmCounts.written = t.io.cmCounts.written

/-- **Runs that have come to rest have the same results exactly if the word sums
agree.** -/
theorem sameResults_iff {s : Kernel cfg fl N₁}
    {t : Kernel cfg fl N₂} (hs : s.Sound jobs) (hsc : s.Complete jobs)
    (ht : t.Sound jobs) (htc : t.Complete jobs) :
    SameResults s t ↔ ∀ job ∈ jobs, SumsAgree N₁ N₂ job := by
  rw [← records_eq_iff fl N₁ N₂ jobs, ← hs.output_eq_records hsc,
    ← ht.output_eq_records htc]
  refine ⟨fun h => h.output, fun h => ?_⟩
  have hranks : (s.hll.counts 0).written = (t.hll.counts 0).written := by
    rw [hsc.ranks, htc.ranks]
  refine ⟨h, hranks, by rw [hranks], fun j => ?_, ?_⟩
  · rw [hsc.agmsSums j, htc.agmsSums j]
    rfl
  · rw [hsc.cmCounts, htc.cmCounts]
    rfl

/-- **The number of lanes does not matter** to an input: all runs on it that
come to rest have the same results. -/
def LanesAgree (fl : HllFloat cfg.hashBits cfg.pHll) (N₁ N₂ : ℕ)
    (input : List (Axis (cfg.n0 * 32))) : Prop :=
  ∀ a b, ((start fl N₁ input).after a).Quiescent →
    ((start fl N₂ input).after b).Quiescent →
    SameResults ((start fl N₁ input).after a) ((start fl N₂ input).after b)

/-- The number of lanes does not matter exactly if the word sums of all jobs
agree. That runs come to rest is needed for one direction. -/
theorem lanesAgree_iff_sumsAgree (hN₁ : 0 < N₁)
    (hN₁' : N₁ ≤ cfg.n0) (hN₂ : 0 < N₂) (hN₂' : N₂ ≤ cfg.n0)
    (hjobs : ∀ job ∈ jobs, job ≠ [])
    (hinput : input.map Axis.flit = jobs.flatMap frame) :
    LanesAgree fl N₁ N₂ input ↔ ∀ job ∈ jobs, SumsAgree N₁ N₂ job := by
  have hiff := fun a b (hqa : ((start fl N₁ input).after a).Quiescent)
      (hqb : ((start fl N₂ input).after b).Quiescent) =>
    have hs := sound_after hN₁ hN₁' hjobs hinput a
    have ht := sound_after hN₂ hN₂' hjobs hinput b
    sameResults_iff hs (hs.complete hjobs hN₁ hN₁' hqa) ht
      (ht.complete hjobs hN₂ hN₂' hqb)
  refine ⟨fun h => ?_, fun h a b hqa hqb => (hiff a b hqa hqb).mpr h⟩
  obtain ⟨a, hqa⟩ := exists_quiescent fl hN₁ hN₁' hjobs hinput
  obtain ⟨b, hqb⟩ := exists_quiescent fl hN₂ hN₂' hjobs hinput
  exact (hiff (.calls a) (.calls b) hqa hqb).mp
    (h (.calls a) (.calls b) hqa hqb)

/-- **When the number of lanes is a pure throughput choice.** On the jobs of an
input two numbers of lanes have the same results exactly if the sums of its
words agree, cut to the registers of the word summary; and they have the same
results on all jobs exactly if their logarithms are the same. -/
theorem lanes_agree_iff (fl : HllFloat cfg.hashBits cfg.pHll) (hN₁ : 0 < N₁)
    (hN₁' : N₁ ≤ cfg.n0) (hN₂ : 0 < N₂) (hN₂' : N₂ ≤ cfg.n0) :
    (∀ (jobs : List (List (BitVec (cfg.n0 * 32))))
      (input : List (Axis (cfg.n0 * 32))),
      (∀ job ∈ jobs, job ≠ []) → input.map Axis.flit = jobs.flatMap frame →
        (LanesAgree fl N₁ N₂ input ↔ ∀ job ∈ jobs, SumsAgree N₁ N₂ job))
    ∧ ((∀ (jobs : List (List (BitVec (cfg.n0 * 32))))
      (input : List (Axis (cfg.n0 * 32))),
      (∀ job ∈ jobs, job ≠ []) → input.map Axis.flit = jobs.flatMap frame →
        LanesAgree fl N₁ N₂ input) ↔ clog2 N₁ = clog2 N₂) := by
  refine ⟨fun jobs input hjobs hinput =>
    lanesAgree_iff_sumsAgree hN₁ hN₁' hN₂ hN₂' hjobs hinput, fun h => ?_,
    fun hc jobs input hjobs hinput =>
      (lanesAgree_iff_sumsAgree hN₁ hN₁' hN₂ hN₂' hjobs hinput).mpr
        (fun job _ => .of_clog2_eq hc job)⟩
  -- a job of a single word on which the narrower registers overflow
  have htransfer : ∀ items : List (BitVec 32), items ≠ [] →
      SumsAgree N₁ N₂ (transferred cfg.n0 items) := by
    intro items hitems
    have hjobs := transferred_ne_nil items cfg.n0_pos hitems
    have hinput : (transfer cfg.n0 items).map Axis.flit
        = [transferred cfg.n0 items].flatMap frame :=
      map_flit_transfer items
    exact (lanesAgree_iff_sumsAgree hN₁ hN₁' hN₂ hN₂' hjobs hinput).mp
      (h _ _ hjobs hinput) _ (List.mem_singleton_self _)
  rcases Nat.lt_trichotomy (clog2 N₁) (clog2 N₂) with hlt | heq | hgt
  · exact absurd (htransfer _ (by simp)) (not_sumsAgree cfg.n0_lt hN₂' hlt)
  · exact heq
  · exact absurd (htransfer _ (by simp)).symm (not_sumsAgree cfg.n0_lt hN₁' hgt)

/-- The equivalences for the lanes of the repository and half of them. -/
theorem lanes_agree_iff_instance :
    (∀ (jobs : List (List (BitVec (Config.shipped.n0 * 32))))
      (input : List (Axis (Config.shipped.n0 * 32))),
      (∀ job ∈ jobs, job ≠ []) → input.map Axis.flit = jobs.flatMap frame →
        (LanesAgree (HllFloat.single _ Config.shipped.pHll) 16 8 input
          ↔ ∀ job ∈ jobs, SumsAgree 16 8 job))
    ∧ ((∀ (jobs : List (List (BitVec (Config.shipped.n0 * 32))))
      (input : List (Axis (Config.shipped.n0 * 32))),
      (∀ job ∈ jobs, job ≠ []) → input.map Axis.flit = jobs.flatMap frame →
        LanesAgree (HllFloat.single _ Config.shipped.pHll) 16 8 input)
      ↔ clog2 16 = clog2 8) :=
  lanes_agree_iff _ (by decide) (by decide) (by decide) (by decide)

/-- **Half of the lanes lose the top of a sum**: on a word of sixteen items of
all ones sixteen and eight lanes have different results. -/
theorem not_lanesAgree :
    ¬ LanesAgree (HllFloat.single _ Config.shipped.pHll) 16 8
      [⟨BitVec.allOnes _, BitVec.allOnes _, true⟩] := by
  have hjobs : ∀ job ∈ [[BitVec.allOnes (Config.shipped.n0 * 32)]],
    job ≠ [] := by simp
  rw [lanesAgree_iff_sumsAgree (by decide) (by decide) (by decide)
    (by decide) hjobs rfl]
  intro h
  exact absurd (h _ (List.mem_singleton_self _)) (by decide +kernel)

end Kernel

end Skt.Hardware
