import Skt.Hardware.SketchRuns
import Skt.Hardware.Sketches

/-!
# The HyperLogLog sketch from its lanes to its division

`hll_sketch` on its own: one row of rank tables, and the estimator behind it,
which adds up `2 ^ (-rank)` in fixed-point arithmetic and counts the empty
buckets on the way.

The accumulator has `P` bits before the point, too few for the `2 ^ P` buckets
of an empty sketch. But no job is empty: some bucket has a positive rank and
adds one half at most, so the sum stays below `2 ^ P` and is exact.

Exactness ends at the division, which is done in `float`, and what is said of
the quotients is said of rational numbers. A float has 24 significant bits: the
exact quotient `2 ^ P / zeros` is greater than one, but from `P = 25` on, with a
single bucket that is not empty, the float quotient is `1.0f`, and its logarithm
is zero. The precision of the repository is 16.
-/

namespace Skt.Hardware

open Streams Runs Bits

/-! ## The accumulators

What the two registers hold after some ranks, first modulo their widths. -/

namespace HllEstimator

section Accumulators

variable {H P : ℕ}

/-- What ranks add up to, in units of the last place of the accumulator, which
is `2 ^ (H - P + 1)`-th of one. -/
def mass (ranks : List (Rank H P)) : ℕ :=
  (ranks.map (fun r => 2 ^ (H - P + 1 - r.toNat))).sum

/-- One more rank adds its own mass. -/
theorem mass_concat (ranks : List (Rank H P)) (r : Rank H P) :
    mass (ranks ++ [r]) = mass ranks + 2 ^ (H - P + 1 - r.toNat) := by
  unfold mass
  rw [List.map_append, List.sum_append, List.map_singleton, List.sum_singleton]

/-- The accumulator holds the mass of the ranks, modulo its width. That it does
not wrap depends on the ranks. -/
theorem toNat_accu_foldl (ranks : List (Rank H P)) :
    (ranks.foldl add init).accu.toNat = mass ranks % 2 ^ (H + 1) := by
  induction ranks using List.reverseRecOn with
  | nil => rfl
  | append_singleton ranks r ih =>
    rw [List.foldl_append, List.foldl_cons, List.foldl_nil, mass_concat]
    show ((ranks.foldl add init).accu + BitVec.twoPow (H + 1)
      (H - P + 1 - r.toNat)).toNat = _
    rw [BitVec.toNat_add, ih, BitVec.toNat_twoPow, ← Nat.add_mod]

/-- The zero counter holds the number of empty buckets, modulo its width, which
has room for all of them. -/
theorem toNat_zeros_foldl (ranks : List (Rank H P)) :
    (ranks.foldl add init).zeros.toNat = ranks.count 0 % 2 ^ (P + 1) := by
  induction ranks using List.reverseRecOn with
  | nil => rfl
  | append_singleton ranks r ih =>
    rw [List.foldl_append, List.foldl_cons, List.foldl_nil, List.count_append,
      List.count_singleton]
    show (if r = 0 then (ranks.foldl add init).zeros + 1
      else (ranks.foldl add init).zeros).toNat
      = _
    by_cases hr : r = 0
    · rw [if_pos hr, hr, BitVec.toNat_add, ih]
      simp
    · rw [if_neg hr, ih, if_neg (by simpa using hr)]
      rfl

/-- Fewer ranks have less mass. -/
theorem mass_le_of_isPrefix {ranks ranks' : List (Rank H P)}
    (h : ranks <+: ranks') :
    mass ranks ≤ mass ranks' :=
  (h.sublist.map _).sum_le_sum fun _ _ => Nat.zero_le _

/-- Every rank has mass. -/
theorem mass_pos {ranks : List (Rank H P)} (h : ranks ≠ []) :
    0 < mass ranks := by
  obtain ⟨r, ranks, rfl⟩ := List.exists_cons_of_ne_nil h
  unfold mass
  rw [List.map_cons, List.sum_cons]
  exact Nat.add_pos_left (Nat.two_pow_pos _) _

/-- **A full row of ranks fits the accumulator**, unless all of them are zero: a
positive rank has half the mass of a zero at most. -/
theorem mass_lt (hP : P ≤ H) {ranks : List (Rank H P)}
    (hlength : ranks.length = 2 ^ P)
    (hpos : ∃ r ∈ ranks, r.toNat ≠ 0) : mass ranks < 2 ^ (H + 1) := by
  have hle : ∀ r ∈ ranks, 2 ^ (H - P + 1 - r.toNat)
    ≤ 2 ^ (H - P + 1) := fun r _ =>
    Nat.pow_le_pow_right two_pos (Nat.sub_le _ _)
  have hlt : ∃ r ∈ ranks, 2 ^ (H - P + 1 - r.toNat) < 2 ^ (H - P + 1) := by
    obtain ⟨r, hr, hne⟩ := hpos
    exact ⟨r, hr, Nat.pow_lt_pow_right one_lt_two (by omega)⟩
  calc mass ranks < (ranks.map (fun _ => 2 ^ (H - P + 1))).sum :=
           List.sum_lt_sum _ _ hle hlt
    _ = 2 ^ P * 2 ^ (H - P + 1) := by
        rw [List.map_const', List.sum_replicate, hlength, smul_eq_mul]
    _ = 2 ^ (H + 1) := by
        rw [← pow_add]
        congr 1
        omega

/-- All ranks zero: the mass is just what the accumulator drops, and it holds
zero. -/
theorem mass_of_forall_zero (hP : P ≤ H) {ranks : List (Rank H P)}
    (hlength : ranks.length = 2 ^ P) (hzero : ∀ r ∈ ranks, r.toNat = 0) :
    mass ranks = 2 ^ (H + 1) := by
  unfold mass
  rw [List.map_congr_left (fun r hr => by rw [hzero r hr, Nat.sub_zero]),
    List.map_const',
    List.sum_replicate, hlength, smul_eq_mul, ← pow_add]
  congr 1
  omega

/-- The mass in the unit of the integers: the sum of the powers of one half. -/
theorem mass_div {ranks : List (Rank H P)}
    (hle : ∀ r ∈ ranks, r.toNat ≤ H - P + 1) :
    (mass ranks : ℚ) / 2 ^ (H - P + 1)
      = (ranks.map (fun r => (1 / 2 : ℚ) ^ r.toNat)).sum := by
  induction ranks with
  | nil => simp [mass]
  | cons r ranks ih =>
    have hr := hle r List.mem_cons_self
    have hone : ((2 ^ (H - P + 1 - r.toNat) : ℕ) : ℚ) / 2 ^ (H - P + 1)
      = (1 / 2 : ℚ) ^ r.toNat := by
      rw [Nat.cast_pow, Nat.cast_ofNat, one_div, inv_pow,
        pow_sub₀ _ two_ne_zero hr]
      field_simp
    have hcons : mass (r :: ranks) = 2 ^ (H - P + 1 - r.toNat)
      + mass ranks := by
      unfold mass
      rw [List.map_cons, List.sum_cons]
    rw [hcons, Nat.cast_add, add_div, hone,
      ih (fun s hs => hle s (List.mem_cons_of_mem r hs)),
      List.map_cons, List.sum_cons]

end Accumulators

end HllEstimator

/-! ## The estimator as a consumer

It has one process and one row. -/

/-- The estimator behind the row, as it is at power-up. -/
def estimation {H P : ℕ} (fl : HllFloat H P) :
    Consumer 1 (Rank H P) Unit (HllEstimator H P) (Fifo fl.F) where
  state := .init
  result := Fifo.new
  call _ s rows t :=
    let p := s.estimate fl (rows 0) t
    (p.1, fun _ => p.2.1, p.2.2)

/-- **The estimator keeps its equation**, and writes one estimate for each job
of the row. -/
theorem estimation_lawful {H P : ℕ} (fl : HllFloat H P)
    (tables : Fin 1 → List (Flit (Rank H P))) :
    (estimation fl).Lawful tables
      (fun s rows t => HllEstimator.Estimated fl s (rows 0) t.written)
      (fun t => t.written = (jobsOf (tables 0)).map (HllEstimator.cardOf fl))
      (2 * (jobsOf (tables 0)).length) where
  start := ⟨rfl, rfl⟩
  sound _ _ _ _ _ h := HllEstimator.estimate_sound h
  written _ s rows t j := by
    rw [Subsingleton.elim j 0]
    exact HllEstimator.written_estimate fl s (rows 0) t
  grows _ s rows t := by
    obtain ⟨h₁, h₂⟩ := HllEstimator.estimate_grows fl s (rows 0) t
    refine ⟨fun j => ?_, h₂⟩
    rw [Subsingleton.elim j 0]
    exact h₁
  idle _ s rows t h := by
    have hrow : (s.estimate fl (rows 0) t).2.1 = rows 0 :=
      congrFun (congrArg Prod.fst h) 0
    rcases HllEstimator.estimate_cases fl s (rows 0) t
      with ⟨-, he⟩ | ⟨x, src, hx, -⟩
    · exact congrArg Prod.fst he
    · rw [Fifo.readNb_eq_none.mpr (HllEstimator.estimate_idle hrow)] at hx
      cases hx
  complete s rows t hrows h hidle := by
    have hrow : (s.estimate fl (rows 0) t).2.1 = rows 0 :=
      congrFun (congrArg Prod.fst (hidle ())) 0
    have hdst : t.written = (jobsOf (rows 0).consumed).map _ := h.dst
    rw [hdst, Fifo.consumed_eq_written
      (HllEstimator.estimate_idle hrow), hrows 0]
  stays s rows t t' hrows h hgrows hdone := by
    have hall : t'.written <+: (jobsOf (tables 0)).map
      (HllEstimator.cardOf fl) := by
      rw [h.dst]
      exact (jobsOf_isPrefix (hrows 0)).map _
    refine hall.eq_of_length_le ?_
    rw [← hdone]
    exact hgrows.2.length_le
  size_le s rows t hrows h := by
    refine Fifo.size_le ?_
    rw [h.dst, List.length_map]
    exact (jobsOf_isPrefix (hrows 0)).length_le

/-! ## The ranks of a job

From the abstract sketch to the ranks the estimator reads. -/

section Ranks

variable {H P : ℕ}

/-- The ranks of a job, bucket by bucket, in the width of `T_RANK`. -/
def rankRow (H P : ℕ) (hashes : Multiset (BitVec H)) : List (Rank H P) :=
  (List.range (2 ^ P)).map (fun b => BitVec.ofNat _ (Sketch.hll P id hashes b))

/-- The buckets no flit of a job falls into, which is what linear counting
counts. -/
def emptyBuckets (P : ℕ) (hashes : Multiset (BitVec H)) : ℕ :=
  ((Finset.range (2 ^ P)).filter (fun b => ∀ h ∈ hashes,
    Sketch.hllBucket P h ≠ b)).card

/-- **A rank fits its type**, so that nothing is lost in the width of
`T_RANK`. -/
theorem toNat_ofNat_hll (hashes : Multiset (BitVec H)) (b : ℕ) :
    (BitVec.ofNat _ (Sketch.hll P id hashes b) : Rank H P).toNat
      = Sketch.hll P id hashes b := by
  have hle := Sketch.hll_le P id hashes b
  rw [BitVec.toNat_ofNat]
  exact Nat.mod_eq_of_lt (lt_of_lt_of_le (by omega) (le_two_pow_clog2 _))

/-- The ranks of a row, as numbers. -/
theorem map_toNat_rankRow (hashes : Multiset (BitVec H)) :
    (rankRow H P hashes).map BitVec.toNat
      = (List.range (2 ^ P)).map (Sketch.hll P id hashes) := by
  unfold rankRow
  rw [List.map_map]
  exact List.map_congr_left (fun b _ => toNat_ofNat_hll hashes b)

@[simp] theorem length_rankRow (hashes : Multiset (BitVec H)) :
    (rankRow H P hashes).length = 2 ^ P := by
  unfold rankRow
  rw [List.length_map, List.length_range]

/-- A row has ranks. -/
theorem rankRow_ne_nil (hashes : Multiset (BitVec H)) :
    rankRow H P hashes ≠ [] := by
  refine List.ne_nil_of_length_pos ?_
  rw [length_rankRow]
  exact Nat.two_pow_pos P

/-- No rank of a row exceeds the bits it is read from by more than one, and so
the bit it sets is one of the accumulator's. -/
theorem toNat_le_of_mem_rankRow {hashes : Multiset (BitVec H)} {r : Rank H P}
    (hr : r ∈ rankRow H P hashes) : r.toNat ≤ H - P + 1 := by
  obtain ⟨b, -, rfl⟩ := List.mem_map.mp hr
  rw [toNat_ofNat_hll, Nat.add_comm]
  exact Sketch.hll_le P id hashes b

/-- **A job that has flits has a bucket that is not empty**: the one of any of
its hash words. -/
theorem exists_rank_pos (hP : P ≤ H) {hashes : Multiset (BitVec H)}
    (hne : hashes ≠ 0) :
    ∃ r ∈ rankRow H P hashes, r.toNat ≠ 0 := by
  obtain ⟨h, hh⟩ := Multiset.exists_mem_of_ne_zero hne
  refine ⟨_,
    List.mem_map_of_mem (List.mem_range.mpr (Sketch.hllBucket_lt P hP h)), ?_⟩
  rw [toNat_ofNat_hll]
  exact fun hzero => (Sketch.hll_eq_zero_iff P id hashes _).mp hzero h hh rfl

/-- The zeros of a row are its empty buckets, since every flit gives its bucket
a positive rank. -/
theorem count_zero_rankRow (hashes : Multiset (BitVec H)) :
    (rankRow H P hashes).count 0 = emptyBuckets P hashes := by
  have hinj : Function.Injective (BitVec.toNat : Rank H P → ℕ) := fun _ _ =>
    BitVec.eq_of_toNat_eq
  have hempty : emptyBuckets P hashes
      = ((Finset.range (2 ^ P)).filter
        (fun b => Sketch.hll P id hashes b = 0)).card := by
    unfold emptyBuckets
    refine congrArg Finset.card (Finset.filter_congr (fun b _ => ?_))
    rw [Sketch.hll_eq_zero_iff]
    rfl
  rw [← List.count_map_of_injective _ _ hinj, map_toNat_rankRow, hempty]
  show ((List.range (2 ^ P)).map (Sketch.hll P id hashes)).countP (· == 0)
    = ((List.range (2 ^ P)).filter
      (fun b => decide (Sketch.hll P id hashes b = 0))).length
  rw [List.countP_map, List.countP_eq_length_filter]
  rfl

/-- **Not all buckets of a job are empty**, so that linear counting has a
logarithm of more than one to take. -/
theorem emptyBuckets_lt (hP : P ≤ H) {hashes : Multiset (BitVec H)}
    (hne : hashes ≠ 0) :
    emptyBuckets P hashes < 2 ^ P := by
  obtain ⟨h, hh⟩ := Multiset.exists_mem_of_ne_zero hne
  have hlt : emptyBuckets P hashes < (Finset.range (2 ^ P)).card :=
    Finset.card_lt_card (Finset.filter_ssubset.mpr
      ⟨Sketch.hllBucket P h, Finset.mem_range.mpr (Sketch.hllBucket_lt P hP h),
        fun hnone => hnone h hh rfl⟩)
  rwa [Finset.card_range] at hlt

/-- The joined table of a job is its row of ranks, whichever lanes the flits
were on. -/
theorem tableList_hashedTable_hll (hP : P ≤ H)
    (hashes : Multiset (BitVec H)) (j : Fin 1) :
    tableList (hashedTable stdMax (fun _ : Fin 1 => ranked H P) id j hashes)
      = rankRow H P hashes := by
  refine List.map_congr_left (fun b hb => BitVec.eq_of_toNat_eq ?_)
  rw [toNat_hashedTable_hll hP, BitVec.toNat_ofNat,
    Nat.mod_eq_of_lt (List.mem_range.mp hb)]
  exact (toNat_ofNat_hll hashes b).symm

end Ranks

/-! ## Runs

Everything that can be said without the floating-point operations. -/

/-- **A HyperLogLog sketch is exact up to its division**: what it reads, what it
accumulates, and what it divides. -/
structure HllExact {N H P : ℕ} (fl : HllFloat H P)
    (jobs : List (Fin N → List (BitVec H)))
    (r : SketchRun N 1 H P (Rank H P) (Rank H P) (HllEstimator H P)
      (Fifo fl.F)) : Prop where
  /-- The joined stream carries the ranks of the jobs. -/
  ranks : (r.rows.counts 0).written.map (Flit.map BitVec.toNat)
    <+: jobs.flatMap
      (fun job =>
        frame ((List.range (2 ^ P)).map (Sketch.hll P id (wholeJob job))))
  /-- The estimator sets one bit of its accumulator's width for every rank it
  reads, and neither its accumulator nor its zero counter wraps. -/
  reads : ∀ x src, (r.rows.counts 0).readNb = some (x, src) →
    (x.val.toNat ≤ H - P + 1 ∧ H - P + 1 - x.val.toNat ≤ H)
    ∧ (r.state.add x.val).accu.toNat = r.state.accu.toNat
      + 2 ^ (H - P + 1 - x.val.toNat)
    ∧ (r.state.add x.val).zeros.toNat = r.state.zeros.toNat
      + if x.val = 0 then 1 else 0
  /-- When it divides, its accumulator holds the sum of a job, its zero counter
  the empty buckets of it, and it starts anew. The quotient of the linear
  counting is the exact one, of rational numbers: in the `float` of the source
  it is `1.0f` for `P ≥ 25` and one bucket that is not empty, as `2 ^ P - 1` is
  rounded to `2 ^ P`. -/
  divides : ∀ x src, (r.rows.counts 0).readNb = some (x, src) → x.last = true →
    ∃ job, jobs[(jobsOf (r.rows.counts 0).consumed).length]? = some job
      ∧ ((r.state.add x.val).accu.toNat : ℚ) / 2 ^ (H - P + 1)
        = ∑ b ∈ Finset.range (2 ^ P),
          (1 / 2 : ℚ) ^ Sketch.hll P id (wholeJob job) b
      ∧ 0 < (r.state.add x.val).accu.toNat
      ∧ (r.state.add x.val).zeros.toNat = emptyBuckets P (wholeJob job)
      ∧ emptyBuckets P (wholeJob job) < 2 ^ P
      ∧ ((r.state.add x.val).zeros ≠ 0 →
        (1 : ℚ) < 2 ^ P / ((r.state.add x.val).zeros.toNat : ℚ))
      ∧ (r.state.estimate fl (r.rows.counts 0) r.result).1 = .init
  /-- The result is the estimates of the jobs. -/
  estimates : r.result.written
    <+: jobs.map
      (fun job => HllEstimator.cardOf fl (rankRow H P (wholeJob job)))

section Runs

variable {N H P : ℕ} {jobs : List (Fin N → List (BitVec H))}

/-- The tables of the jobs are their rows of ranks, framed. -/
theorem tables_hll (hP : P ≤ H) (j : Fin 1) :
    SketchRun.tables stdMax (fun _ : Fin 1 => ranked H P) id
      (jobs.map wholeJob) j
      = (jobs.map (fun job => rankRow H P (wholeJob job))).flatMap frame := by
  unfold SketchRun.tables
  rw [List.flatMap_map, List.flatMap_map]
  simp only [tableList_hashedTable_hll hP]

/-- A row of ranks as numbers, framed. -/
theorem map_toNat_tables_hll :
    ((jobs.map (fun job => rankRow H P (wholeJob job))).flatMap frame).map
      (Flit.map BitVec.toNat)
      = jobs.flatMap (fun job =>
          frame ((List.range (2 ^ P)).map
            (Sketch.hll P id (wholeJob job)))) := by
  rw [List.flatMap_map, List.map_flatMap]
  refine List.flatMap_congr (fun job _ => ?_)
  rw [← frame_map, map_toNat_rankRow]

/-- A job with a flit on every lane has flits. -/
theorem wholeJob_ne_zero (hN : 0 < N) {job : Fin N → List (BitVec H)}
    (hjob : ∀ i, job i ≠ []) :
    wholeJob job ≠ 0 := by
  refine Multiset.card_pos.mp ?_
  calc 0 < (job ⟨0, hN⟩).length := List.length_pos_iff.mpr (hjob ⟨0, hN⟩)
    _ ≤ (wholeJob job).card := length_le_card_wholeJob job ⟨0, hN⟩

namespace HllEstimator

/-- **The beginning of the ranks of a job fits the accumulators**: it has less
mass and fewer zeros than the whole. -/
theorem foldl_add_of_isPrefix (hP : P ≤ H)
    {hashes : Multiset (BitVec H)} (hne : hashes ≠ 0) {ranks : List (Rank H P)}
    (h : ranks <+: rankRow H P hashes) :
    (ranks.foldl add init).accu.toNat = mass ranks
      ∧ (ranks.foldl add init).zeros.toNat = ranks.count 0 := by
  constructor
  · rw [toNat_accu_foldl]
    exact Nat.mod_eq_of_lt ((mass_le_of_isPrefix h).trans_lt
      (mass_lt hP (length_rankRow hashes) (exists_rank_pos hP hne)))
  · have hcount : ranks.count 0 ≤ emptyBuckets P hashes := by
      rw [← count_zero_rankRow]
      exact h.sublist.count_le 0
    rw [toNat_zeros_foldl]
    exact Nat.mod_eq_of_lt ((hcount.trans_lt (emptyBuckets_lt hP hne)).trans
      (Nat.pow_lt_pow_right one_lt_two (Nat.lt_succ_self P)))

/-- The mass of the ranks of a job is the sum of the sketch over its buckets. -/
theorem mass_rankRow (hashes : Multiset (BitVec H)) :
    (mass (rankRow H P hashes) : ℚ) / 2 ^ (H - P + 1)
      = ∑ b ∈ Finset.range (2 ^ P), (1 / 2 : ℚ) ^ Sketch.hll P id hashes b := by
  rw [mass_div (fun _ hr => toNat_le_of_mem_rankRow hr)]
  have hmap := congrArg (List.map (fun n => (1 / 2 : ℚ) ^ n))
    (map_toNat_rankRow (P := P) hashes)
  rw [List.map_map, List.map_map] at hmap
  exact congrArg List.sum hmap

end HllEstimator

section Runs

variable {fl : HllFloat H P}
  {r : SketchRun N 1 H P (Rank H P) (Rank H P) (HllEstimator H P) (Fifo fl.F)}

/-- What the row has written is of the ranks of the jobs, in their order. -/
theorem SketchRun.Sound.ranks_isPrefix (hN : 0 < N) (hPH : P < H)
    (hjobs : ∀ job ∈ jobs, ∀ i, job i ≠ [])
    (h : r.Sound (hllFunctions H P) (laneFlits jobs)
      (fun s rows t => HllEstimator.Estimated fl s (rows 0) t.written)) :
    (r.rows.counts 0).written
      <+: (jobs.map (fun job => rankRow H P (wholeJob job))).flatMap frame := by
  rw [← tables_hll hPH.le 0]
  exact h.counts_isPrefix (hllFunctions_isSketch H P) hN
    (dealt_laneFlits hjobs) 0

/-- **The rank that is read next carries on the ranks of a job**, and the one
marked last completes them. -/
theorem SketchRun.Sound.exists_job_of_readNb (hN : 0 < N) (hPH : P < H)
    (hjobs : ∀ job ∈ jobs, ∀ i, job i ≠ [])
    (h : r.Sound (hllFunctions H P) (laneFlits jobs)
      (fun s rows t => HllEstimator.Estimated fl s (rows 0) t.written))
    {x : Flit (Rank H P)} {src : Fifo (Flit (Rank H P))}
    (hx : (r.rows.counts 0).readNb = some (x, src)) :
    ∃ job ∈ jobs, jobs[(jobsOf (r.rows.counts 0).consumed).length]? = some job
      ∧ partOf (r.rows.counts 0).consumed ++ [x.val]
        <+: rankRow H P (wholeJob job)
      ∧ (x.last = true →
        partOf (r.rows.counts 0).consumed ++ [x.val]
          = rankRow H P (wholeJob job)) := by
  have hne : ∀ row
    ∈ jobs.map (fun job => rankRow H P (wholeJob job)), row ≠ [] :=
    fun row hrow => by
      obtain ⟨job, -, rfl⟩ := List.mem_map.mp hrow
      exact rankRow_ne_nil _
  have hread : (r.rows.counts 0).consumed ++ [x]
      <+: (jobs.map (fun job => rankRow H P (wholeJob job))).flatMap frame := by
    rw [← Fifo.consumed_of_readNb hx]
    refine src.consumed_isPrefix.trans ?_
    rw [Fifo.written_of_readNb hx]
    exact h.ranks_isPrefix hN hPH hjobs
  obtain ⟨row, hrow, hpart, hlast⟩ := exists_job_of_concat hne hread
  rw [List.getElem?_map, Option.map_eq_some_iff] at hrow
  obtain ⟨job, hjob, rfl⟩ := hrow
  exact ⟨job, List.mem_of_getElem? hjob, hjob, hpart, hlast⟩

/-- **Every run is exact up to its divisions.** The rank that is read next
belongs to a job, and the accumulators hold what that job has brought so far. -/
theorem SketchRun.Sound.hllExact (hN : 0 < N) (hP : 1 ≤ P) (hPH : P < H)
    (hjobs : ∀ job ∈ jobs, ∀ i, job i ≠ [])
    (h : r.Sound (hllFunctions H P) (laneFlits jobs)
      (fun s rows t => HllEstimator.Estimated fl s (rows 0) t.written)) :
    HllExact fl jobs r := by
  have hwritten := h.ranks_isPrefix hN hPH hjobs
  have hstate : r.state = (partOf (r.rows.counts 0).consumed).foldl
    HllEstimator.add .init :=
    h.consumer.state
  have hadd : ∀ v, r.state.add v
      = (partOf (r.rows.counts 0).consumed ++ [v]).foldl HllEstimator.add
        .init := fun v => by
    rw [List.foldl_append, ← hstate]
    rfl
  refine ⟨?_, fun x src hx => ?_, fun x src hx hlast => ?_, ?_⟩
  · rw [← map_toNat_tables_hll]
    exact hwritten.map _
  · obtain ⟨job, hmem, -, hpart, -⟩ := h.exists_job_of_readNb hN hPH hjobs hx
    have hflits := wholeJob_ne_zero hN (hjobs job hmem)
    have hbefore := HllEstimator.foldl_add_of_isPrefix hPH.le hflits
      ((List.prefix_append _ [x.val]).trans hpart)
    have hafter := HllEstimator.foldl_add_of_isPrefix hPH.le hflits hpart
    refine ⟨⟨toNat_le_of_mem_rankRow (hpart.subset (by simp)), by omega⟩, ?_,
      ?_⟩
    · rw [hadd, hstate, hafter.1, hbefore.1, HllEstimator.mass_concat]
    · rw [hadd, hstate, hafter.2, hbefore.2, List.count_append,
        List.count_singleton]
      simp only [beq_iff_eq]
  · obtain ⟨job, hmem, hjob, hpart, hrow⟩ :=
      h.exists_job_of_readNb hN hPH hjobs hx
    have hflits := wholeJob_ne_zero hN (hjobs job hmem)
    obtain ⟨haccu, hzeros⟩ :=
      HllEstimator.foldl_add_of_isPrefix hPH.le hflits hpart
    rw [hrow hlast, count_zero_rankRow] at hzeros
    have hempty := emptyBuckets_lt hPH.le hflits
    refine ⟨job, hjob, ?_, ?_, ?_, hempty, fun hpos => ?_, ?_⟩
    · rw [hadd, haccu, hrow hlast, HllEstimator.mass_rankRow]
    · rw [hadd, haccu, hrow hlast]
      exact HllEstimator.mass_pos (rankRow_ne_nil _)
    · rw [hadd, hrow hlast, hzeros]
    · have hzero : 0 < emptyBuckets P (wholeJob job) := by
        refine Nat.pos_of_ne_zero (fun h0 => hpos (BitVec.eq_of_toNat_eq ?_))
        rw [hadd, hrow hlast, hzeros, h0]
        rfl
      rw [hadd, hrow hlast, hzeros, one_lt_div (by exact_mod_cast hzero)]
      exact_mod_cast hempty
    · unfold HllEstimator.estimate
      rw [hx]
      exact congrArg Prod.fst (if_pos hlast)
  · have hdst : r.result.written = (jobsOf (r.rows.counts 0).consumed).map _ :=
      h.consumer.dst
    have hread :=
      jobsOf_isPrefix ((r.rows.counts 0).consumed_isPrefix.trans hwritten)
    rw [jobsOf_flatMap_frame (fun row hrow => by
      obtain ⟨job, -, rfl⟩ := List.mem_map.mp hrow
      exact rankRow_ne_nil _)] at hread
    have hestimates := hread.map (HllEstimator.cardOf fl)
    rw [List.map_map] at hestimates
    rw [hdst]
    exact hestimates

end Runs

/-- **`hll_sketch` is exact up to its division.** For every hash width and
precision, every number of lanes, every sequence of jobs with a flit on every
lane, and every order of arrivals and calls: the joined stream carries the
beginning of the ranks of the jobs; the estimator's accumulators never wrap;
when it divides, they hold the sum and the empty buckets of the job, the sum is
positive and not all buckets are empty; and then it starts anew. Enough fair
rounds complete the ranks and the estimates. -/
theorem hll_sketch_exact (hN : 0 < N) (hP : 1 ≤ P) (hPH : P < H)
    (hjobs : ∀ job ∈ jobs, ∀ i, job i ≠ []) (fl : HllFloat H P)
    (schedule : List (SketchEvent N 1 Unit)) :
    let r := (SketchRun.start (estimation fl)).run
      (hllFunctions H P) (estimation fl)
      (laneFlits jobs) schedule
    HllExact fl jobs r
    ∧ ∃ n, ∀ rounds, n < rounds.length → FairRounds rounds →
        let r' := r.run (hllFunctions H P) (estimation fl)
          (laneFlits jobs) rounds.flatten
        (r'.rows.counts 0).written.map (Flit.map BitVec.toNat)
          = jobs.flatMap (fun job =>
              frame ((List.range (2 ^ P)).map (Sketch.hll P id (wholeJob job))))
        ∧ r'.result.written
          = jobs.map
            (fun job => HllEstimator.cardOf fl
              (rankRow H P (wholeJob job))) := by
  intro r
  have hF := hllFunctions_isSketch H P
  have hdealt := dealt_laneFlits hjobs
  have hc := estimation_lawful fl
    (SketchRun.tables stdMax (fun _ : Fin 1 => ranked H P) id
      (jobs.map wholeJob))
  have hsound := SketchRun.sound_run hF hN hdealt hc schedule
  obtain ⟨n, hn⟩ := hsound.completes hF hN hdealt hc
  refine ⟨hsound.hllExact hN hP hPH hjobs, n, fun rounds hrounds hfair => ?_⟩
  obtain ⟨htables, hresult⟩ := hn rounds hrounds hfair
  refine ⟨?_, ?_⟩
  · rw [htables 0, tables_hll hPH.le, map_toNat_tables_hll]
  · refine hresult.trans ?_
    rw [SketchRun.jobsOf_tables, List.map_map, List.map_map]
    refine List.map_congr_left (fun job _ => ?_)
    exact congrArg (HllEstimator.cardOf fl)
      (tableList_hashedTable_hll hPH.le (wholeJob job) 0)

/-- Two lanes, two buckets and two jobs: whatever has happened, the first job
has its bucket 0 empty and the second one its bucket 1. -/
theorem hll_sketch_exact_instance :
    let jobs : List (Fin 2 → List (BitVec 2)) := [![[3], [2]], ![[0], [1, 0]]]
    let c := estimation (HllFloat.single 2 1)
    let r := (SketchRun.start c).run (hllFunctions 2 1) c (laneFlits jobs)
      [.arrive 1, .row (.split 1), .arrive 0, .row (.collect 1 0 0)]
    HllExact (HllFloat.single 2 1) jobs r
    ∧ ∃ rest,
      ((r.run (hllFunctions 2 1) c (laneFlits jobs) rest).rows.counts
        0).written.map
        (Flit.map BitVec.toNat)
      = frame [0, 2] ++ frame [2, 0] := by
  intro jobs c r
  obtain ⟨hexact, n, hn⟩ := hll_sketch_exact (N := 2) (H := 2) (P := 1)
    (by decide) (by decide)
    (by decide) (show ∀ job ∈ jobs, ∀ i, job i ≠ [] by decide)
      (HllFloat.single 2 1)
    [.arrive 1, .row (.split 1), .arrive 0, .row (.collect 1 0 0)]
  obtain ⟨rounds, hrounds, hfair⟩ := exists_fairRounds 2 1 Unit n
  refine ⟨hexact, rounds.flatten, (hn rounds hrounds hfair).1.trans ?_⟩
  decide

end Runs

end Skt.Hardware
