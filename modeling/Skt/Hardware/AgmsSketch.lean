import Skt.Hardware.SketchRuns
import Skt.Hardware.Sketches

/-!
# The AGMS sketch from its lanes to its sums

`agms_sketch` on its own: the rows of `Skt.Hardware.Rows`, and a `Fold` behind
every row that adds up the squares of its counters. The counters are 32 bits
wide and signed, the sums 64 bits wide.

A job of fewer than `2 ^ 31` flits fits: a counter is at most the number of
flits in absolute value, and the squares of a row add up to at most the square
of that number. So all of the arithmetic is that of the integers.

It is so at every point of a run and in every register, in the memory of a
collector in the middle of a job, in the counts on their way through the
reduction, and in the accumulators of the folds: a part of a job has no more
flits than the job.
-/

namespace Skt.Hardware

open Streams Runs Bits

/-! ## The folds

The consumer of this sketch. -/

/-- The folds behind the rows, one process for each, with their sums starting
from zero. -/
def folds (R : ℕ) :
    Consumer R (BitVec 32) (Fin R) (Fin R → BitVec 64)
    (Fin R → Fifo (BitVec 64)) where
  state _ := 0
  result _ := Fifo.new
  call j s rows t :=
    let p := Hardware.fold addSquare 0 (s j) (rows j) (t j)
    (Function.update s j p.1, Function.update rows j p.2.1,
      Function.update t j p.2.2)

section Folds

variable {R : ℕ} (tables : Fin R → List (Flit (BitVec 32)))

/-- **The folds keep the equation of `Fold`** row by row, and have written one
sum for each job when they are through. -/
theorem folds_lawful :
    (folds R).Lawful tables
      (fun s rows t => ∀ j, Folded addSquare 0 (s j) (rows j) (t j).written)
      (fun t => ∀ j, (t j).written = (jobsOf (tables j)).map
        (List.foldl addSquare 0))
      (∑ j, 2 * (jobsOf (tables j)).length) where
  start _ := ⟨rfl, rfl⟩
  sound j s rows t _ h j' := by
    show Folded addSquare 0 (Function.update s j _ j')
      (Function.update rows j _ j').consumed
      (Function.update t j _ j').written
    by_cases hj : j' = j
    · subst hj
      rw [Function.update_self, Function.update_self, Function.update_self]
      exact fold_sound (h j')
    · rw [Function.update_of_ne hj, Function.update_of_ne hj,
        Function.update_of_ne hj]
      exact h j'
  written j s rows t j' := by
    show (Function.update rows j _ j').written = _
    rw [Function.update_apply]
    split
    · next hj => rw [hj, written_fold]
    · rfl
  grows j s rows t := by
    obtain ⟨h₁, h₂⟩ := fold_grows addSquare 0 (s j) (rows j) (t j)
    exact ⟨grows_update h₁, grows_update h₂⟩
  idle j s rows t h := by
    have hrow : (Hardware.fold addSquare 0 (s j) (rows j) (t j)).2.1
      = rows j := by
      have hrows : Function.update rows j
        (Hardware.fold addSquare 0 (s j) (rows j) (t j)).2.1
          = rows := congrArg Prod.fst h
      simpa using congrFun hrows j
    have hnone := Fifo.readNb_eq_none.mpr (fold_idle hrow)
    show Function.update s j
      (Hardware.fold addSquare 0 (s j) (rows j) (t j)).1 = s
    unfold Hardware.fold
    rw [hnone]
    exact Function.update_eq_self j s
  complete s rows t hrows h hidle j := by
    have hrow : (Hardware.fold addSquare 0 (s j) (rows j) (t j)).2.1
      = rows j := by
      have hupdate : Function.update rows j
        (Hardware.fold addSquare 0 (s j) (rows j) (t j)).2.1
          = rows := congrArg Prod.fst (hidle j)
      simpa using congrFun hupdate j
    have hdst : (t j).written = (jobsOf (rows j).consumed).map _ := (h j).dst
    rw [hdst, Fifo.consumed_eq_written (fold_idle hrow), hrows j]
  stays s rows t t' hrows h hgrows hdone j := by
    have hall : (t' j).written <+: (jobsOf (tables j)).map
      (List.foldl addSquare 0) := by
      rw [(h j).dst]
      exact (jobsOf_isPrefix (hrows j)).map _
    exact hall.eq_of_length_le (by rw [← hdone j]; exact (hgrows j).2.length_le)
  size_le s rows t hrows h := by
    refine Finset.sum_le_sum (fun j _ => Fifo.size_le ?_)
    rw [(h j).dst, List.length_map]
    exact (jobsOf_isPrefix (hrows j)).length_le

end Folds

/-! ## Exact counters

What a counter stands for, and why it does not wrap. -/

section Exact

variable {R H P : ℕ}

/-- **The signed count of a bucket** of row `j`: the flits with the sign bit
set, minus those with the sign bit clear. -/
def signedCount (P j : ℕ) (hashes : Multiset (BitVec H)) (k : ℕ) : ℤ :=
  ((hashes.filter (fun h => slice h.toNat (j * (1 + P)) P = k
      ∧ h.toNat.testBit (j * (1 + P) + P) = true)).card : ℤ)
  - ((hashes.filter (fun h => slice h.toNat (j * (1 + P)) P = k
      ∧ h.toNat.testBit (j * (1 + P) + P) = false)).card : ℤ)

/-- It is the counter of the sketch, where it is written as a sum of signs. -/
theorem agms_eq_signedCount (j : ℕ) (hashes : Multiset (BitVec H)) (k : ℕ) :
    Sketch.agms P id hashes j k = signedCount P j hashes k := by
  rw [Sketch.agms_eq_sub]
  unfold Sketch.agmsKey
  rw [Nat.add_comm P 1]
  rfl

variable {hashes : Multiset (BitVec H)} (hcard : hashes.card < 2 ^ 31)
include hcard

/-- **No counter wraps**: read as a signed number it is the signed count. -/
theorem toInt_hashedTable_agms (j : Fin R) (k : BitVec P) :
    (hashedTable addCount (fun j : Fin R => agmsed H P j)
      agmsInc j hashes k).toInt
      = signedCount P j hashes k.toNat := by
  rw [hashedTable_agms,
    toInt_ofInt_of_abs_le (Sketch.abs_agms_le_card _ _ _ _ _) hcard,
      agms_eq_signedCount]

/-- A row of exact counters, in the order of the buckets. -/
theorem map_toInt_tableList (j : Fin R) :
    (tableList
      (hashedTable addCount (fun j : Fin R => agmsed H P j)
        agmsInc j hashes)).map
        BitVec.toInt
      = (List.range (2 ^ P)).map (signedCount P j hashes) := by
  unfold tableList
  rw [List.map_map]
  refine List.map_congr_left (fun k hk => ?_)
  show (hashedTable addCount (fun j : Fin R => agmsed H P j) agmsInc j hashes
    (BitVec.ofNat P k)).toInt = _
  rw [toInt_hashedTable_agms hcard, BitVec.toNat_ofNat,
    Nat.mod_eq_of_lt (List.mem_range.mp hk)]

/-- The squares of a row add up to less than a sum holds: the counts of all
buckets are at most the flits of the job together. -/
theorem sum_sq_tableList (j : Fin R) :
    ((tableList
      (hashedTable addCount (fun j : Fin R => agmsed H P j)
        agmsInc j hashes)).map
        (fun c => c.toInt ^ 2)).sum
      = ∑ k ∈ Finset.range (2 ^ P), signedCount P j hashes k ^ 2
    ∧ ∑ k ∈ Finset.range (2 ^ P), signedCount P j hashes k ^ 2 < 2 ^ 64 := by
  constructor
  · have hmap := congrArg (List.map (fun a : ℤ => a ^ 2))
      (map_toInt_tableList (P := P) hcard j)
    rw [List.map_map, List.map_map] at hmap
    show ((tableList _).map ((fun a : ℤ => a ^ 2) ∘ BitVec.toInt)).sum = _
    rw [hmap]
    show _ = ((Multiset.range (2 ^ P)).map _).sum
    rw [← Multiset.coe_range, Multiset.map_coe, Multiset.sum_coe]
    rfl
  · have hle : ∑ k ∈ Finset.range (2 ^ P), signedCount P j hashes k ^ 2
        ≤ (hashes.card : ℤ) ^ 2 := by
      have hsum := Sketch.agmsSumq_le P id hashes j
      unfold Sketch.agmsSumq at hsum
      simpa only [agms_eq_signedCount] using hsum
    calc _ ≤ (hashes.card : ℤ) ^ 2 := hle
      _ < (2 ^ 31) ^ 2 :=
          pow_lt_pow_left₀ (by exact_mod_cast hcard)
            (Int.natCast_nonneg _) two_ne_zero
      _ < 2 ^ 64 := by norm_num

/-- **No sum wraps**: the fold over a row is the sum of the squared signed
counts. -/
theorem toNat_foldl_tableList (j : Fin R) :
    (((tableList
      (hashedTable addCount (fun j : Fin R => agmsed H P j)
        agmsInc j hashes)).foldl
        addSquare 0).toNat : ℤ)
      = ∑ k ∈ Finset.range (2 ^ P), signedCount P j hashes k ^ 2 := by
  obtain ⟨hsum, hlt⟩ := sum_sq_tableList hcard j
  rw [toNat_foldl_addSquare (hsum ▸ hlt), hsum]

end Exact

/-! ## Runs

Every stream and every register of the sketch, read as integers. -/

/-- **An AGMS sketch computes exactly**: none of its registers has lost
anything against the integers. -/
structure AgmsExact {N R H P : ℕ} (jobs : List (Fin N → List (BitVec H)))
    (r : SketchRun N R H P (BitVec 1) (BitVec 32) (Fin R → BitVec 64)
      (Fin R → Fifo (BitVec 64))) :
    Prop where
  /-- Every output carries one sum per job, of the squared signed counts. -/
  sums : ∀ j, (r.result j).written.map (fun sum => (sum.toNat : ℤ))
    <+: jobs.map (fun job => ∑ k ∈ Finset.range (2 ^ P),
      signedCount P j (wholeJob job) k ^ 2)
  /-- A collector that reads holds the signed counts of the open job of its
  lane. -/
  memory : ∀ i j, (r.rows.collect i j).dump = false → ∀ k,
    ((r.rows.collect i j).mem 0 k).toInt
      = signedCount P j
        (partOf ((laneFlits jobs i).take (r.rows.keyed i j).consumed.length) :
          Multiset (BitVec H)) k.toNat
  /-- It writes the signed counts of the jobs of its lane. -/
  lanes : ∀ i j, (r.rows.counts0 j i).written.map (Flit.map BitVec.toInt)
    <+: jobs.flatMap (fun job =>
      frame ((List.range (2 ^ P)).map
        (signedCount P j (job i : Multiset (BitVec H)))))
  /-- The lanes of a row are reduced to the signed counts of the jobs. -/
  rows : ∀ j, (r.rows.counts j).written.map (Flit.map BitVec.toInt)
    <+: jobs.flatMap
      (fun job =>
        frame ((List.range (2 ^ P)).map (signedCount P j (wholeJob job))))
  /-- The accumulator of a fold holds the squares of the counts it has read. -/
  folds : ∀ j, ((r.state j).toNat : ℤ)
    = ((partOf (r.rows.counts j).consumed).map (fun c => c.toInt ^ 2)).sum

section Runs

variable {N R H P : ℕ} {jobs : List (Fin N → List (BitVec H))}

/-- The tables of a row, read as integers, are the signed counts of the jobs. -/
theorem map_toInt_tables (hcard : ∀ job ∈ jobs, (wholeJob job).card < 2 ^ 31)
    (j : Fin R) :
    (SketchRun.tables addCount (fun j : Fin R => agmsed H P j) agmsInc
      (jobs.map wholeJob) j).map
        (Flit.map BitVec.toInt)
      = jobs.flatMap (fun job =>
          frame ((List.range (2 ^ P)).map
            (signedCount P j (wholeJob job)))) := by
  unfold SketchRun.tables
  rw [List.flatMap_map, List.map_flatMap]
  refine List.flatMap_congr (fun job hjob => ?_)
  rw [← frame_map, map_toInt_tableList (hcard job hjob)]

/-- The sums of a row, read as integers, one for each job. -/
theorem map_foldl_jobsOf_tables
    (hcard : ∀ job ∈ jobs, (wholeJob job).card < 2 ^ 31) (j : Fin R) :
    (jobsOf (SketchRun.tables addCount (fun j : Fin R => agmsed H P j) agmsInc
        (jobs.map wholeJob) j)).map
          (fun row => ((row.foldl addSquare 0).toNat : ℤ))
      = jobs.map (fun job =>
          ∑ k ∈ Finset.range (2 ^ P), signedCount P j
          (wholeJob job) k ^ 2) := by
  rw [SketchRun.jobsOf_tables, List.map_map, List.map_map]
  exact List.map_congr_left
    (fun job hjob => toNat_foldl_tableList (hcard job hjob) j)

/-- The squares of an open job of a row add up to less than a sum holds, being
some of those of a whole one. -/
theorem sum_sq_partOf_lt
    (hcard : ∀ job ∈ jobs, (wholeJob job).card < 2 ^ 31) {j : Fin R}
    {xs : List (Flit (BitVec 32))}
    (hxs : xs <+: SketchRun.tables addCount
      (fun j : Fin R => agmsed H P j) agmsInc
      (jobs.map wholeJob) j) :
    ((partOf xs).map (fun c => c.toInt ^ 2)).sum < 2 ^ 64 := by
  unfold SketchRun.tables at hxs
  rw [List.flatMap_map, ← List.flatMap_map _ frame] at hxs
  have hne : ∀ l ∈ jobs.map (fun job => tableList (hashedTable addCount
      (fun j : Fin R => agmsed H P j) agmsInc j (wholeJob job))),
        l ≠ [] := fun l hl => by
    obtain ⟨job, -, rfl⟩ := List.mem_map.mp hl
    exact tableList_ne_nil _
  rcases partOf_eq_nil_or_isPrefix hne hxs with hnil | ⟨l, hl, hpart⟩
  · rw [hnil]
    norm_num
  · obtain ⟨job, hjob, rfl⟩ := List.mem_map.mp hl
    obtain ⟨hsum, hlt⟩ := sum_sq_tableList (hcard job hjob) j
    refine lt_of_le_of_lt
      ((hpart.sublist.map _).sum_le_sum fun a ha => ?_) (hsum ▸ hlt)
    obtain ⟨c, -, rfl⟩ := List.mem_map.mp ha
    exact sq_nonneg _

/-- **Every run computes exactly.** Each field is read off one of the equations
of the run. -/
theorem SketchRun.Sound.agmsExact (hN : 0 < N)
    (hjobs : ∀ job ∈ jobs, ∀ i, job i ≠ [])
    (hcard : ∀ job ∈ jobs, (wholeJob job).card < 2 ^ 31)
    {r : SketchRun N R H P (BitVec 1) (BitVec 32) (Fin R → BitVec 64)
      (Fin R → Fifo (BitVec 64))}
    (h : r.Sound (agmsFunctions R H P) (laneFlits jobs)
      (fun s rows t => ∀ j, Folded addSquare 0 (s j) (rows j) (t j).written)) :
    AgmsExact jobs r := by
  have hF := agmsFunctions_isSketch R H P
  have hrows := h.counts_isPrefix hF hN (dealt_laneFlits hjobs)
  refine ⟨fun j => ?_, fun i j hdump k => ?_, fun i j => ?_,
    fun j => ?_, fun j => ?_⟩
  · -- the folds of the jobs a row has carried so far
    have hdst : (r.result j).written
      = (jobsOf (r.rows.counts j).consumed).map _ :=
      (h.consumer j).dst
    have hread :=
      jobsOf_isPrefix ((r.rows.counts j).consumed_isPrefix.trans (hrows j))
    rw [hdst, List.map_map]
    rw [← map_foldl_jobsOf_tables hcard j]
    exact hread.map _
  · rw [h.rows.mem_eq addCount hF h.arrived hdump]
    refine toInt_hashedTable_agms ?_ j k
    rw [Multiset.coe_card]
    exact length_partOf_take_laneFlits_lt hjobs hcard (by norm_num) i _
  · have hlane := (h.rows.counts0_isPrefix hF h.arrived i j).map
      (Flit.map BitVec.toInt)
    rw [jobsOf_laneFlits hjobs, List.flatMap_map, List.map_flatMap] at hlane
    have hjob : ∀ job ∈ jobs, (frame (dumped (agmsFunctions R H P).update
        ((job i).map (agmsed H P j)))).map (Flit.map BitVec.toInt)
        = frame ((List.range (2 ^ P)).map
          (signedCount P j (job i : Multiset (BitVec H)))) := by
      intro job hjob
      rw [← frame_map, hF.dumped_eq j (job i), map_toInt_tableList]
      rw [Multiset.coe_card]
      exact (length_le_card_wholeJob job i).trans_lt (hcard job hjob)
    rwa [List.flatMap_congr hjob] at hlane
  · rw [← map_toInt_tables hcard j]
    exact (hrows j).map _
  · have hres : r.state j
      = (partOf (r.rows.counts j).consumed).foldl addSquare 0 :=
      (h.consumer j).res
    rw [hres]
    exact toNat_foldl_addSquare
      (sum_sq_partOf_lt hcard
        ((r.rows.counts j).consumed_isPrefix.trans (hrows j)))

/-- **The AGMS sketch is exact, from its lanes to its sums.** For every number
of lanes, rows and buckets, every sequence of jobs of fewer than `2 ^ 31` flits,
each with a flit on every lane, and every order of arrivals and calls, no
register loses anything against the integers, and every output carries the
beginning of the sums of the jobs; enough fair rounds complete it. -/
theorem agms_sketch_exact (hN : 0 < N) (hjobs : ∀ job ∈ jobs, ∀ i, job i ≠ [])
    (hlength : ∀ job ∈ jobs, ∑ i, (job i).length < 2 ^ 31)
    (schedule : List (SketchEvent N R (Fin R))) :
    let r := (SketchRun.start (folds R)).run (agmsFunctions R H P)
      (folds R) (laneFlits jobs)
      schedule
    AgmsExact jobs r
    ∧ ∃ n, ∀ rounds, n < rounds.length → FairRounds rounds → ∀ j,
        ((r.run (agmsFunctions R H P) (folds R) (laneFlits jobs)
          rounds.flatten).result
            j).written.map (fun sum => (sum.toNat : ℤ))
          = jobs.map (fun job =>
              ∑ k ∈ Finset.range (2 ^ P),
                signedCount P j (wholeJob job) k ^ 2) := by
  intro r
  have hcard : ∀ job ∈ jobs, (wholeJob job).card < 2 ^ 31 := fun job hjob => by
    rw [card_wholeJob]
    exact hlength job hjob
  have hF := agmsFunctions_isSketch R H P
  have hdealt := dealt_laneFlits hjobs
  have hc :=
    folds_lawful
      (SketchRun.tables addCount (fun j : Fin R => agmsed H P j) agmsInc
    (jobs.map wholeJob))
  have hsound := SketchRun.sound_run hF hN hdealt hc schedule
  obtain ⟨n, hn⟩ := hsound.completes hF hN hdealt hc
  refine ⟨hsound.agmsExact hN hjobs hcard, n, fun rounds hrounds hfair j => ?_⟩
  rw [(hn rounds hrounds hfair).2 j, List.map_map,
    ← map_foldl_jobsOf_tables hcard j]
  rfl

/-- Two lanes, one row of two counters and two jobs: whatever has happened, the
sums are those of the signed counts -1 and 0, and then 3 and 0. -/
theorem agms_sketch_exact_instance :
    let jobs : List (Fin 2 → List (BitVec 2)) :=
      [![[0, 3], [1]], ![[2], [2, 2]]]
    let r := (SketchRun.start (folds 1)).run (agmsFunctions 1 2 1)
      (folds 1) (laneFlits jobs)
      [.arrive 1, .row (.split 1), .arrive 0, .row (.collect 1 0 0)]
    ∃ rest, ((r.run (agmsFunctions 1 2 1) (folds 1)
      (laneFlits jobs) rest).result
      0).written.map (fun sum => (sum.toNat : ℤ)) = [1, 9] := by
  intro jobs r
  obtain ⟨-, n, hn⟩ := agms_sketch_exact (R := 1) (P := 1) (by decide)
    (show ∀ job ∈ jobs, ∀ i, job i ≠ [] by decide) (by decide)
      [.arrive 1, .row (.split 1), .arrive 0, .row (.collect 1 0 0)]
  obtain ⟨rounds, hrounds, hfair⟩ := exists_fairRounds 2 1 (Fin 1) n
  refine ⟨rounds.flatten, (hn rounds hrounds hfair 0).trans ?_⟩
  decide

end Runs

end Skt.Hardware
