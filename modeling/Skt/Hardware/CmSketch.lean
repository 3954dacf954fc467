import Skt.Hardware.SketchRuns
import Skt.Hardware.Sketches

/-!
# The Count-Min sketch from its lanes to its counts

`cm_sketch` on its own: the rows of `Skt.Hardware.Rows`, and a `Concat` behind
them that puts the rows of a job into one stream. The counters are 32 bits wide
and count modulo `2 ^ 32`.

The rows dump their tables whenever they are ready, and `Concat` waits for the
row it is at. So what it writes is the tables of the first job in the order of
the rows, then those of the second one, whatever else is ready.

Nothing is assumed of the size of a job: the counts are stated modulo the width
of a counter, as the source computes them.
-/

namespace Skt.Hardware

open Streams Runs Bits

/-! ## The concatenation

The consumer of this sketch, a single process. -/

/-- The concatenation behind the rows, with its index starting from the
first. -/
def concatenation (R : ℕ) :
    Consumer R (BitVec 32) Unit ℕ (Fifo (Flit (BitVec 32))) where
  state := 0
  result := Fifo.new
  call _ idx rows t := concat idx rows t

/-- A call of `concat` that writes nothing stays where it is, and reads
nothing. -/
theorem concat_idle {α : Type*} {n idx : ℕ} {src : Fin n → Fifo (Flit α)}
    {dst : Fifo (Flit α)}
    (h : (concat idx src dst).2.2 = dst) : (concat idx src dst).1 = idx := by
  unfold concat at h ⊢
  split at h
  · next hidx =>
    rw [dif_pos hidx]
    cases hx : (src ⟨idx, hidx⟩).readNb with
    | none => rfl
    | some p =>
      rw [hx] at h
      exact absurd h (Fifo.write_ne _ _)
  · next hidx => rw [dif_neg hidx]

section Concatenation

variable {R : ℕ} (hR : 0 < R) {jobs : List (Fin R → List (BitVec 32))}
  (hjobs : ∀ rows ∈ jobs, ∀ j, rows j ≠ [])
include hjobs

/-- **The concatenation keeps the equation of `Concat`**, on rows that carry the
tables of the jobs. -/
theorem concatenation_lawful :
    (concatenation R).Lawful
      (fun j => jobs.flatMap (fun rows => frame (rows j)))
      (fun idx rows t => Concatenated hR jobs idx rows t.written)
      (fun t => t.written = jobs.flatMap
        (fun rows => frame ((List.finRange R).flatMap rows)))
      (2 * (jobs.flatMap
        (fun rows => frame ((List.finRange R).flatMap rows))).length) where
  start := ⟨0, ⟨0, hR⟩, rfl, Sequencer.after_zero _ _ _⟩
  sound _ _ _ _ hrows h := concat_sound hjobs hrows h
  written _ idx rows t j := written_concat idx rows t j
  grows _ idx rows t := concat_grows idx rows t
  idle _ _ _ _ h := concat_idle (congrArg Prod.snd h)
  complete _ _ _ hrows h hidle := concat_through hjobs hrows h
    (congrArg Prod.snd (hidle ()))
  stays _ _ _ _ _ h hgrows hdone := by
    refine (h.isPrefix hjobs).eq_of_length_le ?_
    rw [← hdone]
    exact hgrows.2.length_le
  size_le _ _ _ _ h := Fifo.size_le (h.isPrefix hjobs).length_le

end Concatenation

/-! ## The counts of a job

The tables of the rows, in words of hash bits and buckets. -/

section Counts

variable {R H P : ℕ}

/-- **The count of a bucket** of row `j`: the flits whose hash bits
`[j * P, (j + 1) * P)` name it. -/
def bucketCount (P j : ℕ) (hashes : Multiset (BitVec H)) (k : ℕ) : ℕ :=
  (hashes.filter (fun h => slice h.toNat (j * P) P = k)).card

/-- The counts of a job, row after row, each modulo the width of a counter. -/
def cmCounters (R P : ℕ) (hashes : Multiset (BitVec H)) : List (BitVec 32) :=
  (List.range R).flatMap (fun j =>
    (List.range (2 ^ P)).map
      (fun k => BitVec.ofNat 32 (bucketCount P j hashes k)))

/-- A job has as many counts as its rows have buckets. -/
theorem length_cmCounters (hashes : Multiset (BitVec H)) :
    (cmCounters R P hashes).length = R * 2 ^ P := by
  unfold cmCounters
  rw [length_flatMap_block _ _
    (fun j _ => by rw [List.length_map, List.length_range]),
    List.length_range]

/-- **The counts by row and bucket**: flit `j * 2 ^ P + k` is the count of
bucket `k` in row `j`. -/
theorem getElem?_cmCounters (hashes : Multiset (BitVec H))
    {j k : ℕ} (hj : j < R) (hk : k < 2 ^ P) :
    (cmCounters R P hashes)[j * 2 ^ P + k]?
      = some (BitVec.ofNat 32 (bucketCount P j hashes k)) := by
  have hB := Nat.two_pow_pos P
  have hdiv : (j * 2 ^ P + k) / 2 ^ P = j := by
    rw [Nat.add_comm, Nat.add_mul_div_right _ _ hB,
      Nat.div_eq_of_lt hk, Nat.zero_add]
  have hmod : (j * 2 ^ P + k) % 2 ^ P = k := by
    rw [Nat.add_comm, Nat.add_mul_mod_self_right, Nat.mod_eq_of_lt hk]
  unfold cmCounters
  rw [getElem?_flatMap_block hB _ _
    (fun j _ => by rw [List.length_map, List.length_range]), hdiv,
    hmod, List.getElem?_range hj, Option.bind_some, List.getElem?_map,
      List.getElem?_range hk,
    Option.map_some]

/-- The tables of the rows hold the counts. -/
theorem flatMap_tableList_cm (hashes : Multiset (BitVec H)) :
    (List.finRange R).flatMap (fun j =>
        tableList
        (hashedTable addCount (fun j : Fin R => cmined H P j) id j hashes))
      = cmCounters R P hashes := by
  have hrange : List.range R = (List.finRange R).map Fin.val :=
    List.map_coe_finRange_eq_range.symm
  unfold cmCounters
  rw [hrange, List.flatMap_map]
  refine List.flatMap_congr (fun j _ => List.map_congr_left (fun k hk => ?_))
  rw [hashedTable_cm, BitVec.toNat_ofNat,
    Nat.mod_eq_of_lt (List.mem_range.mp hk)]
  rfl

end Counts

/-! ## Runs

What `Concat` has written, at any point of a run and in the end. -/

section Runs

variable {N R H P : ℕ} {jobs : List (Fin N → List (BitVec H))}

/-- The rows of the tables of a job, as the consumer is given them. -/
def cmRowTables (R P : ℕ) (hashes : Multiset (BitVec H))
    (j : Fin R) : List (BitVec 32) :=
  tableList (hashedTable addCount (fun j : Fin R => cmined H P j) id j hashes)

/-- **`cm_sketch` counts every job, row after row.** For every number of lanes,
rows and buckets, every sequence of jobs with a flit on every lane, and every
order of arrivals and calls, the output carries the beginning of the counts of
the jobs, each job framed by its own `last`; enough fair rounds complete it.
Flit `j * 2 ^ P + k` of a job counts the flits of bucket `k` in row `j`, and the
`R * 2 ^ P`-th of them is its last one. -/
theorem cm_sketch_counts (hN : 0 < N) (hR : 0 < R)
    (hjobs : ∀ job ∈ jobs, ∀ i, job i ≠ [])
    (schedule : List (SketchEvent N R Unit)) :
    let r := (SketchRun.start (concatenation R)).run
      (cmFunctions R H P) (concatenation R)
      (laneFlits jobs) schedule
    (r.result.written <+: jobs.flatMap
      (fun job => frame (cmCounters R P (wholeJob job)))
      ∧ ∃ n, ∀ rounds, n < rounds.length → FairRounds rounds →
        (r.run (cmFunctions R H P) (concatenation R) (laneFlits jobs)
            rounds.flatten).result.written
          = jobs.flatMap (fun job => frame (cmCounters R P (wholeJob job))))
    ∧ ∀ job ∈ jobs, (frame (cmCounters R P (wholeJob job))).length = R * 2 ^ P
      ∧ ∀ j < R, ∀ k < 2 ^ P,
        (frame (cmCounters R P (wholeJob job)))[j * 2 ^ P + k]?
        = some ⟨decide (j * 2 ^ P + k + 1 = R * 2 ^ P),
            BitVec.ofNat 32 (bucketCount P j (wholeJob job) k)⟩ := by
  intro r
  refine ⟨?_, fun job _ => ⟨?_, fun j hj k hk => ?_⟩⟩
  · set rows := jobs.map (fun job => cmRowTables R P (wholeJob job)) with hrows
    have hne : ∀ table ∈ rows, ∀ j, table j ≠ [] := fun table htable j => by
      obtain ⟨job, -, rfl⟩ := List.mem_map.mp htable
      exact tableList_ne_nil _
    have htables : SketchRun.tables addCount (fun j : Fin R => cmined H P j) id
        (jobs.map wholeJob) = fun j =>
          rows.flatMap (fun table => frame (table j)) := by
      funext j
      unfold SketchRun.tables
      rw [hrows, List.flatMap_map, List.flatMap_map]
      rfl
    have hall : rows.flatMap
      (fun table => frame ((List.finRange R).flatMap table))
        = jobs.flatMap (fun job => frame (cmCounters R P (wholeJob job))) := by
      rw [hrows, List.flatMap_map]
      exact List.flatMap_congr
        (fun job _ => congrArg frame (flatMap_tableList_cm _))
    have hF := cmFunctions_isSketch R H P
    have hdealt := dealt_laneFlits hjobs
    have hc := concatenation_lawful hR hne
    rw [← htables, hall] at hc
    have hsound := SketchRun.sound_run hF hN hdealt hc schedule
    obtain ⟨n, hn⟩ := hsound.completes hF hN hdealt hc
    refine ⟨?_, n, fun rounds hrounds hfair => (hn rounds hrounds hfair).2⟩
    have hprefix := hsound.consumer.isPrefix hne
    rwa [hall] at hprefix
  · rw [length_frame, length_cmCounters]
  · rw [getElem?_frame, getElem?_cmCounters _ hj hk, length_cmCounters]
    rfl

/-- Two lanes, two rows of two counters and two jobs: whatever has happened, the
four counts of the first job come before those of the second one. -/
theorem cm_sketch_counts_instance :
    let jobs : List (Fin 2 → List (BitVec 2)) := [![[0, 3], [1]], ![[2], [2]]]
    let r := (SketchRun.start (concatenation 2)).run
      (cmFunctions 2 2 1) (concatenation 2)
      (laneFlits jobs) [.arrive 1, .row (.split 1), .arrive 0,
        .row (.collect 1 1 0)]
    ∃ rest, (r.run (cmFunctions 2 2 1) (concatenation 2)
      (laneFlits jobs) rest).result.written
      = frame [1, 2, 2, 1] ++ frame [2, 0, 0, 2] := by
  intro jobs r
  obtain ⟨⟨-, n, hn⟩, -⟩ := cm_sketch_counts (R := 2) (P := 1)
    (by decide) (by decide)
    (show ∀ job ∈ jobs, ∀ i, job i ≠ [] by decide)
    [.arrive 1, .row (.split 1), .arrive 0, .row (.collect 1 1 0)]
  obtain ⟨rounds, hrounds, hfair⟩ := exists_fairRounds 2 2 Unit n
  refine ⟨rounds.flatten, (hn rounds hrounds hfair).trans ?_⟩
  decide

end Runs

end Skt.Hardware
