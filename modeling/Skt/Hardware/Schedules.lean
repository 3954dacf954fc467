import Skt.Hardware.Network

/-!
# Runs and their outputs

What a run has written on `dst` is, up to the cycle counts, the beginning of the
records of the jobs. Two runs can therefore differ in how far they have come and
in nothing else, and the runs that have come to rest do not differ at all. The
runs are those of the hardware, in which any process may be called at any time,
and those of the emulation loop, and a run of one kind may be compared with one
of the other.

That two runs which have come to rest agree would be an empty statement if no
run ever did. Every run can be brought to rest: a call either changes a stream
or finds nothing to do, and what happens on the streams is bounded by the jobs.
-/

namespace Skt.Hardware

open Streams

namespace Kernel

variable {cfg : Config} {fl : HllFloat cfg.hashBits cfg.pHll} {N : ℕ}

/-! ## Runs

The step lemma is that every call keeps the equations; here it becomes a
statement about all reachable states. -/

/-- **A firing order**: calls of any processes in any order, or the loop of the
emulation. -/
inductive Schedule (cfg : Config) (N : ℕ) where
  | calls (schedule : List (Proc cfg N))
  | emulation (iterations actions : ℕ)

/-- The state a firing order leads to. The state may be in the middle of
anything. -/
def after (s : Kernel cfg fl N) : Schedule cfg N → Kernel cfg fl N
  | .calls schedule => s.run schedule
  | .emulation iterations actions => s.emulate iterations actions

variable {jobs : List (List (BitVec (cfg.n0 * 32)))}
    {input : List (Axis (cfg.n0 * 32))}

/-- **The equations of all processes hold after every run**, by induction on the
calls. -/
theorem sound_run (hN : 0 < N) (hN0 : N ≤ cfg.n0)
    (hjobs : ∀ job ∈ jobs, job ≠ [])
    (hinput : input.map Axis.flit = jobs.flatMap frame)
    (schedule : List (Proc cfg N)) :
    ((start fl N input).run schedule).Sound jobs :=
  Runs.foldl_invariant fire (fun _ p h => h.fire hjobs hN hN0 p) schedule
    (sound_start hN hinput)

/-- At the start nothing is waiting behind the funnel, so that the emulation
loop may begin with a new stream there. -/
theorem clear_start (fl : HllFloat cfg.hashBits cfg.pHll) (N : ℕ)
    (input : List (Axis (cfg.n0 * 32))) :
    (start fl N input).Clear := fun _ => rfl

/-- The equations hold after every firing order, the emulation being a run. -/
theorem sound_after (hN : 0 < N) (hN0 : N ≤ cfg.n0)
    (hjobs : ∀ job ∈ jobs, job ≠ [])
    (hinput : input.map Axis.flit = jobs.flatMap frame)
    (order : Schedule cfg N) :
    ((start fl N input).after order).Sound jobs := by
  cases order with
  | calls schedule => exact sound_run hN hN0 hjobs hinput schedule
  | emulation iterations actions =>
    obtain ⟨schedule, h⟩ :=
      exists_run_emulate (clear_start fl N input) iterations actions
    show ((start fl N input).emulate iterations actions).Sound jobs
    rw [h]
    exact sound_run hN hN0 hjobs hinput schedule

/-! ## Coming to rest

The bound comes from the equations: no stream can carry more than it carries in
the end. -/

/-- The items a lane has carried are items of the jobs, of which there are `n0`
to a word. -/
theorem Sound.length_lane_le {s : Kernel cfg fl N}
    (h : s.Sound jobs) (i : Fin N) :
    (s.lanes i).length ≤ (jobs.flatMap frame).length * cfg.n0 := by
  calc (s.lanes i).length ≤ ∑ i, (s.lanes i).length :=
        Finset.single_le_sum (f := fun i => (s.lanes i).length)
          (fun _ _ => Nat.zero_le _)
          (Finset.mem_univ i)
    _ = (s.srcFlat 1).consumed.length * cfg.n0 :=
      h.distrFunnel.distributed.total
    _ ≤ _ := Nat.mul_le_mul_right _ (h.srcFlat_isPrefix 1).length_le

/-- What happens in a sketch network is bounded by the jobs, for any functions
of a sketch. -/
theorem bounded_rows {R w : ℕ} {I V : Type} [Zero V] (op : V → V → V)
    [Std.Commutative op] [Std.Associative op] [Std.LawfulIdentity op 0]
    {inc : I → V} {kv : Fin R → BitVec cfg.hashBits → BitVec w × I}
    {F : RowFunctions R cfg.hashBits w I V} (hF : F.IsSketch kv op inc)
    (hN : 0 < N) {k : Fin 3}
    {net : Kernel cfg fl N → Rows N R cfg.hashBits w I V}
    (hnet : ∀ s, s.Sound jobs → (net s).Sound F)
    (hk : ∀ s, s.hashed k = (net s).hashed) :
    Bounded (fun s : Kernel cfg fl N => s.Sound jobs)
      (fun s => (net s).streams) :=
  ⟨_, fun s h => (hnet s h).size_le op hF hN cfg.hash h.distrFunnel.distributed
    (h.srcFlat_isPrefix 1).length_le (fun i => hk s ▸ h.hashed_isPrefix k i)⟩

/-- **What happens on the streams is bounded by the jobs**, stream by stream.
The bound is not meant to be sharp. -/
theorem bounded_streams (fl : HllFloat cfg.hashBits cfg.pHll)
    (hjobs : ∀ job ∈ jobs, job ≠ [])
    (hN : 0 < N) :
    Bounded (fun s : Kernel cfg fl N => s.Sound jobs) streams := by
  set n := (jobs.flatMap frame).length with hn
  have hsrc : ∀ s : Kernel cfg fl N, s.Sound jobs →
    s.src.written.length ≤ n := fun s h => by
    rw [hn, ← h.src, List.length_map]
  have hsrcBuf : ∀ s : Kernel cfg fl N, s.Sound jobs →
    s.srcBuf.written.length ≤ n :=
    fun s h => by
      rw [h.srcMap, List.length_map]
      exact s.src.consumed_isPrefix.length_le.trans (hsrc s h)
  have hsrcFlat : ∀ s : Kernel cfg fl N, s.Sound jobs →
    ∀ k, (s.srcFlat k).written.length ≤ n :=
    fun s h k => by
      rw [h.tickSplit k]
      exact h.srcBuf_isPrefix.length_le
  have hsrcBasic : ∀ s : Kernel cfg fl N, s.Sound jobs →
    s.srcBasic.written.length ≤ n :=
    fun s h => by
      rw [h.summaryMap, List.length_map]
      exact (h.srcFlat_isPrefix 0).length_le
  have hfunnelled : ∀ i, ∀ s : Kernel cfg fl N, s.Sound jobs →
      (s.srcFunnelled i).written.length ≤ n * cfg.n0 := fun i s h =>
    ((List.prefix_append _ _).length_le).trans (h.length_lane_le i)
  have hdst : ∀ s : Kernel cfg fl N, s.Sound jobs →
      s.io.dst.written.length ≤ jobs.length * recordLength
        cfg.rAgms cfg.rCm cfg.pCm :=
    fun s h => by
      have hle := h.compose.length_le cfg.rCm_pos cfg.pCm_pos
      rwa [List.length_map] at hle
  refine (Fifo.bounded hsrc).prod ((Fifo.bounded hsrcBuf).prod
    ((Bounded.family fun k => Fifo.bounded fun s h => hsrcFlat s h k).prod
    ((Fifo.bounded hsrcBasic).prod
      ((Bounded.family fun i => Fifo.bounded (hfunnelled i)).prod
    (Bounded.prod ?_
      (Bounded.prod ?_ (Bounded.prod ?_ (Bounded.prod ?_ ?_))))))))
  · exact bounded_rows _ (hllFunctions_isSketch _ _) hN (fun s h => h.hll)
      (fun s => show s.hashed 0 = _ from rfl)
  · exact bounded_rows _ (agmsFunctions_isSketch _ _ _) hN (fun s h => h.agms)
      (fun s => show s.hashed 1 = _ from rfl)
  · exact bounded_rows _ (cmFunctions_isSketch _ _ _) hN (fun s h => h.cm)
      (fun s => show s.hashed 2 = _ from rfl)
  · -- the streams of `compose`
    refine Bounded.prod ?_ (Bounded.prod ?_ (Bounded.prod ?_ (Bounded.prod ?_
      (Bounded.prod ?_ (Fifo.bounded hdst)))))
    · exact Fifo.bounded (fun s h => h.tick.trans h.srcBuf_isPrefix.length_le)
    · exact Bounded.family fun j => Fifo.bounded fun s h =>
        (h.agmsSums_isPrefix hjobs hN j).length_le
    · exact Fifo.bounded fun s h => (h.dstBasic_isPrefix hjobs).length_le
    · exact Fifo.bounded fun s h => (h.cardest_isPrefix hjobs hN).length_le
    · exact Fifo.bounded fun s h => h.cmCounts_isPrefix.length_le
  · have hwritten : ∀ s : Kernel cfg fl N, s.Sound jobs →
        s.dst.written.length ≤ jobs.length * recordLength
          cfg.rAgms cfg.rCm cfg.pCm :=
      fun s h => by
        rw [h.dstMap, List.length_map]
        exact s.io.dst.consumed_isPrefix.length_le.trans (hdst s h)
    exact Fifo.bounded hwritten

/-- **Every run can be brought to rest**: after any calls there are further ones
that leave no process anything to do. -/
theorem exists_quiescent_after
    (fl : HllFloat cfg.hashBits cfg.pHll) (hN : 0 < N) (hN0 : N ≤ cfg.n0)
    (hjobs : ∀ job ∈ jobs, job ≠ [])
    (hinput : input.map Axis.flit = jobs.flatMap frame)
    (first : List (Proc cfg N)) :
    ∃ rest, ((start fl N input).run (first ++ rest)).Quiescent := by
  obtain ⟨n, hn⟩ := bounded_streams fl hjobs hN
  obtain ⟨s, ⟨rest, rfl⟩, hs⟩ := exists_not_outgrown streams
    (S := fun s => ∃ rest, s = (start fl N input).run (first ++ rest))
    ⟨[], congrArg _ (List.append_nil first).symm⟩
    ⟨n, fun s ⟨rest, he⟩ =>
      hn s (he ▸ sound_run hN hN0 hjobs hinput (first ++ rest))⟩
  refine ⟨rest, fun p => hs _ ⟨rest ++ [p], ?_⟩ (fire_grows _ p)⟩
  rw [← List.append_assoc]
  exact (List.foldl_concat _ _ _ _).symm

/-- **Some run comes to rest.** -/
theorem exists_quiescent (fl : HllFloat cfg.hashBits cfg.pHll) (hN : 0 < N)
    (hN0 : N ≤ cfg.n0) (hjobs : ∀ job ∈ jobs, job ≠ [])
    (hinput : input.map Axis.flit = jobs.flatMap frame) :
    ∃ schedule, ((start fl N input).run schedule).Quiescent :=
  exists_quiescent_after fl hN hN0 hjobs hinput []

/-! ## Outputs

What the host sees is the list of beats on `dst`. -/

/-- **The words on `dst` up to the cycle counts**: of every record, the word
that holds the cycle count loses its upper half. -/
def output (s : Kernel cfg fl N) : List (Axis 64) :=
  s.dst.written.mapIdx (fun k x =>
    if k % recordLength cfg.rAgms cfg.rCm cfg.pCm = cfg.rAgms + 4 then
      { x with data := (x.data.setWidth 32).setWidth 64 }
    else x)

/-- **One record per job**: the words on `dst` are records of the length of a
record, framed, and there are as many as jobs. -/
def OneRecordEach (jobs : List (List (BitVec (cfg.n0 * 32))))
    (s : Kernel cfg fl N) : Prop :=
  ∃ records : List (List (BitVec 64)), s.dst.written.map Axis.flit
    = records.flatMap frame
    ∧ (∀ record ∈ records, record.length
      = recordLength cfg.rAgms cfg.rCm cfg.pCm)
    ∧ records.length = jobs.length

/-- The output map changes no word: it adds the keep bits. -/
theorem Sound.output_eq {s : Kernel cfg fl N} (h : s.Sound jobs) :
    s.output
      = (upToCycs cfg.rAgms cfg.rCm cfg.pCm s.io.dst.consumed).map
        Axis.ofFlit := by
  unfold output upToCycs
  rw [h.dstMap]
  refine List.ext_getElem? (fun k => ?_)
  rw [List.getElem?_mapIdx, List.getElem?_map, List.getElem?_map,
    List.getElem?_mapIdx,
    Option.map_map, Option.map_map]
  refine congrArg (fun f => Option.map f _) (funext fun w => ?_)
  dsimp only [Function.comp_apply]
  split <;> rfl

/-- The records of the jobs, without cycle counts, as they come out on `dst`. -/
def records (fl : HllFloat cfg.hashBits cfg.pHll) (N : ℕ)
    (jobs : List (List (BitVec (cfg.n0 * 32)))) : List (Axis 64) :=
  (jobs.flatMap
    (fun job => frame ((resultOf cfg fl N job).words fl.bits 0))).map
      Axis.ofFlit

/-- **What a run has written is the beginning of the records.** -/
theorem Sound.output_isPrefix {s : Kernel cfg fl N} (h : s.Sound jobs) :
    s.output <+: records fl N jobs := by
  have hprefix := h.compose.upToCycs_isPrefix cfg.rCm_pos cfg.pCm_pos
  rw [List.flatMap_map] at hprefix
  rw [h.output_eq]
  exact (((upToCycs_mono s.io.dst.consumed_isPrefix).trans
    hprefix).map Axis.ofFlit)

/-- **What a run that has come to rest has written is all records.** -/
theorem Sound.output_eq_records {s : Kernel cfg fl N} (h : s.Sound jobs)
    (hc : s.Complete jobs) : s.output = records fl N jobs := by
  have hall := h.compose.upToCycs_eq cfg.rCm_pos cfg.pCm_pos (by
    rw [List.length_map]
    exact hc.records)
  rw [List.flatMap_map] at hall
  rw [h.output_eq, hc.dst, hall]
  rfl

/-- A run that has come to rest has one record per job, of full length and
framed. -/
theorem Sound.oneRecordEach {s : Kernel cfg fl N} (h : s.Sound jobs)
    (hc : s.Complete jobs) :
    s.OneRecordEach jobs := by
  obtain ⟨records, hdst, hlen, hcount⟩ :=
    h.compose.exists_records cfg.rCm_pos cfg.pCm_pos (by
    rw [List.length_map]
    exact hc.records)
  refine ⟨records, ?_, hlen, hcount.trans (List.length_map _)⟩
  rw [h.dstMap, hc.dst, ← hdst, List.map_map]
  exact List.map_id' _

/-- **Schedule independence.** Whatever the lane count and the jobs, the outputs
of two runs differ only in how far they have come, up to the cycle counts; when
both have come to rest they are the same, with one record per job. -/
theorem schedule_independence (hN : 0 < N) (hN0 : N ≤ cfg.n0)
    (hjobs : ∀ job ∈ jobs, job ≠ [])
    (hinput : input.map Axis.flit = jobs.flatMap frame) (a b : Schedule cfg N) :
    (((start fl N input).after a).output <+: ((start fl N input).after b).output
        ∨ ((start fl N input).after b).output
          <+: ((start fl N input).after a).output)
      ∧ (((start fl N input).after a).Quiescent →
        ((start fl N input).after b).Quiescent →
        ((start fl N input).after a).output
          = ((start fl N input).after b).output
          ∧ ((start fl N input).after a).OneRecordEach jobs
          ∧ ((start fl N input).after b).OneRecordEach jobs) := by
  have ha : ((start fl N input).after a).Sound jobs :=
    sound_after hN hN0 hjobs hinput a
  have hb : ((start fl N input).after b).Sound jobs :=
    sound_after hN hN0 hjobs hinput b
  refine ⟨List.prefix_or_prefix_of_prefix ha.output_isPrefix hb.output_isPrefix,
    fun hqa hqb => ?_⟩
  have hca := ha.complete hjobs hN hN0 hqa
  have hcb := hb.complete hjobs hN hN0 hqb
  refine ⟨?_, ha.oneRecordEach hca, hb.oneRecordEach hcb⟩
  rw [ha.output_eq_records hca, hb.output_eq_records hcb]

/-- Schedule independence at work, for two jobs on twelve of the sixteen lanes.
One run starts from the end of the pipeline and one from its front; both come to
rest, each with the two records of the other, and what the emulation loop has
written in its third iteration is a beginning of them or the other way round. -/
theorem schedule_independence_instance :
    let jobs : List (List (BitVec (Config.shipped.n0 * 32))) := [[7], [1, 2]]
    let input : List (Axis (Config.shipped.n0 * 32)) :=
      [⟨7, BitVec.allOnes _, true⟩,
      ⟨1, BitVec.allOnes _, false⟩, ⟨2, BitVec.allOnes _, true⟩]
    let s := (start (HllFloat.single _ Config.shipped.pHll) 12 input).after
    ∃ a b, (s (.calls ([.dstMap, .srcMap] ++ a))).Quiescent
      ∧ (s (.calls ([.srcMap, .tickSplit] ++ b))).Quiescent
      ∧ (s (.calls ([.dstMap, .srcMap] ++ a))).output
        = (s (.calls ([.srcMap, .tickSplit] ++ b))).output
      ∧ (s (.calls ([.dstMap, .srcMap] ++ a))).OneRecordEach jobs
      ∧ ((s (.emulation 2 7)).output
        <+: (s (.calls ([.dstMap, .srcMap] ++ a))).output
        ∨ (s (.calls ([.dstMap, .srcMap] ++ a))).output
          <+: (s (.emulation 2 7)).output) := by
  intro jobs input s
  have hjobs : ∀ job ∈ jobs, job ≠ [] := by simp [jobs]
  have hinput : input.map Axis.flit = jobs.flatMap frame := rfl
  obtain ⟨a, ha⟩ := exists_quiescent_after (N := 12)
    (HllFloat.single _ Config.shipped.pHll)
    (by decide) (by decide) hjobs hinput [.dstMap, .srcMap]
  obtain ⟨b, hb⟩ := exists_quiescent_after (N := 12)
    (HllFloat.single _ Config.shipped.pHll)
    (by decide) (by decide) hjobs hinput [.srcMap, .tickSplit]
  obtain ⟨-, hequal⟩ := schedule_independence (N := 12) (by decide)
    (by decide) hjobs hinput
    (.calls ([.dstMap, .srcMap] ++ a)) (.calls ([.srcMap, .tickSplit] ++ b))
  obtain ⟨hcomparable, -⟩ := schedule_independence (N := 12) (by decide)
    (by decide) hjobs hinput
    (.emulation 2 7) (.calls ([.dstMap, .srcMap] ++ a))
  obtain ⟨houtput, hrecords, -⟩ := hequal ha hb
  exact ⟨a, b, ha, hb, houtput, hrecords, hcomparable⟩

end Kernel

end Skt.Hardware
