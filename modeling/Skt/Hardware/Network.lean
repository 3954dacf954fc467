import Skt.Lib.Runs
import Skt.Hardware.Kernel

/-!
# Schedule independence

Every process of the kernel has an equation between what it has consumed and
what it has written. All of them hold in every reachable state, because a call
of one process disturbs none of the others: it changes the state of that process
and the streams next to it, and a stream it writes to or reads from appears in
the neighbour's equation only through what the neighbour has done itself.

Together they say how far a run has come: every stream has the beginning of what
it carries in the end, and in a quiescent state it has all of it. What a stream
carries in the end does not depend on the run, except between the funnel and the
reductions, where the lanes hold the items of a job in some distribution.

Two processes need to know what their inputs carry, since they go through a
script: `Concat` and `compose`. Their equations are kept only because the
equations behind them hold, and so the streams are solved front to back before
the calls are gone through.
-/

namespace Skt.Hardware

open Streams

/-! ## What the kernel computes

The results of a job as functions of its words, with no stream in between. -/

/-- The items of a job, word by word. -/
def itemsOf {N0 : ℕ} (job : List (BitVec (N0 * 32))) : List (BitVec 32) :=
  job.flatMap wordItems

@[simp] theorem length_itemsOf {N0 : ℕ} (job : List (BitVec (N0 * 32))) :
    (itemsOf job).length = job.length * N0 :=
  length_flatMap_block _ _ (fun _ _ => length_wordItems _)

section Results

variable (cfg : Config) (fl : HllFloat cfg.hashBits cfg.pHll) (N : ℕ)
  (job : List (BitVec (cfg.n0 * 32)))

/-- The joined ranks of a job, in the order of the buckets. -/
def ranksOf : List (Rank cfg.hashBits cfg.pHll) :=
  tableList (hllTable cfg.hashBits cfg.pHll cfg.hash (itemsOf job : List _))

/-- The counters of an AGMS row of a job, in the order of the keys. -/
def agmsCounts (j : Fin cfg.rAgms) : List (BitVec 32) :=
  tableList (agmsTable cfg.hashBits cfg.pAgms cfg.hash j (itemsOf job : List _))

/-- **The results of a job**: the sums of squares of the AGMS rows, the
statistics of its word summaries, the estimate from its joined ranks, and its
Count-Min rows. -/
def resultOf : JobResult fl.F cfg.rAgms cfg.rCm cfg.pCm where
  agms j := (agmsCounts cfg job j).foldl addSquare 0
  basic := BasicSketch.jobStats cfg.n0 (job.map (summaryOf (clog2 N)))
  cardest := HllEstimator.cardOf fl (ranksOf cfg job)
  counts j := cmTable cfg.hashBits cfg.pCm cfg.hash j (itemsOf job : List _)

end Results

/-- The Count-Min rows of a job, as `Concat` reads them: one list for each
row. -/
def cmRows (cfg : Config) (job : List (BitVec (cfg.n0 * 32)))
    (j : Fin cfg.rCm) :
    List (BitVec 32) :=
  tableList (cmTable cfg.hashBits cfg.pCm cfg.hash j (itemsOf job : List _))

/-! ## The invariant

One field for each process, named after it. -/

namespace Kernel

variable {cfg : Config} {fl : HllFloat cfg.hashBits cfg.pHll} {N : ℕ}

/-- **The equations of all processes**, for the jobs the beats of the host are
made of. The equation of the ticks is weaker than the others, as nothing but
their number is needed: how far the ticks are ahead of the records is the
subject of the cycle counts. -/
structure Sound (jobs : List (List (BitVec (cfg.n0 * 32))))
    (s : Kernel cfg fl N) : Prop where
  /-- What the host has written are the words of the jobs, framed. -/
  src : s.src.written.map Axis.flit = jobs.flatMap frame
  srcMap : s.srcBuf.written = s.src.consumed.map Axis.flit
  /-- At most one tick for every word. The ticks are not in the records, and of
  when they are read nothing is said here. -/
  tick : s.io.tickSrc.written.length ≤ s.srcBuf.consumed.length
  /-- Both copies of the words are written in the same call. -/
  tickSplit : ∀ k, (s.srcFlat k).written = s.srcBuf.consumed
  summaryMap : s.srcBasic.written = (s.srcFlat 0).consumed.map
    (Flit.map (summaryOf (clog2 N)))
  basicSketch : BasicSketch.Dumped cfg.n0 s.basic s.srcBasic.consumed
    s.io.dstBasic.written
  /-- The lanes and what waits in the buffer are a distribution of the words. -/
  distrFunnel : Funnel.Funnelled s.funnel (s.srcFlat 1).consumed
    (fun i => (s.srcFunnelled i).written)
  /-- The hashed lanes are the same for the three sketches, each of which reads
  its own copy. -/
  distribute : ∀ k i, (s.hashed k i).written
    = (s.srcFunnelled i).consumed.map (Flit.map cfg.hash)
  /-- The equations of the rows, all processes of the network in one. -/
  hll : s.hll.Sound (hllFunctions _ _)
  /-- One estimate for each job of joined ranks, and the registers hold the open
  one. -/
  estimate : HllEstimator.Estimated fl s.estimator
    (s.hll.counts 0).consumed s.io.cardest.written
  agms : s.agms.Sound (agmsFunctions _ _ _)
  /-- One sum for each job of counters, row by row. -/
  fold : ∀ j, Folded addSquare 0 (s.folds j) (s.agms.counts j).consumed
    (s.io.agmsSums j).written
  cm : s.cm.Sound (cmFunctions _ _ _)
  /-- Unlike the ones before, this equation names the jobs: it says how far the
  process has come down a script. -/
  concat : Concatenated cfg.rCm_pos (jobs.map (cmRows cfg)) s.concat
    (fun j => (s.cm.counts j).consumed) s.io.cmCounts.written
  /-- So does this one, with the results of the jobs for a script. -/
  compose : Composed fl.bits (jobs.map (resultOf cfg fl N)) s.compose
    (fun i => (s.io.port fl.bits i).consumed) s.io.dst.written
  dstMap : s.dst.written = s.io.dst.consumed.map Axis.ofFlit

theorem sound_start (hN : 0 < N) {jobs : List (List (BitVec (cfg.n0 * 32)))}
    {input : List (Axis (cfg.n0 * 32))}
    (hinput : input.map Axis.flit = jobs.flatMap frame) :
    (start fl N input).Sound jobs where
  src := hinput
  srcMap := rfl
  tick := le_rfl
  tickSplit _ := rfl
  summaryMap := rfl
  basicSketch := BasicSketch.dumped_init cfg.n0
  distrFunnel := Funnel.funnelled_init hN
  distribute k i := by
    fin_cases k <;> rfl
  hll := Rows.sound_init
  estimate := ⟨rfl, rfl⟩
  agms := Rows.sound_init
  fold _ := ⟨rfl, rfl⟩
  cm := Rows.sound_init
  concat := ⟨0, ⟨0, cfg.rCm_pos⟩, rfl, Sequencer.after_zero _ _ _⟩
  compose := by
    have h := composed_init fl.bits (jobs.map (resultOf cfg fl N))
    have hnil : (fun i => ((start fl N input).io.port fl.bits i).consumed)
      = fun _ => [] :=
      funext fun i => by cases i <;> rfl
    rw [hnil]
    exact h
  dstMap := rfl

section Sound

variable {jobs : List (List (BitVec (cfg.n0 * 32)))} {s : Kernel cfg fl N}

/-! ## How far a run has come

From the source buffer to the inputs of `compose`, stream by stream. Each step
combines the equation of a process with what is known of its input. -/

/-- What the source buffer has passed on is the beginning of the jobs: the words
of the host, in their order. -/
theorem Sound.srcBuf_isPrefix (h : s.Sound jobs) :
    s.srcBuf.consumed <+: jobs.flatMap frame := by
  refine s.srcBuf.consumed_isPrefix.trans ?_
  rw [h.srcMap, ← h.src]
  exact s.src.consumed_isPrefix.map _

/-- So is what the two paths behind it have read, one as far as it has come and
the other as far as it has. -/
theorem Sound.srcFlat_isPrefix (h : s.Sound jobs) (k : Fin 2) :
    (s.srcFlat k).consumed <+: jobs.flatMap frame := by
  refine (s.srcFlat k).consumed_isPrefix.trans ?_
  rw [h.tickSplit k]
  exact h.srcBuf_isPrefix

/-- The items of the lanes, on their way or waiting in the funnel. -/
def lanes (s : Kernel cfg fl N) (i : Fin N) : List (Flit (BitVec 32)) :=
  (s.srcFunnelled i).written ++ s.funnel.waiting i

/-- The hashed lanes are the beginning of the lanes, for each of the three
sketches. -/
theorem Sound.hashed_isPrefix (h : s.Sound jobs) (k : Fin 3) (i : Fin N) :
    (s.hashed k i).written <+: (s.lanes i).map (Flit.map cfg.hash) := by
  rw [h.distribute k i]
  exact ((s.srcFunnelled i).consumed_isPrefix.trans
    (List.prefix_append _ _)).map _

/-- Complete jobs at the funnel are jobs of the host, and the first ones. -/
theorem Sound.jobsOf_srcFlat (h : s.Sound jobs)
    (hjobs : ∀ job ∈ jobs, job ≠ []) (k : Fin 2) :
    jobsOf (s.srcFlat k).consumed <+: jobs := by
  have hprefix := jobsOf_isPrefix (h.srcFlat_isPrefix k)
  rwa [jobsOf_flatMap_frame hjobs] at hprefix

/-- **What a sketch network writes** is the beginning of the tables of the jobs.
The lemma is stated once, for any functions of a sketch, and used for all
three. -/
theorem Sound.rows_isPrefix {R w : ℕ} {I V : Type} [Zero V] {op : V → V → V}
    [Std.Commutative op] [Std.Associative op] [Std.LawfulIdentity op 0]
    {inc : I → V} {kv : Fin R → BitVec cfg.hashBits → BitVec w × I}
    {F : RowFunctions R cfg.hashBits w I V} {net : Rows N R cfg.hashBits w I V}
    (h : s.Sound jobs) (hjobs : ∀ job ∈ jobs, job ≠ []) (hN : 0 < N)
    (hnet : net.Sound F) (hF : F.IsSketch kv op inc) {k : Fin 3}
    (hk : s.hashed k = net.hashed) (j : Fin R) :
    (net.counts j).written <+: jobs.flatMap (fun job =>
      frame (tableList
        (rowTable op kv inc cfg.hash j (itemsOf job : List _)))) := by
  refine (hnet.counts_isPrefix hF hN cfg.hash h.distrFunnel.distributed
    (fun i => hk ▸ h.hashed_isPrefix k i) j).trans ?_
  exact flatMap_isPrefix (h.jobsOf_srcFlat hjobs 1) _

/-- Jobs of tables, taken off a stream: each table is framed as one job. -/
theorem jobsOf_tables {w : ℕ} {V : Type}
    {T : List (BitVec (cfg.n0 * 32)) → BitVec w → V} {xs : List (Flit V)}
    (h : xs <+: jobs.flatMap (fun job => frame (tableList (T job)))) :
    jobsOf xs <+: jobs.map (fun job => tableList (T job)) := by
  have hne : ∀ l ∈ jobs.map (fun job => tableList (T job)), l ≠ [] := by
    intro l hl
    obtain ⟨job, -, rfl⟩ := List.mem_map.mp hl
    rw [← List.length_pos_iff, length_tableList]
    exact Nat.two_pow_pos w
  have hjobs := jobsOf_isPrefix h
  rwa [← List.flatMap_map (fun job => tableList (T job)),
    jobsOf_flatMap_frame hne] at hjobs

/-- The joined ranks come out job by job, and no rank of a later job is mixed
into an earlier one. -/
theorem Sound.hll_isPrefix (h : s.Sound jobs)
    (hjobs : ∀ job ∈ jobs, job ≠ []) (hN : 0 < N) :
    (s.hll.counts 0).written
      <+: jobs.flatMap (fun job => frame (ranksOf cfg job)) :=
  h.rows_isPrefix hjobs hN h.hll (hllFunctions_isSketch _ _)
    (show s.hashed 0 = _ from rfl) 0

/-- So do the counters of an AGMS row. -/
theorem Sound.agms_isPrefix (h : s.Sound jobs)
    (hjobs : ∀ job ∈ jobs, job ≠ []) (hN : 0 < N) (j : Fin cfg.rAgms) :
    (s.agms.counts j).written
      <+: jobs.flatMap (fun job => frame (agmsCounts cfg job j)) :=
  h.rows_isPrefix hjobs hN h.agms (agmsFunctions_isSketch _ _ _)
    (show s.hashed 1 = _ from rfl) j

/-- So do the counters of a Count-Min row. -/
theorem Sound.cm_isPrefix (h : s.Sound jobs)
    (hjobs : ∀ job ∈ jobs, job ≠ []) (hN : 0 < N) (j : Fin cfg.rCm) :
    (s.cm.counts j).written
      <+: jobs.flatMap (fun job => frame (cmRows cfg job j)) :=
  h.rows_isPrefix hjobs hN h.cm (cmFunctions_isSketch _ _ _)
    (show s.hashed 2 = _ from rfl) j

/-- The sums of squares come out job by job, each when the last counter of its
row has been folded in. -/
theorem Sound.agmsSums_isPrefix (h : s.Sound jobs)
    (hjobs : ∀ job ∈ jobs, job ≠ []) (hN : 0 < N) (j : Fin cfg.rAgms) :
    (s.io.agmsSums j).written
      <+: jobs.map (fun job => (resultOf cfg fl N job).agms j) := by
  rw [(h.fold j).dst]
  have hcounts := jobsOf_tables ((s.agms.counts j).consumed_isPrefix.trans
    (h.agms_isPrefix hjobs hN j))
  have hmap := hcounts.map (List.foldl addSquare 0)
  rw [List.map_map] at hmap
  exact hmap

/-- So do the dumps of the basic sketch, which has the words in their order and
no need of a funnel. -/
theorem Sound.dstBasic_isPrefix (h : s.Sound jobs)
    (hjobs : ∀ job ∈ jobs, job ≠ []) :
    s.io.dstBasic.written
      <+: jobs.flatMap
        (fun job => frame (resultOf cfg fl N job).basic.words) := by
  have hconsumed : s.srcBasic.consumed
      <+: (s.srcFlat 0).consumed.map (Flit.map (summaryOf (clog2 N))) := by
    rw [← h.summaryMap]
    exact s.srcBasic.consumed_isPrefix
  have hjobsOf := jobsOf_isPrefix hconsumed
  rw [jobsOf_map] at hjobsOf
  have hall := hjobsOf.trans ((h.jobsOf_srcFlat hjobs 0).map _)
  have hdump := h.basicSketch.isPrefix.trans (flatMap_isPrefix hall _)
  rw [List.flatMap_map] at hdump
  exact hdump

/-- So do the estimates, one for each table of joined ranks. -/
theorem Sound.cardest_isPrefix (h : s.Sound jobs)
    (hjobs : ∀ job ∈ jobs, job ≠ []) (hN : 0 < N) :
    s.io.cardest.written
      <+: jobs.map (fun job => (resultOf cfg fl N job).cardest) := by
  rw [h.estimate.dst]
  have hranks :=
    jobsOf_tables
      ((s.hll.counts 0).consumed_isPrefix.trans (h.hll_isPrefix hjobs hN))
  have hmap := hranks.map (HllEstimator.cardOf fl)
  rw [List.map_map] at hmap
  exact hmap

/-- Rows of counts are not empty. -/
theorem cmRows_ne_nil (cfg : Config)
    (jobs : List (List (BitVec (cfg.n0 * 32)))) :
    ∀ rows ∈ jobs.map (cmRows cfg), ∀ j, rows j ≠ [] := by
  intro rows hrows j
  obtain ⟨job, -, rfl⟩ := List.mem_map.mp hrows
  rw [← List.length_pos_iff, cmRows, length_tableList]
  exact Nat.two_pow_pos _

/-- So do the Count-Min counts, row after row. It needs nothing of the rows, as
the equation of `Concat` names the jobs itself. -/
theorem Sound.cmCounts_isPrefix (h : s.Sound jobs) :
    s.io.cmCounts.written
      <+: jobs.flatMap
        (fun job => frame (resultOf cfg fl N job).countList) := by
  have hconcat := h.concat.isPrefix (cmRows_ne_nil cfg jobs)
  rw [List.flatMap_map] at hconcat
  exact hconcat

/-- **The inputs of `compose` carry the results of the jobs**, each of them the
beginning of its own. -/
theorem Sound.port_isPrefix (h : s.Sound jobs)
    (hjobs : ∀ job ∈ jobs, job ≠ []) (hN : 0 < N) (i : ComposePort cfg.rAgms) :
    (s.io.port fl.bits i).written
      <+: (jobs.map (resultOf cfg fl N)).flatMap
        (JobResult.feed fl.bits · i) := by
  refine ComposePorts.port_isPrefix ?_ ?_ ?_ ?_ i
  · intro j
    rw [List.map_map]
    exact h.agmsSums_isPrefix hjobs hN j
  · rw [List.flatMap_map]
    exact h.dstBasic_isPrefix hjobs
  · rw [List.map_map]
    exact h.cardest_isPrefix hjobs hN
  · rw [List.flatMap_map]
    exact h.cmCounts_isPrefix

/-! ## Every call keeps the equations

First three facts that several processes share. -/

/-- There are no more ticks than words: a call writes at most one tick, and only
when it consumes a word. -/
theorem tick_sound {srcLast : Bool}
    {srcBuf : Fifo (Flit (BitVec (cfg.n0 * 32)))} {tickSrc : Fifo Bool}
    {srcFlat : Fin 2 → Fifo (Flit (BitVec (cfg.n0 * 32)))}
    (h : tickSrc.written.length ≤ srcBuf.consumed.length) :
    (tick srcLast srcBuf tickSrc).2.written.length
      ≤ (split (fun x (_ : Fin 2) => x) srcBuf srcFlat).1.consumed.length := by
  unfold tick split
  cases hx : srcBuf.readNb with
  | none => exact h
  | some p =>
    dsimp only
    rw [Fifo.consumed_of_readNb hx, List.length_append, List.length_singleton]
    cases srcLast with
    | true =>
      rw [if_pos rfl, Fifo.written_write, List.length_append,
        List.length_singleton]
      omega
    | false =>
      rw [if_neg Bool.false_ne_true]
      omega

/-- Of the two paths, one has been read from; what has been written to them is
as before. -/
theorem Sound.tickSplit_update (h : s.Sound jobs) {k : Fin 2}
    {x : Fifo (Flit (BitVec (cfg.n0 * 32)))}
    (hx : x.written = (s.srcFlat k).written) (k' : Fin 2) :
    (Function.update s.srcFlat k x k').written = s.srcBuf.consumed := by
  by_cases hk : k' = k
  · rw [hk, Function.update_self, hx, h.tickSplit k]
  · rw [Function.update_of_ne hk, h.tickSplit k']

/-- Nothing has been put into the hashed lanes, so that the equation of
`distribute` still holds. Every process but `distribute` itself uses it. -/
theorem Sound.distribute_congr (h : s.Sound jobs) {s' : Kernel cfg fl N}
    (hsrc : s'.srcFunnelled = s.srcFunnelled)
    (hhll : ∀ i, (s'.hll.hashed i).written = (s.hll.hashed i).written)
    (hagms : ∀ i, (s'.agms.hashed i).written = (s.agms.hashed i).written)
    (hcm : ∀ i, (s'.cm.hashed i).written = (s.cm.hashed i).written) (k : Fin 3)
    (i : Fin N) :
    (s'.hashed k i).written
      = (s'.srcFunnelled i).consumed.map (Flit.map cfg.hash) := by
  rw [hsrc, ← h.distribute k i]
  fin_cases k
  · exact hhll i
  · exact hagms i
  · exact hcm i

/-! ### The processes

One lemma for each, in the order of the source. The equation of the process is
kept by its own lemma, and the others because their streams have not changed
where they look at them. -/

/-- The words read from the source are buffered, without their keep bits. -/
theorem Sound.fire_srcMap (h : s.Sound jobs) : (s.fire .srcMap).Sound jobs :=
  { h with
    src := (congrArg (List.map Axis.flit)
      (written_map Axis.flit s.src s.srcBuf)).trans h.src
    srcMap := map_sound h.srcMap
    tick := h.tick.trans_eq (congrArg List.length (consumed_map _ _ _)).symm
    tickSplit := fun k => (h.tickSplit k).trans (consumed_map _ _ _).symm }

/-- Both paths behind the buffer get every word, and the tick stream at most one
tick for it. -/
theorem Sound.fire_tickSplit (h : s.Sound jobs) :
    (s.fire .tickSplit).Sound jobs := by
  have hcons : ∀ k,
    ((split (fun x (_ : Fin 2) => x) s.srcBuf s.srcFlat).2 k).consumed
      = (s.srcFlat k).consumed := consumed_split _ _ _
  exact { h with
    srcMap := (written_split _ _ _).trans h.srcMap
    tick := tick_sound h.tick
    tickSplit := fun k => by
      have hsplit :
        ((split (fun x (_ : Fin 2) => x) s.srcBuf s.srcFlat).2 k).written
          = (split (fun x (_ : Fin 2) => x) s.srcBuf s.srcFlat).1.consumed.map
            (fun x => x) :=
        split_sound (fun k => by rw [h.tickSplit k, List.map_id']) k
      rwa [List.map_id'] at hsplit
    summaryMap := h.summaryMap.trans (congrArg (List.map _) (hcons 0).symm)
    distrFunnel := by
      show Funnel.Funnelled s.funnel
        ((split _ s.srcBuf s.srcFlat).2 1).consumed _
      rw [hcons 1]
      exact h.distrFunnel
    compose := h.compose.congr ⟨fun _ => rfl, rfl, rfl, rfl⟩ rfl }

/-- The first path summarizes its words. -/
theorem Sound.fire_summaryMap (h : s.Sound jobs) :
    (s.fire .summaryMap).Sound jobs := by
  set q := map (Flit.map (summaryOf (clog2 N))) (s.srcFlat 0) s.srcBasic with hq
  exact { h with
    tickSplit := h.tickSplit_update (written_map _ _ _)
    summaryMap := by
      show q.2.written = (Function.update s.srcFlat 0 q.1 0).consumed.map _
      rw [Function.update_self]
      exact map_sound h.summaryMap
    basicSketch := by
      show BasicSketch.Dumped cfg.n0 s.basic q.2.consumed _
      rw [hq, consumed_map]
      exact h.basicSketch
    distrFunnel := by
      show Funnel.Funnelled s.funnel
        (Function.update s.srcFlat 0 q.1 1).consumed _
      rw [Function.update_of_ne (by decide)]
      exact h.distrFunnel }

/-- The summaries are folded, and dumped at the end of a job. While a dump is
written, summaries wait. -/
theorem Sound.fire_basicSketch (h : s.Sound jobs) :
    (s.fire .basicSketch).Sound jobs :=
  { h with
    summaryMap := (BasicSketch.written_basicSketch _ _ _).trans h.summaryMap
    basicSketch := BasicSketch.basicSketch_sound h.basicSketch
    compose := h.compose.congr
      ⟨fun _ => rfl, BasicSketch.consumed_basicSketch _ _ _, rfl, rfl⟩ rfl }

/-- The second path shares its items out to the lanes. -/
theorem Sound.fire_distrFunnel (h : s.Sound jobs) (hN : 0 < N)
    (hN0 : N ≤ cfg.n0) :
    (s.fire .distrFunnel).Sound jobs := by
  set q := Funnel.distrFunnel s.funnel (s.srcFlat 1) s.srcFunnelled with hq
  exact { h with
    tickSplit := h.tickSplit_update (Funnel.written_distrFunnel _ _ _)
    summaryMap := by
      show s.srcBasic.written
        = (Function.update s.srcFlat 1 q.2.1 0).consumed.map _
      rw [Function.update_of_ne (by decide)]
      exact h.summaryMap
    distrFunnel := by
      show Funnel.Funnelled q.1 (Function.update s.srcFlat 1 q.2.1 1).consumed
        (fun i => (q.2.2 i).written)
      rw [Function.update_self]
      exact Funnel.distrFunnel_sound hN hN0 h.distrFunnel
    distribute := fun k i => (h.distribute k i).trans
      (congrArg (List.map _) (Funnel.consumed_distrFunnel _ _ _ i).symm) }

/-- Every lane hands the hashes of its items to the three sketches, the same
hash to each. -/
theorem Sound.fire_distribute (h : s.Sound jobs) :
    (s.fire .distribute).Sound jobs := by
  set q := Hardware.distribute cfg.hash s.srcFunnelled s.hashed with hq
  have hhashed : ∀ k, (s.fire .distribute).hashed k = q.2 k := fun k => by
    fin_cases k <;> rfl
  have hcons : ∀ k i, (q.2 k i).consumed = (s.hashed k i).consumed :=
    consumed_distribute
  exact { h with
    distrFunnel := by
      show Funnel.Funnelled s.funnel _ (fun i => (q.1 i).written)
      simp only [hq, written_distribute]
      exact h.distrFunnel
    distribute := fun k i => by
      rw [hhashed k]
      exact distribute_sound h.distribute k i
    hll := h.hll.congr (hcons 0) rfl rfl (fun _ => rfl) rfl
    agms := h.agms.congr (hcons 1) rfl rfl (fun _ => rfl) rfl
    cm := h.cm.congr (hcons 2) rfl rfl (fun _ => rfl) rfl }

/-- A process of the HyperLogLog rows: the network keeps its invariant, and its
neighbours see its two ends only. -/
theorem Sound.fire_hll (h : s.Sound jobs) (p : RowProc N 1) :
    (s.fire (.hll p)).Sound jobs := by
  have hframe :=
    Rows.fire_frame (F := hllFunctions cfg.hashBits cfg.pHll) s.hll p
  exact { h with
    distribute := h.distribute_congr rfl hframe.1 (fun _ => rfl) (fun _ => rfl)
    hll := h.hll.fire p
    estimate := by
      show HllEstimator.Estimated fl _ ((s.hll.fire _ p).counts 0).consumed _
      rw [hframe.2 0]
      exact h.estimate }

/-- The estimator consumes ranks, and the rows before it see that only from
behind. -/
theorem Sound.fire_estimate (h : s.Sound jobs) :
    (s.fire .estimate).Sound jobs := by
  set q := HllEstimator.estimate fl s.estimator
    (s.hll.counts 0) s.io.cardest with hq
  exact { h with
    distribute := h.distribute_congr rfl (fun _ => rfl)
      (fun _ => rfl) (fun _ => rfl)
    hll := h.hll.congr (fun _ => rfl) rfl rfl (fun j => by
      obtain rfl : j = 0 := Subsingleton.elim _ _
      show (Function.update s.hll.counts 0 q.2.1 0).written = _
      rw [Function.update_self, hq, HllEstimator.written_estimate]) rfl
    estimate := by
      show HllEstimator.Estimated fl q.1
        (Function.update s.hll.counts 0 q.2.1 0).consumed
        q.2.2.written
      rw [Function.update_self]
      exact HllEstimator.estimate_sound h.estimate
    compose := h.compose.congr
      ⟨fun _ => rfl, rfl, HllEstimator.consumed_estimate _ _ _ _, rfl⟩ rfl }

/-- A process of the AGMS rows. -/
theorem Sound.fire_agms (h : s.Sound jobs) (p : RowProc N cfg.rAgms) :
    (s.fire (.agms p)).Sound jobs := by
  have hframe :=
    Rows.fire_frame
      (F := agmsFunctions cfg.rAgms cfg.hashBits cfg.pAgms) s.agms p
  exact { h with
    distribute := h.distribute_congr rfl (fun _ => rfl) hframe.1 (fun _ => rfl)
    agms := h.agms.fire p
    fold := fun j => by
      show Folded addSquare 0 _ ((s.agms.fire _ p).counts j).consumed _
      rw [hframe.2 j]
      exact h.fold j }

/-- A fold consumes the counts of its AGMS row, and leaves the other rows
alone. -/
theorem Sound.fire_fold (h : s.Sound jobs) (j : Fin cfg.rAgms) :
    (s.fire (.fold j)).Sound jobs := by
  set q := Hardware.fold addSquare 0 (s.folds j) (s.agms.counts j)
    (s.io.agmsSums j) with hq
  exact { h with
    distribute := h.distribute_congr rfl (fun _ => rfl)
      (fun _ => rfl) (fun _ => rfl)
    agms := h.agms.congr (fun _ => rfl) rfl rfl (fun j' => by
      show (Function.update s.agms.counts j q.2.1 j').written = _
      by_cases hj : j' = j
      · rw [hj, Function.update_self, hq, written_fold]
      · rw [Function.update_of_ne hj]) rfl
    fold := fun j' => by
      show Folded addSquare 0 (Function.update s.folds j q.1 j')
        (Function.update s.agms.counts j q.2.1 j').consumed
        (Function.update s.io.agmsSums j q.2.2 j').written
      by_cases hj : j' = j
      · rw [hj, Function.update_self, Function.update_self,
          Function.update_self]
        exact fold_sound (h.fold j)
      · rw [Function.update_of_ne hj, Function.update_of_ne hj,
          Function.update_of_ne hj]
        exact h.fold j'
    compose := h.compose.congr ⟨fun j' => by
      show (Function.update s.io.agmsSums j q.2.2 j').consumed = _
      by_cases hj : j' = j
      · rw [hj, Function.update_self, hq, consumed_fold]
      · rw [Function.update_of_ne hj], rfl, rfl, rfl⟩ rfl }

/-- A process of the Count-Min rows. -/
theorem Sound.fire_cm (h : s.Sound jobs) (p : RowProc N cfg.rCm) :
    (s.fire (.cm p)).Sound jobs := by
  have hframe :=
    Rows.fire_frame (F := cmFunctions cfg.rCm cfg.hashBits cfg.pCm) s.cm p
  exact { h with
    distribute := h.distribute_congr rfl (fun _ => rfl) (fun _ => rfl) hframe.1
    cm := h.cm.fire p
    concat := by
      show Concatenated _ _ _ (fun j => ((s.cm.fire _ p).counts j).consumed) _
      rw [funext hframe.2]
      exact h.concat }

/-- The Count-Min rows are put one behind the other. Here it matters that the
rows carry the tables of the jobs, which is what `Concat` expects. -/
theorem Sound.fire_concat (h : s.Sound jobs)
    (hjobs : ∀ job ∈ jobs, job ≠ []) (hN : 0 < N) :
    (s.fire .concat).Sound jobs := by
  have hsrc : ∀ j, (s.cm.counts j).written
      <+: (jobs.map (cmRows cfg)).flatMap (fun rows => frame (rows j)) :=
        fun j => by
    rw [List.flatMap_map]
    exact h.cm_isPrefix hjobs hN j
  exact { h with
    distribute := h.distribute_congr rfl (fun _ => rfl)
      (fun _ => rfl) (fun _ => rfl)
    cm := h.cm.congr (fun _ => rfl) rfl rfl (written_concat _ _ _) rfl
    concat := concat_sound (cmRows_ne_nil cfg jobs) hsrc h.concat
    compose := h.compose.congr ⟨fun _ => rfl, rfl, rfl,
      consumed_concat _ _ _⟩ rfl }

/-- `compose` writes the records, its inputs carrying the results of the
jobs. -/
theorem Sound.fire_compose (h : s.Sound jobs)
    (hjobs : ∀ job ∈ jobs, job ≠ []) (hN : 0 < N) :
    (s.fire .compose).Sound jobs := by
  have hin := Compose.compose_sameInputs fl.bits s.compose s.io
  exact { h with
    tick := (congrArg List.length hin.tickSrc).trans_le h.tick
    basicSketch := hin.dstBasic.symm ▸ h.basicSketch
    estimate := hin.cardest.symm ▸ h.estimate
    fold := fun j => (hin.agmsSums j).symm ▸ h.fold j
    concat := hin.cmCounts.symm ▸ h.concat
    compose := compose_sound cfg.rCm_pos cfg.pCm_pos
      (h.port_isPrefix hjobs hN) h.compose
    dstMap := h.dstMap.trans
      (congrArg (List.map _)
        (Compose.consumed_compose fl.bits s.compose s.io).symm) }

/-- The records leave the kernel, word by word and with all keep bits set. -/
theorem Sound.fire_dstMap (h : s.Sound jobs) : (s.fire .dstMap).Sound jobs :=
  { h with
    compose := h.compose.congr ⟨fun _ => rfl, rfl, rfl, rfl⟩ (written_map _ _ _)
    dstMap := map_sound h.dstMap }

/-- **Every call of every process keeps all equations**, by cases on the
process. -/
theorem Sound.fire (h : s.Sound jobs)
    (hjobs : ∀ job ∈ jobs, job ≠ []) (hN : 0 < N)
    (hN0 : N ≤ cfg.n0) (p : Proc cfg N) : (s.fire p).Sound jobs := by
  cases p with
  | srcMap => exact h.fire_srcMap
  | tickSplit => exact h.fire_tickSplit
  | summaryMap => exact h.fire_summaryMap
  | basicSketch => exact h.fire_basicSketch
  | distrFunnel => exact h.fire_distrFunnel hN hN0
  | distribute => exact h.fire_distribute
  | hll p => exact h.fire_hll p
  | estimate => exact h.fire_estimate
  | agms p => exact h.fire_agms p
  | fold j => exact h.fire_fold j
  | cm p => exact h.fire_cm p
  | concat => exact h.fire_concat hjobs hN
  | compose => exact h.fire_compose hjobs hN
  | dstMap => exact h.fire_dstMap

/-! ## Quiescent states

The same way through the network once more, with equalities: an idle process has
consumed everything there was. -/

/-- **Everything has come out**, of the sketches, of the basic statistics, and
of `compose`. The cycle counts are in the records too, and so of these only the
number of words is said. -/
structure Complete (jobs : List (List (BitVec (cfg.n0 * 32))))
    (s : Kernel cfg fl N) : Prop where
  /-- The joined ranks of all jobs have been written. -/
  ranks : (s.hll.counts 0).written = jobs.flatMap
    (fun job => frame (ranksOf cfg job))
  /-- The counters of all AGMS rows have, and the sums of their squares. -/
  agmsCounts : ∀ j, (s.agms.counts j).written
    = jobs.flatMap (fun job => frame (agmsCounts cfg job j))
  agmsSums : ∀ j, (s.io.agmsSums j).written
    = jobs.map (fun job => (resultOf cfg fl N job).agms j)
  dstBasic : s.io.dstBasic.written
    = jobs.flatMap (fun job => frame (resultOf cfg fl N job).basic.words)
  cardest : s.io.cardest.written
    = jobs.map (fun job => (resultOf cfg fl N job).cardest)
  cmCounts : s.io.cmCounts.written
    = jobs.flatMap (fun job => frame (resultOf cfg fl N job).countList)
  /-- `compose` has written its records in full. The words differ in the cycle
  counts, so that only their number is given. -/
  records : s.io.dst.written.length
    = jobs.length * recordLength cfg.rAgms cfg.rCm cfg.pCm
  /-- Whatever it has written has gone out to the host. -/
  dst : s.io.dst.consumed = s.io.dst.written

/-- In a quiescent state the two paths behind the source buffer have read all
words. -/
theorem Sound.srcFlat_eq (h : s.Sound jobs) (hq : s.Quiescent) (k : Fin 2) :
    (s.srcFlat k).written = jobs.flatMap frame := by
  have hsrc : (map Axis.flit s.src s.srcBuf).1 = s.src :=
    congrArg (fun t => t.1) (hq .srcMap)
  have hbuf : (split (fun x (_ : Fin 2) => x) s.srcBuf s.srcFlat).1
    = s.srcBuf :=
    congrArg (fun t => t.2.1) (hq .tickSplit)
  rw [h.tickSplit k, Fifo.consumed_eq_written (split_idle hbuf), h.srcMap,
    Fifo.consumed_eq_written (map_idle hsrc), h.src]

/-- In a quiescent state the lanes have carried all items, and are hashed. The
funnel may hold nothing back, since its last word ends a job. -/
theorem Sound.hashed_eq (h : s.Sound jobs)
    (hjobs : ∀ job ∈ jobs, job ≠ []) (hN : 0 < N) (hN0 : N ≤ cfg.n0)
    (hq : s.Quiescent) :
    (s.srcFlat 1).consumed = jobs.flatMap frame
      ∧ ∀ k i, (s.hashed k i).written = (s.lanes i).map
        (Flit.map cfg.hash) := by
  have hflat : Function.update s.srcFlat 1
      (Funnel.distrFunnel s.funnel (s.srcFlat 1) s.srcFunnelled).2.1
        = s.srcFlat :=
    congrArg (fun t => t.2.2.1) (hq .distrFunnel)
  have hsrc : (Funnel.distrFunnel s.funnel (s.srcFlat 1) s.srcFunnelled).2.1
    = s.srcFlat 1 := by
    simpa using congrFun hflat 1
  have hdst : (Funnel.distrFunnel s.funnel (s.srcFlat 1) s.srcFunnelled).2.2
    = s.srcFunnelled :=
    congrArg (fun t => t.2.2.2.2.1) (hq .distrFunnel)
  obtain ⟨hpending, hwaiting⟩ :=
    Funnel.distrFunnel_idle hN hN0 h.distrFunnel hsrc hdst
  have hconsumed : (s.srcFlat 1).consumed = jobs.flatMap frame := by
    rw [Fifo.consumed_eq_written hpending, h.srcFlat_eq hq]
  refine ⟨hconsumed, fun k i => ?_⟩
  have hdistr : (Hardware.distribute cfg.hash s.srcFunnelled s.hashed).1
    = s.srcFunnelled :=
    congrArg (fun t => t.2.2.2.2.1) (hq .distribute)
  have hnone := hwaiting (by rw [hconsumed, partOf_flatMap_frame hjobs]) i
  rw [h.distribute k i, Fifo.consumed_eq_written (distribute_idle hdistr i),
    lanes, hnone,
    List.append_nil]

/-- In a quiescent state a sketch network has written the tables of all jobs,
again for any functions of a sketch. -/
theorem Sound.rows_eq {R w : ℕ} {I V : Type} [Zero V] {op : V → V → V}
    [Std.Commutative op] [Std.Associative op] [Std.LawfulIdentity op 0]
    {inc : I → V} {kv : Fin R → BitVec cfg.hashBits → BitVec w × I}
    {F : RowFunctions R cfg.hashBits w I V} {net : Rows N R cfg.hashBits w I V}
    (h : s.Sound jobs) (hjobs : ∀ job ∈ jobs, job ≠ []) (hN : 0 < N)
    (hN0 : N ≤ cfg.n0) (hq : s.Quiescent) (hnet : net.Sound F)
    (hF : F.IsSketch kv op inc) {k : Fin 3} (hk : s.hashed k = net.hashed)
    (hidle : ∀ p, (net.fire F p).streams = net.streams) (j : Fin R) :
    (net.counts j).written = jobs.flatMap (fun job =>
      frame (tableList
        (rowTable op kv inc cfg.hash j (itemsOf job : List _)))) := by
  obtain ⟨hconsumed, hhashed⟩ := h.hashed_eq hjobs hN hN0 hq
  have heq := hnet.counts_eq op hF hN cfg.hash h.distrFunnel.distributed
    (fun i => hk ▸ hhashed k i) hidle j
  rwa [hconsumed, jobsOf_flatMap_frame hjobs] at heq

/-- Jobs of tables, taken off a stream, all of them. -/
theorem jobsOf_tables_eq {w : ℕ} {V : Type}
    (jobs : List (List (BitVec (cfg.n0 * 32))))
    (T : List (BitVec (cfg.n0 * 32)) → BitVec w → V) :
    jobsOf (jobs.flatMap (fun job => frame (tableList (T job))))
      = jobs.map (fun job => tableList (T job)) := by
  have hne : ∀ l ∈ jobs.map (fun job => tableList (T job)), l ≠ [] := by
    intro l hl
    obtain ⟨job, -, rfl⟩ := List.mem_map.mp hl
    rw [← List.length_pos_iff, length_tableList]
    exact Nat.two_pow_pos w
  rw [← List.flatMap_map (fun job => tableList (T job)),
    jobsOf_flatMap_frame hne]

/-- **In a quiescent state everything has come out.** The fields are proved in
the order of the network, each from the ones before. -/
theorem Sound.complete (h : s.Sound jobs)
    (hjobs : ∀ job ∈ jobs, job ≠ []) (hN : 0 < N)
    (hN0 : N ≤ cfg.n0) (hq : s.Quiescent) : s.Complete jobs := by
  have hranks : (s.hll.counts 0).written
    = jobs.flatMap (fun job => frame (ranksOf cfg job)) :=
    h.rows_eq hjobs hN hN0 hq h.hll (hllFunctions_isSketch _ _)
      (show s.hashed 0 = _ from rfl)
      (fun p => congrArg (fun t => t.2.2.2.2.2.1) (hq (.hll p))) 0
  have hagms : ∀ j, (s.agms.counts j).written
      = jobs.flatMap (fun job => frame (agmsCounts cfg job j)) :=
    h.rows_eq hjobs hN hN0 hq h.agms (agmsFunctions_isSketch _ _ _)
      (show s.hashed 1 = _ from rfl)
        (fun p => congrArg (fun t => t.2.2.2.2.2.2.1) (hq (.agms p)))
  have hcm : ∀ j, (s.cm.counts j).written
    = jobs.flatMap (fun job => frame (cmRows cfg job j)) :=
    h.rows_eq hjobs hN hN0 hq h.cm (cmFunctions_isSketch _ _ _)
      (show s.hashed 2 = _ from rfl)
      (fun p => congrArg (fun t => t.2.2.2.2.2.2.2.1) (hq (.cm p)))
  -- the processes behind the sketches
  have hsums : ∀ j, (s.io.agmsSums j).written
      = jobs.map (fun job => (resultOf cfg fl N job).agms j) := by
    intro j
    have hidle : Function.update s.agms.counts j
      (Hardware.fold addSquare 0 (s.folds j)
        (s.agms.counts j) (s.io.agmsSums j)).2.1 = s.agms.counts :=
      congrArg (fun t => t.2.2.2.2.2.2.1.2.2.2) (hq (.fold j))
    have hself : (Hardware.fold addSquare 0 (s.folds j) (s.agms.counts j)
        (s.io.agmsSums j)).2.1 = s.agms.counts j := by
      simpa using congrFun hidle j
    rw [(h.fold j).dst, Fifo.consumed_eq_written (fold_idle hself), hagms j]
    have hjobsOf := jobsOf_tables_eq jobs (fun job =>
      agmsTable cfg.hashBits cfg.pAgms cfg.hash j (itemsOf job : List _))
    refine (congrArg (List.map _) hjobsOf).trans ?_
    rw [List.map_map]
    rfl
  have hbasic : s.io.dstBasic.written
      = jobs.flatMap
        (fun job => frame (resultOf cfg fl N job).basic.words) := by
    have hsummary : Function.update s.srcFlat 0
      (map (Flit.map (summaryOf (clog2 N)))
        (s.srcFlat 0) s.srcBasic).1 = s.srcFlat :=
          congrArg (fun t => t.2.2.1) (hq .summaryMap)
    have hself :
      (map (Flit.map (summaryOf (clog2 N))) (s.srcFlat 0) s.srcBasic).1
        = s.srcFlat 0 := by
      simpa using congrFun hsummary 0
    obtain ⟨hdump, hpending⟩ :=
      BasicSketch.basicSketch_idle s.basic s.srcBasic s.io.dstBasic
      (congrArg (fun t => t.2.2.2.1) (hq .basicSketch))
      (congrArg (fun t => t.2.2.2.2.2.2.2.2.1.2.2.1) (hq .basicSketch))
    rw [(h.basicSketch.adding hdump).2.2, Fifo.consumed_eq_written hpending,
      h.summaryMap,
      Fifo.consumed_eq_written (map_idle hself), h.srcFlat_eq hq, jobsOf_map,
      jobsOf_flatMap_frame hjobs, List.flatMap_map]
    rfl
  have hcardest : s.io.cardest.written
      = jobs.map (fun job => (resultOf cfg fl N job).cardest) := by
    have hidle : Function.update s.hll.counts 0
      (HllEstimator.estimate fl s.estimator
        (s.hll.counts 0) s.io.cardest).2.1 = s.hll.counts :=
      congrArg (fun t => t.2.2.2.2.2.1.2.2.2) (hq .estimate)
    have hself :
      (HllEstimator.estimate fl s.estimator (s.hll.counts 0) s.io.cardest).2.1
        = s.hll.counts 0 := by
      simpa using congrFun hidle 0
    rw [h.estimate.dst, Fifo.consumed_eq_written
      (HllEstimator.estimate_idle hself), hranks]
    have hjobsOf := jobsOf_tables_eq jobs (fun job =>
      hllTable cfg.hashBits cfg.pHll cfg.hash (itemsOf job : List _))
    refine (congrArg (List.map _) hjobsOf).trans ?_
    rw [List.map_map]
    rfl
  have hcounts : s.io.cmCounts.written
      = jobs.flatMap (fun job => frame (resultOf cfg fl N job).countList) := by
    have hthrough := concat_through (cmRows_ne_nil cfg jobs) (fun j => by
      rw [hcm j, List.flatMap_map]) h.concat
      (congrArg (fun t => t.2.2.2.2.2.2.2.2.1.2.2.2.2.1) (hq .concat))
    rw [List.flatMap_map] at hthrough
    exact hthrough
  have hport : ∀ i, (s.io.port fl.bits i).written
      = (jobs.map (resultOf cfg fl N)).flatMap (JobResult.feed fl.bits · i) :=
    ComposePorts.port_eq (fun j => by rw [hsums j, List.map_map]; rfl)
      (by rw [hbasic, List.flatMap_map]) (by rw [hcardest, List.map_map]; rfl)
      (by rw [hcounts, List.flatMap_map])
  obtain ⟨-, hrecords⟩ :=
    compose_through cfg.rCm_pos cfg.pCm_pos hport h.compose
    (congrArg (fun t => t.2.2.2.2.2.2.2.2.1) (hq .compose))
  have hdst : (map Axis.ofFlit s.io.dst s.dst).1 = s.io.dst :=
    congrArg (fun t => t.2.2.2.2.2.2.2.2.1.2.2.2.2.2) (hq .dstMap)
  refine ⟨hranks, hagms, hsums, hbasic, hcardest, hcounts, ?_,
    Fifo.consumed_eq_written (map_idle hdst)⟩
  rw [hrecords.length_eq, length_flatMap_block _ _ (fun r _ => length_record r),
    List.length_map]

end Sound

end Kernel

end Skt.Hardware
