import Skt.Hardware.Statistics

/-!
# The basic metrics of a job

The summary map and `basic_sketch` on their own, between the words that arrive
and the four words they dump per job. Words arrive at any time and the two
processes are called in any order; a dump takes four calls, in which nothing is
read.

Five widths are at work: 36 and 68 bits for the sums of a word, 32, 64 and 96
bits for the count and the sums of a job. None of them is exceeded by a job of
fewer than `2 ^ 32` items, so everything is exact.

The runs have the shape of those of a sketch, with two processes and one source
of words: an invariant every event keeps, a list of what can be done, and a
bound on how often anything can happen.
-/

namespace Skt.Hardware

open Streams Runs

/-! ## Exact statistics

Of items, of words, and of the four words that describe them. -/

/-- **Accumulators that hold the statistics of some items**, none of them cut
off. -/
structure BasicStats.Exact (items : List (BitVec 32))
    (s : BasicStats) : Prop where
  /-- The number of the items, not modulo anything. -/
  cnt : s.cnt.toNat = items.length
  min : s.min = items.foldl stdMin (BitVec.allOnes 32)
  max : s.max = items.foldl stdMax 0
  /-- Their sum in 64 bits, and below it the sum of their squares in 96. -/
  sum : s.sum.toNat = (items.map BitVec.toNat).sum
  sumq : s.sumq.toNat = (items.map (fun y => y.toNat ^ 2)).sum

/-- **Four words that describe some items**: count and upper sum of squares, the
two extremes, the sum, and the lower sum of squares. -/
structure MetricWords (items : List (BitVec 32))
    (words : List (BitVec 64)) : Prop where
  length : words.length = 4
  /-- The lower half of the first word. -/
  cnt : ((words.getD 0 0).extractLsb' 0 32).toNat = items.length
  /-- The lower half of the second word, and the maximum its upper half. -/
  min : IsLeast {x | x ∈ items} ((words.getD 1 0).extractLsb' 0 32)
  max : IsGreatest {x | x ∈ items} ((words.getD 1 0).extractLsb' 32 32)
  /-- The third word. -/
  sum : (words.getD 2 0).toNat = (items.map BitVec.toNat).sum
  /-- The upper half of the first word, followed by the fourth. -/
  sumq : ((words.getD 0 0).extractLsb' 32 32 ++ words.getD 3 0).toNat
    = (items.map (fun y => y.toNat ^ 2)).sum

/-- Items have sums below their number times a bound. It is used with `2 ^ 32`
for the sum and with `2 ^ 64` for the squares. -/
theorem sum_map_lt_of_length_lt {b n : ℕ} {f : BitVec 32 → ℕ} (hb : 0 < b)
    (hf : ∀ y, f y ≤ b) {items : List (BitVec 32)} (hn : items.length < n) :
    (items.map f).sum < n * b := by
  have hle := List.sum_le_card_nsmul (items.map f) b (fun v hv => by
    obtain ⟨y, -, rfl⟩ := List.mem_map.mp hv
    exact hf y)
  rw [List.length_map, smul_eq_mul] at hle
  exact hle.trans_lt (Nat.mul_lt_mul_of_pos_right hn hb)

/-- **The statistics of fewer than `2 ^ 32` items fit their registers**: `2 ^
32` items of 32 bits add up to less than `2 ^ 64`, and their squares to less
than `2 ^ 96`. -/
theorem statsOf_exact {items : List (BitVec 32)} (hn : items.length < 2 ^ 32) :
    (statsOf items).Exact items where
  cnt := by
    show (BitVec.ofNat 32 items.length).toNat = _
    rw [BitVec.toNat_ofNat, Nat.mod_eq_of_lt hn]
  min := rfl
  max := rfl
  sum := by
    have hlt := sum_map_lt_of_length_lt (by norm_num)
      (fun y : BitVec 32 => Nat.le_pred_of_lt y.isLt) hn
    show (BitVec.ofNat 64 (items.map BitVec.toNat).sum).toNat = _
    rw [BitVec.toNat_ofNat, Nat.mod_eq_of_lt (hlt.trans (by norm_num))]
  sumq := by
    have hlt := sum_map_lt_of_length_lt (by norm_num)
      (fun y : BitVec 32 => Nat.pow_le_pow_left (Nat.le_pred_of_lt y.isLt) 2) hn
    show (BitVec.ofNat 96 (items.map (fun y => y.toNat ^ 2)).sum).toNat = _
    rw [BitVec.toNat_ofNat, Nat.mod_eq_of_lt (hlt.trans (by norm_num))]

/-- **The dump of exact statistics describes the items**: minimum and maximum
are those of the order, since there are items. -/
theorem BasicStats.Exact.metricWords {items : List (BitVec 32)}
    (hne : items ≠ [])
    {s : BasicStats} (h : s.Exact items) : MetricWords items s.words where
  length := rfl
  cnt := by
    show ((s.sumq.extractLsb' 64 32 ++ s.cnt).extractLsb' 0 32).toNat = _
    rw [BitVec.extractLsb'_append_eq_right, h.cnt]
  min := by
    show IsLeast _ ((s.max ++ s.min).extractLsb' 0 32)
    rw [BitVec.extractLsb'_append_eq_right, h.min]
    exact isLeast_foldl_stdMin hne
  max := by
    show IsGreatest _ ((s.max ++ s.min).extractLsb' 32 32)
    rw [BitVec.extractLsb'_append_eq_left, h.max]
    exact isGreatest_foldl_stdMax hne
  sum := h.sum
  sumq := by
    have hwhole : s.sumq.extractLsb' 64 32
      ++ s.sumq.extractLsb' 0 64 = s.sumq :=
      BitVec.extractLsb'_append_extractLsb'
    show ((s.sumq.extractLsb' 64 32 ++ s.cnt).extractLsb' 32 32
      ++ s.sumq.extractLsb' 0 64).toNat
      = _
    rw [BitVec.extractLsb'_append_eq_left, hwhole, h.sumq]

/-- **The sums of a word fit their registers**, from the first item to the
last. -/
theorem foldl_add_exact {N0 c : ℕ} (hc : N0 ≤ 2 ^ c) (x : BitVec (N0 * 32))
    {items : List (BitVec 32)} (h : items <+: wordItems x) :
    (items.foldl BasicSummary.add (BasicSummary.empty c)).sum.toNat
        = (items.map BitVec.toNat).sum
      ∧ (items.foldl BasicSummary.add (BasicSummary.empty c)).sumq.toNat
        = (items.map (fun y => y.toNat ^ 2)).sum := by
  have hsum : ∀ f : BitVec 32 → ℕ, (items.map f).sum
    ≤ ((wordItems x).map f).sum := fun f =>
    (h.sublist.map f).sum_le_sum fun _ _ => Nat.zero_le _
  rw [foldl_add]
  constructor
  · show (BitVec.ofNat (32 + c) (items.map BitVec.toNat).sum).toNat = _
    rw [BitVec.toNat_ofNat]
    exact Nat.mod_eq_of_lt ((hsum _).trans_lt (wordSum_lt hc x))
  · show (BitVec.ofNat (64 + c) (items.map (fun y => y.toNat ^ 2)).sum).toNat
      = _
    rw [BitVec.toNat_ofNat]
    exact Nat.mod_eq_of_lt ((hsum _).trans_lt (wordSumq_lt hc x))

/-! ## Runs

The two processes between their streams. -/

/-- The words that have arrived, the summaries, `basic_sketch` and its
output. -/
structure BasicRun (N0 c : ℕ) where
  src : Fifo (Flit (BitVec (N0 * 32)))
  srcBasic : Fifo (Flit (BasicSummary c))
  basic : BasicSketch
  dstBasic : Fifo (Flit (BitVec 64))

/-- What can happen: a word arrives, or a process is called. -/
inductive BasicEvent where
  | arrive
  | summaryMap
  | basicSketch

namespace BasicRun

variable {N0 c : ℕ}

/-- The start, with nothing arrived. -/
def start : BasicRun N0 c := ⟨Fifo.new, Fifo.new, .init, Fifo.new⟩

/-- One event: the next word arrives, a word is summarized, or `basic_sketch` is
called. -/
def step (words : List (Flit (BitVec (N0 * 32)))) (r : BasicRun N0 c) :
    BasicEvent → BasicRun N0 c
  | .arrive => { r with src := r.src.arrive words }
  | .summaryMap =>
    let p := map (Flit.map (summaryOf c)) r.src r.srcBasic
    { r with src := p.1, srcBasic := p.2 }
  | .basicSketch =>
    let p := BasicSketch.basicSketch N0 r.basic r.srcBasic r.dstBasic
    { r with basic := p.1, srcBasic := p.2.1, dstBasic := p.2.2 }

/-- A run: events in some order. -/
def run (words : List (Flit (BitVec (N0 * 32)))) (schedule : List BasicEvent)
    (r : BasicRun N0 c) : BasicRun N0 c :=
  schedule.foldl (step words) r

/-- All streams, for the order in which they grow. -/
def streams (r : BasicRun N0 c) := (r.src, r.srcBasic, r.dstBasic)

/-- **The invariant**: the equations of the two processes, and that words arrive
in their order. -/
structure Sound (words : List (Flit (BitVec (N0 * 32))))
    (r : BasicRun N0 c) : Prop where
  /-- The words arrive in their order. -/
  arrived : r.src.written <+: words
  /-- Every word that was read has been summarized. -/
  summaries : r.srcBasic.written = r.src.consumed.map (Flit.map (summaryOf c))
  /-- The equation of `basic_sketch`. -/
  dumped : BasicSketch.Dumped N0 r.basic r.srcBasic.consumed r.dstBasic.written

/-- Something that is done: all words have arrived, or a process finds nothing
to do. -/
def Idle (words : List (Flit (BitVec (N0 * 32))))
    (r : BasicRun N0 c) : BasicEvent → Prop
  | .arrive => words.length ≤ r.src.written.length
  | .summaryMap => r.src.pending = []
  | .basicSketch => r.basic.dump = false ∧ r.srcBasic.pending = []

variable {words : List (Flit (BitVec (N0 * 32)))} {r : BasicRun N0 c}

theorem sound_start : (start : BasicRun N0 c).Sound words :=
  ⟨List.nil_prefix, rfl, BasicSketch.dumped_init N0⟩

/-- **Every event keeps the invariant**, by the lemma on the process it
calls. -/
theorem Sound.step (h : r.Sound words) (e : BasicEvent) :
    (r.step words e).Sound words := by
  cases e with
  | arrive =>
    refine ⟨Fifo.written_arrive h.arrived, ?_, h.dumped⟩
    show r.srcBasic.written = (r.src.arrive words).consumed.map _
    rw [Fifo.consumed_arrive]
    exact h.summaries
  | summaryMap =>
    refine ⟨?_, map_sound h.summaries, ?_⟩
    · show (map (Flit.map (summaryOf c)) r.src r.srcBasic).1.written <+: words
      rw [written_map]
      exact h.arrived
    · show BasicSketch.Dumped N0 r.basic
        (map (Flit.map (summaryOf c)) r.src r.srcBasic).2.consumed
          r.dstBasic.written
      rw [consumed_map]
      exact h.dumped
  | basicSketch =>
    exact ⟨h.arrived, (BasicSketch.written_basicSketch _ _ _).trans h.summaries,
      BasicSketch.basicSketch_sound h.dumped⟩

/-- **Every run keeps the invariant**, by induction on its events. -/
theorem sound_run (words : List (Flit (BitVec (N0 * 32))))
    (schedule : List BasicEvent) :
    ((start : BasicRun N0 c).run words schedule).Sound words :=
  foldl_invariant _ (fun _ e hr => hr.step e) schedule sound_start

/-- Every event lets the streams grow. -/
theorem step_grows (r : BasicRun N0 c) (e : BasicEvent) :
    Grows r.streams (r.step words e).streams := by
  cases e with
  | arrive => exact ⟨Fifo.grows_arrive _ _, Growing.refl _, Growing.refl _⟩
  | summaryMap =>
    obtain ⟨h₁, h₂⟩ := map_grows (Flit.map (summaryOf c)) r.src r.srcBasic
    exact ⟨h₁, h₂, Growing.refl _⟩
  | basicSketch =>
    obtain ⟨h₁, h₂⟩ := BasicSketch.basicSketch_grows  r.basic
      r.srcBasic r.dstBasic
    exact ⟨Growing.refl _, h₁, h₂⟩

/-- **An event that changes no stream** finds nothing to do, be it an arrival or
a call. -/
theorem idle_of_step {e : BasicEvent}
    (h : (r.step words e).streams = r.streams) :
    r.Idle words e := by
  cases e with
  | arrive => exact Fifo.length_le_of_arrive (congrArg Prod.fst h)
  | summaryMap => exact map_idle (congrArg Prod.fst h)
  | basicSketch =>
    exact BasicSketch.basicSketch_idle r.basic r.srcBasic r.dstBasic
      (congrArg (fun t => t.2.1) h) (congrArg (fun t => t.2.2) h)

/-- **What is done stays done** under an event that changes no stream, and so a
round that changes nothing is the end. -/
theorem Idle.step {k e : BasicEvent} (hk : r.Idle words k)
    (h : (r.step words e).streams = r.streams) :
    (r.step words e).Idle words k := by
  have hsrc : (r.step words e).src = r.src := congrArg Prod.fst h
  have hsrcBasic : (r.step words e).srcBasic = r.srcBasic :=
    congrArg (fun t => t.2.1) h
  cases k with
  | arrive =>
    show words.length ≤ (r.step words e).src.written.length
    rw [hsrc]
    exact hk
  | summaryMap =>
    show (r.step words e).src.pending = []
    rw [hsrc]
    exact hk
  | basicSketch =>
    obtain ⟨hdump, hpending⟩ := hk
    refine ⟨?_, by rw [hsrcBasic]; exact hpending⟩
    cases e with
    | arrive => exact hdump
    | summaryMap => exact hdump
    | basicSketch =>
      show (BasicSketch.basicSketch N0 r.basic r.srcBasic r.dstBasic).1.dump
        = false
      unfold BasicSketch.basicSketch
      rw [if_neg (by rw [hdump]; exact Bool.false_ne_true),
        Fifo.readNb_eq_none.mpr hpending]
      exact hdump

/-- What has been read by `basic_sketch` is summaries of the words that came
first, as many as it has read. -/
theorem Sound.consumed (h : r.Sound words) :
    r.srcBasic.consumed
      = (words.take r.srcBasic.consumed.length).map
        (Flit.map (summaryOf c)) := by
  have hprefix : r.srcBasic.consumed <+: words.map
    (Flit.map (summaryOf c)) := by
    refine r.srcBasic.consumed_isPrefix.trans ?_
    rw [h.summaries]
    exact (r.src.consumed_isPrefix.trans h.arrived).map _
  conv_lhs => rw [List.prefix_iff_eq_take.mp hprefix]
  rw [List.map_take]

/-- The output is the beginning of the dumps of the jobs, whatever the order of
the events. -/
theorem Sound.isPrefix (hc : N0 ≤ 2 ^ c) (h : r.Sound words) :
    r.dstBasic.written
      <+: (jobsOf words).flatMap
        (fun job => frame (statsOf (itemsOf job)).words) := by
  have hjobs :=
    jobsOf_isPrefix (List.take_prefix r.srcBasic.consumed.length words)
  have hdumps := h.dumped.isPrefix
  rw [h.consumed, jobsOf_map, List.flatMap_map] at hdumps
  simp only [jobStats_eq_statsOf hc] at hdumps
  exact hdumps.trans (flatMap_isPrefix hjobs _)

/-- When everything is done, all jobs have been dumped. -/
theorem Sound.complete (hc : N0 ≤ 2 ^ c) (h : r.Sound words)
    (hidle : ∀ k, r.Idle words k) :
    r.dstBasic.written
      = (jobsOf words).flatMap
        (fun job => frame (statsOf (itemsOf job)).words) := by
  have harrived : r.src.written = words :=
    h.arrived.eq_of_length_le (hidle .arrive)
  obtain ⟨hdump, hpending⟩ := hidle .basicSketch
  rw [(h.dumped.adding hdump).2.2,
    Fifo.consumed_eq_written hpending, h.summaries,
    Fifo.consumed_eq_written (hidle .summaryMap), harrived,
      jobsOf_map, List.flatMap_map]
  simp only [jobStats_eq_statsOf hc]

/-- **What has happened is bounded** by the words there are. -/
theorem Sound.size_le (hc : N0 ≤ 2 ^ c) (h : r.Sound words) :
    Growing.size r.streams
      ≤ 2 * words.length + (2 * words.length + 2 * (words.length * 4)) := by
  have hsummaries : r.srcBasic.written.length ≤ words.length := by
    rw [h.summaries, List.length_map]
    exact (r.src.consumed_isPrefix.trans h.arrived).length_le
  have hdumps : r.dstBasic.written.length ≤ words.length * 4 := by
    have hle := (h.isPrefix hc).length_le
    rw [length_flatMap_block (B := 4) _ _ (fun job _ => length_frame _)] at hle
    exact hle.trans (Nat.mul_le_mul_right 4 (length_jobsOf_le words))
  exact Nat.add_le_add (Fifo.size_le h.arrived.length_le)
    (Nat.add_le_add (Fifo.size_le hsummaries) (Fifo.size_le hdumps))

/-- **Enough fair rounds dump all jobs**, whatever has happened before. In a
round every event has its turn. -/
theorem Sound.completes (hc : N0 ≤ 2 ^ c) (h : r.Sound words) :
    ∃ n, ∀ rounds : List (List BasicEvent), n < rounds.length →
      (∀ round ∈ rounds, ∀ e, e ∈ round) →
      (r.run words rounds.flatten).dstBasic.written
        = (jobsOf words).flatMap
          (fun job => frame (statsOf (itemsOf job)).words) := by
  refine ⟨_, fun rounds hlength hrounds =>
    done_of_rounds streams (BasicRun.step words) id
    (fun k r => r.Idle words k) (fun r => r.Sound words)
    (fun t => t.2.2.written
      = (jobsOf words).flatMap (fun job => frame (statsOf (itemsOf job)).words))
    (fun r e hr => hr.step e) step_grows
      (fun r e hsame => (idle_of_step hsame).step hsame)
    (fun r e k hk hsame => hk.step hsame)
      (fun r hr hidle => hr.complete hc hidle) ?_
    (fun r hr => hr.size_le hc) h (fun round hround e =>
      ⟨e, hrounds round hround e, rfl⟩)
    hlength⟩
  intro r e hr hdone
  have hgrows : Grows r.dstBasic (r.step words e).dstBasic :=
    (step_grows r e).2.2
  refine ((hr.step e).isPrefix hc).eq_of_length_le ?_
  rw [← hdone]
  exact hgrows.2.length_le

/-- **A run that computes exactly**, on the words of some jobs. As many of them
have got through to the accumulators as summaries have been read. -/
structure Exact (jobs : List (List (BitVec (N0 * 32))))
    (r : BasicRun N0 c) : Prop where
  /-- No word is lost on the way to its summary. -/
  summaries : r.src.written <+: jobs.flatMap frame
    ∧ r.srcBasic.written = r.src.consumed.map (Flit.map (summaryOf c))
  /-- While it accumulates, the accumulators hold the items of the open job. -/
  adding : r.basic.dump = false → r.basic.didx = 0
    ∧ r.basic.stats.Exact
      (itemsOf (partOf ((jobs.flatMap frame).take r.srcBasic.consumed.length)))
  /-- A job starts from a clean state. -/
  clean : r.basic.dump = false →
    partOf ((jobs.flatMap frame).take r.srcBasic.consumed.length) = [] →
      r.basic = .init
  /-- While it dumps, they hold the items of the job that is complete, and
  nothing is read. -/
  dumping : r.basic.dump = true →
    partOf ((jobs.flatMap frame).take r.srcBasic.consumed.length) = []
    ∧ (∃ job,
      (jobsOf ((jobs.flatMap frame).take r.srcBasic.consumed.length)).getLast?
        = some job
      ∧ r.basic.stats.Exact (itemsOf job))
    ∧ (r.step (jobs.flatMap frame) .basicSketch).srcBasic = r.srcBasic
  /-- The output is the dumps of the jobs. -/
  dumps : r.dstBasic.written <+: jobs.flatMap
    (fun job => frame (statsOf (itemsOf job)).words)

section Exact

variable {jobs : List (List (BitVec (N0 * 32)))}

/-- The items of an open job are no more than those of some job. -/
theorem length_itemsOf_partOf_lt (hjobs : ∀ job ∈ jobs, job ≠ [])
    {m : ℕ} (h0 : 0 < m) (hm : ∀ job ∈ jobs, (itemsOf job).length < m) (n : ℕ) :
    (itemsOf (partOf ((jobs.flatMap frame).take n))).length < m := by
  rcases partOf_eq_nil_or_isPrefix hjobs
    (List.take_prefix n (jobs.flatMap frame)) with
    hnil | ⟨job, hjob, hpart⟩
  · rw [hnil]
    exact h0
  · exact (flatMap_isPrefix hpart wordItems).length_le.trans_lt (hm job hjob)

/-- **Every run computes exactly.** Between jobs the state is the initial one,
and in a dump the accumulators stay as they are. -/
theorem Sound.exact (hc : N0 ≤ 2 ^ c) (hjobs : ∀ job ∈ jobs, job ≠ [])
    (hn : ∀ job ∈ jobs, (itemsOf job).length < 2 ^ 32) {r : BasicRun N0 c}
    (h : r.Sound (jobs.flatMap frame)) : r.Exact jobs := by
  set read := (jobs.flatMap frame).take r.srcBasic.consumed.length
  have hpart : partOf r.srcBasic.consumed
    = (partOf read).map (summaryOf c) := by
    rw [h.consumed, partOf_map]
  refine ⟨⟨h.arrived, h.summaries⟩, fun hdump => ?_, fun hdump hnil => ?_,
    fun hdump => ?_, ?_⟩
  · obtain ⟨hdidx, hstats, -⟩ := h.dumped.adding hdump
    refine ⟨hdidx, ?_⟩
    rw [hstats, hpart, jobStats_eq_statsOf hc]
    exact statsOf_exact (length_itemsOf_partOf_lt hjobs (by norm_num) hn _)
  · obtain ⟨hdidx, hstats, -⟩ := h.dumped.adding hdump
    rw [hpart, hnil] at hstats
    show (⟨r.basic.stats, r.basic.dump, r.basic.didx⟩ : BasicSketch) = _
    rw [hstats, hdump, hdidx]
    rfl
  · obtain ⟨hnil, before, job, hdone, hstats, -⟩ := h.dumped.dumping hdump
    rw [hpart, List.map_eq_nil_iff] at hnil
    rw [h.consumed, jobsOf_map] at hdone
    obtain ⟨before', last, hsplit, -, hlast⟩ := List.map_eq_append_iff.mp hdone
    obtain ⟨job', hlast', hjob'⟩ := List.map_eq_singleton_iff.mp hlast
    have hmem : job' ∈ jobs := by
      have hsub := (jobsOf_isPrefix (List.take_prefix r.srcBasic.consumed.length
        (jobs.flatMap frame))).subset
      rw [jobsOf_flatMap_frame hjobs] at hsub
      exact hsub (by rw [hsplit, hlast']; simp)
    refine ⟨hnil, ⟨job', ?_, ?_⟩, ?_⟩
    · rw [hsplit, hlast', List.getLast?_append, List.getLast?_singleton]
      rfl
    · rw [hstats, ← hjob', jobStats_eq_statsOf hc]
      exact statsOf_exact (hn job' hmem)
    · show (BasicSketch.basicSketch N0 r.basic r.srcBasic r.dstBasic).2.1
        = r.srcBasic
      unfold BasicSketch.basicSketch
      rw [if_pos hdump]
  · have hdumps := h.isPrefix hc
    rwa [jobsOf_flatMap_frame hjobs] at hdumps

end Exact

/-- **The basic metrics are exact.** For every sequence of jobs of fewer than `2
^ 32` items in words of sixteen, and every order of arrivals and calls: the sums
of a word and of a job never overflow, nothing is read during a dump and nothing
is lost, a job starts from a clean state, and the output is the beginning of the
dumps of the jobs, four words each; these words are the number of items, their
minimum and maximum, their sum and the sum of their squares. Enough fair rounds
dump all jobs. -/
theorem basic_metrics_exact {jobs : List (List (BitVec (16 * 32)))}
    (hjobs : ∀ job ∈ jobs, job ≠ [])
    (hn : ∀ job ∈ jobs, (itemsOf job).length < 2 ^ 32)
    (schedule : List BasicEvent) :
    let r := (start : BasicRun 16 (clog2 16)).run (jobs.flatMap frame) schedule
    r.Exact jobs
    ∧ (∃ n, ∀ rounds : List (List BasicEvent), n < rounds.length →
        (∀ round ∈ rounds, ∀ e, e ∈ round) →
        (r.run (jobs.flatMap frame) rounds.flatten).dstBasic.written
          = jobs.flatMap (fun job => frame (statsOf (itemsOf job)).words))
    ∧ (∀ job ∈ jobs, MetricWords (itemsOf job) (statsOf (itemsOf job)).words)
    ∧ ∀ (x : BitVec (16 * 32)) (items : List (BitVec 32)),
      items <+: wordItems x →
        (items.foldl BasicSummary.add (BasicSummary.empty (clog2 16))).sum.toNat
            = (items.map BitVec.toNat).sum
          ∧ (items.foldl BasicSummary.add
            (BasicSummary.empty (clog2 16))).sumq.toNat
            = (items.map (fun y => y.toNat ^ 2)).sum := by
  intro r
  have hc : 16 ≤ 2 ^ clog2 16 := le_two_pow_clog2 16
  have hsound := sound_run (c := clog2 16) (jobs.flatMap frame) schedule
  have hcompletes := hsound.completes hc
  rw [jobsOf_flatMap_frame hjobs] at hcompletes
  refine ⟨hsound.exact hc hjobs hn, hcompletes, fun job hjob => ?_,
    fun x items hitems =>
    foldl_add_exact hc x hitems⟩
  refine (statsOf_exact (hn job hjob)).metricWords
    (List.ne_nil_of_length_pos ?_)
  rw [length_itemsOf]
  exact Nat.mul_pos (List.length_pos_iff.mpr (hjobs job hjob)) (by norm_num)

/-- Two jobs of a word and of two words: whatever has happened, all eight words
of their dumps are written, and those of the first one describe its sixteen
items. -/
theorem basic_metrics_exact_instance :
    let jobs : List (List (BitVec (16 * 32))) := [[7], [1, 2]]
    let r := (start : BasicRun 16 (clog2 16)).run (jobs.flatMap frame)
      [.arrive, .summaryMap, .basicSketch, .arrive, .basicSketch, .summaryMap]
    r.Exact jobs
    ∧ (∃ rest, ((r.run (jobs.flatMap frame) rest).dstBasic.written).length = 8)
    ∧ MetricWords (itemsOf [(7 : BitVec (16 * 32))])
        (statsOf (itemsOf [(7 : BitVec (16 * 32))])).words := by
  intro jobs r
  obtain ⟨hexact, ⟨n, hn⟩, hwords, -⟩ := basic_metrics_exact
    (show ∀ job ∈ jobs, job ≠ [] by decide)
    (show ∀ job ∈ jobs, (itemsOf job).length < 2 ^ 32 by
      simp only [jobs, List.forall_mem_cons, length_itemsOf]
      decide)
    [.arrive, .summaryMap, .basicSketch, .arrive, .basicSketch, .summaryMap]
  refine ⟨hexact,
    ⟨(List.replicate (n + 1) [.arrive, .summaryMap, .basicSketch]).flatten, ?_⟩,
    hwords _ List.mem_cons_self⟩
  rw [hn _ (by rw [List.length_replicate]; exact Nat.lt_succ_self n)
    (fun round hround e => by
    rw [List.eq_of_mem_replicate hround]
    cases e <;> simp)]
  rfl

end BasicRun

end Skt.Hardware
