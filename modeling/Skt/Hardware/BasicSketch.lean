import Skt.Hardware.Funnel

/-!
# The basic sketch

A word of the input is summarized in one step (`basic_summary_t`) and the
summaries of a job are accumulated by `basic_sketch`, which dumps the result in
four words when the job is complete. The fields of a summary are `clog2` of the
number of lanes wider than an item and its square, and the accumulators are
wider still; the order of the operations is the source's, and whether a sum can
wrap is left to the results about it.

`basic_sketch` is one process with two phases. While it accumulates it reads a
summary in every call that finds one, and the `last` flag of the input turns it
to dumping. While it dumps it reads nothing, writes one word in every call, and
resets the accumulators with the fourth. Its equation says what has been written
in each of the two.
-/

namespace Skt.Hardware

open Streams

/-- `std::min`: the second argument only where it is smaller. -/
def stdMin {w : ℕ} (a b : BitVec w) : BitVec w := if b < a then b else a

/-- `std::max`: the second argument only where it is greater. -/
def stdMax {w : ℕ} (a b : BitVec w) : BitVec w := if a < b then b else a

theorem toNat_stdMin {w : ℕ} (a b : BitVec w) :
    (stdMin a b).toNat = min a.toNat b.toNat := by
  unfold stdMin
  split
  · next h => rw [min_eq_right (le_of_lt (BitVec.lt_def.mp h))]
  · next h => rw [min_eq_left (Nat.le_of_not_lt (mt BitVec.lt_def.mpr h))]

theorem toNat_stdMax {w : ℕ} (a b : BitVec w) :
    (stdMax a b).toNat = max a.toNat b.toNat := by
  unfold stdMax
  split
  · next h => rw [max_eq_right (le_of_lt (BitVec.lt_def.mp h))]
  · next h => rw [max_eq_left (Nat.le_of_not_lt (mt BitVec.lt_def.mpr h))]

/-- `basic_summary_t`, for a number of lanes of logarithm `c`: `clog2<N>` in the
source, which also widens `sum` and `sumq`. -/
structure BasicSummary (c : ℕ) where
  min : BitVec 32
  max : BitVec 32
  /-- The sum of the items of a word, with room for the items of `2 ^ c`
  lanes. -/
  sum : BitVec (32 + c)
  /-- The sum of their squares, with the same room. -/
  sumq : BitVec (64 + c)

/-- The default constructor: the neutral elements, `-1` for the minimum. -/
def BasicSummary.empty (c : ℕ) : BasicSummary c := ⟨BitVec.allOnes 32, 0, 0, 0⟩

/-- One lane of the summary. The square `xx*xx` is computed in 64 bits, where it
does not wrap, and is widened to be added. -/
def BasicSummary.add {c : ℕ} (y : BasicSummary c) (xx : BitVec 32) :
    BasicSummary c where
  min := stdMin y.min xx
  max := stdMax y.max xx
  sum := y.sum + xx.setWidth (32 + c)
  sumq := y.sumq + (xx.setWidth 64 * xx.setWidth 64).setWidth (64 + c)

/-- The summary of a word: the loop over its `N0` lanes. -/
def summaryOf (c : ℕ) {N0 : ℕ} (x : BitVec (N0 * 32)) : BasicSummary c :=
  (wordItems x).foldl BasicSummary.add (BasicSummary.empty c)

/-- The accumulators of `basic_sketch`: its static variables `cnt`, `min`,
`max`, `sum` and `sumq`, with their widths. -/
@[ext] structure BasicStats where
  /-- The count of the items, `N0` for every word. -/
  cnt : BitVec 32
  min : BitVec 32
  max : BitVec 32
  /-- The sum of the items of a job. -/
  sum : BitVec 64
  /-- The sum of their squares, in 96 bits, of which 64 go into the last word of
  the dump and 32 into the first. -/
  sumq : BitVec 96

namespace BasicStats

/-- The values the accumulators start from, at power-up and after every dump. -/
def init : BasicStats := ⟨0, BitVec.allOnes 32, 0, 0, 0⟩

/-- A summary is accumulated, and counted as `N0` items: `basic_sketch` does not
look at how many of the lanes held one. -/
def absorb (N0 : ℕ) {c : ℕ} (s : BasicStats)
    (x : BasicSummary c) : BasicStats where
  cnt := s.cnt + BitVec.ofNat 32 N0
  min := stdMin s.min x.min
  max := stdMax s.max x.max
  sum := s.sum + x.sum.setWidth 64
  sumq := s.sumq + x.sumq.setWidth 96

/-- The word dumped at an index: the `switch` over `didx`. The upper 32 bits of
the sum of squares share the first word with the count. -/
def word (s : BasicStats) (didx : BitVec 2) : BitVec 64 :=
  if didx = 0 then s.sumq.extractLsb' 64 32 ++ s.cnt
  else if didx = 1 then s.max ++ s.min
  else if didx = 2 then s.sum
  else s.sumq.extractLsb' 0 64

/-- **The dump of the accumulators**, in the order of the index. -/
def words (s : BasicStats) : List (BitVec 64) :=
  [s.word 0, s.word 1, s.word 2, s.word 3]

end BasicStats

/-- The state of `basic_sketch`: the accumulators, whether it is dumping, and
the index of the word dumped next, a counter of two bits. -/
structure BasicSketch where
  stats : BasicStats
  /-- Whether it is dumping, set by the summary with `last`. -/
  dump : Bool
  /-- `didx`: the index of the word that is dumped next. -/
  didx : BitVec 2

namespace BasicSketch

/-- The state at power-up. -/
def init : BasicSketch := ⟨.init, false, 0⟩

variable {N0 c : ℕ}

/-- `basic_sketch`: one call. It either writes a word of the dump or reads a
summary, never both; the index wraps to `0` behind the fourth word by itself. -/
def basicSketch (N0 : ℕ) (s : BasicSketch) (src : Fifo (Flit (BasicSummary c)))
    (dst : Fifo (Flit (BitVec 64))) :
    BasicSketch × Fifo (Flit (BasicSummary c)) × Fifo (Flit (BitVec 64)) :=
  if s.dump then
    let olast := decide (s.didx = 3)
    let odat := s.stats.word s.didx
    (⟨if olast then .init else s.stats, !olast, s.didx + 1⟩, src,
      dst.write ⟨olast, odat⟩)
  else
    match src.readNb with
    | none => (s, src, dst)
    | some (x, src) => (⟨s.stats.absorb N0 x.val, x.last, s.didx⟩, src, dst)

/-- What the accumulators hold after the summaries of a job, folded in their
order. -/
def jobStats (N0 : ℕ) (job : List (BasicSummary c)) : BasicStats :=
  job.foldl (BasicStats.absorb N0) .init

/-- **The equation of `basic_sketch`.** While it accumulates, it holds the
statistics of the open job, and a dump has been written for every job before.
While it dumps, the dump is written up to `didx`. -/
structure Dumped (N0 : ℕ) (s : BasicSketch) (src : List (Flit (BasicSummary c)))
    (dst : List (Flit (BitVec 64))) : Prop where
  /-- While it accumulates, the accumulators hold the open job and the dumps of
  all complete jobs have been written. -/
  adding : s.dump = false → s.didx = 0 ∧ s.stats = jobStats N0 (partOf src)
    ∧ dst = (jobsOf src).flatMap (fun job => frame (jobStats N0 job).words)
  /-- While it dumps, there is no open job, and of the dump of the last one the
  words below `didx` have been written. -/
  dumping : s.dump = true → partOf src = [] ∧ ∃ jobs job,
    jobsOf src = jobs ++ [job]
    ∧ s.stats = jobStats N0 job
    ∧ dst = jobs.flatMap (fun job => frame (jobStats N0 job).words)
      ++ (frame (jobStats N0 job).words).take s.didx.toNat

theorem dumped_init (N0 : ℕ) :
    Dumped N0 init ([] : List (Flit (BasicSummary c))) [] where
  adding _ := ⟨rfl, rfl, rfl⟩
  dumping h := absurd h Bool.false_ne_true

/-- A word of the dump, with its flag: `olast` marks the fourth one. -/
theorem take_words_succ (s : BasicStats) (didx : BitVec 2) :
    (frame s.words).take (didx.toNat + 1)
      = (frame s.words).take didx.toNat
        ++ [⟨decide (didx = 3), s.word didx⟩] := by
  have hall : ∀ d : BitVec 2, d = 0 ∨ d = 1 ∨ d = 2 ∨ d = 3 := by decide
  rcases hall didx with rfl | rfl | rfl | rfl <;> rfl

/-- **Every call keeps the equation.** The three cases are a word of the dump, a
summary that is read, and a call that finds nothing. -/
theorem basicSketch_sound {s : BasicSketch} {src : Fifo (Flit (BasicSummary c))}
    {dst : Fifo (Flit (BitVec 64))} (h : Dumped N0 s src.consumed dst.written) :
    Dumped N0 (basicSketch N0 s src dst).1
      (basicSketch N0 s src dst).2.1.consumed
      (basicSketch N0 s src dst).2.2.written := by
  unfold basicSketch
  cases hdump : s.dump with
  | true =>
    obtain ⟨hpart, jobs, job, hjobs, hstats, hdst⟩ := h.dumping hdump
    rw [if_pos rfl]
    dsimp only
    rw [Fifo.written_write]
    have hdst' : dst.written ++ [⟨decide (s.didx = 3), s.stats.word s.didx⟩]
        = jobs.flatMap (fun job => frame (jobStats N0 job).words)
          ++ (frame (jobStats N0 job).words).take (s.didx.toNat + 1) := by
      rw [take_words_succ, hdst, hstats, List.append_assoc]
    by_cases hlast : s.didx = 3
    · -- the last word
      refine ⟨fun _ => ⟨by rw [hlast]; rfl, ?_, ?_⟩, fun hd => ?_⟩
      · rw [hpart, decide_eq_true hlast]
        rfl
      · rw [hdst', hjobs, List.flatMap_append, List.flatMap_singleton, hlast]
        rfl
      · rw [decide_eq_true hlast] at hd
        exact absurd hd Bool.false_ne_true
    · have hnext : (s.didx + 1).toNat = s.didx.toNat + 1 := by
        have hall : ∀ d : BitVec 2, d ≠ 3 → (d + 1).toNat
          = d.toNat + 1 := by decide
        exact hall s.didx hlast
      refine ⟨fun hd => ?_, fun _ => ⟨hpart, jobs, job, hjobs, ?_, ?_⟩⟩
      · rw [decide_eq_false hlast] at hd
        exact absurd hd.symm Bool.false_ne_true
      · rw [decide_eq_false hlast]
        exact hstats
      · rw [hnext, hdst']
  | false =>
    obtain ⟨hdidx, hstats, hdst⟩ := h.adding hdump
    rw [if_neg Bool.false_ne_true]
    cases hx : src.readNb with
    | none => exact h
    | some p =>
      obtain ⟨x, src'⟩ := p
      have hstats' : s.stats.absorb N0 x.val
        = jobStats N0 (partOf src.consumed ++ [x.val]) := by
        rw [hstats, jobStats, jobStats, List.foldl_append]
        rfl
      dsimp only
      rw [Fifo.consumed_of_readNb hx]
      refine ⟨fun hlast => ?_, fun hlast => ?_⟩
      · have hlast' : x.last = false := hlast
        rw [partOf_concat, jobsOf_concat, hlast']
        exact ⟨hdidx, hstats', hdst⟩
      · have hlast' : x.last = true := hlast
        rw [partOf_concat, jobsOf_concat, hlast']
        refine ⟨rfl, _, _, rfl, hstats', ?_⟩
        rw [hdidx, hdst]
        exact (List.append_nil _).symm

/-- What `basic_sketch` has written is the beginning of the dumps of its jobs,
in either phase. -/
theorem Dumped.isPrefix {s : BasicSketch} {src : List (Flit (BasicSummary c))}
    {dst : List (Flit (BitVec 64))} (h : Dumped N0 s src dst) :
    dst
      <+: (jobsOf src).flatMap (fun job => frame (jobStats N0 job).words) := by
  cases hdump : s.dump with
  | false => rw [(h.adding hdump).2.2]
  | true =>
    obtain ⟨-, jobs, job, hjobs, -, hdst⟩ := h.dumping hdump
    rw [hdst, hjobs, List.flatMap_append, List.flatMap_singleton]
    exact (List.prefix_append_right_inj _).mpr (List.take_prefix _ _)

variable (s : BasicSketch) (src : Fifo (Flit (BasicSummary c)))
    (dst : Fifo (Flit (BitVec 64)))

@[simp] theorem written_basicSketch :
    (basicSketch N0 s src dst).2.1.written = src.written := by
  unfold basicSketch
  split
  · rfl
  · split
    · rfl
    · next hx => exact Fifo.written_of_readNb hx

@[simp] theorem consumed_basicSketch : (basicSketch N0 s src dst).2.2.consumed
    = dst.consumed := by
  unfold basicSketch
  split
  · rfl
  · split <;> rfl

/-- A call of `basic_sketch` lets its streams grow. -/
theorem basicSketch_grows : Grows src (basicSketch N0 s src dst).2.1
    ∧ Grows dst (basicSketch N0 s src dst).2.2 := by
  unfold basicSketch
  split
  · exact ⟨Growing.refl _, Fifo.grows_write _ _⟩
  · split
    · exact ⟨Growing.refl _, Growing.refl _⟩
    · next hx => exact ⟨Fifo.grows_of_readNb hx, Growing.refl _⟩

/-- **An idle `basic_sketch`** is not dumping, since a dump writes in every
call, and it has nothing to read. -/
theorem basicSketch_idle (hsrc : (basicSketch N0 s src dst).2.1 = src)
    (hdst : (basicSketch N0 s src dst).2.2 = dst) :
    s.dump = false ∧ src.pending = [] := by
  unfold basicSketch at hsrc hdst
  cases hdump : s.dump with
  | true =>
    rw [if_pos hdump] at hdst
    exact absurd hdst (Fifo.write_ne _ _)
  | false =>
    rw [if_neg (by simp [hdump])] at hsrc
    refine ⟨rfl, ?_⟩
    cases hx : src.readNb with
    | none => exact Fifo.readNb_eq_none.mp hx
    | some p =>
      rw [hx] at hsrc
      exact absurd hsrc (Fifo.ne_of_readNb hx)

end BasicSketch

end Skt.Hardware
