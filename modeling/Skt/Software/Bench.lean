import Skt.Lib.Runs
import Skt.Software.Cardinality
import Skt.Software.Median
import Skt.Software.SketchServer

/-!
# The benchmark

`skt_bench` sketches one array again and again. In every repetition it starts a
thread for each collector with a slice of the array, joins the threads, merges
the collectors into the first, estimates the cardinality and the self-join size,
and cleans all tables for the next repetition.

The threads run at their own pace, and the main thread starts some while others
have long been at work. What every repetition reports is what a single collector
finds that is given the whole array, and all repetitions come to their end.

The split is made in blocks of 32 bytes, in products of `size_t` again. Unlike
in the file client they cannot wrap: the array is filled with an `unsigned`
counter, so a run that gets to the split has fewer than `2 ^ 32` items.

The arithmetic of the self-join estimate is that of any range, as in
`Skt.Software.Median`. With the range of `int` a repetition may have no result;
the reports that are made are right in any case.
-/

namespace Skt

open Runs Table SktCollector

/-! ## The program -/

/-- The arguments of the benchmark, with the array it has filled. The number of
threads is a parameter of the state, as it is the number of collectors. -/
structure BenchArgs where
  /-- The options of the program: precision and rows of the three sketches, in
  the order of its call. -/
  hp : ℕ
  ar : ℕ
  ap : ℕ
  cr : ℕ
  cp : ℕ
  hash : HashE
  /-- How often the whole is done. -/
  repetitions : ℕ
  /-- The items, generated before the first repetition. -/
  input : List (BitVec 32)

namespace BenchArgs

variable (args : BenchArgs)

/-- A collector as the benchmark constructs it, one for each thread. -/
def collector : SktCollector :=
  new args.hp args.ar args.ap args.cr args.cp args.hash

/-- `per_block`, the items of a block. Slices begin and end at blocks. -/
def perBlock : ℕ := 256 / 32

/-- `num_blocks`. The number of items is a multiple of a block, or the arguments
are rejected. -/
def numBlocks : ℕ := args.input.length / perBlock

/-- `nofs` of the thread before the `i`-th, in the arithmetic of `size_t`: its
share of the blocks, rounded down, in items. -/
def nofs (numThreads i : ℕ) : ℕ :=
  i * args.numBlocks % 2 ^ 64 / numThreads * perBlock % 2 ^ 64

end BenchArgs

/-- The control point of the main thread. -/
inductive BenchPc where
  /-- at the construction of thread `i` -/
  | starting (i : ℕ)
  /-- at `t.join()` of thread `i` -/
  | joining (i : ℕ)
  /-- at the loop that merges, and at the estimates -/
  | measuring
  /-- at the loop that cleans -/
  | cleaning
  | done
  deriving DecidableEq

/-- **The state of the benchmark.** The threads of a repetition are gone when
they are joined, and a thread that has not been started has nothing to
collect. -/
structure Bench (T : ℕ) where
  /-- The statement of the main thread. -/
  pc : BenchPc
  /-- The repetitions that are over. -/
  r : ℕ
  /-- Where the next thread's slice begins. -/
  ofs : ℕ
  /-- The collectors, one for each thread. The first one is merged into. -/
  collectors : Fin T → SktCollector
  /-- What each thread has yet to collect; a thread with nothing left has
  ended. -/
  threads : Fin T → List (BitVec 32)
  /-- The AGMS table of `collector_cols`, into which the table of the master is
  merged. -/
  cols : List ℤ
  /-- The estimate and the median of each repetition, as they are printed. -/
  reports : List (CardEstimate × ℚ)

namespace Bench

variable {T : ℕ}

/-- Before the first repetition all is clean, as it is between two of them. -/
def init (args : BenchArgs) : Bench T where
  pc := if 0 < args.repetitions then .starting 0 else .done
  r := 0
  ofs := 0
  collectors _ := args.collector
  threads _ := []
  cols := List.replicate (2 ^ 1 * args.ar) 0
  reports := []

/-- The estimates of a repetition, and the table of `collector_cols` they leave.
`collector_cols` has as many rows as the collectors and two buckets. -/
def measure (R : IntRange) (args : BenchArgs) (cols : List ℤ)
    (master : SktCollector) :
    Option ((CardEstimate × ℚ) × List ℤ) := do
  let table ← (List.range master.rAgms).foldlM (rowTurn R master) cols
  let (median, sorted) ← getMedian R args.ar table
  return ((master.estimateCardinality, median), sorted)

/-- A move of the main thread. When it merges, no other thread is left, so what
it does from there on is one move.

A slice outside of the array would leave it without a move, as would a merge
that throws or a sum out of range. -/
def mainStep (R : IntRange) (args : BenchArgs)
    (s : Bench T) : Option (Bench T) :=
  match s.pc with
  | .starting i =>
    if h : i < T then
      let nofs := args.nofs T (i + 1)
      let cnt := (nofs + 2 ^ 64 - s.ofs) % 2 ^ 64
      (readItems args.input s.ofs cnt).map fun data =>
        { s with
          pc := .starting (i + 1)
          ofs := nofs
          threads := Function.update s.threads ⟨i, h⟩ data }
    else some { s with pc := .joining 0 }
  | .joining i =>
    if h : i < T then
      if s.threads ⟨i, h⟩ = [] then some
        { s with pc := .joining (i + 1) } else none
    else some { s with pc := .measuring }
  | .measuring =>
    (compact (List.ofFn s.collectors)).bind fun master =>
      (measure R args s.cols master).map fun m =>
        { s with
          pc := .cleaning
          collectors := fun i => if i.val = 0 then master else s.collectors i
          cols := m.2
          reports := s.reports ++ [m.1] }
  | .cleaning =>
    some { s with
      pc := if s.r + 1 < args.repetitions then .starting 0 else .done
      r := s.r + 1
      ofs := 0
      collectors := fun i => (s.collectors i).clean
      cols := forEach (2 ^ 1 * args.ar) (fun _ _ => 0) s.cols }
  | .done => none

/-- A move of a thread: the next turn of its collection loop, one item. -/
def threadStep (s : Bench T) (i : Fin T) : Option (Bench T) :=
  match s.threads i with
  | [] => none
  | x :: rest =>
    some { s with
      collectors := Function.update s.collectors i
        ((s.collectors i).collect [x])
      threads := Function.update s.threads i rest }

/-- **One move of one thread**, or of the main thread. The scheduler picks any
that can move. -/
def step (R : IntRange) (args : BenchArgs) (s : Bench T) :
    Option (Fin T) → Option (Bench T)
  | none => s.mainStep R args
  | some i => s.threadStep i

/-- **What a move of the main thread does**, one case for each. The invariant
and the measure are both followed through these cases. -/
inductive MainMoves (R : IntRange) (args : BenchArgs) (s : Bench T) :
    Bench T → Prop where
  /-- The next thread is started on its slice. -/
  | start {i : ℕ} {data : List (BitVec 32)}
    (hpc : s.pc = .starting i) (hi : i < T)
      (hdata : readItems args.input s.ofs
        ((args.nofs T (i + 1) + 2 ^ 64 - s.ofs) % 2 ^ 64)
        = some data) :
    MainMoves R args s { s with
      pc := .starting (i + 1)
      ofs := args.nofs T (i + 1)
      threads := Function.update s.threads ⟨i, hi⟩ data }
  /-- All threads have been. -/
  | started {i : ℕ} (hpc : s.pc = .starting i) (hi : ¬ i < T) :
    MainMoves R args s { s with pc := .joining 0 }
  /-- The main thread waits for the next one to end. -/
  | join {i : ℕ} (hpc : s.pc = .joining i) (hi : i < T)
    (hdone : s.threads ⟨i, hi⟩ = []) :
    MainMoves R args s { s with pc := .joining (i + 1) }
  /-- It has waited for all of them. -/
  | joined {i : ℕ} (hpc : s.pc = .joining i) (hi : ¬ i < T) :
    MainMoves R args s { s with pc := .measuring }
  /-- The collectors are merged and the sketches are evaluated. A merge of
  different dimensions or an overflow would have no successor here. -/
  | measure {master : SktCollector} {m : (CardEstimate × ℚ) × List ℤ}
    (hpc : s.pc = .measuring)
      (hmaster : compact (List.ofFn s.collectors) = some master)
      (hm : Bench.measure R args s.cols master = some m) :
    MainMoves R args s { s with
      pc := .cleaning
      collectors := fun i => if i.val = 0 then master else s.collectors i
      cols := m.2
      reports := s.reports ++ [m.1] }
  /-- The collectors and the rows are cleaned for the next repetition, or the
  program is done. -/
  | clean (hpc : s.pc = .cleaning) :
    MainMoves R args s { s with
      pc := if s.r + 1 < args.repetitions then .starting 0 else .done
      r := s.r + 1
      ofs := 0
      collectors := fun i => (s.collectors i).clean
      cols := forEach (2 ^ 1 * args.ar) (fun _ _ => 0) s.cols }

/-- A move does one of these. -/
theorem moves_of_mainStep {R : IntRange} {args : BenchArgs} {s s' : Bench T}
    (hstep : s.mainStep R args = some s') : s.MainMoves R args s' := by
  unfold mainStep at hstep
  cases hpc : s.pc with
  | starting i =>
    simp only [hpc] at hstep
    split at hstep
    · next hi =>
      obtain ⟨data, hdata, rfl⟩ := Option.map_eq_some_iff.mp hstep
      exact .start hpc hi hdata
    · next hi =>
      cases hstep
      exact .started hpc hi
  | joining i =>
    simp only [hpc] at hstep
    split at hstep
    · next hi =>
      split at hstep
      · next hdone =>
        cases hstep
        exact .join hpc hi hdone
      · cases hstep
    · next hi =>
      cases hstep
      exact .joined hpc hi
  | measuring =>
    simp only [hpc] at hstep
    obtain ⟨master, hmaster, hrest⟩ := Option.bind_eq_some_iff.mp hstep
    obtain ⟨m, hm, rfl⟩ := Option.map_eq_some_iff.mp hrest
    exact .measure hpc hmaster hm
  | cleaning =>
    simp only [hpc, Option.some.injEq] at hstep
    subst hstep
    exact .clean hpc
  | done =>
    simp only [hpc] at hstep
    cases hstep

end Bench

/-! ## The slices

The bounds of the slices, first in the arithmetic of the source and then in that
of the natural numbers. -/

namespace BenchArgs

variable {args : BenchArgs} {T : ℕ}

/-- **What the checks of the benchmark and its fill loop establish**: whole
blocks, fewer than `2 ^ 32` items, and dimensions in the ranges that are
checked.

The range admits a HyperLogLog precision of zero, for which the source shifts by
the full width of the hash word (`collect_safe_iff`). `collect` reads that shift
as one that leaves nothing, and what is proved of a repetition at that precision
is about this reading. -/
structure Checked (args : BenchArgs) (T : ℕ) : Prop where
  /-- The precisions are in the range of the checks. -/
  inRange : args.collector.InRange
  rows : 1 ≤ args.ar
  /-- The items are a whole number of blocks. -/
  blocks : args.input.length % perBlock = 0
  /-- They are counted by an unsigned loop variable when they are generated. -/
  length_lt : args.input.length < 2 ^ 32
  pos : 0 < T
  /-- No thread is without a block. -/
  le_blocks : T ≤ args.numBlocks

/-- Blocks make up the array, whose length is a multiple of theirs. -/
theorem Checked.length_eq (h : args.Checked T) :
    args.numBlocks * perBlock = args.input.length :=
  Nat.div_mul_cancel (Nat.dvd_of_mod_eq_zero h.blocks)

/-- The bounds of the slices are those without wrapping around. The products
stay below `2 ^ 64` since the length fits 32 bits. -/
theorem Checked.nofs_eq (h : args.Checked T) {i : ℕ} (hi : i ≤ T) :
    args.nofs T i = i * args.numBlocks / T * perBlock := by
  have hle : i * args.numBlocks ≤ T * args.numBlocks :=
    Nat.mul_le_mul_right _ hi
  have hblocks : args.numBlocks < 2 ^ 32 :=
    (Nat.div_le_self _ _).trans_lt h.length_lt
  have hprod : i * args.numBlocks < 2 ^ 64 :=
    calc i * args.numBlocks ≤ args.numBlocks * args.numBlocks :=
          Nat.mul_le_mul_right _ (hi.trans h.le_blocks)
      _ < 2 ^ 32 * 2 ^ 32 := Nat.mul_lt_mul'' hblocks hblocks
      _ = 2 ^ 64 := by norm_num
  have hdiv : i * args.numBlocks / T ≤ args.numBlocks :=
    Nat.div_le_of_le_mul hle
  have hbound : i * args.numBlocks / T * perBlock ≤ args.input.length :=
    h.length_eq ▸ Nat.mul_le_mul_right _ hdiv
  unfold nofs
  rw [Nat.mod_eq_of_lt hprod,
    Nat.mod_eq_of_lt (hbound.trans_lt (h.length_lt.trans (by norm_num)))]

/-- The bounds are inside of the array. -/
theorem Checked.nofs_le (h : args.Checked T) {i : ℕ} (hi : i ≤ T) :
    args.nofs T i ≤ args.input.length := by
  rw [h.nofs_eq hi, ← h.length_eq]
  exact Nat.mul_le_mul_right _
    (Nat.div_le_of_le_mul (Nat.mul_le_mul_right _ hi))

/-- The bounds increase. -/
theorem Checked.nofs_mono (h : args.Checked T) {i : ℕ} (hi : i < T) :
    args.nofs T i ≤ args.nofs T (i + 1) := by
  rw [h.nofs_eq hi.le, h.nofs_eq hi]
  exact Nat.mul_le_mul_right _
    (Nat.div_le_div_right (Nat.mul_le_mul_right _ (Nat.le_succ i)))

/-- The first slice starts at the start. -/
theorem nofs_zero : args.nofs T 0 = 0 := by
  unfold nofs
  rw [Nat.zero_mul, Nat.zero_mod, Nat.zero_div, Nat.zero_mul, Nat.zero_mod]

/-- The last slice ends at the end. -/
theorem Checked.nofs_self (h : args.Checked T) :
    args.nofs T T = args.input.length := by
  rw [h.nofs_eq le_rfl, Nat.mul_div_cancel_left _ h.pos, h.length_eq]

/-- **The slice of a thread**, between two bounds: the end of it and that of the
one before. -/
def slice (args : BenchArgs) (T i : ℕ) : List (BitVec 32) :=
  (args.input.drop (args.nofs T i)).take (args.nofs T (i + 1) - args.nofs T i)

/-- **The slices make up the array**, one behind the other, and no item is in
two of them. -/
theorem Checked.flatten_slices (h : args.Checked T) {n : ℕ} (hn : n ≤ T) :
    ((List.range n).map (args.slice T)).flatten
      = args.input.take (args.nofs T n) := by
  induction n with
  | zero => rw [nofs_zero, List.take_zero]; rfl
  | succ n ih =>
    rw [List.range_succ, List.map_append, List.flatten_append,
      ih (Nat.le_of_succ_le hn),
      List.map_singleton, List.flatten_singleton, slice, ← List.take_add,
      Nat.add_sub_cancel' (h.nofs_mono hn)]

/-- What is in the slices is what is in the array. -/
theorem Checked.sum_slices (h : args.Checked T) :
    ∑ i : Fin T, (args.slice T i : Multiset (BitVec 32))
      = (args.input : Multiset (BitVec 32)) := by
  have hflatten := h.flatten_slices le_rfl
  rw [h.nofs_self, List.take_length] at hflatten
  rw [Fin.sum_univ_eq_sum_range
    (fun i => (args.slice T i : Multiset (BitVec 32))), ← hflatten,
    ← Multiset.coe_join, List.map_map]
  rfl

/-- The length of a slice, which is the difference the source computes. -/
theorem Checked.length_slice (h : args.Checked T) {i : ℕ} (hi : i < T) :
    (args.slice T i).length = args.nofs T (i + 1) - args.nofs T i := by
  have hle : args.nofs T (i + 1) ≤ args.input.length := h.nofs_le hi
  unfold slice
  rw [List.length_take_of_le]
  rw [List.length_drop]
  omega

/-- **What a thread is given** is its slice, whatever the threads before it
do. -/
theorem Checked.readItems_slice (h : args.Checked T) {i : ℕ} (hi : i < T) :
    readItems args.input (args.nofs T i)
      ((args.nofs T (i + 1) + 2 ^ 64 - args.nofs T i) % 2 ^ 64)
        = some (args.slice T i) := by
  have hmono := h.nofs_mono hi
  have hle : args.nofs T (i + 1) ≤ args.input.length := h.nofs_le hi
  have hlength := h.length_lt
  have hcnt : (args.nofs T (i + 1) + 2 ^ 64 - args.nofs T i) % 2 ^ 64
      = args.nofs T (i + 1) - args.nofs T i := by omega
  rw [hcnt, readItems, if_pos (by omega)]
  rfl

/-- A slice is made of whole blocks, as many as there are for each thread, or
one more. -/
theorem Checked.exists_blocks (h : args.Checked T) {i : ℕ} (hi : i < T) :
    ∃ width, (args.slice T i).length = perBlock * width
      ∧ args.numBlocks / T ≤ width ∧ width ≤ args.numBlocks / T + 1 := by
  have hi' : i + 1 ≤ T := hi
  refine ⟨(i + 1) * args.numBlocks / T - i * args.numBlocks / T, ?_, ?_⟩
  · rw [h.length_slice hi, h.nofs_eq hi', h.nofs_eq hi.le,
      ← Nat.sub_mul, Nat.mul_comm]
  · rw [Nat.succ_mul, Nat.add_div h.pos]
    generalize args.numBlocks / T = width
    generalize i * args.numBlocks / T = start
    split <;> omega

end BenchArgs

/-! ## The invariant

It says what holds at each control point of the main thread. The threads are
described together, as those that were started may be anywhere in their
slices. -/

/-- Collecting leaves the configuration. -/
theorem SktCollector.SameConfig.collect {a c : SktCollector}
    (h : a.SameConfig c)
    (data : List (BitVec 32)) : (a.collect data).SameConfig c :=
  ⟨h.pHll, h.rAgms, h.pAgms, h.rCm, h.pCm, h.dispatch⟩

/-- So does cleaning. -/
theorem SktCollector.SameConfig.clean {a c : SktCollector}
    (h : a.SameConfig c) :
    a.clean.SameConfig c :=
  ⟨h.pHll, h.rAgms, h.pAgms, h.rCm, h.pCm, h.dispatch⟩

namespace Bench

variable {T : ℕ}

/-- The collector of a run over the whole array: what the reports are compared
with. -/
def whole (args : BenchArgs) : SktCollector := args.collector.collect args.input

/-- What a repetition reports: the estimates of a collector given the whole
array. -/
def expected (args : BenchArgs) : CardEstimate × ℚ :=
  ((whole args).estimateCardinality, medianOf (whole args).rowSums)

/-- **The first `n` threads are at work on their slices**: what a collector has
and what its thread has yet to collect make up the slice. The others have
nothing, and clean collectors. -/
def Collecting (args : BenchArgs) (s : Bench T) (n : ℕ) : Prop :=
  ∀ j : Fin T, ∃ D : Multiset (BitVec 32), (s.collectors j).Holds D
    ∧ D + (s.threads j : Multiset (BitVec 32)) = if j.val
      < n then (args.slice T j : Multiset _) else 0

/-- The table of `collector_cols` is clean, as `merge_columns` needs it: it adds
to what is there. -/
def ColsClean (args : BenchArgs) (s : Bench T) : Prop :=
  s.cols = List.replicate (2 ^ 1 * args.ar) 0

/-- What holds at the control points of the main thread: how far the threads
are, which tables are clean, and what has been reported. -/
def Phase (args : BenchArgs) (s : Bench T) : Prop :=
  match s.pc with
  | .starting i => i ≤ T ∧ s.ofs = args.nofs T i
    ∧ s.Collecting args i ∧ s.ColsClean args
      ∧ s.r < args.repetitions ∧ s.reports = List.replicate s.r (expected args)
  | .joining i => (∀ j : Fin T, j.val < i → s.threads j = [])
    ∧ s.Collecting args T
      ∧ s.ColsClean args ∧ s.r < args.repetitions
      ∧ s.reports = List.replicate s.r (expected args)
  | .measuring => (∀ j, s.threads j = [])
    ∧ s.Collecting args T ∧ s.ColsClean args
      ∧ s.r < args.repetitions ∧ s.reports = List.replicate s.r (expected args)
  | .cleaning => (∀ j, s.threads j = []) ∧ s.cols.length = 2 ^ 1 * args.ar
      ∧ s.r < args.repetitions
      ∧ s.reports = List.replicate (s.r + 1) (expected args)
  | .done => (∀ j, s.threads j = [])
      ∧ s.reports = List.replicate args.repetitions (expected args)

/-- **The invariant of the benchmark**: the collectors keep their configuration,
and the main thread is in its phase. -/
structure Sound (args : BenchArgs) (s : Bench T) : Prop where
  /-- The collectors keep their dimensions and their hash function. -/
  config : ∀ j, (s.collectors j).SameConfig args.collector
  /-- What is true of their contents depends on where the main thread is. -/
  phase : s.Phase args

namespace Sound

variable {R : IntRange} {args : BenchArgs} {s s' : Bench T}

/-- Fresh collectors, with no thread at work, are where a repetition begins. -/
theorem collecting_zero {collectors : Fin T → SktCollector}
    (h : ∀ j, (collectors j).Holds 0) (hthreads : ∀ j, s.threads j = [])
    (hcollectors : s.collectors = collectors) : s.Collecting args 0 := by
  intro j
  refine ⟨0, hcollectors ▸ h j, ?_⟩
  rw [hthreads, if_neg (Nat.not_lt_zero _)]
  rfl

/-- Before the first repetition all is clean. -/
theorem init : (Bench.init args : Bench T).Sound args where
  config _ := ⟨rfl, rfl, rfl, rfl, rfl, rfl⟩
  phase := by
    unfold Phase
    by_cases hrep : 0 < args.repetitions
    · rw [show (Bench.init args : Bench T).pc = .starting 0 from if_pos hrep]
      exact ⟨Nat.zero_le T, BenchArgs.nofs_zero.symm,
        collecting_zero (fun _ => holds_new _ _ _ _ _ _) (fun _ => rfl) rfl,
          rfl, hrep, rfl⟩
    · rw [show (Bench.init args : Bench T).pc = .done from if_neg hrep]
      have hzero : args.repetitions = 0 := by omega
      refine ⟨fun _ => rfl, ?_⟩
      rw [hzero]
      rfl

/-- A thread goes on with its slice: an item goes from what it has yet to
collect to what its collector has. -/
theorem collecting_thread {n : ℕ} (hrange : args.collector.InRange)
    (hconfig : ∀ j, (s.collectors j).SameConfig args.collector)
    (hs : s.Collecting args n) {i : Fin T} {x : BitVec 32}
    {rest : List (BitVec 32)} (hi : s.threads i = x :: rest) :
    ({ s with
      collectors :=
        Function.update s.collectors i ((s.collectors i).collect [x])
      threads := Function.update s.threads i rest }
      : Bench T).Collecting args n := by
  intro j
  by_cases hj : j = i
  · subst hj
    obtain ⟨D, hD, hsum⟩ := hs j
    refine ⟨D + {x}, ?_, ?_⟩
    · simp only [Function.update_self]
      exact hD.collect (hrange.of_sameConfig (hconfig j).symm) [x]
    · simp only [Function.update_self]
      rw [← hsum, hi, add_assoc, ← Multiset.cons_coe, Multiset.singleton_add]
  · simp only [Function.update_of_ne hj]
    exact hs j

/-- A move of a thread keeps the invariant, in whichever phase it is made. -/
theorem threadStep (hs : s.Sound args)
    (hrange : args.collector.InRange) {i : Fin T}
    (hstep : s.threadStep i = some s') : s'.Sound args := by
  unfold Bench.threadStep at hstep
  cases hi : s.threads i with
  | nil =>
    rw [hi] at hstep
    cases hstep
  | cons x rest =>
    rw [hi] at hstep
    obtain rfl := Option.some.inj hstep
    have hne : s.threads i ≠ [] := by
      rw [hi]
      exact List.cons_ne_nil _ _
    refine ⟨fun j => ?_, ?_⟩
    · by_cases hj : j = i
      · subst hj
        simp only [Function.update_self]
        exact (hs.config j).collect [x]
      · simp only [Function.update_of_ne hj]
        exact hs.config j
    · have hphase := hs.phase
      have hcollecting := fun n h =>
        collecting_thread (n := n) hrange hs.config h hi
      unfold Phase at hphase ⊢
      cases hpc : s.pc with
      | starting k =>
        rw [hpc] at hphase
        obtain ⟨hk, hofs, hwork, hrest⟩ := hphase
        exact ⟨hk, hofs, hcollecting k hwork, hrest⟩
      | joining k =>
        rw [hpc] at hphase
        obtain ⟨hjoined, hwork, hrest⟩ := hphase
        refine ⟨fun j hj => ?_, hcollecting T hwork, hrest⟩
        have hji : j ≠ i := fun h => hne (h ▸ hjoined j hj)
        simp only [Function.update_of_ne hji]
        exact hjoined j hj
      | measuring | cleaning | done =>
        rw [hpc] at hphase
        exact absurd (hphase.1 i) hne

/-! ### What a repetition measures -/

/-- **The merged collector** is that of the whole array, since it holds the same
items. -/
theorem compact_eq (h : args.Checked T) (hs : s.Sound args)
    (hthreads : ∀ j, s.threads j = [])
    (hwork : s.Collecting args T) :
    compact (List.ofFn s.collectors) = some (whole args) := by
  have hholds : ∀ j, (s.collectors j).Holds (args.slice T j) := by
    intro j
    obtain ⟨D, hD, hsum⟩ := hwork j
    rw [hthreads, if_pos j.isLt] at hsum
    rw [← hsum]
    simpa using hD
  have hne : List.ofFn
    (fun j => (s.collectors j, (args.slice T j : Multiset (BitVec 32)))) ≠ [] :=
    List.ne_nil_of_length_pos (by rw [List.length_ofFn]; exact h.pos)
  obtain ⟨master, hmaster, hcfg, hD⟩ :=
    compact_of_holds (c := args.collector) hne
    (fun r hr => by
      obtain ⟨j, rfl⟩ := (List.mem_ofFn' _ _).mp hr
      exact ⟨hs.config j, hholds j⟩)
  rw [List.map_ofFn] at hmaster hD
  have hslices := h.sum_slices
  rw [List.sum_ofFn] at hD
  have hwhole : (whole args).Holds (args.input : Multiset (BitVec 32)) := by
    have hcollect :=
      (holds_new args.hp args.ar args.ap args.cr args.cp
        args.hash).collect h.inRange
      args.input
    rwa [zero_add] at hcollect
  have heq : master = whole args := by
    have hconfig : (whole args).SameConfig args.collector :=
      SameConfig.collect ⟨rfl, rfl, rfl, rfl, rfl, rfl⟩ args.input
    exact Holds.eq (hslices ▸ hD) hwhole (hcfg.trans hconfig.symm)
  rw [← heq]
  exact hmaster

/-- The arithmetic of the estimates stays in its range: the sums of the rows,
and the sum of the two in the middle. -/
def InIntRange (R : IntRange) (args : BenchArgs) : Prop :=
  (∀ i < args.ar, R.holds ((whole args).rowSum i))
    ∧ R.holds (middleSum (whole args).rowSums)

instance (R : IntRange) (args : BenchArgs) : Decidable (InIntRange R args) :=
  inferInstanceAs (Decidable (_ ∧ _))

/-- **The estimates of a repetition** with clean tables are those of a run over
the whole array, as long as the arithmetic stays in its range. -/
theorem measure_eq (R : IntRange) (hrows : 1 ≤ args.ar) :
    measure R args (List.replicate (2 ^ 1 * args.ar) 0) (whole args)
      = if InIntRange R args then
          some (expected args, (whole args).rowSums.insertionSort (· ≤ ·)
            ++ List.replicate (2 ^ 1 * args.ar - args.ar) 0)
        else none := by
  have hlength : (whole args).rowSums.length = args.ar := length_rowSums _
  have hroom : args.ar ≤ 2 ^ 1 * args.ar := by omega
  have htable := foldlM_rowTurn R (whole args) (2 ^ 1 * args.ar)
    (Nat.le_refl (whole args).rAgms)
  set table := (whole args).rowSums ++ List.replicate
    (2 ^ 1 * args.ar - args.ar) 0 with hdef
  have hlong : args.ar ≤ table.length := by
    rw [hdef, List.length_append, hlength]
    exact Nat.le_add_right _ _
  have hmedian := getMedian_eq R hrows hlong
  rw [hdef, List.take_left' hlength, List.drop_left' hlength, ← hdef] at hmedian
  unfold measure
  rw [htable]
  by_cases hsums : ∀ i < args.ar, R.holds ((whole args).rowSum i)
  · rw [if_pos ⟨hroom, hsums⟩]
    show (getMedian R args.ar table >>= _) = _
    rw [hmedian]
    by_cases hmiddle : R.holds (middleSum (whole args).rowSums)
    · have hin : InIntRange R args := ⟨hsums, hmiddle⟩
      rw [if_pos hmiddle, if_pos hin]
      rfl
    · have hout : ¬ InIntRange R args := fun h => hmiddle h.2
      rw [if_neg hmiddle, if_neg hout]
      rfl
  · have hout : ¬ InIntRange R args := fun h => hsums h.1
    rw [if_neg fun h => hsums h.2, if_neg hout]
    rfl

/-! ### The main thread -/

/-- What the main thread takes for the next thread is that thread's slice, and
it lies inside of the array. -/
theorem readItems_eq (h : args.Checked T) (hs : s.Sound args) {i : ℕ}
    (hpc : s.pc = .starting i) (hi : i < T) :
    readItems args.input s.ofs ((args.nofs T (i + 1) + 2 ^ 64 - s.ofs) % 2 ^ 64)
      = some (args.slice T i) := by
  have hphase := hs.phase
  unfold Phase at hphase
  rw [hpc] at hphase
  rw [hphase.2.1]
  exact h.readItems_slice hi

/-- Starting a thread. It has all of its slice to collect, into a clean
collector. -/
theorem phase_starting (hs : s.Sound args) {i : ℕ}
    (hpc : s.pc = .starting i) (hi : i < T) :
    ({ s with
      pc := .starting (i + 1)
      ofs := args.nofs T (i + 1)
      threads := Function.update s.threads ⟨i, hi⟩ (args.slice T i) } :
        Bench T).Phase args := by
  have hphase := hs.phase
  unfold Phase at hphase
  rw [hpc] at hphase
  obtain ⟨-, -, hwork, hrest⟩ := hphase
  refine ⟨hi, rfl, fun j => ?_, hrest⟩
  obtain ⟨D, hD, hsum⟩ := hwork j
  refine ⟨D, hD, ?_⟩
  by_cases hj : j = ⟨i, hi⟩
  · subst hj
    simp only [Function.update_self]
    rw [if_neg (Nat.lt_irrefl i)] at hsum
    rw [if_pos (Nat.lt_succ_self i), (add_eq_zero.mp hsum).1, zero_add]
  · have hne : j.val ≠ i := fun heq => hj (Fin.ext heq)
    simp only [Function.update_of_ne hj]
    rw [hsum]
    refine if_congr ?_ rfl rfl
    omega

/-- The estimates of a repetition are due, and the collectors are not clean
yet. -/
theorem phase_measuring (h : args.Checked T) (hs : s.Sound args)
    (hpc : s.pc = .measuring) :
    compact (List.ofFn s.collectors) = some (whole args)
      ∧ measure R args s.cols (whole args) = if InIntRange R args then
          some (expected args, (whole args).rowSums.insertionSort (· ≤ ·)
            ++ List.replicate (2 ^ 1 * args.ar - args.ar) 0)
        else none := by
  have hphase := hs.phase
  unfold Phase at hphase
  rw [hpc] at hphase
  obtain ⟨hthreads, hwork, hclean, -⟩ := hphase
  refine ⟨hs.compact_eq h hthreads hwork, ?_⟩
  rw [hclean]
  exact measure_eq R h.rows

/-- A move of the main thread keeps the invariant, by cases on the move. -/
theorem mainStep (h : args.Checked T) (hs : s.Sound args)
    (hstep : s.mainStep R args = some s') :
    s'.Sound args := by
  have hphase := hs.phase
  unfold Phase at hphase
  cases moves_of_mainStep hstep with
  | start hpc hi hdata =>
    obtain rfl := Option.some.inj ((hs.readItems_eq h hpc hi).symm.trans hdata)
    exact ⟨hs.config, hs.phase_starting hpc hi⟩
  | @started i hpc hi =>
    rw [hpc] at hphase
    obtain ⟨hle, -, hwork, hrest⟩ := hphase
    obtain rfl : i = T := le_antisymm hle (Nat.not_lt.mp hi)
    exact ⟨hs.config, fun j hj => absurd hj (Nat.not_lt_zero _), hwork, hrest⟩
  | @join i hpc hi hdone =>
    rw [hpc] at hphase
    obtain ⟨hjoined, hwork, hrest⟩ := hphase
    refine ⟨hs.config, fun j hj => ?_, hwork, hrest⟩
    rcases Nat.lt_succ_iff_lt_or_eq.mp hj with hlt | heq
    · exact hjoined j hlt
    · obtain rfl : j = ⟨i, hi⟩ := Fin.ext heq
      exact hdone
  | joined hpc hi =>
    rw [hpc] at hphase
    obtain ⟨hjoined, hwork, hrest⟩ := hphase
    exact ⟨hs.config, fun j => hjoined j (j.isLt.trans_le (Nat.not_lt.mp hi)),
      hwork, hrest⟩
  | measure hpc hmaster hm =>
    obtain ⟨hcompact, hmeasure⟩ := hs.phase_measuring (R := R) h hpc
    obtain rfl := Option.some.inj (hcompact.symm.trans hmaster)
    rw [hmeasure] at hm
    rw [hpc] at hphase
    obtain ⟨hthreads, -, -, hr, hreports⟩ := hphase
    split at hm
    · obtain rfl := Option.some.inj hm
      refine ⟨fun j => ?_, hthreads, ?_, hr, ?_⟩
      · show SktCollector.SameConfig
          (if j.val = 0 then whole args else s.collectors j) _
        split
        · exact SameConfig.collect ⟨rfl, rfl, rfl, rfl, rfl, rfl⟩ args.input
        · exact hs.config j
      · show (List.insertionSort _ _ ++ _).length = _
        rw [List.length_append, List.length_insertionSort, length_rowSums,
          List.length_replicate]
        show args.ar + _ = _
        omega
      · show s.reports ++ [expected args] = _
        rw [hreports, ← List.replicate_succ']
    · cases hm
  | clean hpc =>
    rw [hpc] at hphase
    obtain ⟨hthreads, hlength, hr, hreports⟩ := hphase
    refine ⟨fun j => (hs.config j).clean, ?_⟩
    unfold Phase
    dsimp only
    by_cases hnext : s.r + 1 < args.repetitions
    · rw [if_pos hnext]
      refine ⟨Nat.zero_le T, BenchArgs.nofs_zero.symm,
        collecting_zero (fun j => holds_clean (s.collectors j)) hthreads rfl,
          ?_, hnext, hreports⟩
      exact forEach_const 0 hlength
    · rw [if_neg hnext]
      refine ⟨hthreads, ?_⟩
      rw [hreports, show s.r + 1 = args.repetitions by omega]

/-- **Every move keeps the invariant**, of the main thread or of one it has
started. -/
theorem step (h : args.Checked T) (hs : s.Sound args) {a : Option (Fin T)}
    (hstep : s.step R args a = some s') : s'.Sound args := by
  cases a with
  | none => exact hs.mainStep h hstep
  | some i => exact hs.threadStep h.inRange hstep

/-- **Nothing is stuck** while the arithmetic of the estimates stays in its
range. A join waits for a thread that can move. -/
theorem enabled (h : args.Checked T) (hs : s.Sound args)
    (hin : InIntRange R args)
    (hpc : s.pc ≠ .done) : ∃ a, (s.step R args a).isSome = true := by
  cases hcase : s.pc with
  | starting i =>
    refine ⟨none, ?_⟩
    show (s.mainStep R args).isSome = true
    unfold Bench.mainStep
    rw [hcase]
    dsimp only
    by_cases hi : i < T
    · rw [dif_pos hi, hs.readItems_eq h hcase hi]
      rfl
    · rw [dif_neg hi]
      rfl
  | joining i =>
    by_cases hi : ∃ hi : i < T, s.threads ⟨i, hi⟩ ≠ []
    · obtain ⟨hi, hne⟩ := hi
      refine ⟨some ⟨i, hi⟩, ?_⟩
      show (s.threadStep ⟨i, hi⟩).isSome = true
      unfold Bench.threadStep
      obtain ⟨x, rest, heq⟩ := List.exists_cons_of_ne_nil hne
      rw [heq]
      rfl
    · refine ⟨none, ?_⟩
      show (s.mainStep R args).isSome = true
      unfold Bench.mainStep
      rw [hcase]
      dsimp only
      push Not at hi
      by_cases hlt : i < T
      · rw [dif_pos hlt, if_pos (hi hlt)]
        rfl
      · rw [dif_neg hlt]
        rfl
  | measuring =>
    refine ⟨none, ?_⟩
    obtain ⟨hcompact, hmeasure⟩ := hs.phase_measuring (R := R) h hcase
    show (s.mainStep R args).isSome = true
    unfold Bench.mainStep
    rw [hcase]
    dsimp only
    rw [hcompact, Option.bind_some, hmeasure, if_pos hin]
    rfl
  | cleaning =>
    refine ⟨none, ?_⟩
    show (s.mainStep R args).isSome = true
    unfold Bench.mainStep
    rw [hcase]
    rfl
  | done => exact absurd hcase hpc

end Sound

/-! ## How far the benchmark can go

The number of moves of a repetition does not depend on the scheduler: every item
is collected once, every thread started and joined once. -/

/-- The moves of a repetition: one for each item, and those of the main
thread. -/
def cycle (args : BenchArgs) (T : ℕ) : ℕ := args.input.length + 2 * T + 4

/-- The moves that are left in a repetition, but for those of the threads that
are started. -/
def toGoPc (args : BenchArgs) (s : Bench T) : BenchPc → ℕ
  | .starting i => (args.input.length - s.ofs) + (T - i) + (T + 4)
  | .joining i => (T - i) + 3
  | .measuring => 2
  | .cleaning => 1
  | .done => 0

/-- The moves that are left, in this repetition and in the others. It is what
goes down. -/
def toGo (args : BenchArgs) (s : Bench T) : ℕ :=
  (args.repetitions - (s.r + 1)) * cycle args T + toGoPc args s s.pc
    + ∑ j, (s.threads j).length

variable {R : IntRange} {args : BenchArgs} {s s' : Bench T}

/-- A thread goes on, with one item less. -/
theorem threadStep_toGo_lt {i : Fin T} (hstep : s.threadStep i = some s') :
    s'.toGo args < s.toGo args := by
  unfold threadStep at hstep
  cases hi : s.threads i with
  | nil =>
    rw [hi] at hstep
    cases hstep
  | cons x rest =>
    rw [hi] at hstep
    obtain rfl := Option.some.inj hstep
    have hsum := sum_update List.length s.threads i rest
    rw [hi, List.length_cons] at hsum
    refine Nat.add_lt_add_left ?_ _
    show ∑ j, (Function.update s.threads i rest j).length < _
    omega

/-- The main thread goes on. When it starts a thread, the items of the slice are
left to that thread. -/
theorem Sound.mainStep_toGo_lt (h : args.Checked T) (hs : s.Sound args)
    (hstep : s.mainStep R args = some s') : s'.toGo args < s.toGo args := by
  have hphase := hs.phase
  unfold Phase at hphase
  unfold toGo
  cases moves_of_mainStep hstep with
  | @start i data hpc hi hdata =>
    obtain rfl := Option.some.inj ((hs.readItems_eq h hpc hi).symm.trans hdata)
    rw [hpc] at hphase
    obtain ⟨-, hofs, hwork, -⟩ := hphase
    obtain ⟨D, -, hsum⟩ := hwork ⟨i, hi⟩
    rw [if_neg (Nat.lt_irrefl i)] at hsum
    have hidle : s.threads ⟨i, hi⟩ = [] :=
      (Multiset.coe_eq_zero _).mp (add_eq_zero.mp hsum).2
    have hlength := sum_update_of_zero List.length
      (f := s.threads) (args.slice T i)
      (by rw [hidle]; rfl)
    have hle : args.nofs T (i + 1) ≤ args.input.length := h.nofs_le hi
    have hmono := h.nofs_mono hi
    rw [hpc]
    dsimp only [toGoPc]
    rw [hlength, hofs, h.length_slice hi]
    omega
  | started hpc hi =>
    rw [hpc]
    dsimp only [toGoPc]
    omega
  | join hpc hi hdone =>
    rw [hpc]
    dsimp only [toGoPc]
    omega
  | joined hpc hi =>
    rw [hpc]
    dsimp only [toGoPc]
    omega
  | measure hpc hmaster hm =>
    rw [hpc]
    dsimp only [toGoPc]
    omega
  | clean hpc =>
    rw [hpc] at hphase ⊢
    obtain ⟨-, -, hr, -⟩ := hphase
    dsimp only
    by_cases hnext : s.r + 1 < args.repetitions
    · have hleft : args.repetitions - (s.r + 1)
        = args.repetitions - (s.r + 1 + 1) + 1 := by omega
      rw [if_pos hnext, hleft, Nat.succ_mul]
      dsimp only [toGoPc, cycle]
      omega
    · rw [if_neg hnext, show args.repetitions - (s.r + 1 + 1)
        = 0 by omega, Nat.zero_mul]
      dsimp only [toGoPc]
      omega

/-- **Every move takes the benchmark forward**, so that there are only so
many. -/
theorem Sound.toGo_lt (h : args.Checked T) (hs : s.Sound args)
    {a : Option (Fin T)}
    (hstep : s.step R args a = some s') : s'.toGo args < s.toGo args := by
  cases a with
  | none => exact hs.mainStep_toGo_lt h hstep
  | some i => exact threadStep_toGo_lt hstep

/-- How far the benchmark can go from its start. -/
theorem toGo_init (args : BenchArgs) :
    (init args : Bench T).toGo args = args.repetitions * cycle args T := by
  unfold toGo
  show _ + toGoPc args (init args : Bench T)
    (if 0 < args.repetitions then .starting 0 else .done)
    + ∑ _j : Fin T, 0 = _
  rw [Finset.sum_const_zero, Nat.add_zero]
  by_cases hrep : 0 < args.repetitions
  · obtain ⟨n, hn⟩ : ∃ n, args.repetitions = n + 1 :=
      ⟨args.repetitions - 1, by omega⟩
    rw [if_pos hrep, hn, Nat.succ_mul]
    show (n + 1 - (0 + 1)) * cycle args T
      + (args.input.length - 0 + (T - 0) + (T + 4)) = _
    rw [Nat.zero_add, Nat.add_sub_cancel]
    unfold cycle
    omega
  · have hzero : args.repetitions = 0 := by omega
    rw [if_neg hrep, hzero, Nat.zero_sub, Nat.zero_mul]
    rfl

/-- **The invariant holds in every reachable state**, by induction on the
moves. -/
theorem sound_of_reachable (h : args.Checked T)
    (hs : Reachable (Bench.step R args) (init args) s) : s.Sound args :=
  hs.invariant .init fun _ _ _ hs hstep => hs.step h hstep

end Bench

/-! ## The results -/

section Results

variable {T : ℕ} {args : BenchArgs} (R : IntRange)

/-- **The split is as even as possible.** What the threads are given makes up
the array, one behind the other. Everyone has whole blocks, and at least one,
and nobody has more than one block more than another. -/
theorem bench_split (h : args.Checked T) :
    (∀ i < T, readItems args.input (args.nofs T i)
        ((args.nofs T (i + 1) + 2 ^ 64 - args.nofs T i) % 2 ^ 64)
          = some (args.slice T i))
      ∧ ((List.range T).map (args.slice T)).flatten = args.input
      ∧ ∀ i < T, BenchArgs.perBlock ∣ (args.slice T i).length
        ∧ BenchArgs.perBlock ≤ (args.slice T i).length
        ∧ ∀ j < T, (args.slice T i).length ≤ (args.slice T j).length
          + BenchArgs.perBlock := by
  refine ⟨fun i hi => h.readItems_slice hi, ?_, fun i hi => ?_⟩
  · rw [h.flatten_slices le_rfl, h.nofs_self, List.take_length]
  · obtain ⟨width, hwidth, hge, hle⟩ := h.exists_blocks hi
    have hone : 1 ≤ width := (Nat.div_pos h.le_blocks h.pos).trans_le hge
    rw [hwidth]
    refine ⟨Nat.dvd_mul_right _ _, Nat.le_mul_of_pos_right _ hone,
      fun j hj => ?_⟩
    obtain ⟨width', hwidth', hge', -⟩ := h.exists_blocks hj
    rw [hwidth', ← Nat.mul_succ]
    exact Nat.mul_le_mul_left _ (hle.trans (Nat.succ_le_succ hge'))

/-- Three blocks for two threads. -/
theorem bench_split_instance :
    let args : BenchArgs :=
      ⟨16, 6, 13, 6, 13, .murmur3_128, 1, List.replicate 24 7⟩
    (∀ i < 2, readItems args.input (args.nofs 2 i)
        ((args.nofs 2 (i + 1) + 2 ^ 64 - args.nofs 2 i) % 2 ^ 64)
          = some (args.slice 2 i))
      ∧ ((List.range 2).map (args.slice 2)).flatten = args.input
      ∧ ∀ i < 2, BenchArgs.perBlock ∣ (args.slice 2 i).length
        ∧ BenchArgs.perBlock ≤ (args.slice 2 i).length
        ∧ ∀ j < 2, (args.slice 2 i).length ≤ (args.slice 2 j).length
          + BenchArgs.perBlock :=
  bench_split ⟨⟨(by decide : 16 ≤ 16), (by decide : 0 < 13)⟩, by
    decide, by decide, by decide,
    by decide, by decide⟩

/-- **Every repetition reports the same**, whatever the threads do in which
order: the estimates of a single collector that is given the whole array.

So the tables a repetition starts from are clean, and its threads have been
joined: both are part of the invariant this is proved with. -/
theorem bench_reports (h : args.Checked T) {s : Bench T}
    (hs : Reachable (Bench.step R args) (Bench.init args) s) :
    (∃ n ≤ args.repetitions, s.reports = List.replicate n
        ((args.collector.collect args.input).estimateCardinality,
          medianOf (args.collector.collect args.input).rowSums))
      ∧ (s.pc = .done → s.reports.length = args.repetitions) := by
  have hphase := (Bench.sound_of_reachable h hs).phase
  unfold Bench.Phase at hphase
  cases hpc : s.pc with
  | starting i =>
    rw [hpc] at hphase
    obtain ⟨-, -, -, -, hr, hreports⟩ := hphase
    exact ⟨⟨s.r, hr.le, hreports⟩, nofun⟩
  | joining i =>
    rw [hpc] at hphase
    obtain ⟨-, -, -, hr, hreports⟩ := hphase
    exact ⟨⟨s.r, hr.le, hreports⟩, nofun⟩
  | measuring =>
    rw [hpc] at hphase
    obtain ⟨-, -, -, hr, hreports⟩ := hphase
    exact ⟨⟨s.r, hr.le, hreports⟩, nofun⟩
  | cleaning =>
    rw [hpc] at hphase
    obtain ⟨-, -, hr, hreports⟩ := hphase
    exact ⟨⟨s.r + 1, hr, hreports⟩, nofun⟩
  | done =>
    rw [hpc] at hphase
    obtain ⟨-, hreports⟩ := hphase
    refine ⟨⟨args.repetitions, le_rfl, hreports⟩, fun _ => ?_⟩
    rw [hreports, List.length_replicate]

/-- One thread and one block, twice. The options are the smallest that pass the
checks. -/
def oneBlock : BenchArgs where
  hp := 1
  ar := 1
  ap := 1
  cr := 1
  cp := 1
  hash := .ident
  repetitions := 2
  input := [0, 1, 2, 3, 4, 5, 6, 7]

/-- The checks of one block. -/
theorem checked_oneBlock : oneBlock.Checked 1 where
  inRange := ⟨(by decide : 1 ≤ 16), (by decide : 0 < 1)⟩
  rows := le_rfl
  blocks := rfl
  length_lt := by decide
  pos := Nat.one_pos
  le_blocks := le_rfl

/-- The moves of a repetition of one thread: started and joined by the main
thread, with eight items in between. -/
def oneRepetition : List (Option (Fin 1)) :=
  [none, none] ++ List.replicate 8 (some ⟨0, Nat.one_pos⟩)
    ++ [none, none, none, none]

/-- The benchmark runs through two repetitions. -/
theorem isSome_oneBlock :
    ((oneRepetition ++ oneRepetition).foldlM (Bench.step .exact oneBlock)
      (Bench.init oneBlock)).isSome = true := by decide

/-- The state in which the benchmark has run. -/
def oneBlockDone : Bench 1 :=
  ((oneRepetition ++ oneRepetition).foldlM (Bench.step .exact oneBlock)
    (Bench.init oneBlock)).get isSome_oneBlock

/-- It is reached. -/
theorem oneBlockDone_reachable :
    Reachable (Bench.step .exact oneBlock) (Bench.init oneBlock) oneBlockDone :=
  Reachable.init.foldlM (Option.some_get isSome_oneBlock).symm

/-- Both repetitions of the run report what a single collector finds. -/
theorem bench_reports_instance :
    (∃ n ≤ 2, oneBlockDone.reports = List.replicate n
        ((oneBlock.collector.collect oneBlock.input).estimateCardinality,
          medianOf (oneBlock.collector.collect oneBlock.input).rowSums))
      ∧ (oneBlockDone.pc = .done → oneBlockDone.reports.length = 2) :=
  bench_reports .exact checked_oneBlock oneBlockDone_reachable

/-- **All repetitions come to their end**, in a number of moves that is bounded,
unless the arithmetic of the estimates leaves its range. -/
theorem bench_completes (h : args.Checked T)
    (hsums : ∀ i < args.ar,
      R.holds ((args.collector.collect args.input).rowSum i))
    (hmiddle : R.holds
      (middleSum (args.collector.collect args.input).rowSums)) :
    (∀ s : Bench T, Reachable (Bench.step R args) (Bench.init args) s →
      s.pc ≠ .done →
      ∃ a, (s.step R args a).isSome = true)
    ∧ ∀ (n : ℕ) (s : Bench T), ReachableIn (Bench.step R args)
      (Bench.init args) n s →
      n ≤ args.repetitions * (args.input.length + 2 * T + 4) := by
  refine ⟨fun s hs hpc => (Bench.sound_of_reachable h hs).enabled h
    ⟨hsums, hmiddle⟩ hpc,
    fun n s hs => ?_⟩
  have hle := hs.add_le (μ := Bench.toGo args) fun _ _ _ hs hstep =>
    (Bench.sound_of_reachable h hs).toGo_lt h hstep
  rw [Bench.toGo_init] at hle
  exact (Nat.le_add_right _ _).trans hle

/-- One block needs at most 28 moves. -/
theorem bench_completes_instance :
    (∀ s : Bench 1, Reachable (Bench.step .exact oneBlock)
      (Bench.init oneBlock) s →
      s.pc ≠ .done → ∃ a, (s.step .exact oneBlock a).isSome = true)
    ∧ ∀ (n : ℕ) (s : Bench 1), ReachableIn (Bench.step .exact oneBlock)
      (Bench.init oneBlock) n s →
      n ≤ 2 * (8 + 2 * 1 + 4) :=
  bench_completes .exact checked_oneBlock (fun _ _ => trivial) trivial

end Results

end Skt
