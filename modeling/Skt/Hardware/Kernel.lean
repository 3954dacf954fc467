import Skt.Hardware.Compose
import Skt.Hardware.Hashes
import Skt.Hardware.Sketches

/-!
# The kernel

`krnl_skt_stream` as a network: its streams, the state of its processes, and
what a call of each process does. A call looks at its streams once and may find
them empty; which process is called next is not determined. In hardware all
processes run at the same time, and since a stream has one writer and one reader
their calls can be put into an order, in many ways. A schedule is any list of
calls, with no assumption of fairness: what holds after every schedule holds in
every state the hardware can be in.

The software emulation calls the processes in the order of the source, in an
endless loop that makes a new `src_funnelled` in every iteration, that stream
being the only one that is not `static`. The last section shows that nothing is
ever waiting in it when it is dropped, so that the emulation is a schedule too.

Lanes, rows and precisions are parameters, and so is the floating-point
arithmetic of the estimator. The depths of the streams are not modelled: a
stream that is full delays its writer, as any schedule may.
-/

namespace Skt.Hardware

open Streams

/-! ## Configuration

The constants of the header, and what they are computed to. -/

/-- The compile-time parameters of `skt_stream.hpp`, with `N0` of the kernel,
which is an `unsigned`. That there are lanes, rows and keys is what the
declarations of arrays and of `ap_uint` ask for. -/
structure Config where
  /-- `N0`: the items of a word on the input stream, which is `N0 * 32` bits
  wide. -/
  n0 : ℕ
  /-- `P_HLL`: the hash bits that name a HyperLogLog bucket. -/
  pHll : ℕ
  /-- `R_AGMS`: the rows of the AGMS sketch. -/
  rAgms : ℕ
  /-- `P_AGMS`: the hash bits that name an AGMS counter. The sign takes one bit
  more. -/
  pAgms : ℕ
  /-- `R_CM`: the rows of the Count-Min sketch. -/
  rCm : ℕ
  /-- `P_CM`: the hash bits that name a Count-Min counter. -/
  pCm : ℕ
  n0_pos : 0 < n0
  n0_lt : n0 < 2 ^ 32
  rAgms_pos : 0 < rAgms
  pAgms_pos : 0 < pAgms
  rCm_pos : 0 < rCm
  pCm_pos : 0 < pCm

namespace Config

/-- `AGMS_BITS`: a key and a sign for every row. -/
def agmsBits (cfg : Config) : ℕ := cfg.rAgms * (1 + cfg.pAgms)

/-- `CM_BITS`: a key for every row. -/
def cmBits (cfg : Config) : ℕ := cfg.rCm * cfg.pCm

/-- `HASH_BITS`: the greater of the two, with the conditional of the source. -/
def hashBits (cfg : Config) : ℕ :=
  if cfg.agmsBits > cfg.cmBits then cfg.agmsBits else cfg.cmBits

/-- `Hash`: `Murmur3_128` with the seed and the width of the header. -/
def hash (cfg : Config) : BitVec 32 → BitVec cfg.hashBits :=
  murmur3_128 0xDEADF00D#64 cfg.hashBits

/-- The parameters of the repository, `HASH_BITS` being 84. -/
def shipped : Config where
  n0 := 16
  pHll := 16
  rAgms := 6
  pAgms := 13
  rCm := 6
  pCm := 13
  n0_pos := by decide
  n0_lt := by decide
  rAgms_pos := by decide
  pAgms_pos := by decide
  rCm_pos := by decide
  pCm_pos := by decide

/-- The bits of the AGMS rows are there: the first `static_assert` of the
kernel. -/
theorem agms_le (cfg : Config) :
    cfg.rAgms * (1 + cfg.pAgms) ≤ cfg.hashBits := by
  unfold hashBits agmsBits cmBits
  split <;> omega

/-- The bits of the Count-Min rows are there: the second one. -/
theorem cm_le (cfg : Config) : cfg.rCm * cfg.pCm ≤ cfg.hashBits := by
  unfold hashBits agmsBits cmBits
  split <;> omega

end Config

/-! ## State

Everything a call can read or write, and nothing else. -/

/-- A beat of an AXI stream: `qdma_axis<W, 0, 0, 0>`, without user, id and
destination fields. -/
@[ext] structure Axis (w : ℕ) where
  data : BitVec w
  /-- One bit for each byte of the data that is valid. The source map does not
  look at them. -/
  keep : BitVec (w / 8)
  last : Bool

/-- The beat as the source map passes it on, without its keep bits. -/
def Axis.flit {w : ℕ} (x : Axis w) : Flit (BitVec w) := ⟨x.last, x.data⟩

/-- The beat the output map makes, with `set_keep(-1)`: all bytes are valid. -/
def Axis.ofFlit {w : ℕ} (x : Flit (BitVec w)) : Axis w :=
  ⟨x.val, BitVec.allOnes _, x.last⟩

/-- **The kernel**: the streams and the static variables of `krnl_skt_stream`,
for `N` lanes. The streams next to `compose` are kept in its ports, and the
networks of the three sketches keep their own. -/
structure Kernel (cfg : Config) (fl : HllFloat cfg.hashBits cfg.pHll)
    (N : ℕ) where
  /-- The input of the kernel, all beats of the host in it from the start. -/
  src : Fifo (Axis (cfg.n0 * 32))
  /-- The source buffer. It is the one stream with a depth of its own, which
  does not matter here. -/
  srcBuf : Fifo (Flit (BitVec (cfg.n0 * 32)))
  /-- `src_last`: whether the next word begins a job, and so writes a tick. -/
  srcLast : Bool
  /-- The two copies of every word, one for the basic sketch and one for the
  funnel. -/
  srcFlat : Fin 2 → Fifo (Flit (BitVec (cfg.n0 * 32)))
  /-- The summaries of the words. Their width depends on the number of lanes. -/
  srcBasic : Fifo (Flit (BasicSummary (clog2 N)))
  basic : BasicSketch
  /-- The static variables of `distr_funnel`, unused with as many lanes as
  items. -/
  funnel : Funnel
  /-- The items of the lanes. In the source it is the only stream that is not
  static. -/
  srcFunnelled : Fin N → Fifo (Flit (BitVec 32))
  /-- The HyperLogLog sketch up to its joined ranks, a network of one row. -/
  hll : Rows N 1 cfg.hashBits cfg.pHll (Rank cfg.hashBits cfg.pHll)
    (Rank cfg.hashBits cfg.pHll)
  /-- The registers of the cardinality estimator behind it. -/
  estimator : HllEstimator cfg.hashBits cfg.pHll
  /-- The AGMS sketch up to the counters of its rows, all lanes together. -/
  agms : Rows N cfg.rAgms cfg.hashBits cfg.pAgms (BitVec 1) (BitVec 32)
  /-- The sums of squares of the open job, one for each AGMS row. -/
  folds : Fin cfg.rAgms → BitVec 64
  /-- The Count-Min sketch up to the counters of its rows. -/
  cm : Rows N cfg.rCm cfg.hashBits cfg.pCm (BitVec 32) (BitVec 32)
  /-- `idx` of the concatenation that puts these rows into one stream. -/
  concat : ℕ
  compose : Compose
  /-- The streams next to `compose`, in the order of its arguments. -/
  io : ComposePorts fl.F cfg.rAgms
  /-- The output of the kernel. Nothing is taken from it, so that it shows
  everything the kernel has written. -/
  dst : Fifo (Axis 64)

/-! ## Processes

The processes of the streaming library have their equations already; what is new
here is `distribute`. -/

/-- `distribute`: every lane is hashed into `M` streams, one for each sketch, in
one call. A lane without an item is left alone while the others move on. -/
def distribute {N M H : ℕ} (hash : BitVec 32 → BitVec H)
    (srcFlat : Fin N → Fifo (Flit (BitVec 32)))
    (hashed : Fin M → Fin N → Fifo (Flit (BitVec H))) :
    (Fin N → Fifo (Flit (BitVec 32)))
      × (Fin M → Fin N → Fifo (Flit (BitVec H))) :=
  (fun i =>
    (split (fun (x : Flit (BitVec 32)) (_ : Fin M) => x.map hash) (srcFlat i)
    (fun j => hashed j i)).1,
    fun j i =>
      (split (fun x (_ : Fin M) => x.map hash) (srcFlat i)
        (fun j => hashed j i)).2 j)

section Distribute

variable {N M H : ℕ} {hash : BitVec 32 → BitVec H}
    {srcFlat : Fin N → Fifo (Flit (BitVec 32))}
  {hashed : Fin M → Fin N → Fifo (Flit (BitVec H))}

/-- **What `distribute` has written is the hashed lanes it has consumed**, the
same for every sketch. -/
theorem distribute_sound
    (h : ∀ j i, (hashed j i).written = (srcFlat i).consumed.map (Flit.map hash))
    (j : Fin M)
    (i : Fin N) : ((distribute hash srcFlat hashed).2 j i).written
      = ((distribute hash srcFlat hashed).1 i).consumed.map (Flit.map hash) :=
  split_sound (fun j => h j i) j

@[simp] theorem written_distribute (i : Fin N) :
    ((distribute hash srcFlat hashed).1 i).written = (srcFlat i).written :=
  written_split _ _ _

@[simp] theorem consumed_distribute (j : Fin M) (i : Fin N) :
    ((distribute hash srcFlat hashed).2 j i).consumed = (hashed j i).consumed :=
  consumed_split _ _ _ j

variable (hash srcFlat hashed) in
/-- A call of `distribute` lets its streams grow, on every lane. -/
theorem distribute_grows :
    (∀ i, Grows (srcFlat i) ((distribute hash srcFlat hashed).1 i))
    ∧ ∀ j i, Grows (hashed j i) ((distribute hash srcFlat hashed).2 j i) :=
  ⟨fun i =>
    (split_grows (fun (x : Flit (BitVec 32)) (_ : Fin M) =>
      x.map hash) (srcFlat i)
    (fun j => hashed j i)).1,
    fun j i =>
      (split_grows (fun (x : Flit (BitVec 32)) (_ : Fin M) =>
        x.map hash) (srcFlat i)
        (fun j => hashed j i)).2 j⟩

/-- An idle `distribute` has nothing left to do, on any lane. -/
theorem distribute_idle (h : (distribute hash srcFlat hashed).1 = srcFlat)
    (i : Fin N) :
    (srcFlat i).pending = [] :=
  split_idle (congrFun h i)

end Distribute

/-- The processes of the kernel, in the order of the source. Those inside a
sketch are the processes of its network. -/
inductive Proc (cfg : Config) (N : ℕ) where
  | srcMap
  | tickSplit
  | summaryMap
  | basicSketch
  | distrFunnel
  | distribute
  | hll (p : RowProc N 1)
  | estimate
  | agms (p : RowProc N cfg.rAgms)
  | fold (j : Fin cfg.rAgms)
  | cm (p : RowProc N cfg.rCm)
  | concat
  | compose
  | dstMap

namespace Kernel

variable {cfg : Config} {fl : HllFloat cfg.hashBits cfg.pHll} {N : ℕ}

/-- The kernel at its start, with the beats of the host on their way: they have
been written to the input stream, and `srcMap` may take the first of them at any
time. -/
def start (fl : HllFloat cfg.hashBits cfg.pHll) (N : ℕ)
    (input : List (Axis (cfg.n0 * 32))) :
    Kernel cfg fl N where
  src := ⟨[], input⟩
  srcBuf := Fifo.new
  srcLast := true
  srcFlat _ := Fifo.new
  srcBasic := Fifo.new
  basic := .init
  funnel := .init
  srcFunnelled _ := Fifo.new
  hll := .init
  estimator := .init
  agms := .init
  folds _ := 0
  cm := .init
  concat := 0
  compose := .init
  io := ⟨Fifo.new, Fifo.new, Fifo.new, fun _ => Fifo.new, Fifo.new, Fifo.new⟩
  dst := Fifo.new

/-- `hashed`: the hashed lanes of the three sketches. -/
def hashed (s : Kernel cfg fl N) :
    Fin 3 → Fin N → Fifo (Flit (BitVec cfg.hashBits)) :=
  ![s.hll.hashed, s.agms.hashed, s.cm.hashed]

/-- The side effect of the first output of the tick split: a tick for the first
word of a job, which is the one behind a `last`, or the very first. -/
def tick (srcLast : Bool) (srcBuf : Fifo (Flit (BitVec (cfg.n0 * 32))))
    (tickSrc : Fifo Bool) :
    Bool × Fifo Bool :=
  match srcBuf.readNb with
  | none => (srcLast, tickSrc)
  | some (x, _) => (x.last, if srcLast then tickSrc.write true else tickSrc)

/-- **One call of one process**, on the streams between it and its
neighbours. -/
def fire (s : Kernel cfg fl N) : Proc cfg N → Kernel cfg fl N
  | .srcMap =>
    let p := map Axis.flit s.src s.srcBuf
    { s with src := p.1, srcBuf := p.2 }
  | .tickSplit =>
    let p := split (fun x (_ : Fin 2) => x) s.srcBuf s.srcFlat
    let t := tick s.srcLast s.srcBuf s.io.tickSrc
    { s with srcBuf := p.1, srcFlat := p.2, srcLast := t.1, io :=
      { s.io with tickSrc := t.2 } }
  | .summaryMap =>
    let p := map (Flit.map (summaryOf (clog2 N))) (s.srcFlat 0) s.srcBasic
    { s with srcFlat := Function.update s.srcFlat 0 p.1, srcBasic := p.2 }
  | .basicSketch =>
    let p := BasicSketch.basicSketch cfg.n0 s.basic s.srcBasic s.io.dstBasic
    { s with basic := p.1, srcBasic := p.2.1, io :=
      { s.io with dstBasic := p.2.2 } }
  | .distrFunnel =>
    let p := Funnel.distrFunnel s.funnel (s.srcFlat 1) s.srcFunnelled
    { s with
      funnel := p.1, srcFlat := Function.update s.srcFlat 1 p.2.1,
        srcFunnelled := p.2.2 }
  | .distribute =>
    let p := Hardware.distribute cfg.hash s.srcFunnelled s.hashed
    { s with
      srcFunnelled := p.1
      hll := { s.hll with hashed := p.2 0 }
      agms := { s.agms with hashed := p.2 1 }
      cm := { s.cm with hashed := p.2 2 } }
  | .hll p => { s with hll := s.hll.fire (hllFunctions _ _) p }
  | .estimate =>
    let p := HllEstimator.estimate fl s.estimator (s.hll.counts 0) s.io.cardest
    { s with
      estimator := p.1
      hll := { s.hll with counts := Function.update s.hll.counts 0 p.2.1 }
      io := { s.io with cardest := p.2.2 } }
  | .agms p => { s with agms := s.agms.fire (agmsFunctions _ _ _) p }
  | .fold j =>
    let p := Hardware.fold addSquare 0 (s.folds j)
      (s.agms.counts j) (s.io.agmsSums j)
    { s with
      folds := Function.update s.folds j p.1
      agms := { s.agms with counts := Function.update s.agms.counts j p.2.1 }
      io := { s.io with agmsSums := Function.update s.io.agmsSums j p.2.2 } }
  | .cm p => { s with cm := s.cm.fire (cmFunctions _ _ _) p }
  | .concat =>
    let p := Hardware.concat s.concat s.cm.counts s.io.cmCounts
    { s with
      concat := p.1, cm := { s.cm with counts := p.2.1 }, io :=
        { s.io with cmCounts := p.2.2 } }
  | .compose =>
    let p := Compose.compose fl.bits s.compose s.io
    { s with compose := p.1, io := p.2 }
  | .dstMap =>
    let p := map Axis.ofFlit s.io.dst s.dst
    { s with io := { s.io with dst := p.1 }, dst := p.2 }

/-- A run: calls in some order. -/
def run (s : Kernel cfg fl N) (schedule : List (Proc cfg N)) :
    Kernel cfg fl N :=
  schedule.foldl fire s

/-- All streams of the kernel, for the order in which they grow. -/
def streams (s : Kernel cfg fl N) :=
  (s.src, s.srcBuf, s.srcFlat, s.srcBasic, s.srcFunnelled,
    s.hll.streams, s.agms.streams,
    s.cm.streams, s.io.streams, s.dst)

/-- A tick is written at most once per word. -/
theorem tick_grows (srcLast : Bool)
    (srcBuf : Fifo (Flit (BitVec (cfg.n0 * 32))))
    (tickSrc : Fifo Bool) : Grows tickSrc (tick srcLast srcBuf tickSrc).2 := by
  unfold tick
  split
  · exact Growing.refl _
  · cases srcLast with
    | true => exact Fifo.grows_write _ _
    | false => exact Growing.refl _

/-- **Every call lets the streams grow**: what has passed through a stream is
never taken back, whichever process is called. -/
theorem fire_grows (s : Kernel cfg fl N) (p : Proc cfg N) :
    Grows s.streams (s.fire p).streams := by
  have hrefl := fun {τ : Type} [Growing τ] (t : τ) => Growing.refl t
  cases p with
  | srcMap =>
    obtain ⟨h₁, h₂⟩ := map_grows Axis.flit s.src s.srcBuf
    exact ⟨h₁, h₂, hrefl _⟩
  | tickSplit =>
    obtain ⟨h₁, h₂⟩ := split_grows (fun x (_ : Fin 2) => x) s.srcBuf s.srcFlat
    exact ⟨hrefl _, h₁, h₂, hrefl _, hrefl _, hrefl _, hrefl _, hrefl _,
      ⟨tick_grows _ _ _, hrefl _⟩, hrefl _⟩
  | summaryMap =>
    obtain ⟨h₁, h₂⟩ :=
      map_grows (Flit.map (summaryOf (clog2 N))) (s.srcFlat 0) s.srcBasic
    exact ⟨hrefl _, hrefl _, grows_update h₁, h₂, hrefl _⟩
  | basicSketch =>
    obtain ⟨h₁, h₂⟩ := @BasicSketch.basicSketch_grows cfg.n0 _
      s.basic s.srcBasic s.io.dstBasic
    exact ⟨hrefl _, hrefl _, hrefl _, h₁, hrefl _, hrefl _, hrefl _, hrefl _,
      ⟨hrefl _, hrefl _, h₂, hrefl _⟩, hrefl _⟩
  | distrFunnel =>
    obtain ⟨h₁, h₂⟩ :=
      Funnel.distrFunnel_grows s.funnel (s.srcFlat 1) s.srcFunnelled
    exact ⟨hrefl _, hrefl _, grows_update h₁, hrefl _, h₂, hrefl _⟩
  | distribute =>
    obtain ⟨h₁, h₂⟩ := distribute_grows cfg.hash s.srcFunnelled s.hashed
    exact ⟨hrefl _, hrefl _, hrefl _, hrefl _,
      h₁, ⟨h₂ 0, hrefl _⟩, ⟨h₂ 1, hrefl _⟩,
      ⟨h₂ 2, hrefl _⟩, hrefl _⟩
  | hll p =>
    exact ⟨hrefl _, hrefl _, hrefl _, hrefl _,
      hrefl _, Rows.fire_grows s.hll p, hrefl _⟩
  | estimate =>
    obtain ⟨h₁, h₂⟩ := HllEstimator.estimate_grows fl
      s.estimator (s.hll.counts 0) s.io.cardest
    exact ⟨hrefl _, hrefl _, hrefl _, hrefl _, hrefl _,
      ⟨hrefl _, hrefl _, hrefl _, grows_update h₁⟩, hrefl _, hrefl _,
      ⟨hrefl _, hrefl _, hrefl _, h₂, hrefl _⟩, hrefl _⟩
  | agms p =>
    exact ⟨hrefl _, hrefl _, hrefl _, hrefl _, hrefl _,
      hrefl _, Rows.fire_grows s.agms p, hrefl _⟩
  | fold j =>
    obtain ⟨h₁, h₂⟩ := fold_grows addSquare 0
      (s.folds j) (s.agms.counts j) (s.io.agmsSums j)
    exact ⟨hrefl _, hrefl _, hrefl _, hrefl _, hrefl _, hrefl _,
      ⟨hrefl _, hrefl _, hrefl _, grows_update h₁⟩, hrefl _,
      ⟨hrefl _, grows_update h₂, hrefl _⟩, hrefl _⟩
  | cm p =>
    exact ⟨hrefl _, hrefl _, hrefl _, hrefl _, hrefl _, hrefl _,
      hrefl _, Rows.fire_grows s.cm p,
      hrefl _⟩
  | concat =>
    obtain ⟨h₁, h₂⟩ := concat_grows s.concat s.cm.counts s.io.cmCounts
    exact ⟨hrefl _, hrefl _, hrefl _, hrefl _, hrefl _, hrefl _, hrefl _,
      ⟨hrefl _, hrefl _, hrefl _, h₁⟩, ⟨hrefl _, hrefl _, hrefl _, hrefl _,
        h₂, hrefl _⟩, hrefl _⟩
  | compose =>
    exact ⟨hrefl _, hrefl _, hrefl _, hrefl _,
      hrefl _, hrefl _, hrefl _, hrefl _,
      Compose.compose_grows fl.bits s.compose s.io, hrefl _⟩
  | dstMap =>
    obtain ⟨h₁, h₂⟩ := map_grows Axis.ofFlit s.io.dst s.dst
    exact ⟨hrefl _, hrefl _, hrefl _, hrefl _,
      hrefl _, hrefl _, hrefl _, hrefl _,
      ⟨hrefl _, hrefl _, hrefl _, hrefl _, hrefl _, h₁⟩, h₂⟩

/-- **A quiescent state**: no call adds to or takes from a stream. Registers may
still move, as the cycle count does in every call of `compose`. -/
def Quiescent (s : Kernel cfg fl N) : Prop :=
  ∀ p, (s.fire p).streams = s.streams

/-! ## The emulation loop

Here the calls do have an order. What has to be shown is that dropping
`src_funnelled` at the end of an iteration drops nothing. -/

/-- A step of the emulation: a call, or the end of the scope of
`src_funnelled`. -/
inductive Action (cfg : Config) (N : ℕ) where
  | call (p : Proc cfg N)
  /-- The iteration of the loop begins anew, and with it the scope of its
  streams. -/
  | renew

/-- A step of the emulation. A new `src_funnelled` is empty; what was waiting in
the old one is gone. -/
def act (s : Kernel cfg fl N) : Action cfg N → Kernel cfg fl N
  | .call p => s.fire p
  | .renew => { s with srcFunnelled := fun i => (s.srcFunnelled i).discard }

/-- The calls of a sketch in the order of the source: the lanes are split, then
collected row by row of every lane, then reduced. In the emulation a read of a
memory misses nothing. -/
def rowCalls (N R : ℕ) : List (RowProc N R) :=
  (List.finRange N).map .split
    ++ (List.finRange N).flatMap
      (fun i => (List.finRange R).map (fun j => .collect i j 0))
    ++ (List.finRange R).map .reduce

/-- The calls of the source before `src_funnelled` is made. -/
def callsBefore (cfg : Config) (N : ℕ) : List (Proc cfg N) :=
  [.srcMap, .tickSplit, .summaryMap, .basicSketch]

/-- The calls behind the distribution: the three sketches, the record, and the
output. -/
def callsAfter (cfg : Config) (N : ℕ) : List (Proc cfg N) :=
  (rowCalls N 1).map .hll ++ [.estimate]
    ++ ((rowCalls N cfg.rAgms).map .agms ++ (List.finRange cfg.rAgms).map .fold)
    ++ ((rowCalls N cfg.rCm).map .cm ++ [.concat])
    ++ [.compose, .dstMap]

/-- **One iteration of the emulation loop**, with the new `src_funnelled` where
the source declares it. -/
def iteration (cfg : Config) (N : ℕ) : List (Action cfg N) :=
  (callsBefore cfg N).map .call
    ++ .renew :: (.distrFunnel :: .distribute :: callsAfter cfg N).map .call

/-- The emulation after a number of iterations, and some way into the next: the
loop is endless, and it may be looked at between any two calls. -/
def emulate (s : Kernel cfg fl N) (iterations actions : ℕ) : Kernel cfg fl N :=
  ((iteration cfg N).take actions).foldl act
    ((List.replicate iterations (iteration cfg N)).flatten.foldl act s)

/-- Nothing is waiting between the funnel and its distribution. -/
def Clear (s : Kernel cfg fl N) : Prop := ∀ i, (s.srcFunnelled i).pending = []

/-- Calls are steps of the emulation. -/
theorem foldl_act_call (s : Kernel cfg fl N) (schedule : List (Proc cfg N)) :
    (schedule.map Action.call).foldl act s = s.run schedule := by
  rw [List.foldl_map]
  rfl

/-- **Nothing is lost with a `src_funnelled` that is empty.** -/
theorem act_renew {s : Kernel cfg fl N} (h : s.Clear) : s.act .renew = s := by
  show { s with srcFunnelled := fun i => (s.srcFunnelled i).discard } = s
  rw [show (fun i => (s.srcFunnelled i).discard) = s.srcFunnelled from
    funext fun i => Fifo.discard_of_pending (h i)]

/-- The processes before and behind the funnel leave its output alone, by cases
on the process. -/
theorem fire_srcFunnelled (s : Kernel cfg fl N)
    {p : Proc cfg N} (h₁ : p ≠ .distrFunnel)
    (h₂ : p ≠ .distribute) : (s.fire p).srcFunnelled = s.srcFunnelled := by
  cases p <;> first | rfl | exact absurd rfl h₁ | exact absurd rfl h₂

/-- The same for a number of them. -/
theorem run_srcFunnelled (s : Kernel cfg fl N) {schedule : List (Proc cfg N)}
    (h : ∀ p ∈ schedule, p ≠ .distrFunnel ∧ p ≠ .distribute) :
    (s.run schedule).srcFunnelled = s.srcFunnelled := by
  induction schedule generalizing s with
  | nil => rfl
  | cons p schedule ih =>
    have hp := h p List.mem_cons_self
    refine (ih (s.fire p) (fun q hq => h q (List.mem_cons_of_mem _ hq))).trans
      ?_
    exact fire_srcFunnelled s hp.1 hp.2

/-- **The distribution clears what the funnel has written**, as long as a call
of the funnel writes at most one item to a lane. -/
theorem clear_distribute {s : Kernel cfg fl N} (h : s.Clear) :
    ((s.fire .distrFunnel).fire .distribute).Clear := by
  intro i
  have hone : ((s.fire .distrFunnel).srcFunnelled i).pending.length ≤ 1 := by
    rcases Funnel.distrFunnel_write s.funnel (s.srcFlat 1) s.srcFunnelled i
      with he | ⟨y, he⟩
    · rw [show (s.fire .distrFunnel).srcFunnelled i = s.srcFunnelled i
        from he, h i]
      exact Nat.zero_le 1
    · rw [show (s.fire .distrFunnel).srcFunnelled i
        = (s.srcFunnelled i).write y from he,
        Fifo.write, h i]
      exact le_rfl
  set s' := s.fire .distrFunnel
  show (split _ (s'.srcFunnelled i) _).1.pending = []
  rcases split_cases (fun x (_ : Fin 3) => x.map cfg.hash) (s'.srcFunnelled i)
    (fun j => s'.hashed j i) with ⟨hx, he⟩ | ⟨x, src', hx, he⟩
  · rw [he]
    exact Fifo.readNb_eq_none.mp hx
  · obtain ⟨rest, hrest, rfl⟩ := Fifo.readNb_eq_some.mp hx
    rw [hrest, List.length_cons] at hone
    rw [he]
    exact List.length_eq_zero_iff.mp
      (Nat.le_zero.mp (Nat.le_of_succ_le_succ hone))

/-- An iteration of the emulation, or the beginning of one, is a run, and a
whole iteration leaves nothing in `src_funnelled`. -/
theorem foldl_iteration {s : Kernel cfg fl N} (h : s.Clear) (actions : ℕ) :
    (∃ schedule, ((iteration cfg N).take actions).foldl act s = s.run schedule)
      ∧ ((iteration cfg N).foldl act s).Clear := by
  have hbefore : ∀ n, (s.run ((callsBefore cfg N).take n)).Clear := by
    intro n i
    rw [run_srcFunnelled s (fun p hp => ?_)]
    · exact h i
    · have hmem := List.mem_of_mem_take hp
      unfold callsBefore at hmem
      simp only [List.mem_cons, List.not_mem_nil, or_false] at hmem
      rcases hmem with rfl | rfl | rfl | rfl <;> simp
  have hall := hbefore (callsBefore cfg N).length
  rw [List.take_length] at hall
  constructor
  · rcases Nat.lt_or_ge (callsBefore cfg N).length actions with hlt | hge
    · -- past the new `src_funnelled`
      obtain ⟨n, rfl⟩ : ∃ n, actions = (callsBefore cfg N).length + (n + 1) :=
        ⟨actions - (callsBefore cfg N).length - 1, by omega⟩
      refine ⟨callsBefore cfg N
        ++ (.distrFunnel :: .distribute :: callsAfter cfg N).take n, ?_⟩
      have htake : (iteration cfg N).take ((callsBefore cfg N).length + (n + 1))
          = (callsBefore cfg N).map .call
            ++ .renew
              :: ((.distrFunnel :: .distribute :: callsAfter cfg N).take n).map
                .call := by
        unfold iteration
        rw [List.take_append, List.length_map, List.take_of_length_le (by simp),
          Nat.add_sub_cancel_left, List.take_succ_cons, ← List.map_take]
      rw [htake, List.foldl_append, foldl_act_call,
        List.foldl_cons, act_renew hall,
        foldl_act_call]
      exact (List.foldl_append).symm
    · refine ⟨(callsBefore cfg N).take actions, ?_⟩
      unfold iteration
      rw [List.take_append_of_le_length (by rwa [List.length_map]),
        ← List.map_take,
        foldl_act_call]
  · unfold iteration
    rw [List.foldl_append, foldl_act_call, List.foldl_cons,
      act_renew hall, foldl_act_call]
    intro i
    show (((((s.run (callsBefore cfg N)).fire .distrFunnel).fire
      .distribute).run
      (callsAfter cfg N)).srcFunnelled i).pending = []
    rw [run_srcFunnelled _ (fun p hp => ?_)]
    · exact clear_distribute hall i
    · unfold callsAfter at hp
      simp only [List.mem_append, List.mem_map, List.mem_cons,
        List.not_mem_nil, or_false] at hp
      rcases hp
        with (((⟨_, -, rfl⟩ | rfl) | (⟨_, -, rfl⟩ | ⟨_, -, rfl⟩)) | (⟨_,
          -, rfl⟩ | rfl))
        | (rfl | rfl) <;> simp

/-- **The emulation is a run**: every state it goes through is the state after
some calls. -/
theorem exists_run_emulate {s : Kernel cfg fl N} (h : s.Clear)
    (iterations actions : ℕ) :
    ∃ schedule, s.emulate iterations actions = s.run schedule := by
  unfold emulate
  induction iterations generalizing s with
  | zero => exact (foldl_iteration h actions).1
  | succ n ih =>
    obtain ⟨first, hfirst⟩ := (foldl_iteration h (iteration cfg N).length).1
    rw [List.take_length] at hfirst
    have hclear := (foldl_iteration h actions).2
    obtain ⟨rest, hrest⟩ := ih hclear
    refine ⟨first ++ rest, ?_⟩
    rw [List.replicate_succ, List.flatten_cons,
      List.foldl_append, hrest, hfirst]
    exact (List.foldl_append).symm

end Kernel

end Skt.Hardware
