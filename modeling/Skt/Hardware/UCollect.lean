import Skt.Hardware.Collect

/-!
# Collecting without forwarding registers

`UCollect` is `Collect` for a memory whose reads see every write: it has no
registers to forward them, and a call that finds nothing to do writes nothing.
It says what `Collect` is for. Call by call, `Collect` does what `UCollect`
does, however many writes its own reads of the memory miss.

The model is that of the C++ program. `UCollect` carries the same pragma as
`Collect`, `dependence variable=Mem inter false`, which allows the compiler to
read before the writes of earlier calls have arrived; it has nothing to make up
for that, and such reads are not modelled here. The kernel does not use it: in
`cm_sketch` it is commented out in favour of `Collect`.

`Collect` refines `UCollect` in the sense of a simulation: their states are
related by the forwarding invariant and equal memories, and each call of one is
matched by the call of the other, with the same streams.
-/

namespace Skt.Hardware

open Streams Runs

/-- The state of a `UCollect`, in C++ semantics: a read of `Mem` sees every
write before it. The late reads that its dependence pragma allows a synthesized
design are not modelled. -/
structure UCollect (w : ℕ) (V : Type*) where
  dump : Bool
  dumpPtr : BitVec w
  /-- The memory, of which there is one version only. -/
  mem : BitVec w → V

variable {w : ℕ} {V I : Type*} [Zero V]

namespace UCollect

/-- The state at power-up: an empty table, consuming. -/
def init : UCollect w V where
  dump := false
  dumpPtr := 0
  mem _ := 0

/-- `collect`: one call. The memory is written only if something is dumped or
consumed (`stb`), and the dump clears the table on the way. -/
def collect (f : V → I → V) (u : UCollect w V)
    (src : Fifo (Flit (BitVec w × I)))
    (dst : Fifo (Flit V)) :
    UCollect w V × Fifo (Flit (BitVec w × I)) × Fifo (Flit V) :=
  if u.dump then
    let last := decide (u.dumpPtr = BitVec.allOnes w)
    let curr := u.mem u.dumpPtr
    (⟨!last, u.dumpPtr + 1, Function.update u.mem u.dumpPtr 0⟩, src,
      dst.write ⟨last, curr⟩)
  else
    match src.readNb with
    | some (x, src) =>
      let curr := u.mem x.val.1
      ({ u with
        dump := x.last
        mem := Function.update u.mem x.val.1 (f curr x.val.2) }, src, dst)
    | none => (u, src, dst)

end UCollect

/-! ## The simulation

The relation between the two states, and that a call keeps it. -/

/-- **A `Collect` stands for a `UCollect`**: apart from the forwarding they have
the same state. Of the memory of `Collect` only the current version counts. -/
structure Collect.StandsFor (s : Collect w V) (u : UCollect w V) : Prop where
  forwarding : s.Forwarding
  dump : s.dump = u.dump
  dumpPtr : s.dumpPtr = u.dumpPtr
  /-- The current version of the pipelined memory is the plain memory. -/
  mem : s.mem 0 = u.mem

namespace Collect

variable {s : Collect w V} {u : UCollect w V}

/-- So it is at the start. -/
theorem standsFor_init : (init : Collect w V).StandsFor UCollect.init :=
  ⟨forwarding_init, rfl, rfl, rfl⟩

omit [Zero V] in
/-- A read of the pipelined memory is one of the plain memory, by the forwarding
invariant. -/
theorem StandsFor.currVal_eq (h : s.StandsFor u)
    (missed : Fin 4) (madr : BitVec w) :
    s.currVal missed madr = u.mem madr := by
  rw [Collect.currVal_eq h.forwarding, h.mem]

/-- **A call of `Collect` is one of `UCollect`**: whatever the read misses, the
streams are the same, and afterwards the one still stands for the other. -/
theorem StandsFor.collect (h : s.StandsFor u) (f : V → I → V) (missed : Fin 4)
    (src : Fifo (Flit (BitVec w × I))) (dst : Fifo (Flit V)) :
    (Collect.collect f missed s src dst).1.StandsFor
      (UCollect.collect f u src dst).1
      ∧ (Collect.collect f missed s src dst).2
        = (UCollect.collect f u src dst).2 := by
  unfold Collect.collect UCollect.collect
  rw [← h.dump]
  by_cases hdump : s.dump = true
  · rw [if_pos hdump, if_pos hdump]
    dsimp only
    rw [h.currVal_eq, h.dumpPtr]
    refine ⟨⟨⟨rfl, h.forwarding.z, h.forwarding.zz⟩, rfl, rfl, ?_⟩, rfl⟩
    show Function.update (s.mem 0) u.dumpPtr 0 = _
    rw [h.mem]
  · rw [if_neg hdump, if_neg hdump]
    cases src.readNb with
    | none =>
      refine ⟨⟨⟨rfl, h.forwarding.z, h.forwarding.zz⟩, h.dump,
        h.dumpPtr, ?_⟩, rfl⟩
      exact (mem_store_repeat h.forwarding).trans h.mem
    | some p =>
      obtain ⟨x, src'⟩ := p
      dsimp only
      rw [h.currVal_eq]
      refine ⟨⟨⟨rfl, h.forwarding.z, h.forwarding.zz⟩, rfl, h.dumpPtr, ?_⟩, rfl⟩
      show Function.update (s.mem 0) x.val.1 _ = _
      rw [h.mem]

end Collect

/-! ## Runs

The same events for both, so that a schedule of one is a schedule of the
other. -/

/-- A `UCollect` between its streams, and the elements still to arrive. -/
structure UCollectRun (w : ℕ) (V I : Type*) where
  state : UCollect w V
  src : Fifo (Flit (BitVec w × I))
  dst : Fifo (Flit V)
  arriving : List (Flit (BitVec w × I))

namespace UCollectRun

/-- The start, with all elements still to arrive. -/
def start (V : Type*) [Zero V] (arriving : List (Flit (BitVec w × I))) :
    UCollectRun w V I :=
  ⟨UCollect.init, Fifo.new, Fifo.new, arriving⟩

/-- One event. A read misses nothing, whatever the event says. -/
def step (f : V → I → V) (r : UCollectRun w V I) :
    CollectEvent → UCollectRun w V I
  | .arrive =>
    match r.arriving with
    | [] => r
    | x :: rest => { r with src := r.src.write x, arriving := rest }
  | .call _ =>
    let p := UCollect.collect f r.state r.src r.dst
    ⟨p.1, p.2.1, p.2.2, r.arriving⟩

/-- **A run of `Collect` stands for one of `UCollect`**: the streams are the
same, and so is what has still to arrive. -/
structure Simulates (r : CollectRun w V I) (u : UCollectRun w V I) : Prop where
  state : r.state.StandsFor u.state
  src : r.src = u.src
  dst : r.dst = u.dst
  arriving : r.arriving = u.arriving

/-- Every event keeps the simulation. -/
theorem Simulates.step {r : CollectRun w V I}
    {u : UCollectRun w V I} (h : Simulates r u)
    (f : V → I → V) (e : CollectEvent) :
    Simulates (r.step f e) (u.step f e) := by
  cases e with
  | arrive =>
    unfold CollectRun.step UCollectRun.step
    rw [← h.arriving]
    cases r.arriving with
    | nil => exact h
    | cons x rest =>
      exact ⟨h.state, congrArg (Fifo.write · x) h.src, h.dst, rfl⟩
  | call missed =>
    obtain ⟨hstate, hstreams⟩ := h.state.collect f missed r.src r.dst
    unfold CollectRun.step UCollectRun.step
    dsimp only
    rw [← h.src, ← h.dst]
    exact ⟨hstate, congrArg Prod.fst hstreams,
      congrArg Prod.snd hstreams, h.arriving⟩

/-- What has arrived and what has been done is simulated after every run. -/
theorem Simulates.foldl {r : CollectRun w V I}
    {u : UCollectRun w V I} (h : Simulates r u) (f : V → I → V)
    (schedule : List CollectEvent) :
    Simulates (schedule.foldl (CollectRun.step f) r)
      (schedule.foldl (UCollectRun.step f) u) := by
  induction schedule generalizing r u with
  | nil => exact h
  | cons e schedule ih => exact ih (h.step f e)

/-- **The pipelined memory with forwarding is a plain memory.** For every key
width, every update function, everything that arrives, every interleaving of
arrivals and calls and every choice of the writes that reads miss: `Collect` has
consumed and written what `UCollect` has, and a read returns what the plain
memory has.

When jobs arrive, `UCollect` is therefore the same table as `Collect`: what it
has written is a beginning of the dumps of the jobs, and once everything has
arrived enough further calls complete them. -/
theorem collect_simulates_uCollect (f : V → I →
    V) (arriving : List (Flit (BitVec w × I)))
    (schedule : List CollectEvent) :
    let r := schedule.foldl (CollectRun.step f) ⟨Collect.init,
      Fifo.new, Fifo.new, arriving⟩
    let u := schedule.foldl (UCollectRun.step f) (start V arriving)
    (r.src = u.src ∧ r.dst = u.dst)
    ∧ (∀ missed k, r.state.currVal missed k = u.state.mem k)
    ∧ ∀ jobs : List (List (BitVec w × I)), (∀ job ∈ jobs, job ≠ []) →
      arriving = jobs.flatMap frame →
      u.dst.written <+: jobs.flatMap (fun job => frame (dumped f job))
      ∧ ∃ n, ∀ calls : List (Fin 4), n < calls.length →
        ((List.replicate u.arriving.length CollectEvent.arrive
          ++ calls.map CollectEvent.call).foldl (UCollectRun.step
            f) u).dst.written
          = jobs.flatMap (fun job => frame (dumped f job)) := by
  intro r u
  have hstart : Simulates ⟨Collect.init, Fifo.new,
    Fifo.new, arriving⟩ (start V arriving) :=
    ⟨Collect.standsFor_init, rfl, rfl, rfl⟩
  have hsim : Simulates r u := hstart.foldl f schedule
  refine ⟨⟨hsim.src, hsim.dst⟩, fun missed
    k => hsim.state.currVal_eq missed k, ?_⟩
  rintro jobs hjobs rfl
  have hsound : CollectRun.Sound f jobs r :=
    foldl_invariant _
      (fun _ e hr => hr.step e) schedule (CollectRun.sound_start f jobs)
  refine ⟨?_, 2 * (jobs.flatMap frame).length
    + 2 * (jobs.flatMap
      (fun job => frame (dumped f job))).length, fun calls hcalls => ?_⟩
  · rw [← hsim.dst]
    exact hsound.written_isPrefix hjobs
  · -- `Collect` completes its dumps, and the further calls are simulated too
    have harrived := foldl_invariant (CollectRun.step f)
      (fun _ e hr => hr.step e)
      (List.replicate r.arriving.length CollectEvent.arrive) hsound
    rw [← (hsim.foldl f _).dst, ← hsim.arriving, List.foldl_append]
    exact harrived.completes hjobs (CollectRun.arriving_foldl f r) hcalls

end UCollectRun

end Skt.Hardware
