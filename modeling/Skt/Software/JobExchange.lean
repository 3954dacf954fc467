import Skt.Lib.Runs
import Skt.Software.FileClient

/-!
# The job exchange of the sketch server

One connection of `sketch_tcp_server` has a receiver and `m` slaves. They share
`m + 1` job buffers, which travel from the queue `jobsFree` through the receiver
to the queue `jobsFull`, on to a slave and back. When the connection is closed
the receiver queues one null pointer per slave behind the jobs that are still
waiting, and keeps the buffer it holds.

The state spells out the control point of every thread. A move is one queue
operation, one call of `recv`, one turn of a collection loop, one atomic
addition or one join, and the threads move in any order. Two components are kept
for the statements only: the serial number of the job a buffer was last filled
with, and the serial numbers of the jobs a slave has collected.

The invariant accounts for three things at once. Buffers: each is in one place.
Jobs: those received are in flight or collected. Null pointers: they stand
behind the jobs, and those pushed are queued or have finished a slave. The
absence of deadlocks and the final result both follow from the invariant alone.

The queues are atomic in this module. That a queue with a mutex and a condition
variable may be taken for an atomic one is shown in `Skt.Software.SketchServer`.
-/

namespace Skt

open Runs SktCollector

/-- A buffer of the pool `jobsFree(mul_collectors+1)`, by its index in the pool.
The pointer in a queue is this index. -/
abbrev Buffer (m : ℕ) : Type := Fin (m + 1)

/-- The control point of the receiver, with the buffer in its hand. A
constructor names the statement that is executed next. -/
inductive ReceiverPc (m : ℕ) where
  /-- at `jobsFree.pop()` -/
  | popping
  /-- at `recv` -/
  | receiving (job : Buffer m)
  /-- at `jobsFull.push(job)` -/
  | pushing (job : Buffer m)
  /-- at `jobsFull.push(nullptr)`, with `i` of them pushed -/
  | terminating (job : Buffer m) (i : ℕ)
  /-- at `t.join()`, with `i` slaves joined -/
  | joining (job : Buffer m) (i : ℕ)
  /-- after the last join -/
  | done (job : Buffer m)
  deriving DecidableEq

/-- The control point of a slave, with the buffer in its hand. The call of
`collect` is spread over as many moves as the job has items, since other threads
may move in the meantime. -/
inductive SlavePc (m : ℕ) where
  /-- at `jobsFull.pop()` -/
  | popping
  /-- in `collect.collect(job->buf, job->cnt)`, with `k` items collected -/
  | collecting (job : Buffer m) (k : ℕ)
  /-- at `itemCount += job->cnt` -/
  | counting (job : Buffer m)
  /-- at `jobsFree.push(job)` -/
  | returning (job : Buffer m)
  /-- after the `break` -/
  | finished
  deriving DecidableEq

/-- The state of one connection.

The queues hold pointers into the pool, so a buffer's contents may change while
the pointer to it is somewhere else. That they do not is part of the
invariant. -/
structure Server (m : ℕ) where
  /-- The empty buffers, in a queue. -/
  jobsFree : List (Buffer m)
  /-- The full ones. `none` is the null pointer that ends a slave. -/
  jobsFull : List (Option (Buffer m))
  /-- `buf[0..cnt)` of every buffer. -/
  pool : Buffer m → List (BitVec 32)
  /-- The statement the receiver is at, and what it holds there. -/
  receiver : ReceiverPc m
  /-- The same of every slave. -/
  slaves : Fin m → SlavePc m
  /-- The collectors of the slaves, each used by its own slave only. -/
  collectors : Fin m → SktCollector
  /-- `itemCount`, the counter all slaves add to. -/
  itemCount : BitVec 64
  /-- The number of jobs `recv` has delivered. This and the fields below are not
  in the source: they tell what has become of every job. -/
  received : ℕ
  /-- Which of them a buffer was filled with. -/
  serial : Buffer m → ℕ
  /-- Which of them a slave has collected. -/
  collected : Fin m → List ℕ

variable {m : ℕ}

/-- The collectors of the server, which it builds with constant dimensions and
the hash function of its argument. -/
def freshCollector (h : HashE) : SktCollector := new 13 5 13 5 13 h

/-- **The state in which a connection starts**: all buffers free, with arbitrary
contents, and nothing in `jobsFull`. The counter is shared with the other
connections, so it may have any value. -/
def Server.init (h : HashE) (pool : Buffer m → List (BitVec 32))
    (itemCount : BitVec 64) :
    Server m where
  jobsFree := List.finRange (m + 1)
  jobsFull := []
  pool := pool
  receiver := .popping
  slaves := fun _ => .popping
  collectors := fun _ => freshCollector h
  itemCount := itemCount
  received := 0
  serial := fun _ => 0
  collected := fun _ => []

/-! ## The moves

A thread whose move is `none` is blocked or through. All moves but a pop, a join
and those of a thread that is through can always be made. -/

/-- The receiver's moves keep the invariant, by cases on its control point. Each
case is one of the lemmas above. -/
def receiverStep (jobs : List (List (BitVec 32))) (s : Server m) :
    Option (Server m) :=
  match s.receiver with
  | .popping =>
    match s.jobsFree with
    | [] => none
    | job :: rest =>
      some { s with jobsFree := rest, receiver := .receiving job }
  | .receiving job =>
    match jobs[s.received]? with
    | some items => some { s with
        pool := Function.update s.pool job items
        serial := Function.update s.serial job s.received
        received := s.received + 1
        receiver := .pushing job }
    | none => some { s with receiver := .terminating job 0 }
  | .pushing job =>
    some { s with jobsFull := s.jobsFull ++ [some job], receiver := .popping }
  | .terminating job i =>
    if i < m then
      some { s with jobsFull := s.jobsFull ++ [none], receiver :=
        .terminating job (i + 1) }
    else some { s with receiver := .joining job 0 }
  | .joining job i =>
    if h : i < m then
      if s.slaves ⟨i, h⟩ = .finished then some
        { s with receiver := .joining job (i + 1) }
      else none
    else some { s with receiver := .done job }
  | .done _ => none

/-- A slave's moves keep the invariant, by cases on its control point. What it
changes is its own, but for the queues and the counter. -/
def slaveStep (s : Server m) (i : Fin m) : Option (Server m) :=
  match s.slaves i with
  | .popping =>
    match s.jobsFull with
    | [] => none
    | none :: rest =>
      some { s with jobsFull := rest, slaves :=
        Function.update s.slaves i .finished }
    | some job :: rest =>
      some { s with jobsFull := rest, slaves :=
        Function.update s.slaves i (.collecting job 0) }
  | .collecting job k =>
    match (s.pool job)[k]? with
    | some x => some { s with
        collectors := Function.update s.collectors i
          ((s.collectors i).collect [x])
        slaves := Function.update s.slaves i (.collecting job (k + 1)) }
    | none => some { s with
        collected := Function.update s.collected i
          (s.collected i ++ [s.serial job])
        slaves := Function.update s.slaves i (.counting job) }
  | .counting job => some { s with
      itemCount := s.itemCount + BitVec.ofNat 64 (s.pool job).length
      slaves := Function.update s.slaves i (.returning job) }
  | .returning job => some { s with
      jobsFree := s.jobsFree ++ [job]
      slaves := Function.update s.slaves i .popping }
  | .finished => none

/-- The threads of a connection, one receiver and `m` slaves. -/
inductive Actor (m : ℕ) where
  | receiver
  | slave (i : Fin m)

/-- **One move of one thread**, as the scheduler picks it. -/
def Server.step (jobs : List (List (BitVec 32))) (s : Server m) :
    Actor m → Option (Server m)
  | .receiver => receiverStep jobs s
  | .slave i => slaveStep s i

/-- All threads are through. The receiver keeps the buffer it has, which goes
with the pool at the end of its function. -/
def Server.Finished (s : Server m) : Prop :=
  (∃ job, s.receiver = .done job) ∧ ∀ i, s.slaves i = .finished

/-! ## What the threads hold

Each of these functions reads one thing off a control point. The invariant adds
them up over the threads, so a move has to show what changes at one control
point only. -/

/-- The buffer in the receiver's hand, as a multiset with one element at
most. -/
def ReceiverPc.hand : ReceiverPc m → Multiset (Buffer m)
  | .popping => 0
  | .receiving job | .pushing job | .terminating job _ | .joining job
    _ | .done job => {job}

/-- The buffer the receiver has filled and not yet pushed. In its hand before
that, a buffer is free as far as its contents go. -/
def ReceiverPc.loaded : ReceiverPc m → Multiset (Buffer m)
  | .pushing job => {job}
  | _ => 0

/-- How many null pointers the receiver has pushed. Behind the loop it is all of
them. -/
def ReceiverPc.nulls : ReceiverPc m → ℕ
  | .terminating _ i => i
  | .joining _ _ | .done _ => m
  | _ => 0

/-- How many slaves the receiver has joined, which it does in their order. -/
def ReceiverPc.joined : ReceiverPc m → ℕ
  | .joining _ i => i
  | .done _ => m
  | _ => 0

/-- Whether the receiver has left its loop, which it does at the end of the
stream. -/
def ReceiverPc.closed : ReceiverPc m → Bool
  | .terminating _ _ | .joining _ _ | .done _ => true
  | _ => false

/-- The buffer in a slave's hand, from the pop to the push. -/
def SlavePc.hand : SlavePc m → Multiset (Buffer m)
  | .collecting job _ | .counting job | .returning job => {job}
  | _ => 0

/-- The buffer a slave is still collecting. Its job counts as in flight until
the last item is in. -/
def SlavePc.loading : SlavePc m → Multiset (Buffer m)
  | .collecting job _ => {job}
  | _ => 0

/-- The items a slave has collected of the job it is at. The collector holds
them already, though the job is not complete. -/
def SlavePc.part (pool : Buffer m → List (BitVec 32)) :
    SlavePc m → List (BitVec 32)
  | .collecting job k => (pool job).take k
  | _ => []

/-- The items a slave has collected and not yet counted. The addition to
`itemCount` comes after the call of `collect`. -/
def SlavePc.uncounted (pool : Buffer m → List (BitVec 32)) :
    SlavePc m → BitVec 64
  | .counting job => BitVec.ofNat 64 (pool job).length
  | _ => 0

/-- One for a slave that is through. -/
def SlavePc.isFinished : SlavePc m → ℕ
  | .finished => 1
  | _ => 0

namespace Server

/-- The jobs waiting in `jobsFull`, without the null pointers. -/
def fullJobs (s : Server m) : Multiset (Buffer m) := ↑s.jobsFull.reduceOption

/-- All the places a buffer can be in: the two queues and the hands of the
threads. -/
def owned (s : Server m) : Multiset (Buffer m) :=
  ↑s.jobsFree + s.fullJobs + s.receiver.hand + ∑ i, (s.slaves i).hand

/-- The buffers that carry a job from `recv` to the end of its collection.
Between the two nobody writes to them. -/
def inFlight (s : Server m) : Multiset (Buffer m) :=
  s.fullJobs + s.receiver.loaded + ∑ i, (s.slaves i).loading

/-- How many slaves are through, each of which has taken a null pointer. -/
def finished (s : Server m) : ℕ := ∑ i, (s.slaves i).isFinished

end Server

/-- The items of the jobs with the given serial numbers, in that order, which is
the order in which a slave had them. -/
def itemsOf (jobs : List (List (BitVec 32)))
    (serials : List ℕ) : List (BitVec 32) :=
  serials.flatMap (fun r => jobs.getD r [])

/-- **The jobs received are the jobs in flight and the jobs collected**, and a
buffer in flight holds its job.

The serial numbers in flight and those collected make up the range below
`received`, each number once. This is the whole of exactly-once delivery. -/
structure Delivered (jobs : List (List (BitVec 32)))
    (flight : Multiset (Buffer m)) (serial : Buffer m → ℕ)
    (pool : Buffer m → List (BitVec 32)) (received : ℕ)
    (collected : Fin m → List ℕ) : Prop where
  /-- Every job received is in one place: in a buffer on its way, or collected
  by one slave, once. -/
  serials : flight.map serial + ∑ i, (collected i : Multiset ℕ)
    = Multiset.range received
  /-- A buffer on its way holds the items of its job. -/
  contents : ∀ job ∈ flight, jobs[serial job]? = some (pool job)
  /-- No more jobs have been received than there are. -/
  received_le : received ≤ jobs.length

/-- **`jobsFull` is jobs followed by null pointers.** The nulls pushed are
queued or have finished a slave, and no slave finishes before the jobs are gone.
A slave that pops a null pointer therefore leaves no job behind. -/
def Queued (jobsFull : List (Option (Buffer m))) (finished nulls : ℕ) : Prop :=
  ∃ full n, jobsFull = full.map some ++ List.replicate n none
    ∧ n + finished = nulls ∧ (0 < finished → full = [])

/-- **The invariant of the exchange.** Every buffer is in one place, what was
received is accounted for, and a collector has been fed the jobs its slave
collected and the part of the one it is at. -/
structure Server.Sound (jobs : List (List (BitVec 32)))
    (h : HashE) (c₀ : BitVec 64)
    (s : Server m) : Prop where
  /-- Every buffer is in exactly one place, counting queues and threads
  alike. -/
  owned : s.owned = Finset.univ.val
  /-- Every job received is on its way or has been collected once. -/
  delivered : Delivered jobs s.inFlight s.serial s.pool s.received s.collected
  /-- The null pointers are behind the buffers in the queue of full ones, and
  there is one for every slave that has still to end. -/
  queued : Queued s.jobsFull s.finished s.receiver.nulls
  /-- No more of them are pushed than there are slaves. -/
  nulls_le : s.receiver.nulls ≤ m
  /-- Outside of the loop everything has been received. -/
  closed : s.receiver.closed = true → s.received = jobs.length
  /-- A slave that was joined is through. -/
  joined : ∀ i : Fin m, i.val < s.receiver.joined → s.slaves i = .finished
  /-- The collectors are those of the jobs, in the order in which the slave had
  them, and of the items of the open one it has collected so far. -/
  collectors : ∀ i, s.collectors i = (freshCollector h).collect
    (itemsOf jobs (s.collected i) ++ (s.slaves i).part s.pool)
  /-- The counter lags behind by what is collected and not yet counted. -/
  itemCount : s.itemCount + ∑ i, (s.slaves i).uncounted s.pool
    = c₀ + ∑ i, BitVec.ofNat 64 (itemsOf jobs (s.collected i)).length

/-! ## The invariant, move by move

There is one lemma for each move. Those of the receiver reduce to two, those of
a slave to `move_slave`, which says what a slave may do besides moving on. -/

/-- Collecting item by item is collecting, so the call may be interrupted
anywhere. -/
theorem collect_append (c : SktCollector) (xs ys : List (BitVec 32)) :
    (c.collect xs).collect ys = c.collect (xs ++ ys) := by
  unfold SktCollector.collect sktCollectBase
  simp only [List.foldl_append]

/-- What a slave does not hold it does not read. The receiver may fill a buffer
while the slaves are at theirs. -/
theorem part_update {pc : SlavePc m} {job : Buffer m} (h : job ∉ pc.hand)
    (pool : Buffer m → List (BitVec 32)) (items : List (BitVec 32)) :
    pc.part (Function.update pool job items) = pc.part pool := by
  cases pc with
  | collecting job' k =>
    have hne : job' ≠ job := fun he => h (Multiset.mem_singleton.mpr he.symm)
    show (Function.update pool job items job').take k = _
    rw [Function.update_of_ne hne]
    rfl
  | _ => rfl

/-- What a slave does not hold it does not count. -/
theorem uncounted_update {pc : SlavePc m} {job : Buffer m} (h : job ∉ pc.hand)
    (pool : Buffer m → List (BitVec 32)) (items : List (BitVec 32)) :
    pc.uncounted (Function.update pool job items) = pc.uncounted pool := by
  cases pc with
  | counting job' =>
    have hne : job' ≠ job := fun he => h (Multiset.mem_singleton.mpr he.symm)
    show BitVec.ofNat 64 (Function.update pool job items job').length = _
    rw [Function.update_of_ne hne]
    rfl
  | _ => rfl

/-- A buffer still being collected is in its slave's hand. -/
theorem loading_le_hand (pc : SlavePc m) : pc.loading ≤ pc.hand := by
  cases pc <;> first | exact le_rfl | exact Multiset.zero_le _

namespace Server.Sound

variable {jobs : List (List (BitVec 32))} {h : HashE}
    {c₀ : BitVec 64} {s : Server m}

/-- A buffer in the receiver's hand is nowhere else, by the first field of the
invariant. -/
theorem not_mem_of_hand (hs : s.Sound jobs h c₀) {job : Buffer m}
    (hjob : job ∈ s.receiver.hand) :
    job ∉ s.fullJobs ∧ ∀ i, job ∉ (s.slaves i).hand := by
  have hnodup : s.owned.Nodup := hs.owned ▸ Finset.univ.nodup
  unfold Server.owned at hnodup
  obtain ⟨h₁, -, h₂⟩ := Multiset.nodup_add.mp hnodup
  obtain ⟨-, -, h₃⟩ := Multiset.nodup_add.mp h₁
  refine ⟨fun hmem => ?_, fun i hmem => ?_⟩
  · exact Multiset.disjoint_left.mp h₃ (Multiset.mem_add.mpr (Or.inr hmem)) hjob
  · exact Multiset.disjoint_left.mp h₂ (Multiset.mem_add.mpr (Or.inr hjob))
      (Multiset.mem_sum.mpr ⟨i, Finset.mem_univ i, hmem⟩)

/-- At the start all buffers are free and nothing has happened, and the old
contents of the pool are of no importance. -/
theorem init (pool : Buffer m → List (BitVec 32)) :
    (Server.init h pool c₀).Sound jobs h c₀ where
  owned := by
    show (↑(List.finRange (m + 1)) + (0 : Multiset (Buffer m)) + 0
      + ∑ _i : Fin m, 0) = _
    simp only [Finset.sum_const_zero, add_zero]
    rfl
  delivered := by
    have hflight : (Server.init h pool c₀).inFlight = 0 := by
      show (0 : Multiset (Buffer m)) + 0 + ∑ _i : Fin m, 0 = 0
      simp only [Finset.sum_const_zero, add_zero]
    rw [hflight]
    refine ⟨?_, fun job hjob => absurd hjob (Multiset.notMem_zero job),
      Nat.zero_le _⟩
    show Multiset.map _ 0 + ∑ _i : Fin m, (0 : Multiset ℕ) = 0
    simp only [Finset.sum_const_zero, add_zero, Multiset.map_zero]
  queued := by
    have hfin : (Server.init h pool c₀ : Server m).finished = 0 := by
      show ∑ _i : Fin m, 0 = 0
      exact Finset.sum_const_zero
    rw [hfin]
    exact ⟨[], 0, rfl, rfl, fun _ => rfl⟩
  nulls_le := Nat.zero_le m
  closed hc := absurd hc Bool.false_ne_true
  joined i hi := absurd hi (Nat.not_lt_zero _)
  collectors i := rfl
  itemCount := rfl

/-! ### The receiver -/

/-- A move that only changes what the receiver is at, and not what it holds or
has pushed. -/
theorem move_receiver (hs : s.Sound jobs h c₀) {pc : ReceiverPc m}
    (hhand : pc.hand = s.receiver.hand)
    (hloaded : pc.loaded = s.receiver.loaded)
    (hnulls : pc.nulls = s.receiver.nulls)
    (hclosed : pc.closed = true → s.received = jobs.length)
    (hjoined : ∀ i : Fin m, i.val < pc.joined → s.slaves i = .finished) :
    Sound jobs h c₀ { s with receiver := pc } :=
  { hs with
    owned := by
      rw [← hs.owned]
      unfold Server.owned Server.fullJobs
      rw [← hhand]
    delivered := by
      have h' := hs.delivered
      unfold Server.inFlight at h'
      rw [← hloaded] at h'
      exact h'
    queued := hnulls ▸ hs.queued
    nulls_le := hnulls.trans_le hs.nulls_le
    closed := hclosed
    joined := hjoined }

/-- The receiver takes a free buffer. Its contents are no job yet, but those of
the job that was in it last. -/
theorem pop_free (hs : s.Sound jobs h c₀) {job : Buffer m}
    {rest : List (Buffer m)} (hpc : s.receiver = .popping)
    (hfree : s.jobsFree = job :: rest) :
    Sound jobs h c₀ { s with jobsFree := rest, receiver := .receiving job } :=
  { hs with
    owned := by
      rw [← hs.owned]
      unfold Server.owned Server.fullJobs
      rw [hfree, hpc, ← Multiset.cons_coe, ← Multiset.singleton_add]
      simp only [ReceiverPc.hand]
      abel
    delivered := by
      have h' := hs.delivered
      unfold Server.inFlight at h'
      rw [hpc] at h'
      exact h'
    queued := by
      have h' := hs.queued
      rw [hpc] at h'
      exact h'
    nulls_le := Nat.zero_le m
    closed := fun hc => absurd hc Bool.false_ne_true
    joined := fun i hi => absurd hi (Nat.not_lt_zero _) }

/-- **The receiver fills its buffer**: nobody else has it, so nothing in flight
and nothing under collection changes. -/
theorem receive (hs : s.Sound jobs h c₀) {job : Buffer m}
    {items : List (BitVec 32)} (hpc : s.receiver = .receiving job)
    (hitems : jobs[s.received]? = some items) :
    Sound jobs h c₀ { s with
      pool := Function.update s.pool job items
      serial := Function.update s.serial job s.received
      received := s.received + 1
      receiver := .pushing job } := by
  have hhand : job ∈ s.receiver.hand := by
    rw [hpc]
    exact Multiset.mem_singleton_self job
  obtain ⟨hfull, hslaves⟩ := hs.not_mem_of_hand hhand
  have hinFlight : job ∉ s.inFlight := by
    unfold Server.inFlight
    rw [hpc]
    intro hmem
    rcases Multiset.mem_add.mp hmem with hmem | hmem
    · simp only [ReceiverPc.loaded, add_zero] at hmem
      exact hfull hmem
    · obtain ⟨i, -, hi⟩ := Multiset.mem_sum.mp hmem
      exact hslaves i (Multiset.mem_of_le (loading_le_hand _) hi)
  -- what is in flight afterwards is this buffer and what was in flight before
  have hflight : s.fullJobs + ReceiverPc.loaded (.pushing job) + ∑ i,
    (s.slaves i).loading
      = {job} + s.inFlight := by
    unfold Server.inFlight
    rw [hpc]
    simp only [ReceiverPc.loaded]
    abel
  exact
  { hs with
    owned := by
      rw [← hs.owned]
      unfold Server.owned Server.fullJobs
      rw [hpc]
      rfl
    delivered := by
      have hmap : s.inFlight.map (Function.update s.serial job s.received)
          = s.inFlight.map s.serial :=
        Multiset.map_congr rfl (fun b hb => by
          rw [Function.update_of_ne (fun he => hinFlight (by rwa [he] at hb))])
      show Delivered jobs (s.fullJobs + _ + _) _ _ _ _
      rw [hflight]
      dsimp only
      refine ⟨?_, fun b hb => ?_, (List.getElem?_eq_some_iff.mp hitems).1⟩
      · rw [Multiset.map_add, hmap, Multiset.map_singleton,
          Function.update_self,
          add_assoc, hs.delivered.serials, Multiset.range_succ,
            Multiset.singleton_add]
      · by_cases he : b = job
        · rw [he, Function.update_self, Function.update_self, hitems]
        · rw [Function.update_of_ne he, Function.update_of_ne he]
          rcases Multiset.mem_add.mp hb with hb | hb
          · exact absurd (Multiset.mem_singleton.mp hb) he
          · exact hs.delivered.contents b hb
    queued := by
      have h' := hs.queued
      rw [hpc] at h'
      exact h'
    nulls_le := Nat.zero_le m
    closed := fun hc => absurd hc Bool.false_ne_true
    joined := fun i hi => absurd hi (Nat.not_lt_zero _)
    collectors := fun i => by
      rw [part_update (hslaves i)]
      exact hs.collectors i
    itemCount := by
      have hsum : ∑ i, (s.slaves i).uncounted (Function.update s.pool job items)
          = ∑ i, (s.slaves i).uncounted s.pool :=
        Finset.sum_congr rfl (fun i _ => uncounted_update (hslaves i) _ _)
      rw [hsum]
      exact hs.itemCount }

/-- Queueing a job behind the jobs. No null pointer is queued yet, since the
receiver is still in its loop. -/
theorem push_full (hs : s.Sound jobs h c₀) {job : Buffer m}
    (hpc : s.receiver = .pushing job) :
    Sound jobs h c₀
    { s with jobsFull := s.jobsFull ++ [some job], receiver := .popping } := by
  have hfull : ((s.jobsFull ++ [some job]).reduceOption : Multiset (Buffer m))
      = ↑s.jobsFull.reduceOption + {job} := by
    rw [List.reduceOption_append, ← Multiset.coe_add]
    rfl
  exact
  { hs with
    owned := by
      rw [← hs.owned]
      unfold Server.owned Server.fullJobs
      rw [hfull, hpc]
      simp only [ReceiverPc.hand]
      abel
    delivered := by
      have h' := hs.delivered
      unfold Server.inFlight Server.fullJobs at h' ⊢
      rw [hpc] at h'
      simp only [ReceiverPc.loaded, add_zero] at h' ⊢
      rwa [hfull]
    queued := by
      obtain ⟨full, n, hqueue, hn, -⟩ := hs.queued
      rw [hpc] at hn
      have hn0 : n = 0 := Nat.eq_zero_of_add_eq_zero_right hn
      have hfin : s.finished = 0 := Nat.eq_zero_of_add_eq_zero_left hn
      show Queued (s.jobsFull ++ [some job]) s.finished 0
      rw [hqueue, hn0, hfin]
      exact ⟨full ++ [job],
        0, by simp, rfl, fun hpos => absurd hpos (Nat.lt_irrefl 0)⟩
    nulls_le := Nat.zero_le m
    closed := fun hc => absurd hc Bool.false_ne_true
    joined := fun i hi => absurd hi (Nat.not_lt_zero _) }

/-- Queueing a null pointer behind everything, so the order of `Queued`
stays. -/
theorem push_null (hs : s.Sound jobs h c₀) {job : Buffer m} {i : ℕ}
    (hpc : s.receiver = .terminating job i) (hi : i < m) :
    Sound jobs h c₀
      { s with jobsFull := s.jobsFull ++ [none], receiver :=
        .terminating job (i + 1) } := by
  have hfull : (s.jobsFull ++ [none]).reduceOption
    = s.jobsFull.reduceOption := by
    rw [List.reduceOption_append]
    exact List.append_nil _
  exact
  { hs with
    owned := by
      rw [← hs.owned]
      unfold Server.owned Server.fullJobs
      rw [hfull, hpc]
      rfl
    delivered := by
      have h' := hs.delivered
      unfold Server.inFlight Server.fullJobs at h' ⊢
      rw [hpc] at h'
      rw [hfull]
      exact h'
    queued := by
      obtain ⟨full, n, hqueue, hn, hnil⟩ := hs.queued
      rw [hpc] at hn
      show Queued (s.jobsFull ++ [none]) s.finished (i + 1)
      refine ⟨full, n + 1, ?_, ?_, hnil⟩
      · rw [hqueue, List.append_assoc, ← List.replicate_succ']
      · rw [Nat.add_right_comm, hn]
        rfl
    nulls_le := hi
    closed := fun _ => hs.closed (by rw [hpc]; rfl)
    joined := fun i hi => absurd hi (Nat.not_lt_zero _) }

/-- The connection is closed: everything has been received. The receiver keeps
the buffer, and no thread needs it any more. -/
theorem receive_closed (hs : s.Sound jobs h c₀) {job : Buffer m}
    (hpc : s.receiver = .receiving job) (hclosed : jobs[s.received]? = none) :
    Sound jobs h c₀ { s with receiver := .terminating job 0 } := by
  have hall : s.received = jobs.length :=
    le_antisymm hs.delivered.received_le (List.getElem?_eq_none_iff.mp hclosed)
  exact hs.move_receiver (by rw [hpc]; rfl)
    (by rw [hpc]; rfl) (by rw [hpc]; rfl)
    (fun _ => hall) (fun i hi => absurd hi (Nat.not_lt_zero _))

/-- All null pointers are pushed, one for each slave, so that every slave will
find one. -/
theorem nulls_done (hs : s.Sound jobs h c₀) {job : Buffer m} {i : ℕ}
    (hpc : s.receiver = .terminating job i) (hi : ¬ i < m) :
    Sound jobs h c₀ { s with receiver := .joining job 0 } := by
  have hle : s.receiver.nulls ≤ m := hs.nulls_le
  rw [hpc] at hle
  have him : m = i := le_antisymm (Nat.le_of_not_lt hi) hle
  exact hs.move_receiver (by rw [hpc]; rfl) (by rw [hpc]; rfl)
    (by rw [hpc]; exact him)
    (fun _ => hs.closed (by rw [hpc]; rfl))
      (fun i hi => absurd hi (Nat.not_lt_zero _))

/-- One more slave is joined, as it is through. -/
theorem join (hs : s.Sound jobs h c₀) {job : Buffer m} {i : ℕ}
    (hpc : s.receiver = .joining job i) (hi : i < m)
    (hfin : s.slaves ⟨i, hi⟩ = .finished) :
    Sound jobs h c₀ { s with receiver := .joining job (i + 1) } := by
  refine hs.move_receiver (by rw [hpc]; rfl)
    (by rw [hpc]; rfl) (by rw [hpc]; rfl)
    (fun _ => hs.closed (by rw [hpc]; rfl)) (fun j hj => ?_)
  rcases Nat.lt_succ_iff_lt_or_eq.mp hj with hj | hj
  · exact hs.joined j (by rw [hpc]; exact hj)
  · rwa [show j = ⟨i, hi⟩ from Fin.ext hj]

/-- All slaves are joined, and the receiver is through. -/
theorem joins_done (hs : s.Sound jobs h c₀) {job : Buffer m} {i : ℕ}
    (hpc : s.receiver = .joining job i) (hi : ¬ i < m) :
    Sound jobs h c₀ { s with receiver := .done job } := by
  refine hs.move_receiver (by rw [hpc]; rfl)
    (by rw [hpc]; rfl) (by rw [hpc]; rfl)
    (fun _ => hs.closed (by rw [hpc]; rfl)) (fun j _ => hs.joined j ?_)
  rw [hpc]
  exact lt_of_lt_of_le j.isLt (Nat.le_of_not_lt hi)

/-! ### The slaves -/

/-- A slave that is not through has not been joined, so its next move disturbs
nobody who was. -/
theorem joined_update (hs : s.Sound jobs h c₀) {i : Fin m}
    (hpc : s.slaves i ≠ .finished) (pc : SlavePc m) (j : Fin m)
    (hj : j.val < s.receiver.joined) :
    Function.update s.slaves i pc j = .finished := by
  have hj' := hs.joined j hj
  have hne : j ≠ i := fun he => hpc (he ▸ hj')
  rw [Function.update_of_ne hne, hj']

/-- The collectors of the slaves that do not move have been fed what they had
been fed. -/
theorem collectors_update (hs : s.Sound jobs h c₀) {i j : Fin m} (hne : j ≠ i)
    (pc : SlavePc m) : s.collectors j = (freshCollector h).collect
      (itemsOf jobs (s.collected j)
        ++ (Function.update s.slaves i pc j).part s.pool) := by
  rw [Function.update_of_ne hne]
  exact hs.collectors j

/-- A slave that takes the front of the queue has not fed its collector yet, and
the collectors are as before. -/
theorem collectors_pop (hs : s.Sound jobs h c₀) {i : Fin m}
    (hpc : s.slaves i = .popping) {pc : SlavePc m} (hpart : pc.part s.pool = [])
    (j : Fin m) :
    s.collectors j = (freshCollector h).collect
      (itemsOf jobs (s.collected j)
        ++ (Function.update s.slaves i pc j).part s.pool) := by
  by_cases he : j = i
  · subst he
    have hj := hs.collectors j
    rw [hpc] at hj
    rw [Function.update_self, hpart, hj]
    rfl
  · exact hs.collectors_update he _

/-- Nor has it counted anything, so the equation about the counter stays as it
is. -/
theorem itemCount_pop (hs : s.Sound jobs h c₀) {i : Fin m}
    (hpc : s.slaves i = .popping) {pc : SlavePc m}
    (hpart : pc.uncounted s.pool = 0) :
    s.itemCount + ∑ j, (Function.update s.slaves i pc j).uncounted s.pool
      = c₀ + ∑ j, BitVec.ofNat 64 (itemsOf jobs (s.collected j)).length := by
  rw [sum_update_of_eq (SlavePc.uncounted s.pool) (by rw [hpc]; exact hpart)]
  exact hs.itemCount

/-- A slave takes the first job that waits. The buffer goes from the queue to
its hand and stays in flight. -/
theorem pop_job (hs : s.Sound jobs h c₀) {i : Fin m} {job : Buffer m}
    {rest : List (Option (Buffer m))} (hpc : s.slaves i = .popping)
    (hfull : s.jobsFull = some job :: rest) :
    Sound jobs h c₀
      { s with jobsFull := rest, slaves :=
        Function.update s.slaves i (.collecting job 0) } := by
  have hjobs : (s.jobsFull.reduceOption : Multiset (Buffer m))
    = {job} + ↑rest.reduceOption := by
    rw [hfull, List.reduceOption_cons_of_some, ← Multiset.cons_coe,
      Multiset.singleton_add]
  have hhand : ∑ j, (Function.update s.slaves i (.collecting job 0) j).hand
      = ∑ j, (s.slaves j).hand + {job} :=
    sum_update_of_zero SlavePc.hand _ (by rw [hpc]; rfl)
  have hload : ∑ j, (Function.update s.slaves i (.collecting job 0) j).loading
      = ∑ j, (s.slaves j).loading + {job} :=
    sum_update_of_zero SlavePc.loading _ (by rw [hpc]; rfl)
  have hfin : ∑ j, (Function.update s.slaves i (.collecting job 0) j).isFinished
    = s.finished :=
    sum_update_of_eq SlavePc.isFinished (by rw [hpc]; rfl)
  exact
  { hs with
    owned := by
      rw [← hs.owned]
      unfold Server.owned Server.fullJobs
      dsimp only
      rw [hjobs, hhand]
      abel
    delivered := by
      have h' := hs.delivered
      unfold Server.inFlight Server.fullJobs at h' ⊢
      dsimp only
      rw [hjobs] at h'
      rw [hload]
      convert h' using 1
      abel
    queued := by
      obtain ⟨full, n, hqueue, hn, hnil⟩ := hs.queued
      rw [hfull] at hqueue
      -- the queue starts with a job, so no slave is through
      cases full with
      | nil => cases n <;> cases hqueue
      | cons b full =>
        refine ⟨full, n, (List.cons.inj hqueue).2,
          (congrArg (n + ·) hfin).trans hn,
          fun hpos => ?_⟩
        exact absurd (hnil (hfin ▸ hpos)) (List.cons_ne_nil _ _)
    joined := hs.joined_update (by rw [hpc]; exact fun he => by cases he) _
    collectors := hs.collectors_pop hpc rfl
    itemCount := hs.itemCount_pop hpc rfl }

/-- A slave takes a null pointer: the jobs are gone, as they stood in front of
it. -/
theorem pop_null (hs : s.Sound jobs h c₀) {i : Fin m}
    {rest : List (Option (Buffer m))} (hpc : s.slaves i = .popping)
    (hfull : s.jobsFull = none :: rest) :
    Sound jobs h c₀
      { s with jobsFull := rest, slaves :=
        Function.update s.slaves i .finished } := by
  have hjobs : s.jobsFull.reduceOption = rest.reduceOption := by
    rw [hfull, List.reduceOption_cons_of_none]
  have hhand : ∑ j, (Function.update s.slaves i .finished j).hand = ∑ j,
    (s.slaves j).hand :=
    sum_update_of_eq SlavePc.hand (by rw [hpc]; rfl)
  have hload : ∑ j, (Function.update s.slaves i .finished j).loading
      = ∑ j, (s.slaves j).loading :=
    sum_update_of_eq SlavePc.loading (by rw [hpc]; rfl)
  have hfin : ∑ j, (Function.update s.slaves i .finished j).isFinished
    = s.finished + 1 :=
    sum_update_of_zero SlavePc.isFinished _ (by rw [hpc]; rfl)
  exact
  { hs with
    owned := by
      rw [← hs.owned]
      unfold Server.owned Server.fullJobs
      dsimp only
      rw [hjobs, hhand]
    delivered := by
      have h' := hs.delivered
      unfold Server.inFlight Server.fullJobs at h' ⊢
      dsimp only
      rwa [← hjobs, hload]
    queued := by
      obtain ⟨full, n, hqueue, hn, -⟩ := hs.queued
      rw [hfull] at hqueue
      -- the queue starts with a null pointer, so there is no job in it
      cases full with
      | cons b full => cases hqueue
      | nil =>
        cases n with
        | zero => cases hqueue
        | succ n =>
          refine ⟨[], n, (List.cons.inj hqueue).2,
            (congrArg (n + ·) hfin).trans ?_,
            fun _ => rfl⟩
          rw [← hn]
          exact (Nat.add_right_comm n 1 s.finished).symm
    joined := fun j hj => by
      by_cases he : j = i
      · rw [he]
        exact Function.update_self i _ _
      · exact (Function.update_of_ne he _ _).trans (hs.joined j hj)
    collectors := hs.collectors_pop hpc rfl
    itemCount := hs.itemCount_pop hpc rfl }

/-- **A move of one slave** that leaves `jobsFull` alone. Apart from its own
control point the slave may free its buffer, feed its collector, book its job as
collected, or count it.

Each hypothesis compares one part of the invariant before and after, for this
slave alone; the other slaves drop out of the sums. -/
theorem move_slave (hs : s.Sound jobs h c₀) {i : Fin m} (pc : SlavePc m)
    (free : List (Buffer m)) (n : BitVec 64) {c : SktCollector}
    {serials : List ℕ} (hpc : (s.slaves i).isFinished = 0)
    (hpc' : pc.isFinished = 0)
    (howned : (free : Multiset (Buffer m)) + pc.hand
      = ↑s.jobsFree + (s.slaves i).hand)
    (hcollected : pc.loading.map s.serial + (serials : Multiset ℕ)
      = (s.slaves i).loading.map s.serial + (s.collected i : Multiset ℕ))
    (hloading : pc.loading ≤ (s.slaves i).loading)
    (hc : c = (freshCollector h).collect
      (itemsOf jobs serials ++ pc.part s.pool))
    (hn : n + pc.uncounted s.pool + BitVec.ofNat 64
      (itemsOf jobs (s.collected i)).length
      = s.itemCount + (s.slaves i).uncounted s.pool
        + BitVec.ofNat 64 (itemsOf jobs serials).length) :
    Sound jobs h c₀ { s with
      jobsFree := free
      slaves := Function.update s.slaves i pc
      collectors := Function.update s.collectors i c
      itemCount := n
      collected := Function.update s.collected i serials } where
  owned := by
    have hhand := sum_update SlavePc.hand s.slaves i pc
    rw [← hs.owned]
    unfold Server.owned Server.fullJobs
    dsimp only
    refine add_right_cancel (b := pc.hand + (s.slaves i).hand) ?_
    calc _ = (↑free + pc.hand) + ↑s.jobsFull.reduceOption + s.receiver.hand
          + (∑ j, (Function.update s.slaves i pc j).hand
            + (s.slaves i).hand) := by abel
      _ = (↑s.jobsFree + (s.slaves i).hand) + ↑s.jobsFull.reduceOption
        + s.receiver.hand
          + (∑ j, (s.slaves j).hand + pc.hand) := by rw [howned, hhand]
      _ = _ := by abel
  delivered := by
    have hload := sum_update SlavePc.loading s.slaves i pc
    have hbook := sum_update (fun l : List ℕ => (l : Multiset ℕ))
      s.collected i serials
    obtain ⟨hserials, hcontents, hlen⟩ := hs.delivered
    unfold Server.inFlight Server.fullJobs at hserials hcontents ⊢
    dsimp only
    refine ⟨?_, fun b hb => hcontents b ?_, hlen⟩
    · -- what leaves the flight is booked
      refine add_right_cancel (b := (s.slaves i).loading.map s.serial
        + (s.collected i : Multiset ℕ)) ?_
      calc _ = ((s.jobsFull.reduceOption : Multiset (Buffer m))
               + s.receiver.loaded
              + (∑ j, (Function.update s.slaves i pc j).loading
                + (s.slaves i).loading)).map s.serial
            + (∑ j, (Function.update s.collected i serials j : Multiset ℕ)
              + (s.collected i : Multiset ℕ)) := by
            simp only [Multiset.map_add]
            abel
        _ = ((s.jobsFull.reduceOption : Multiset (Buffer m)) + s.receiver.loaded
              + (∑ j, (s.slaves j).loading + pc.loading)).map s.serial
            + (∑ j, (s.collected j : Multiset ℕ) + (serials : Multiset ℕ)) := by
            rw [hload, hbook]
        _ = (((s.jobsFull.reduceOption : Multiset (Buffer m))
          + s.receiver.loaded
              + ∑ j, (s.slaves j).loading).map s.serial + ∑ j,
                (s.collected j : Multiset ℕ))
            + (pc.loading.map s.serial + (serials : Multiset ℕ)) := by
            simp only [Multiset.map_add]
            abel
        _ = _ := by rw [hserials, hcollected]
    · rcases Multiset.mem_add.mp hb with hb | hb
      · exact Multiset.mem_add.mpr (Or.inl hb)
      · refine Multiset.mem_add.mpr (Or.inr (Multiset.mem_sum.mpr ?_))
        obtain ⟨j, hj, hb⟩ := Multiset.mem_sum.mp hb
        by_cases he : j = i
        · rw [he, Function.update_self] at hb
          exact ⟨i, Finset.mem_univ i, Multiset.mem_of_le hloading hb⟩
        · rw [Function.update_of_ne he] at hb
          exact ⟨j, hj, hb⟩
  queued := by
    have hfin : ∑ j, (Function.update s.slaves i pc j).isFinished
      = s.finished :=
      sum_update_of_eq SlavePc.isFinished (hpc'.trans hpc.symm)
    show Queued s.jobsFull (∑ j, (Function.update s.slaves i pc j).isFinished) _
    rw [hfin]
    exact hs.queued
  nulls_le := hs.nulls_le
  closed := hs.closed
  joined := hs.joined_update (fun he => by rw [he] at hpc; cases hpc) pc
  collectors j := by
    dsimp only
    by_cases he : j = i
    · subst he
      rw [Function.update_self, Function.update_self, Function.update_self, hc]
    · rw [Function.update_of_ne he, Function.update_of_ne he]
      exact hs.collectors_update he pc
  itemCount := by
    have hcount := sum_update (SlavePc.uncounted s.pool) s.slaves i pc
    have hbook := sum_update (fun l => BitVec.ofNat 64 (itemsOf jobs l).length)
      s.collected i serials
    have hs' := hs.itemCount
    dsimp only
    grind

/-- One turn of a collection loop: one item more is in the collector. -/
theorem collect_item (hs : s.Sound jobs h c₀) {i : Fin m}
    {job : Buffer m} {k : ℕ} {x : BitVec 32}
    (hpc : s.slaves i = .collecting job k) (hx : (s.pool job)[k]? = some x) :
    Sound jobs h c₀ { s with
      collectors :=
        Function.update s.collectors i ((s.collectors i).collect [x])
      slaves := Function.update s.slaves i (.collecting job (k + 1)) } := by
  have hc : (s.collectors i).collect [x] = (freshCollector h).collect
      (itemsOf jobs (s.collected i) ++ SlavePc.part s.pool
        (.collecting job (k + 1))) := by
    have htake : (s.pool job).take (k + 1) = (s.pool job).take k ++ [x] := by
      rw [List.take_add_one, hx]
      rfl
    rw [hs.collectors i, hpc, collect_append, List.append_assoc]
    exact congrArg (fun l => (freshCollector h).collect (_ ++ l)) htake.symm
  have hmove := hs.move_slave (.collecting job (k + 1)) s.jobsFree s.itemCount
    (by rw [hpc]; rfl) rfl
    (by rw [hpc]; rfl) (by rw [hpc]; rfl) (by rw [hpc]; exact le_rfl)
      hc (by rw [hpc]; rfl)
  rwa [Function.update_eq_self] at hmove

/-- **The end of a collection**: all items of the job are in, and the job is
booked. It is in flight no longer. -/
theorem collect_done (hs : s.Sound jobs h c₀) {i : Fin m}
    {job : Buffer m} {k : ℕ} (hpc : s.slaves i = .collecting job k)
    (hx : (s.pool job)[k]? = none) :
    Sound jobs h c₀ { s with
      collected :=
        Function.update s.collected i (s.collected i ++ [s.serial job])
      slaves := Function.update s.slaves i (.counting job) } := by
  have hflight : job ∈ s.inFlight := by
    refine Multiset.mem_add.mpr
      (Or.inr (Multiset.mem_sum.mpr ⟨i, Finset.mem_univ i, ?_⟩))
    rw [hpc]
    exact Multiset.mem_singleton_self job
  have hitems : itemsOf jobs (s.collected i ++ [s.serial job])
      = itemsOf jobs (s.collected i) ++ s.pool job := by
    unfold itemsOf
    rw [List.flatMap_append, List.flatMap_singleton, List.getD_eq_getElem?_getD,
      hs.delivered.contents job hflight]
    rfl
  have hc : s.collectors i = (freshCollector h).collect
      (itemsOf jobs (s.collected i ++ [s.serial job]) ++ SlavePc.part s.pool
        (.counting job)) := by
    have htake : (s.pool job).take k = s.pool job :=
      List.take_of_length_le (List.getElem?_eq_none_iff.mp hx)
    rw [hs.collectors i, hpc, hitems]
    exact congrArg (fun l => (freshCollector h).collect (_ ++ l)) htake
      |>.trans (congrArg _ (List.append_nil _).symm)
  have hmove := hs.move_slave (.counting job) s.jobsFree s.itemCount
    (by rw [hpc]; rfl) rfl (by rw [hpc]; rfl)
    (by
      rw [hpc, ← Multiset.coe_add]
      exact (zero_add _).trans (add_comm _ _)) (Multiset.zero_le _) hc
    (by
      rw [hpc, hitems, List.length_append, BitVec.ofNat_add]
      show s.itemCount + BitVec.ofNat 64 (s.pool job).length + _
        = s.itemCount + 0 + _
      rw [add_zero, add_assoc, add_comm (BitVec.ofNat 64 (s.pool job).length)])
  rwa [Function.update_eq_self] at hmove

/-- A collected job is counted: the atomic addition of `job->cnt`. -/
theorem count (hs : s.Sound jobs h c₀) {i : Fin m} {job : Buffer m}
    (hpc : s.slaves i = .counting job) :
    Sound jobs h c₀ { s with
      itemCount := s.itemCount + BitVec.ofNat 64 (s.pool job).length
      slaves := Function.update s.slaves i (.returning job) } := by
  have hc := hs.collectors i
  rw [hpc] at hc
  have hmove := hs.move_slave (.returning job) s.jobsFree
    (s.itemCount + BitVec.ofNat 64 (s.pool job).length) (by rw [hpc]; rfl) rfl
    (by rw [hpc]; rfl) (by rw [hpc]; rfl) (Multiset.zero_le _) hc (by
      rw [hpc]
      show s.itemCount + BitVec.ofNat 64 (s.pool job).length + 0 + _ = _
      rw [add_zero]
      rfl)
  rwa [Function.update_eq_self, Function.update_eq_self] at hmove

/-- A counted job returns its buffer, which may be filled again from here on. -/
theorem push_free (hs : s.Sound jobs h c₀) {i : Fin m} {job : Buffer m}
    (hpc : s.slaves i = .returning job) :
    Sound jobs h c₀ { s with
      jobsFree := s.jobsFree ++ [job]
      slaves := Function.update s.slaves i .popping } := by
  have hc := hs.collectors i
  rw [hpc] at hc
  have hmove := hs.move_slave .popping (s.jobsFree ++ [job]) s.itemCount
    (by rw [hpc]; rfl) rfl
    (by
      rw [hpc, ← Multiset.coe_add]
      exact add_zero _)
    (by rw [hpc]; rfl) (Multiset.zero_le _) hc (by rw [hpc]; rfl)
  rwa [Function.update_eq_self, Function.update_eq_self] at hmove

/-! ### All moves -/

/-- The receiver's moves keep the invariant, by cases on its control point. -/
theorem receiverStep (hs : s.Sound jobs h c₀) {s' : Server m}
    (hstep : Skt.receiverStep jobs s = some s') : s'.Sound jobs h c₀ := by
  unfold Skt.receiverStep at hstep
  cases hpc : s.receiver with
  | popping =>
    cases hfree : s.jobsFree with
    | nil => simp [hpc, hfree] at hstep
    | cons job rest =>
      simp only [hpc, hfree, Option.some.injEq] at hstep
      exact hstep ▸ hs.pop_free hpc hfree
  | receiving job =>
    cases hrecv : jobs[s.received]? with
    | some items =>
      simp only [hpc, hrecv, Option.some.injEq] at hstep
      exact hstep ▸ hs.receive hpc hrecv
    | none =>
      simp only [hpc, hrecv, Option.some.injEq] at hstep
      exact hstep ▸ hs.receive_closed hpc hrecv
  | pushing job =>
    simp only [hpc, Option.some.injEq] at hstep
    exact hstep ▸ hs.push_full hpc
  | terminating job i =>
    by_cases hi : i < m
    · simp only [hpc, if_pos hi, Option.some.injEq] at hstep
      exact hstep ▸ hs.push_null hpc hi
    · simp only [hpc, if_neg hi, Option.some.injEq] at hstep
      exact hstep ▸ hs.nulls_done hpc hi
  | joining job i =>
    by_cases hi : i < m
    · by_cases hfin : s.slaves ⟨i, hi⟩ = .finished
      · simp only [hpc, dif_pos hi, if_pos hfin, Option.some.injEq] at hstep
        exact hstep ▸ hs.join hpc hi hfin
      · simp [hpc, dif_pos hi, if_neg hfin] at hstep
    · simp only [hpc, dif_neg hi, Option.some.injEq] at hstep
      exact hstep ▸ hs.joins_done hpc hi
  | done job => simp [hpc] at hstep

/-- A slave's moves keep the invariant, by cases on its control point. -/
theorem slaveStep (hs : s.Sound jobs h c₀) {i : Fin m} {s' : Server m}
    (hstep : Skt.slaveStep s i = some s') : s'.Sound jobs h c₀ := by
  unfold Skt.slaveStep at hstep
  cases hpc : s.slaves i with
  | popping =>
    cases hfull : s.jobsFull with
    | nil => simp [hpc, hfull] at hstep
    | cons job rest =>
      cases job with
      | none =>
        simp only [hpc, hfull, Option.some.injEq] at hstep
        exact hstep ▸ hs.pop_null hpc hfull
      | some job =>
        simp only [hpc, hfull, Option.some.injEq] at hstep
        exact hstep ▸ hs.pop_job hpc hfull
  | collecting job k =>
    cases hx : (s.pool job)[k]? with
    | some x =>
      simp only [hpc, hx, Option.some.injEq] at hstep
      exact hstep ▸ hs.collect_item hpc hx
    | none =>
      simp only [hpc, hx, Option.some.injEq] at hstep
      exact hstep ▸ hs.collect_done hpc hx
  | counting job =>
    simp only [hpc, Option.some.injEq] at hstep
    exact hstep ▸ hs.count hpc
  | returning job =>
    simp only [hpc, Option.some.injEq] at hstep
    exact hstep ▸ hs.push_free hpc
  | finished => simp [hpc] at hstep

end Server.Sound

/-- **The invariant holds in every reachable state**, whatever the number of
slaves and the jobs. -/
theorem Server.sound_of_reachable {jobs : List (List (BitVec 32))}
    {h : HashE} {c₀ : BitVec 64} {pool : Buffer m → List (BitVec 32)}
    {s : Server m}
    (hs : Reachable (Server.step jobs) (Server.init h pool c₀) s) :
    s.Sound jobs h c₀ :=
  hs.invariant (Server.Sound.init pool) (fun s a s' hsound hstep => by
    cases a with
    | receiver => exact hsound.receiverStep hstep
    | slave i => exact hsound.slaveStep hstep)

/-! ## What the invariant says

The fields of the invariant are about multisets and sums. Here they are turned
into statements about single buffers, threads and jobs. -/

/-- Whether the receiver holds a buffer, for a statement that counts holders. -/
def ReceiverPc.holds (pc : ReceiverPc m) (job : Buffer m) :
    Prop := job ∈ pc.hand

instance (pc : ReceiverPc m) (job : Buffer m) : Decidable (pc.holds job) :=
  inferInstanceAs (Decidable (job ∈ pc.hand))

/-- Whether a slave holds a buffer. -/
def SlavePc.holds (pc : SlavePc m) (job : Buffer m) : Prop := job ∈ pc.hand

instance (pc : SlavePc m) (job : Buffer m) : Decidable (pc.holds job) :=
  inferInstanceAs (Decidable (job ∈ pc.hand))

/-- A hand holds one buffer at most. -/
theorem ReceiverPc.count_hand (pc : ReceiverPc m) (job : Buffer m) :
    pc.hand.count job = if pc.holds job then 1 else 0 := by
  have hnodup : pc.hand.Nodup := by
    cases pc
      <;> first | exact Multiset.nodup_zero | exact Multiset.nodup_singleton _
  exact Multiset.count_eq_of_nodup hnodup

/-- A hand holds one buffer at most. -/
theorem SlavePc.count_hand (pc : SlavePc m) (job : Buffer m) :
    pc.hand.count job = if pc.holds job then 1 else 0 := by
  have hnodup : pc.hand.Nodup := by
    cases pc
      <;> first | exact Multiset.nodup_zero | exact Multiset.nodup_singleton _
  exact Multiset.count_eq_of_nodup hnodup

/-- A queue holds a job as often as it holds a pointer to it. -/
theorem count_reduceOption (l : List (Option (Buffer m))) (job : Buffer m) :
    l.reduceOption.count job = l.count (some job) := by
  induction l with
  | nil => rfl
  | cons b l ih =>
    cases b with
    | none => rw [List.reduceOption_cons_of_none, ih,
      List.count_cons_of_ne (by simp)]
    | some b =>
      rw [List.reduceOption_cons_of_some, List.count_cons, List.count_cons, ih]
      simp

/-- The slaves that are through, counted. -/
theorem Server.finished_eq_card (s : Server m) :
    s.finished
      = (Finset.univ.filter (fun i => s.slaves i = .finished)).card := by
  rw [Finset.card_filter]
  refine Finset.sum_congr rfl (fun i _ => ?_)
  cases s.slaves i <;> rfl

namespace Server.Sound

variable {jobs : List (List (BitVec 32))} {h : HashE}
    {c₀ : BitVec 64} {s : Server m}

/-- **Every buffer is in exactly one place.** The four summands are the places:
so no two threads ever work on one buffer, and none is lost. -/
theorem count_eq_one (hs : s.Sound jobs h c₀) (job : Buffer m) :
    s.jobsFree.count job + s.jobsFull.count (some job)
      + (if s.receiver.holds job then 1 else 0)
      + (Finset.univ.filter (fun i => (s.slaves i).holds job)).card = 1 := by
  have hone : s.owned.count job = 1 := by
    rw [hs.owned]
    exact Multiset.count_eq_one_of_mem Finset.univ.nodup (Finset.mem_univ job)
  have hslaves : Multiset.count job (∑ i, (s.slaves i).hand)
      = (Finset.univ.filter (fun i => (s.slaves i).holds job)).card := by
    rw [Multiset.count_sum', Finset.card_filter]
    exact Finset.sum_congr rfl (fun i _ => (s.slaves i).count_hand job)
  unfold Server.owned Server.fullJobs at hone
  rw [Multiset.count_add, Multiset.count_add, Multiset.count_add, hslaves,
    s.receiver.count_hand, Multiset.coe_count, Multiset.coe_count,
      count_reduceOption] at hone
  exact hone

/-- A slave that holds a buffer can move, and so can a popping slave when
`jobsFull` is not empty. A slave never waits for anything else. -/
theorem slave_enabled {i : Fin m} (hi : s.slaves i ≠ .finished)
    (hpop : s.slaves i = .popping → s.jobsFull ≠ []) :
    (s.step jobs (.slave i)).isSome = true := by
  show (Skt.slaveStep s i).isSome = true
  unfold Skt.slaveStep
  cases hpc : s.slaves i with
  | popping =>
    cases hfull : s.jobsFull with
    | nil => exact absurd hfull (hpop hpc)
    | cons job rest => cases job <;> rfl
  | collecting job k =>
    dsimp only
    cases (s.pool job)[k]? <;> rfl
  | counting job => rfl
  | returning job => rfl
  | finished => exact absurd hpc hi

/-- **Nothing is stuck on the buffers.** A receiver that waits for a free buffer
holds none, so the buffers are with the slaves or in `jobsFull`, and some slave
can move.

There are more buffers than slaves, though one would do for this. -/
theorem enabled_of_popping (hs : s.Sound jobs h c₀) (hm : 0 < m)
    (hpc : s.receiver = .popping) : ∃ a, (s.step jobs a).isSome = true := by
  cases hfree : s.jobsFree with
  | cons job rest =>
    refine ⟨.receiver, ?_⟩
    show (Skt.receiverStep jobs s).isSome = true
    unfold Skt.receiverStep
    rw [hpc, hfree]
    rfl
  | nil =>
    -- before the null pointers no slave is through
    have hnone : ∀ i, s.slaves i ≠ .finished := by
      obtain ⟨full, n, -, hn, -⟩ := hs.queued
      rw [hpc] at hn
      have hfin : s.finished = 0 := Nat.eq_zero_of_add_eq_zero_left hn
      rw [Server.finished_eq_card, Finset.card_eq_zero,
        Finset.filter_eq_empty_iff] at hfin
      exact fun i => hfin (Finset.mem_univ i)
    by_cases hbusy : ∃ i, s.slaves i ≠ .popping
    · obtain ⟨i, hi⟩ := hbusy
      exact ⟨.slave i, slave_enabled (hnone i) (fun hp => absurd hp hi)⟩
    · have hidle : ∀ i, s.slaves i = .popping := fun i =>
        not_not.mp (fun hi => hbusy ⟨i, hi⟩)
      refine ⟨.slave ⟨0, hm⟩, slave_enabled (hnone _) (fun _ hempty => ?_)⟩
      -- all hands are empty and so are both queues: buffer 0 is nowhere
      have hcount := hs.count_eq_one 0
      have hrecv : ¬ s.receiver.holds 0 := by
        rw [hpc]
        exact Multiset.notMem_zero _
      have hslaves : Finset.univ.filter (fun i => (s.slaves i).holds 0) = ∅ :=
        Finset.filter_eq_empty_iff.mpr (fun i _ => by
          rw [hidle i]
          exact Multiset.notMem_zero _)
      rw [hfree, hempty, if_neg hrecv, hslaves] at hcount
      exact absurd hcount Nat.zero_ne_one

/-- **Nothing is stuck on the null pointers.** While the receiver joins, every
slave that is not through has a pointer to pop: the nulls that have not
finished a slave are queued. -/
theorem enabled_of_joining (hs : s.Sound jobs h c₀) {job : Buffer m} {i : ℕ}
    (hpc : s.receiver = .joining job i) :
    ∃ a, (s.step jobs a).isSome = true := by
  by_cases hi : i < m
  · by_cases hfin : s.slaves ⟨i, hi⟩ = .finished
    · refine ⟨.receiver, ?_⟩
      show (Skt.receiverStep jobs s).isSome = true
      unfold Skt.receiverStep
      rw [hpc]
      dsimp only
      rw [dif_pos hi, if_pos hfin]
      rfl
    · refine ⟨.slave ⟨i, hi⟩, slave_enabled hfin (fun _ hempty => ?_)⟩
      obtain ⟨full, n, hqueue, hn, -⟩ := hs.queued
      rw [hempty] at hqueue
      have hn0 : n = 0 := by
        have hlen := congrArg List.length hqueue
        rw [List.length_append, List.length_replicate] at hlen
        exact Nat.eq_zero_of_add_eq_zero_left hlen.symm
      rw [hpc, hn0, Nat.zero_add, Server.finished_eq_card] at hn
      have hlt :
        (Finset.univ.filter (fun j => s.slaves j = .finished)).card < m := by
        have hsub : Finset.univ.filter
          (fun j => s.slaves j = .finished) ⊂ Finset.univ :=
          Finset.filter_ssubset.mpr ⟨⟨i, hi⟩, Finset.mem_univ _, hfin⟩
        exact (Finset.card_lt_card hsub).trans_eq (Finset.card_fin m)
      exact absurd hn hlt.ne
  · refine ⟨.receiver, ?_⟩
    show (Skt.receiverStep jobs s).isSome = true
    unfold Skt.receiverStep
    rw [hpc]
    dsimp only
    rw [dif_neg hi]
    rfl

/-- **No deadlock**: while a thread is not through, some thread can move.
Without a slave the receiver would wait for its only buffer for ever, hence
`hm`. -/
theorem enabled (hs : s.Sound jobs h c₀) (hm : 0 < m) (hfin : ¬ s.Finished) :
    ∃ a, (s.step jobs a).isSome = true := by
  cases hpc : s.receiver with
  | popping => exact hs.enabled_of_popping hm hpc
  | receiving job =>
    refine ⟨.receiver, ?_⟩
    show (Skt.receiverStep jobs s).isSome = true
    unfold Skt.receiverStep
    rw [hpc]
    cases jobs[s.received]? <;> rfl
  | pushing job =>
    refine ⟨.receiver, ?_⟩
    show (Skt.receiverStep jobs s).isSome = true
    unfold Skt.receiverStep
    rw [hpc]
    rfl
  | terminating job i =>
    refine ⟨.receiver, ?_⟩
    show (Skt.receiverStep jobs s).isSome = true
    unfold Skt.receiverStep
    rw [hpc]
    dsimp only
    split <;> rfl
  | joining job i => exact hs.enabled_of_joining hpc
  | done job =>
    exact absurd
      ⟨⟨job, hpc⟩, fun i => hs.joined i (by rw [hpc]; exact i.isLt)⟩ hfin

/-! ### When the slaves are through -/

/-- **When all slaves are through, nothing is left**: `jobsFull` is empty, and
every job received has been collected. One slave that is through is enough to
know that the jobs are gone from the queue, and all have to be for the hands to
be empty. -/
theorem collected_of_finished (hs : s.Sound jobs h c₀) (hm : 0 < m)
    (hfin : ∀ i, s.slaves i = .finished) :
    s.jobsFull = [] ∧ ∑ i, (s.collected i : Multiset ℕ)
      = Multiset.range jobs.length := by
  obtain ⟨full, n, hqueue, hn, hnil⟩ := hs.queued
  have hall : s.finished = m := by
    rw [Server.finished_eq_card, Finset.filter_true_of_mem (fun i _ => hfin i),
      Finset.card_univ, Fintype.card_fin]
  have hle := hs.nulls_le
  have hempty : s.jobsFull = [] := by
    rw [hqueue, hnil (by omega), show n = 0 by omega]
    rfl
  -- null pointers are only pushed after the last job
  have hclosed : s.receiver.closed = true := by
    cases hpc : s.receiver with
    | terminating | joining | done => rfl
    | _ =>
      rw [hpc] at hn
      have h0 : n + s.finished = 0 := hn
      omega
  have hloaded : s.receiver.loaded = 0 := by
    cases hpc : s.receiver
      <;> first | rfl | (rw [hpc] at hclosed; cases hclosed)
  have hflight : s.inFlight = 0 := by
    unfold Server.inFlight Server.fullJobs
    rw [hempty, hloaded]
    simp only [hfin, SlavePc.loading, Finset.sum_const_zero, add_zero]
    rfl
  refine ⟨hempty, ?_⟩
  have hserials := hs.delivered.serials
  rwa [hflight, Multiset.map_zero, zero_add, hs.closed hclosed] at hserials

end Server.Sound

/-- Serial numbers that make up a range occur once each, and with one slave
only. -/
theorem count_of_sum_eq_range {collected : Fin m → List ℕ} {n : ℕ}
    (h : ∑ i, (collected i : Multiset ℕ) = Multiset.range n) :
    (∀ i, ∀ r ∈ collected i, r < n)
      ∧ ∀ r < n, ∃ i, (collected i).count r = 1 ∧ ∀ j, j ≠ i →
        r ∉ collected j := by
  have hmem : ∀ r, r < n ↔ ∃ i, r ∈ collected i := fun r => by
    rw [← Multiset.mem_range, ← h, Multiset.mem_sum]
    simp
  refine ⟨fun i r hr => (hmem r).mpr ⟨i, hr⟩, fun r hr => ?_⟩
  obtain ⟨i, hi⟩ := (hmem r).mp hr
  have hone : ∑ j, (collected j).count r = 1 := by
    have hcount := congrArg (Multiset.count r) h
    rw [Multiset.count_sum', Multiset.count_eq_one_of_mem
      (Multiset.nodup_range n)
      (Multiset.mem_range.mpr hr)] at hcount
    simpa only [Multiset.coe_count] using hcount
  rw [← Finset.add_sum_erase Finset.univ _ (Finset.mem_univ i)] at hone
  have hpos : 0 < (collected i).count r := List.count_pos_iff.mpr hi
  have hrest : ∑ j ∈ Finset.univ.erase i, (collected j).count r = 0 := by omega
  refine ⟨i, by omega, fun j hj => List.count_eq_zero.mp ?_⟩
  exact Finset.sum_eq_zero_iff.mp hrest j
    (Finset.mem_erase.mpr ⟨hj, Finset.mem_univ j⟩)

/-- **The items collected are the items received**, once every job is collected.
Only their order is lost. -/
theorem sum_itemsOf (jobs : List (List (BitVec 32)))
    {collected : Fin m → List ℕ}
    (h : ∑ i, (collected i : Multiset ℕ) = Multiset.range jobs.length) :
    ∑ i, (itemsOf jobs (collected i) : Multiset (BitVec 32))
      = jobs.flatten := by
  set f : ℕ → Multiset (BitVec 32) := fun r =>
    ((jobs.getD r [] : List _) : Multiset _) with hf
  have hbind : ∀ l : List ℕ, (itemsOf jobs l : Multiset (BitVec 32))
    = (l : Multiset ℕ).bind f :=
    fun l => (Multiset.coe_bind l _).symm
  have hsum : ∀ t : Finset (Fin m), ∑ i ∈ t,
    (itemsOf jobs (collected i) : Multiset (BitVec 32))
      = (∑ i ∈ t, (collected i : Multiset ℕ)).bind f := by
    intro t
    induction t using Finset.induction_on with
    | empty => rfl
    | insert i t hi ih =>
      rw [Finset.sum_insert hi, Finset.sum_insert hi, ih,
        Multiset.add_bind, hbind]
  have hall : (List.range jobs.length).map
    (fun r => jobs.getD r []) = jobs := by
    refine List.ext_getElem (by simp) (fun r h₁ h₂ => ?_)
    simp [h₂]
  calc ∑ i, (itemsOf jobs (collected i) : Multiset (BitVec 32))
      = (Multiset.range jobs.length).bind f := by rw [hsum, h]
    _ = ↑((List.range jobs.length).flatMap (fun r => jobs.getD r [])) :=
      Multiset.coe_bind _ _
    _ = ↑jobs.flatten := by rw [List.flatMap_def, hall]

/-- A server's collectors, merged, hold what they hold together: the items of
all jobs. -/
theorem compact_ofFn {h : HashE} (hm : 0 < m)
    (collectors : Fin m → SktCollector) (D : Fin m → Multiset (BitVec 32))
    (hall : ∀ i, (collectors i).SameConfig (freshCollector h)
      ∧ (collectors i).Holds (D i)) :
    ∃ x, compact (List.ofFn collectors) = some x
      ∧ x.SameConfig (freshCollector h)
      ∧ x.Holds (∑ i, D i) := by
  obtain ⟨k, rfl⟩ : ∃ k, m = k + 1 := ⟨m - 1, by omega⟩
  obtain ⟨x, hx, hcfg, hD⟩ := compact_holds (hall 0).1 (hall 0).2
    (List.ofFn (fun i : Fin k => (collectors i.succ, D i.succ)))
    (fun r hr => by
      obtain ⟨i, rfl⟩ := (List.mem_ofFn' _ _).mp hr
      exact hall i.succ)
  refine ⟨x, ?_, hcfg, ?_⟩
  · rw [List.ofFn_succ]
    rwa [List.map_ofFn] at hx
  · rw [Fin.sum_univ_succ]
    rwa [List.map_ofFn, List.sum_ofFn] at hD

/-- **The job exchange of the sketch server.** For every number of slaves, every
finite sequence of received jobs and every interleaving: every buffer is in
exactly one of `jobsFree`, `jobsFull`, the receiver's hand and one slave's hand;
while a thread is not through some thread can move; and once all slaves are
through, `jobsFull` is empty, every job was collected by exactly one slave
exactly once, `itemCount` has grown by the number of items, and the collectors
merge into one that was fed all items in arrival order.

The merged collector is the same word for word. Its counters are sums modulo `2
^ 32` on both sides, in the `signed` AGMS table as in the Count-Min table, since
the compiled additions of `collect` and of `merge` wrap. -/
theorem jobExchange (hm : 0 < m) (h : HashE) (c₀ : BitVec 64)
    (pool : Buffer m → List (BitVec 32)) (jobs : List (List (BitVec 32)))
    {s : Server m}
    (hs : Reachable (Server.step jobs) (Server.init h pool c₀) s) :
    (∀ job, s.jobsFree.count job + s.jobsFull.count (some job)
        + (if s.receiver.holds job then 1 else 0)
        + (Finset.univ.filter (fun i => (s.slaves i).holds job)).card = 1)
    ∧ (¬ s.Finished → ∃ a, (s.step jobs a).isSome = true)
    ∧ ((∀ i, s.slaves i = .finished) →
        s.jobsFull = []
        ∧ (∀ i, ∀ r ∈ s.collected i, r < jobs.length)
        ∧ (∀ r < jobs.length,
            ∃ i, (s.collected i).count r = 1 ∧ ∀ j, j ≠ i → r ∉ s.collected j)
        ∧ s.itemCount = c₀ + BitVec.ofNat 64 (jobs.map List.length).sum
        ∧ compact (List.ofFn s.collectors)
          = some ((freshCollector h).collect jobs.flatten)) := by
  have hsound := Server.sound_of_reachable hs
  refine ⟨hsound.count_eq_one, hsound.enabled hm, fun hfin => ?_⟩
  obtain ⟨hempty, hcollected⟩ := hsound.collected_of_finished hm hfin
  obtain ⟨hrange, honce⟩ := count_of_sum_eq_range hcollected
  have hitems := sum_itemsOf jobs hcollected
  have hfresh : ∀ data : List (BitVec 32),
    ((freshCollector h).collect data).SameConfig
      (freshCollector h) ∧ ((freshCollector h).collect data).Holds
        (data : Multiset _) := by
    intro data
    refine ⟨⟨rfl, rfl, rfl, rfl, rfl, rfl⟩, ?_⟩
    have hrange : (new 13 5 13 5 13 h).InRange :=
      ⟨(by decide : 13 ≤ 16), (by decide : 0 < 13)⟩
    have hcollect := (holds_new 13 5 13 5 13 h).collect hrange data
    rwa [zero_add] at hcollect
  refine ⟨hempty, hrange, honce, ?_, ?_⟩
  · -- nothing is left to count
    have hcount := hsound.itemCount
    simp only [hfin, SlavePc.uncounted, Finset.sum_const_zero] at hcount
    rw [add_zero] at hcount
    rw [hcount]
    have hlen : ∑ i, (itemsOf jobs (s.collected i)).length
      = (jobs.map List.length).sum := by
      have hcard := congrArg Multiset.card hitems
      rw [Multiset.card_sum, Multiset.coe_card, List.length_flatten] at hcard
      exact hcard
    rw [← hlen]
    exact congrArg (c₀ + ·) (Nat.cast_sum (R := BitVec 64) Finset.univ _).symm
  · obtain ⟨x, hx, hcfg, hD⟩ := compact_ofFn (h := h) hm s.collectors
      (fun i => (itemsOf jobs (s.collected i) : Multiset (BitVec 32)))
        (fun i => by
        have hc := hsound.collectors i
        rw [hfin i] at hc
        rw [hc, show SlavePc.part s.pool .finished = [] from rfl,
          List.append_nil]
        exact hfresh _)
    rw [hx, Option.some.injEq]
    refine Holds.eq ?_ (hfresh jobs.flatten).2 (hcfg.trans (hfresh _).1.symm)
    rwa [hitems] at hD

/-- Two slaves and two jobs. The receiver queues both jobs before a slave moves;
the slaves take one each and collect at the same time, and the second is ready
first. The receiver then takes the buffer that was never used, finds the
connection closed, and queues the two null pointers. -/
def twoJobsRun : List (Actor 2) :=
  let first : Actor 2 := .slave ⟨0, Nat.two_pos⟩
  let second : Actor 2 := .slave ⟨1, Nat.one_lt_two⟩
  List.replicate 6 .receiver
    ++ [first, second, second, first, second, first, second, first,
      second, second, first]
    ++ List.replicate 5 .receiver ++ [second, first]
      ++ List.replicate 3 .receiver

/-- The run ends with both slaves and the receiver through. It is checked move
by move. -/
theorem twoJobsRun_reachable :
    ∃ s, Reachable (Server.step [[5#32], [6#32, 7#32]])
      (Server.init .murmur3_128 (fun _ => []) 3#64 : Server 2)
        s ∧ s.Finished := by
  have hrun : Reachable (Server.step [[5#32], [6#32, 7#32]])
      (Server.init .murmur3_128 (fun _ => []) 3#64 : Server 2) _ :=
    Reachable.foldlM .init (show twoJobsRun.foldlM _ _ = some _ from rfl)
  refine ⟨_, hrun, ⟨_, rfl⟩, fun i => ?_⟩
  induction i using Fin.cases with
  | zero => rfl
  | succ i =>
    rw [Subsingleton.elim i 0]
    rfl

/-- The run of two slaves and two jobs: both jobs are collected once, three
items are counted, and the two collectors merge into one that was fed all
three. -/
theorem jobExchange_instance : ∃ s : Server 2, s.Finished
    ∧ s.jobsFull = []
    ∧ (∀ r < 2, ∃ i, (s.collected i).count r = 1 ∧ ∀ j,
      j ≠ i → r ∉ s.collected j)
    ∧ s.itemCount = 3#64 + BitVec.ofNat 64 3
    ∧ compact (List.ofFn s.collectors)
      = some ((freshCollector .murmur3_128).collect [5#32, 6#32, 7#32]) := by
  obtain ⟨s, hs, hfinished⟩ := twoJobsRun_reachable
  obtain ⟨-, -, hfinal⟩ := jobExchange (by decide) _ _ _ _ hs
  obtain ⟨hempty, -, honce, hcount, hmerge⟩ := hfinal hfinished.2
  exact ⟨s, hfinished, hempty, honce, hcount, hmerge⟩

end Skt
