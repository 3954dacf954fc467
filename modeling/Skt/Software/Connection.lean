import Skt.Lib.Monitor
import Skt.Software.JobExchange

/-!
# A connection of the sketch server, to its end

A connection ends: the moves left to its threads are bounded, whatever their
order, by the items of the jobs that are still to come, the items waiting in
`jobsFull` and a few moves for every job and every slave. And when it has ended,
its collectors hold the items it has received, each once, however the slaves
have shared them.

The queues of a connection are objects of class `JobQueue`, each with a mutex
and a condition variable. What a thread does next is to pop from one of them, to
push onto one, to join a slave or to go on by itself, so a connection is a
program over shared queues, in the sense of `Skt.Lib.Monitor`.

The two step functions of `Skt.Software.JobExchange` are inverted first, into
one case for each move. Both the measure and the lengths of the queues are then
followed through these cases.
-/

namespace Skt

open Runs SktCollector Monitor

variable {m : ℕ}

/-! ## The moves, one by one -/

/-- **What the receiver does** in a move, one case for each. The hypotheses are
the tests the step function makes. -/
inductive ReceiverMoves (jobs : List (List (BitVec 32))) (s : Server m) :
    Server m → Prop where
  /-- `jobsFree.pop()`: an empty buffer is taken. -/
  | pop {job : Buffer m} {rest : List (Buffer m)} (hpc : s.receiver = .popping)
    (hfree : s.jobsFree = job :: rest) :
    ReceiverMoves jobs s { s with jobsFree := rest, receiver := .receiving job }
  /-- A job is received into it, the next one of the connection. -/
  | receive {job : Buffer m} {items : List (BitVec 32)}
    (hpc : s.receiver = .receiving job)
    (hrecv : jobs[s.received]? = some items) :
    ReceiverMoves jobs s { s with
      pool := Function.update s.pool job items
      serial := Function.update s.serial job s.received
      received := s.received + 1
      receiver := .pushing job }
  /-- There is none left: the client has closed the connection. -/
  | closed {job : Buffer m} (hpc : s.receiver = .receiving job)
    (hrecv : jobs[s.received]? = none) :
    ReceiverMoves jobs s { s with receiver := .terminating job 0 }
  /-- `jobsFull.push(job)`: the buffer is handed to the slaves. -/
  | push {job : Buffer m} (hpc : s.receiver = .pushing job) :
    ReceiverMoves jobs s
      { s with jobsFull := s.jobsFull ++ [some job], receiver := .popping }
  /-- A null pointer is pushed for a slave, to end its loop. -/
  | terminate {job : Buffer m} {i : ℕ}
    (hpc : s.receiver = .terminating job i) (hi : i < m) :
    ReceiverMoves jobs s { s with
      jobsFull := s.jobsFull ++ [none]
      receiver := .terminating job (i + 1) }
  /-- There is one for every slave. -/
  | terminated {job : Buffer m} {i : ℕ}
    (hpc : s.receiver = .terminating job i) (hi : ¬ i < m) :
    ReceiverMoves jobs s { s with receiver := .joining job 0 }
  /-- A slave that is through is joined. -/
  | join {job : Buffer m} {i : ℕ}
    (hpc : s.receiver = .joining job i) (hi : i < m)
    (hfin : s.slaves ⟨i, hi⟩ = .finished) :
    ReceiverMoves jobs s { s with receiver := .joining job (i + 1) }
  /-- All of them are. The buffer taken last is kept. -/
  | joined {job : Buffer m} {i : ℕ}
    (hpc : s.receiver = .joining job i) (hi : ¬ i < m) :
    ReceiverMoves jobs s { s with receiver := .done job }

/-- The receiver does one of these, with the tests it made as hypotheses. The
later proofs split into them and do not unfold the step. -/
theorem moves_of_receiverStep {jobs : List (List (BitVec 32))} {s s' : Server m}
    (hstep : receiverStep jobs s = some s') : ReceiverMoves jobs s s' := by
  unfold receiverStep at hstep
  cases hpc : s.receiver with
  | popping =>
    cases hfree : s.jobsFree with
    | nil => simp [hpc, hfree] at hstep
    | cons job rest =>
      simp only [hpc, hfree, Option.some.injEq] at hstep
      exact hstep ▸ .pop hpc hfree
  | receiving job =>
    cases hrecv : jobs[s.received]? with
    | some items =>
      simp only [hpc, hrecv, Option.some.injEq] at hstep
      exact hstep ▸ .receive hpc hrecv
    | none =>
      simp only [hpc, hrecv, Option.some.injEq] at hstep
      exact hstep ▸ .closed hpc hrecv
  | pushing job =>
    simp only [hpc, Option.some.injEq] at hstep
    exact hstep ▸ .push hpc
  | terminating job i =>
    by_cases hi : i < m
    · simp only [hpc, if_pos hi, Option.some.injEq] at hstep
      exact hstep ▸ .terminate hpc hi
    · simp only [hpc, if_neg hi, Option.some.injEq] at hstep
      exact hstep ▸ .terminated hpc hi
  | joining job i =>
    by_cases hi : i < m
    · by_cases hfin : s.slaves ⟨i, hi⟩ = .finished
      · simp only [hpc, dif_pos hi, if_pos hfin, Option.some.injEq] at hstep
        exact hstep ▸ .join hpc hi hfin
      · simp [hpc, dif_pos hi, if_neg hfin] at hstep
    · simp only [hpc, dif_neg hi, Option.some.injEq] at hstep
      exact hstep ▸ .joined hpc hi
  | done job => simp [hpc] at hstep

/-- **What a slave does** in a move, one case for each. -/
inductive SlaveMoves (s : Server m) (i : Fin m) : Server m → Prop where
  /-- `jobsFull.pop()` has returned a null pointer, and the slave is
  through. -/
  | finish {rest : List (Option (Buffer m))} (hpc : s.slaves i = .popping)
    (hfull : s.jobsFull = none :: rest) :
    SlaveMoves s i { s with
      jobsFull := rest
      slaves := Function.update s.slaves i .finished }
  /-- It has returned a buffer. -/
  | pop {job : Buffer m} {rest : List (Option (Buffer m))}
    (hpc : s.slaves i = .popping)
    (hfull : s.jobsFull = some job :: rest) :
    SlaveMoves s i { s with
      jobsFull := rest
      slaves := Function.update s.slaves i (.collecting job 0) }
  /-- An item of the buffer is collected. The slave takes one step for each, and
  the others may take theirs in between. -/
  | collect {job : Buffer m} {k : ℕ} {x : BitVec 32}
    (hpc : s.slaves i = .collecting job k)
    (hx : (s.pool job)[k]? = some x) :
    SlaveMoves s i { s with
      collectors := Function.update s.collectors i
        ((s.collectors i).collect [x])
      slaves := Function.update s.slaves i (.collecting job (k + 1)) }
  /-- All items of the buffer have been. -/
  | collected {job : Buffer m} {k : ℕ} (hpc : s.slaves i = .collecting job k)
    (hx : (s.pool job)[k]? = none) :
    SlaveMoves s i { s with
      collected := Function.update s.collected i
        (s.collected i ++ [s.serial job])
      slaves := Function.update s.slaves i (.counting job) }
  /-- The items are added to the shared counter, in one step: it is atomic. -/
  | count {job : Buffer m} (hpc : s.slaves i = .counting job) :
    SlaveMoves s i { s with
      itemCount := s.itemCount + BitVec.ofNat 64 (s.pool job).length
      slaves := Function.update s.slaves i (.returning job) }
  /-- `jobsFree.push(job)`: the buffer is given back. -/
  | push {job : Buffer m} (hpc : s.slaves i = .returning job) :
    SlaveMoves s i { s with
      jobsFree := s.jobsFree ++ [job]
      slaves := Function.update s.slaves i .popping }

/-- A slave does one of these, and likewise nothing else. -/
theorem moves_of_slaveStep {s s' : Server m} {i : Fin m}
    (hstep : slaveStep s i = some s') :
    SlaveMoves s i s' := by
  unfold slaveStep at hstep
  cases hpc : s.slaves i with
  | popping =>
    cases hfull : s.jobsFull with
    | nil => simp [hpc, hfull] at hstep
    | cons pointer rest =>
      cases pointer with
      | none =>
        simp only [hpc, hfull, Option.some.injEq] at hstep
        exact hstep ▸ .finish hpc hfull
      | some job =>
        simp only [hpc, hfull, Option.some.injEq] at hstep
        exact hstep ▸ .pop hpc hfull
  | collecting job k =>
    cases hx : (s.pool job)[k]? with
    | some x =>
      simp only [hpc, hx, Option.some.injEq] at hstep
      exact hstep ▸ .collect hpc hx
    | none =>
      simp only [hpc, hx, Option.some.injEq] at hstep
      exact hstep ▸ .collected hpc hx
  | counting job =>
    simp only [hpc, Option.some.injEq] at hstep
    exact hstep ▸ .count hpc
  | returning job =>
    simp only [hpc, Option.some.injEq] at hstep
    exact hstep ▸ .push hpc
  | finished => simp [hpc] at hstep

/-! ## How far a connection can still go

A move either takes a job on its way or a thread to its end. The measure counts
what is left to do for every job from the moment it is received, and for every
thread. -/

/-- The moves that are left for a waiting job: it is popped, collected item by
item, counted and returned. A null pointer is popped, and that is all. -/
def pointerToGo (pool : Buffer m → List (BitVec 32)) : Option (Buffer m) → ℕ
  | some job => (pool job).length + 4
  | none => 1

/-- The moves that are left to a slave at its control point, for the job it has.
A slave that pops has none of its own: they are those of what it will pop. -/
def SlavePc.toGo (pool : Buffer m → List (BitVec 32)) : SlavePc m → ℕ
  | .collecting job k => (pool job).length - k + 3
  | .counting _ => 2
  | .returning _ => 1
  | .popping | .finished => 0

/-- The moves that are left to the receiver when no more jobs come, with those
of the slaves on what it still pushes. -/
def ReceiverPc.toGo (pool : Buffer m → List (BitVec 32)) : ReceiverPc m → ℕ
  | .pushing job => (pool job).length + 3 * m + 9
  | .popping => 3 * m + 4
  | .receiving _ => 3 * m + 3
  | .terminating _ i => 2 * (m - i) + (m + 2)
  | .joining _ i => m - i + 1
  | .done _ => 0

/-- The moves that are left for the jobs to come: three of the receiver, and
those of a slave. -/
def jobsToGo (jobs : List (List (BitVec 32))) : ℕ :=
  (jobs.map fun job => job.length + 7).sum

/-- **How far a connection can still go**: for the jobs to come, the receiver,
the queue of jobs, and the slaves. -/
def Server.toGo (jobs : List (List (BitVec 32))) (s : Server m) : ℕ :=
  jobsToGo (jobs.drop s.received) + s.receiver.toGo s.pool
    + (s.jobsFull.map (pointerToGo s.pool)).sum + ∑ i, (s.slaves i).toGo s.pool

/-- What a slave does not hold does not delay it, so filling a buffer changes
only what is left to do for that buffer. -/
theorem slaveToGo_update {pc : SlavePc m} {job : Buffer m} (h : job ∉ pc.hand)
    (pool : Buffer m → List (BitVec 32)) (items : List (BitVec 32)) :
    pc.toGo (Function.update pool job items) = pc.toGo pool := by
  cases pc with
  | collecting job' k =>
    have hne : job' ≠ job := fun he => h (Multiset.mem_singleton.mpr he.symm)
    simp only [SlavePc.toGo, Function.update_of_ne hne]
  | _ => rfl

/-- What is not queued does not delay the queue. -/
theorem queueToGo_update {full : List (Option (Buffer m))} {job : Buffer m}
    (h : job ∉ full.reduceOption) (pool : Buffer m → List (BitVec 32))
    (items : List (BitVec 32)) :
    full.map (pointerToGo (Function.update pool job items))
      = full.map (pointerToGo pool) := by
  refine List.map_congr_left fun pointer hpointer => ?_
  cases pointer with
  | none => rfl
  | some job' =>
    have hne : job' ≠ job := fun he =>
      h (List.reduceOption_mem_iff.mpr (he ▸ hpointer))
    simp only [pointerToGo, Function.update_of_ne hne]

namespace Server.Sound

variable {jobs : List (List (BitVec 32))} {h : HashE}
    {c₀ : BitVec 64} {s : Server m}

/-- **The receiver takes a connection forward.** When it fills a buffer, the
moves for a job to come become those for the job in its hand. -/
theorem receiverStep_toGo_lt (hs : s.Sound jobs h c₀) {s' : Server m}
    (hstep : Skt.receiverStep jobs s = some s') :
    s'.toGo jobs < s.toGo jobs := by
  cases moves_of_receiverStep hstep with
  | pop hpc hfree | closed hpc hrecv | terminated hpc hi | join hpc hi hfin
  | joined hpc hi =>
    simp only [Server.toGo, hpc, ReceiverPc.toGo]
    omega
  | @receive job items hpc hrecv =>
    -- nobody else has the buffer that is filled
    have hhand : job ∈ s.receiver.hand := by
      rw [hpc]
      exact Multiset.mem_singleton_self job
    obtain ⟨hfull, hslaves⟩ := hs.not_mem_of_hand hhand
    obtain ⟨hlt, hitems⟩ := List.getElem?_eq_some_iff.mp hrecv
    have hjobs : jobsToGo (jobs.drop s.received)
        = items.length + 7 + jobsToGo (jobs.drop (s.received + 1)) := by
      rw [List.drop_eq_getElem_cons hlt, hitems]
      rfl
    simp only [Server.toGo, hpc, ReceiverPc.toGo, Function.update_self,
      queueToGo_update (Multiset.mem_coe.not.mp hfull),
      slaveToGo_update (hslaves _)]
    omega
  | push hpc | terminate hpc hi =>
    simp only [Server.toGo, hpc, ReceiverPc.toGo, List.map_append,
      List.sum_append, List.map_cons, List.map_nil, List.sum_cons,
      List.sum_nil, pointerToGo]
    omega

end Server.Sound

/-- A slave that goes on, with what it takes from the queue. The other terms of
the measure do not change. -/
theorem Server.toGo_lt_of_slave {jobs : List (List (BitVec 32))}
    {s s' : Server m} {i : Fin m} {pc : SlavePc m}
    (hreceived : s'.received = s.received)
    (hreceiver : s'.receiver = s.receiver) (hpool : s'.pool = s.pool)
    (hslaves : s'.slaves = Function.update s.slaves i pc)
    (hlt : pc.toGo s.pool + (s'.jobsFull.map (pointerToGo s.pool)).sum
      < (s.slaves i).toGo s.pool + (s.jobsFull.map (pointerToGo s.pool)).sum) :
    s'.toGo jobs < s.toGo jobs := by
  have hsum := sum_update (SlavePc.toGo s.pool) s.slaves i pc
  unfold Server.toGo
  rw [hreceived, hreceiver, hpool, hslaves]
  omega

/-- **A slave takes a connection forward**, by cases on its move. -/
theorem Server.slaveStep_toGo_lt {jobs : List (List (BitVec 32))}
    {s s' : Server m} {i : Fin m}
    (hstep : Skt.slaveStep s i = some s') : s'.toGo jobs < s.toGo jobs := by
  cases moves_of_slaveStep hstep with
  | finish hpc hfull | pop hpc hfull =>
    refine Server.toGo_lt_of_slave rfl rfl rfl rfl ?_
    simp only [hpc,
      hfull, SlavePc.toGo, List.map_cons, List.sum_cons, pointerToGo]
    omega
  | collect hpc hx =>
    have hk := (List.getElem?_eq_some_iff.mp hx).1
    refine Server.toGo_lt_of_slave rfl rfl rfl rfl ?_
    simp only [hpc, SlavePc.toGo]
    omega
  | collected hpc hx | count hpc | push hpc =>
    refine Server.toGo_lt_of_slave rfl rfl rfl rfl ?_
    simp only [hpc, SlavePc.toGo]
    omega

/-- **Every move takes a connection forward**, whichever thread makes it. So
there is no fairness to assume for a connection to end. -/
theorem Server.Sound.toGo_lt {jobs : List (List (BitVec 32))}
    {h : HashE} {c₀ : BitVec 64} {s s' : Server m} (hs : s.Sound jobs h c₀)
    {a : Actor m} (hstep : s.step jobs a = some s') :
    s'.toGo jobs < s.toGo jobs := by
  cases a with
  | receiver => exact hs.receiverStep_toGo_lt hstep
  | slave i => exact Server.slaveStep_toGo_lt hstep

/-- How far a connection can go from its start: the bound on the moves of all
its threads together. -/
theorem Server.toGo_init (jobs : List (List (BitVec 32))) (h : HashE)
    (pool : Buffer m → List (BitVec 32)) (c₀ : BitVec 64) :
    (Server.init h pool c₀).toGo jobs = jobsToGo jobs + (3 * m + 4) := by
  show jobsToGo jobs + (3 * m + 4) + 0 + ∑ _i : Fin m, 0 = _
  rw [Finset.sum_const_zero]
  rfl

/-! ## What a connection leaves behind

The receiver is the last thread to end, and the server joins it. What holds then
is what the server goes on with. -/

/-- When the receiver is through, so is the connection, as it has joined the
slaves. -/
theorem Server.Sound.finished_of_done
    {jobs : List (List (BitVec 32))} {h : HashE} {c₀ : BitVec 64} {s : Server m}
    (hs : s.Sound jobs h c₀) {job : Buffer m}
    (hdone : s.receiver = .done job) : s.Finished :=
  ⟨⟨job, hdone⟩, fun i => hs.joined i (by rw [hdone]; exact i.isLt)⟩

/-- Every move keeps the invariant of a connection, whoever moves. -/
theorem Server.Sound.step {jobs : List (List (BitVec 32))}
    {h : HashE} {c₀ : BitVec 64} {s s' : Server m} (hs : s.Sound jobs h c₀)
    {a : Actor m} (hstep : s.step jobs a = some s') :
    s'.Sound jobs h c₀ := by
  cases a with
  | receiver => exact hs.receiverStep hstep
  | slave i => exact hs.slaveStep hstep

/-- A connection that has ended does not move, so its collectors stay as they
are. -/
theorem Server.Finished.step_eq_none {jobs : List (List (BitVec 32))}
    {s : Server m}
    (hs : s.Finished) (a : Actor m) : s.step jobs a = none := by
  obtain ⟨⟨job, hdone⟩, hslaves⟩ := hs
  cases a with
  | receiver => simp only [Server.step, receiverStep, hdone]
  | slave i => simp only [Server.step, slaveStep, hslaves i]

/-- What a collector of the server holds after it has been fed, in sketches of
the items. -/
theorem freshCollector_holds (h : HashE) (data : List (BitVec 32)) :
    ((freshCollector h).collect data).SameConfig (freshCollector h)
      ∧ ((freshCollector h).collect data).Holds
      (data : Multiset (BitVec 32)) := by
  have hrange : (new 13 5 13 5 13 h).InRange :=
    ⟨(by decide : 13 ≤ 16), (by decide : 0 < 13)⟩
  have hcollect := (holds_new 13 5 13 5 13 h).collect hrange data
  rw [zero_add] at hcollect
  exact ⟨⟨rfl, rfl, rfl, rfl, rfl, rfl⟩, hcollect⟩

/-- **What a connection leaves behind**: its collectors hold the items received,
each once, and `itemCount` has grown by their number.

Which slave had which job is not determined, so the parts `D i` exist and are
not named. -/
theorem Server.Sound.result {jobs : List (List (BitVec 32))}
    {h : HashE} {c₀ : BitVec 64} {s : Server m} (hs : s.Sound jobs h c₀)
    (hm : 0 < m) (hfin : s.Finished) :
    (∃ D : Fin m → Multiset (BitVec 32), ∑ i, D i = jobs.flatten
      ∧ ∀ i, (s.collectors i).SameConfig (freshCollector h)
        ∧ (s.collectors i).Holds (D i))
    ∧ s.itemCount = c₀ + BitVec.ofNat 64 jobs.flatten.length := by
  obtain ⟨-, hcollected⟩ := hs.collected_of_finished hm hfin.2
  have hitems := sum_itemsOf jobs hcollected
  refine ⟨⟨fun i => (itemsOf jobs (s.collected i) : Multiset (BitVec 32)),
    hitems, fun i => ?_⟩, ?_⟩
  · have hc := hs.collectors i
    rw [hfin.2 i] at hc
    rw [hc, show SlavePc.part s.pool .finished = [] from rfl, List.append_nil]
    exact freshCollector_holds h _
  · have hcount := hs.itemCount
    simp only [hfin.2, SlavePc.uncounted, Finset.sum_const_zero] at hcount
    rw [add_zero] at hcount
    have hlen := congrArg Multiset.card hitems
    rw [Multiset.card_sum, Multiset.coe_card] at hlen
    rw [hcount, ← hlen]
    exact congrArg (c₀ + ·) (Nat.cast_sum (R := BitVec 64) Finset.univ _).symm

/-! ## A connection as a program over shared queues

The fields of `Program` are proved here for the two step functions, so that a
connection runs on queues with a mutex as it does on atomic ones. -/

/-- The objects of class `JobQueue` of a connection. -/
inductive JobQueue where
  | jobsFree
  | jobsFull
  deriving DecidableEq

/-- The length of a queue, null pointers included. -/
def Server.queueLength (s : Server m) : JobQueue → ℕ
  | .jobsFree => s.jobsFree.length
  | .jobsFull => s.jobsFull.length

deriving instance DecidableEq for Actor

/-- What the receiver does next. It knows from its own counters whether it
pushes another null pointer or goes on. -/
def ReceiverPc.kind : ReceiverPc m → Kind (Actor m) JobQueue
  | .popping => .pop .jobsFree
  | .receiving _ => .move
  | .pushing _ => .push .jobsFull
  | .terminating _ i => if i < m then .push .jobsFull else .move
  | .joining _ i => if h : i < m then .join (.slave ⟨i, h⟩) else .move
  | .done _ => .done

/-- What a slave does next. -/
def SlavePc.kind : SlavePc m → Kind (Actor m) JobQueue
  | .popping => .pop .jobsFull
  | .collecting _ _ | .counting _ => .move
  | .returning _ => .push .jobsFree
  | .finished => .done

/-- What a thread of a connection does next. -/
def Server.kind (s : Server m) : Actor m → Kind (Actor m) JobQueue
  | .receiver => s.receiver.kind
  | .slave i => (s.slaves i).kind

/-- What the receiver's queue operations do to the lengths. -/
theorem receiverStep_queueLength {jobs : List (List (BitVec 32))}
    {s s' : Server m}
    (hstep : receiverStep jobs s = some s') (q : JobQueue) :
    s'.queueLength q + (if s.receiver.kind = .pop q then 1 else 0)
      = s.queueLength q + (if s.receiver.kind = .push q then 1 else 0) := by
  cases moves_of_receiverStep hstep with
  | pop hpc hfree =>
    cases q <;> simp [ReceiverPc.kind, Server.queueLength, hpc, hfree]
  | receive hpc hrecv | closed hpc hrecv | push hpc =>
    cases q <;> simp [ReceiverPc.kind, Server.queueLength, hpc]
  | terminate hpc hi | terminated hpc hi | join hpc hi hfin | joined hpc hi =>
    cases q <;> simp [ReceiverPc.kind, Server.queueLength, hpc, hi]

/-- What a slave's queue operations do to the lengths. -/
theorem slaveStep_queueLength {s s' : Server m} {i : Fin m}
    (hstep : slaveStep s i = some s')
    (q : JobQueue) :
    s'.queueLength q + (if (s.slaves i).kind = .pop q then 1 else 0)
      = s.queueLength q + (if (s.slaves i).kind = .push q then 1 else 0) := by
  cases moves_of_slaveStep hstep with
  | finish hpc hfull | pop hpc hfull =>
    cases q <;> simp [SlavePc.kind, Server.queueLength, hpc, hfull]
  | collect hpc hx | collected hpc hx | count hpc | push hpc =>
    cases q <;> simp [SlavePc.kind, Server.queueLength, hpc]

/-- The receiver leaves the slaves where they are. -/
theorem receiverStep_slaves {jobs : List (List (BitVec 32))} {s s' : Server m}
    (hstep : receiverStep jobs s = some s') : s'.slaves = s.slaves := by
  cases moves_of_receiverStep hstep <;> rfl

/-- A slave leaves the other threads where they are. -/
theorem slaveStep_others {s s' : Server m} {i : Fin m}
    (hstep : slaveStep s i = some s') :
    s'.receiver = s.receiver ∧ ∀ j, j ≠ i → s'.slaves j = s.slaves j := by
  cases moves_of_slaveStep
    hstep <;> exact ⟨rfl, fun j hj => Function.update_of_ne hj _ _⟩

/-- A thread that pops waits while its queue is empty, and only then. With this
a connection fits the queues with mutex and condition variable. -/
theorem Server.isSome_of_pop {jobs : List (List (BitVec 32))}
    {s : Server m} {a : Actor m} {q : JobQueue} (hkind : s.kind a = .pop q) :
    (s.step jobs a).isSome = true ↔ 0 < s.queueLength q := by
  cases a with
  | receiver =>
    show (receiverStep jobs s).isSome = true ↔ _
    replace hkind : s.receiver.kind = .pop q := hkind
    unfold receiverStep
    cases hpc : s.receiver with
    | popping =>
      rw [hpc] at hkind
      cases hkind
      cases hfree : s.jobsFree <;> simp [Server.queueLength, hfree]
    | receiving | pushing | done =>
      rw [hpc] at hkind
      cases hkind
    | terminating job i | joining job i =>
      rw [hpc, ReceiverPc.kind] at hkind
      split at hkind <;> cases hkind
  | slave i =>
    show (slaveStep s i).isSome = true ↔ _
    replace hkind : (s.slaves i).kind = .pop q := hkind
    unfold slaveStep
    cases hpc : s.slaves i with
    | popping =>
      rw [hpc] at hkind
      cases hkind
      cases hfull : s.jobsFull with
      | nil => simp [Server.queueLength, hfull]
      | cons pointer rest => cases pointer <;> simp [Server.queueLength, hfull]
    | collecting | counting | returning | finished =>
      rw [hpc] at hkind
      cases hkind

/-- A thread that pushes does not wait. -/
theorem Server.isSome_of_push {jobs : List (List (BitVec 32))}
    {s : Server m} {a : Actor m} {q : JobQueue} (hkind : s.kind a = .push q) :
    (s.step jobs a).isSome = true := by
  cases a with
  | receiver =>
    show (receiverStep jobs s).isSome = true
    replace hkind : s.receiver.kind = .push q := hkind
    unfold receiverStep
    cases hpc : s.receiver with
    | pushing job => rfl
    | terminating job i =>
      dsimp only
      split <;> rfl
    | popping | receiving | done =>
      rw [hpc] at hkind
      cases hkind
    | joining job i =>
      rw [hpc, ReceiverPc.kind] at hkind
      split at hkind <;> cases hkind
  | slave i =>
    show (slaveStep s i).isSome = true
    replace hkind : (s.slaves i).kind = .push q := hkind
    unfold slaveStep
    cases hpc : s.slaves i with
    | returning job => rfl
    | popping | collecting | counting | finished =>
      rw [hpc] at hkind
      cases hkind

/-- Only slaves that are through are joined, in their order. -/
theorem Server.done_of_join {jobs : List (List (BitVec 32))}
    {s : Server m} {a b : Actor m} (hkind : s.kind a = .join b)
    (hstep : (s.step jobs a).isSome = true) :
    s.kind b = .done := by
  cases a with
  | receiver =>
    replace hstep : (receiverStep jobs s).isSome = true := hstep
    replace hkind : s.receiver.kind = .join b := hkind
    unfold receiverStep at hstep
    cases hpc : s.receiver with
    | joining job i =>
      rw [hpc, ReceiverPc.kind] at hkind
      split at hkind
      · next hi =>
        cases hkind
        by_cases hfin : s.slaves ⟨i, hi⟩ = .finished
        · show (s.slaves ⟨i, hi⟩).kind = .done
          rw [hfin]
          rfl
        · simp [hpc, dif_pos hi, if_neg hfin] at hstep
      · cases hkind
    | terminating job i =>
      rw [hpc, ReceiverPc.kind] at hkind
      split at hkind <;> cases hkind
    | popping | receiving | pushing | done =>
      rw [hpc] at hkind
      cases hkind
  | slave i =>
    replace hkind : (s.slaves i).kind = .join b := hkind
    cases hpc : s.slaves i <;> rw [hpc] at hkind <;> cases hkind

/-- **A connection is a program over its two queues.** Nothing else its threads
share makes one of them wait for another, apart from the joins. -/
def connection (jobs : List (List (BitVec 32))) :
    Program (Actor m) JobQueue (Server m) where
  kind := Server.kind
  step := Server.step jobs
  len := Server.queueLength
  isSome_pop _ _ _ := Server.isSome_of_pop
  isSome_push _ _ _ := Server.isSome_of_push
  done_of_join _ _ _ := Server.done_of_join
  len_step s a s' hstep q := by
    cases a with
    | receiver => exact receiverStep_queueLength hstep q
    | slave i => exact slaveStep_queueLength hstep q
  kind_step s a s' hstep b hb := by
    cases a with
    | receiver =>
      cases b with
      | receiver => exact absurd rfl hb
      | slave j =>
        exact congrArg SlavePc.kind (congrFun (receiverStep_slaves hstep) j)
    | slave i =>
      obtain ⟨hreceiver, hslaves⟩ := slaveStep_others hstep
      cases b with
      | receiver => exact congrArg ReceiverPc.kind hreceiver
      | slave j => exact congrArg SlavePc.kind (hslaves j fun h => hb (h ▸ rfl))

end Skt
