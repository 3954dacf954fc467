import Skt.Software.Connection

/-!
# The sketch server

`sketch_tcp_server` as a whole: the main thread starts one thread for each
connection, joins them in turn and merges all the collectors into the first.
Every connection has its own two job queues, its own slaves and its own
collectors; what the connections share is the atomic `itemCount`.

The job queues are those of the source, each a mutex and a condition variable
around a `deque`. Whatever the scheduler does and however often a thread is
woken for no reason, a run of the server is a run with atomic queues, nobody
waits for ever, and when the main thread is through, the merged collector is the
one that a single thread would have collected from all that was received.

The server is put together from its connections. A connection in the server is a
connection of `Skt.Software.JobExchange` with a counter of its own, whose
invariant is used as it is; what one thread adds to the shared counter does not
depend on what is there. And the server is a program over all the queues, so the
three results about `Skt.Lib.Monitor` apply to it.
-/

namespace Skt

open Runs SktCollector Monitor

variable {T m : ℕ}

/-! ## The program -/

/-- The threads of the server: the main thread, and a receiver and slaves for
each connection. The receiver is the thread the main thread has started. -/
inductive ServerThread (T m : ℕ) where
  | main
  | connection (k : Fin T) (a : Actor m)
  deriving DecidableEq

/-- The threads, counted: an optional pair of a connection and an optional
slave. -/
def ServerThread.equiv (T m : ℕ) :
    Option (Fin T × Option (Fin m)) ≃ ServerThread T m where
  toFun
    | none => .main
    | some (k, none) => .connection k .receiver
    | some (k, some i) => .connection k (.slave i)
  invFun
    | .main => none
    | .connection k .receiver => some (k, none)
    | .connection k (.slave i) => some (k, some i)
  left_inv
    | none => rfl
    | some (_, none) => rfl
    | some (_, some _) => rfl
  right_inv
    | .main => rfl
    | .connection _ .receiver => rfl
    | .connection _ (.slave _) => rfl

instance : Fintype (ServerThread T m) :=
  Fintype.ofEquiv _ (ServerThread.equiv T m)

/-- The number of threads, which enters the bound on the length of a run. -/
theorem ServerThread.card :
    Fintype.card (ServerThread T m) = T * (m + 1) + 1 := by
  rw [← Fintype.card_congr (ServerThread.equiv T m)]
  simp only [Fintype.card_option, Fintype.card_prod, Fintype.card_fin]

/-- The control point of the main thread, after it has started the others: it
joins them in their order, and then merges. -/
inductive MainPc where
  /-- at `t.join()`, with `k` threads joined -/
  | joining (k : ℕ)
  /-- at the loop that merges `collectors[i]` into `collectors[0]` -/
  | compacting
  /-- after the loop, with `collectors[0]` -/
  | done (master : SktCollector)

/-- The state of the server. The connections share `itemCount`, and what a
connection has in its own field is of no account. -/
structure SketchServer (T m : ℕ) where
  /-- The statement of the main thread. -/
  main : MainPc
  /-- The connections, each with its queues, its buffers and its threads. -/
  connections : Fin T → Server m
  /-- `itemCount`, to which the slaves of all connections add. -/
  itemCount : BitVec 64

/-- **The state in which the server starts**, with all threads started and
nothing received. -/
def SketchServer.init (h : HashE) (pool : Fin T → Buffer m → List (BitVec 32)) :
    SketchServer T m where
  main := .joining 0
  connections k := Server.init h (pool k) 0
  itemCount := 0

/-- The vector `collectors`, connection by connection, as `main` indexes it and
hands it out to the connections in pieces. -/
def SketchServer.collectors (s : SketchServer T m) : List SktCollector :=
  (List.ofFn fun k => List.ofFn (s.connections k).collectors).flatten

/-- A connection with the value of `itemCount` it sees, which is the shared
one. -/
def SketchServer.view (s : SketchServer T m) (k : Fin T) : Server m :=
  { s.connections k with itemCount := s.itemCount }

/-- A connection goes on: its part of the state changes, and the shared
counter. -/
def SketchServer.update (s : SketchServer T m) (k : Fin T)
    (c : Server m) : SketchServer T m :=
  { s with
    connections := Function.update s.connections k c
    itemCount := c.itemCount }

/-- A move of the main thread. When it merges, all other threads are through, so
the loop is one move. A merge that threw would leave it without a move. -/
def SketchServer.mainStep (s : SketchServer T m) : Option (SketchServer T m) :=
  match s.main with
  | .joining k =>
    if h : k < T then
      match (s.connections ⟨k, h⟩).receiver with
      | .done _ => some { s with main := .joining (k + 1) }
      | _ => none
    else some { s with main := .compacting }
  | .compacting => (compact s.collectors).map fun master =>
    { s with main := .done master }
  | .done _ => none

/-- **One move of one thread** of the server, whose `k`-th connection delivers
`jobs k`. -/
def SketchServer.step (jobs : Fin T → List (List (BitVec 32)))
    (s : SketchServer T m) :
    ServerThread T m → Option (SketchServer T m)
  | .main => s.mainStep
  | .connection k a => ((s.view k).step (jobs k) a).map (s.update k)

/-- What a thread of a connection does next, as a thread of the server. The
queues of different connections are different queues. -/
def connectionKind (k : Fin T) : Kind (Actor m) JobQueue → Kind
    (ServerThread T m) (Fin T × JobQueue)
  | .pop q => .pop (k, q)
  | .push q => .push (k, q)
  | .move => .move
  | .join a => .join (.connection k a)
  | .done => .done

/-- What a thread of the server does next. The main thread joins the receivers
in their order. -/
def SketchServer.kind (s : SketchServer T m) :
    ServerThread T m → Kind (ServerThread T m) (Fin T × JobQueue)
  | .main =>
    match s.main with
    | .joining k => if h : k < T then .join
      (.connection ⟨k, h⟩ .receiver) else .move
    | .compacting => .move
    | .done _ => .done
  | .connection k a => connectionKind k ((s.connections k).kind a)

/-- The length of a queue, by connection and by its name there. -/
def SketchServer.queueLength (s : SketchServer T m)
    (q : Fin T × JobQueue) : ℕ :=
  (s.connections q.1).queueLength q.2

/-! ## The server as a program over its queues

The conditions of `Program` are those of the connection the thread belongs to,
and the main thread touches no queue. -/

/-- A move of the main thread leaves the connections where they are: it waits
for them and reads their collectors. -/
theorem SketchServer.connections_mainStep {s s' : SketchServer T m}
    (h : s.mainStep = some s') :
    s'.connections = s.connections ∧ s'.itemCount = s.itemCount := by
  unfold SketchServer.mainStep at h
  split at h
  · split at h
    · split at h <;> cases h
      exact ⟨rfl, rfl⟩
    · cases h
      exact ⟨rfl, rfl⟩
  · obtain ⟨master, -, rfl⟩ := Option.map_eq_some_iff.mp h
    exact ⟨rfl, rfl⟩
  · cases h

/-- The main thread neither pops nor pushes, and so is never asleep on a
queue. -/
theorem SketchServer.kind_main (s : SketchServer T m) (q : Fin T × JobQueue) :
    s.kind .main ≠ .pop q ∧ s.kind .main ≠ .push q := by
  unfold SketchServer.kind
  cases s.main with
  | joining k =>
    dsimp only
    split <;> exact ⟨nofun, nofun⟩
  | compacting | done => exact ⟨nofun, nofun⟩

/-- A thread of a connection pops from the queues of its connection only, which
it was started with. -/
theorem connectionKind_eq_pop {k : Fin T} {kind : Kind (Actor m) JobQueue}
    {q : Fin T × JobQueue} :
    connectionKind k kind = .pop q ↔ k = q.1 ∧ kind = .pop q.2 := by
  obtain ⟨k', q⟩ := q
  cases kind <;> simp [connectionKind]

/-- A thread of a connection pushes onto the queues of its connection only. -/
theorem connectionKind_eq_push {k : Fin T} {kind : Kind (Actor m) JobQueue}
    {q : Fin T × JobQueue} :
    connectionKind k kind = .push q ↔ k = q.1 ∧ kind = .push q.2 := by
  obtain ⟨k', q⟩ := q
  cases kind <;> simp [connectionKind]

/-- What the queue operations of a connection do to the lengths, of its own
queues and of all others. -/
theorem SketchServer.queueLength_update {jobs : List (List (BitVec 32))}
    {s : SketchServer T m} {k : Fin T} {a : Actor m} {c : Server m}
    (h : (s.view k).step jobs a = some c) (q : Fin T × JobQueue) :
    (s.update k c).queueLength q
        + (if connectionKind k ((s.connections k).kind a)
          = .pop q then 1 else 0)
      = s.queueLength q
        + (if connectionKind k ((s.connections k).kind a)
          = .push q then 1 else 0) := by
  have hlen := (connection jobs).len_step _ a _ h q.2
  simp only [connectionKind_eq_pop, connectionKind_eq_push]
  by_cases hq : k = q.1
  · subst hq
    simp only [true_and]
    show (Function.update s.connections q.1 c q.1).queueLength q.2 + _ = _
    rw [Function.update_self]
    exact hlen
  · simp only [hq, false_and, if_false]
    show (Function.update s.connections k c q.1).queueLength q.2 + _ = _
    rw [Function.update_of_ne (Ne.symm hq)]
    rfl

/-- **The server is a program over its queues**, two for each connection. -/
def sketchServer (jobs : Fin T → List (List (BitVec 32))) :
    Program (ServerThread T m) (Fin T × JobQueue) (SketchServer T m) where
  kind := SketchServer.kind
  step := SketchServer.step jobs
  len := SketchServer.queueLength
  isSome_pop s t q hkind := by
    cases t with
    | main => exact absurd hkind (s.kind_main q).1
    | connection k a =>
      obtain ⟨rfl, hpop⟩ := connectionKind_eq_pop.mp hkind
      show (Option.map _ _).isSome = true ↔ _
      rw [Option.isSome_map]
      exact (connection (jobs q.1)).isSome_pop (s.view q.1) a q.2 hpop
  isSome_push s t q hkind := by
    cases t with
    | main => exact absurd hkind (s.kind_main q).2
    | connection k a =>
      obtain ⟨rfl, hpush⟩ := connectionKind_eq_push.mp hkind
      show (Option.map _ _).isSome = true
      rw [Option.isSome_map]
      exact (connection (jobs q.1)).isSome_push (s.view q.1) a q.2 hpush
  done_of_join s t u hkind hstep := by
    cases t with
    | main =>
      unfold SketchServer.kind at hkind
      replace hstep : s.mainStep.isSome = true := hstep
      unfold SketchServer.mainStep at hstep
      cases hmain : s.main with
      | joining k =>
        simp only [hmain] at hkind hstep
        by_cases hk : k < T
        · rw [dif_pos hk] at hkind hstep
          cases hkind
          show connectionKind _ (s.connections ⟨k, hk⟩).receiver.kind = .done
          split at hstep
          · next hdone =>
            rw [hdone]
            rfl
          · cases hstep
        · rw [dif_neg hk] at hkind
          cases hkind
      | compacting | done =>
        simp only [hmain] at hkind
        cases hkind
    | connection k a =>
      replace hkind : connectionKind k ((s.connections k).kind a)
        = .join u := hkind
      replace hstep :
        (Option.map (s.update k) ((s.view k).step (jobs k) a)).isSome
          = true := hstep
      rw [Option.isSome_map] at hstep
      cases hjoin : (s.connections k).kind a with
      | join b =>
        rw [hjoin] at hkind
        cases hkind
        exact congrArg (connectionKind k)
          ((connection (jobs k)).done_of_join (s.view k) a b hjoin hstep)
      | pop | push | move | done =>
        rw [hjoin] at hkind
        cases hkind
  len_step s t s' hstep q := by
    cases t with
    | main =>
      rw [if_neg (s.kind_main q).1, if_neg (s.kind_main q).2]
      show (s'.connections q.1).queueLength q.2 + 0 = _
      rw [(SketchServer.connections_mainStep hstep).1]
      rfl
    | connection k a =>
      obtain ⟨c, hc, rfl⟩ := Option.map_eq_some_iff.mp hstep
      exact SketchServer.queueLength_update hc q
  kind_step s t s' hstep u hu := by
    cases t with
    | main =>
      cases u with
      | main => exact absurd rfl hu
      | connection k a =>
        show connectionKind k ((s'.connections k).kind a) = _
        rw [(SketchServer.connections_mainStep hstep).1]
        rfl
    | connection k a =>
      obtain ⟨c, hc, rfl⟩ := Option.map_eq_some_iff.mp hstep
      cases u with
      | main => rfl
      | connection k' b =>
        show connectionKind k'
          ((Function.update s.connections k c k').kind b) = _
        by_cases hk : k' = k
        · subst hk
          rw [Function.update_self]
          exact congrArg (connectionKind k')
            ((connection (jobs k')).kind_step _ a _ hc b fun h => hu (h ▸ rfl))
        · rw [Function.update_of_ne hk]
          rfl

/-! ## The invariant -/

/-- How many connections the main thread has joined. Behind its loop it is all
of them. -/
def MainPc.joined (T : ℕ) : MainPc → ℕ
  | .joining k => k
  | .compacting | .done _ => T

/-- **The invariant of the server**: every connection, by its own count of
items, is as it would be without the others, the counts add up to `itemCount`,
and the main thread merges when all connections have ended. -/
structure SketchServer.Sound
    (jobs : Fin T → List (List (BitVec 32))) (h : HashE)
    (s : SketchServer T m) : Prop where
  /-- Every connection is sound with a count of its own, and the counts add up
  to the shared one, modulo `2 ^ 64` as `itemCount` is. -/
  connections : ∃ own : Fin T → BitVec 64, s.itemCount = ∑ k, own k
    ∧ ∀ k, Server.Sound (jobs k) h 0 { s.connections k with itemCount := own k }
  /-- A connection that was joined is through. -/
  joined : ∀ k : Fin T, k.val < s.main.joined T →
    ∃ job, (s.connections k).receiver = .done job
  /-- At the end the master holds the merge of all collectors. -/
  master : ∀ master, s.main = .done master → compact s.collectors = some master

/-- The receiver has nothing to do with `itemCount`. -/
theorem receiverStep_itemCount (jobs : List (List (BitVec 32)))
    (s : Server m) (c : BitVec 64) :
    receiverStep jobs { s with itemCount := c }
      = (receiverStep jobs s).map fun s' =>
        { s' with itemCount := c + (s'.itemCount - s.itemCount) } := by
  unfold receiverStep
  dsimp only
  cases s.receiver with
  | popping => cases s.jobsFree <;> simp
  | receiving job => cases jobs[s.received]? <;> simp
  | pushing job => simp
  | terminating job i =>
    by_cases hi : i < m <;> simp [hi]
  | joining job i =>
    by_cases hi : i < m
    · by_cases hfin : s.slaves ⟨i, hi⟩ = .finished <;> simp [hi, hfin]
    · simp [hi]
  | done job => rfl

/-- What a slave adds to `itemCount` does not depend on what is there, since the
addition is atomic and its result is not used. -/
theorem slaveStep_itemCount (s : Server m) (i : Fin m) (c : BitVec 64) :
    slaveStep { s with itemCount := c } i
      = (slaveStep s i).map fun s' =>
        { s' with itemCount := c + (s'.itemCount - s.itemCount) } := by
  unfold slaveStep
  dsimp only
  cases s.slaves i with
  | popping =>
    cases s.jobsFull with
    | nil => rfl
    | cons pointer rest => cases pointer <;> simp
  | collecting job k =>
    dsimp only
    cases (s.pool job)[k]? <;> simp
  | counting job => simp [add_sub_cancel_left]
  | returning job => simp
  | finished => rfl

/-- **What a thread adds to `itemCount` does not depend on what is there.** So a
connection moves in the same way with any counter. -/
theorem Server.step_itemCount {jobs : List (List (BitVec 32))}
    {s s' : Server m} {a : Actor m} (hstep : s.step jobs a = some s')
    (c : BitVec 64) :
    Server.step jobs { s with itemCount := c } a
      = some { s' with itemCount := c + (s'.itemCount - s.itemCount) } := by
  cases a with
  | receiver =>
    replace hstep : receiverStep jobs s = some s' := hstep
    show receiverStep jobs _ = _
    rw [receiverStep_itemCount, hstep]
    rfl
  | slave i =>
    replace hstep : slaveStep s i = some s' := hstep
    show slaveStep _ i = _
    rw [slaveStep_itemCount, hstep]
    rfl

namespace SketchServer.Sound

variable {jobs : Fin T → List (List (BitVec 32))} {h : HashE}
    {s : SketchServer T m}

/-- At the start nothing has happened: every count is zero. -/
theorem init (pool : Fin T → Buffer m → List (BitVec 32)) :
    (SketchServer.init h pool).Sound jobs h where
  connections :=
    ⟨fun _ =>
      0, by rw [Finset.sum_const_zero]; rfl, fun k => Server.Sound.init (pool
        k)⟩
  joined k hk := absurd hk (Nat.not_lt_zero _)
  master _ := nofun

/-- A connection the main thread has joined has ended, all its slaves
included. -/
theorem finished (hs : s.Sound jobs h) {k : Fin T}
    (hk : k.val < s.main.joined T) :
    (s.connections k).Finished := by
  obtain ⟨own, -, hsound⟩ := hs.connections
  obtain ⟨job, hdone⟩ := hs.joined k hk
  exact (hsound k).finished_of_done hdone

/-- **A connection goes on**: by its own count it goes on as if it were alone.
The others are not touched, and the shared counter grows by as much as its
own. -/
theorem update (hs : s.Sound jobs h) {k : Fin T} {a : Actor m} {c : Server m}
    (hstep : (s.view k).step (jobs k) a = some c) :
    (s.update k c).Sound jobs h := by
  have hrunning : ¬ (s.view k).Finished := fun hfin => by
    rw [hfin.step_eq_none] at hstep
    cases hstep
  have hjoined : ¬ k.val < s.main.joined T := fun hk =>
    hrunning (hs.finished hk)
  obtain ⟨own, hsum, hsound⟩ := hs.connections
  refine ⟨⟨Function.update own k (own k + (c.itemCount - s.itemCount)), ?_,
    fun j => ?_⟩,
    fun j hj => ?_, fun master hmaster => ?_⟩
  · have hupdate := sum_update (fun x : BitVec 64 => x) own
      k (own k + (c.itemCount - s.itemCount))
    rw [← hsum] at hupdate
    show c.itemCount = _
    refine add_right_cancel (b := own k) ?_
    rw [hupdate]
    abel
  · show Server.Sound (jobs j) h 0 { Function.update s.connections k c j with
      itemCount := Function.update own k
        (own k + (c.itemCount - s.itemCount)) j }
    by_cases hj : j = k
    · subst hj
      simp only [Function.update_self]
      exact (hsound j).step (Server.step_itemCount hstep (own j))
    · simp only [Function.update_of_ne hj]
      exact hsound j
  · have hjk : j ≠ k := fun h => hjoined (h ▸ hj)
    show ∃ job, (Function.update s.connections k c j).receiver = .done job
    rw [Function.update_of_ne hjk]
    exact hs.joined j hj
  · -- when the main thread has merged, no connection goes on
    refine absurd ?_ hjoined
    replace hmaster : s.main = .done master := hmaster
    rw [hmaster]
    exact k.isLt

/-- **Every move keeps the invariant**, and the moves of one connection do not
concern the others but for the shared counter. -/
theorem step (hs : s.Sound jobs h) {t : ServerThread T m}
    {s' : SketchServer T m}
    (hstep : s.step jobs t = some s') : s'.Sound jobs h := by
  cases t with
  | connection k a =>
    obtain ⟨c, hc, rfl⟩ := Option.map_eq_some_iff.mp hstep
    exact hs.update hc
  | main =>
    replace hstep : s.mainStep = some s' := hstep
    unfold SketchServer.mainStep at hstep
    cases hmain : s.main with
    | joining k =>
      simp only [hmain] at hstep
      have hjoined := hs.joined
      rw [hmain] at hjoined
      split at hstep
      · next hk =>
        split at hstep
        · next job hdone =>
          cases hstep
          refine ⟨hs.connections, fun j hj => ?_, fun _ => nofun⟩
          rcases Nat.lt_succ_iff_lt_or_eq.mp hj with hj | hj
          · exact hjoined j hj
          · have hjk : j = ⟨k, hk⟩ := Fin.ext hj
            exact ⟨job, hjk ▸ hdone⟩
        · cases hstep
      · next hk =>
        cases hstep
        exact ⟨hs.connections, fun j _ =>
          hjoined j (j.isLt.trans_le (Nat.not_lt.mp hk)),
          fun _ => nofun⟩
    | compacting =>
      simp only [hmain] at hstep
      obtain ⟨master, hmaster, rfl⟩ := Option.map_eq_some_iff.mp hstep
      have hjoined := hs.joined
      rw [hmain] at hjoined
      refine ⟨hs.connections, hjoined, fun master' h => ?_⟩
      cases h
      exact hmaster
    | done master =>
      simp only [hmain] at hstep
      cases hstep

end SketchServer.Sound

/-- **The invariant holds in every reachable state**, by induction on the
moves. -/
theorem SketchServer.sound_of_reachable
    {jobs : Fin T → List (List (BitVec 32))} {h : HashE}
    {pool : Fin T → Buffer m → List (BitVec 32)} {s : SketchServer T m}
    (hs : Reachable (SketchServer.step jobs) (SketchServer.init h pool) s) :
    s.Sound jobs h :=
  hs.invariant (.init pool) fun _ _ _ hs h => hs.step h

/-! ## The runs end -/

/-- All threads are through. Those of the connections are when the main thread
is, and none is on its way out of a queue operation. -/
def SketchServer.Through
    (s : State (ServerThread T m) (Fin T × JobQueue) (SketchServer T m)) :
    Prop :=
  (∃ master, s.prog.main = .done master) ∧ ∀ t, s.ctl t = .outside

/-- **Merging collectors that hold something** yields one that holds it all, in
whatever tree they are merged. -/
theorem compact_of_holds {c : SktCollector}
    {L : List (SktCollector × Multiset (BitVec 32))} (hne : L ≠ [])
    (hL : ∀ x ∈ L, x.1.SameConfig c ∧ x.1.Holds x.2) :
    ∃ x, compact (L.map Prod.fst) = some x ∧ x.SameConfig c
      ∧ x.Holds (L.map Prod.snd).sum := by
  obtain ⟨x, rest, rfl⟩ := List.exists_cons_of_ne_nil hne
  obtain ⟨hcfg, hholds⟩ := hL x List.mem_cons_self
  exact compact_holds hcfg hholds rest fun r hr =>
    hL r (List.mem_cons_of_mem _ hr)

/-- The items of a family of lists, together. -/
theorem sum_coe_ofFn {α : Type*} (f : Fin T → List α) :
    ∑ k, (f k : Multiset α) = ((List.ofFn f).flatten : Multiset α) := by
  rw [← Multiset.coe_join, Multiset.join, Multiset.sum_coe,
    List.map_ofFn, List.sum_ofFn]
  rfl

namespace SketchServer.Sound

variable {jobs : Fin T → List (List (BitVec 32))} {h : HashE}
    {s : SketchServer T m}

/-- **What the server computes**: when all connections have ended, the
collectors merge into the one that a single thread would have collected, and
`itemCount` counts the items. -/
theorem result (hs : s.Sound jobs h) (hT : 0 < T) (hm : 0 < m)
    (hfin : ∀ k, (s.connections k).Finished) :
    compact s.collectors
      = some ((freshCollector h).collect (List.ofFn jobs).flatten.flatten)
      ∧ s.itemCount
        = BitVec.ofNat 64 (List.ofFn jobs).flatten.flatten.length := by
  obtain ⟨own, hsum, hsound⟩ := hs.connections
  have hresult := fun k => (hsound k).result hm (hfin k)
  choose hD hcount using hresult
  choose D hitems hholds using hD
  have hall : ∑ k, ∑ i,
    D k i = ((List.ofFn jobs).flatten.flatten : Multiset (BitVec 32)) := by
    rw [Finset.sum_congr rfl fun k _ => hitems k, sum_coe_ofFn,
      List.flatten_flatten, List.map_ofFn]
    rfl
  constructor
  · set L := (List.ofFn fun k => List.ofFn fun i =>
      ((s.connections k).collectors i, D k i)).flatten with hL
    have hfst : L.map Prod.fst = s.collectors := by
      rw [hL, List.map_flatten, List.map_ofFn]
      unfold SketchServer.collectors
      congr 2
      funext k
      exact List.map_ofFn
    have hsnd : (L.map Prod.snd).sum = ∑ k, ∑ i, D k i := by
      rw [hL, List.map_flatten, List.sum_flatten, List.map_ofFn,
        List.map_ofFn, List.sum_ofFn]
      refine Finset.sum_congr rfl fun k _ => ?_
      show (List.map Prod.snd (List.ofFn _)).sum = _
      rw [List.map_ofFn, List.sum_ofFn]
      rfl
    have hmem : ∀ x ∈ L, x.1.SameConfig (freshCollector h) ∧ x.1.Holds x.2 := by
      intro x hx
      obtain ⟨l, hl, hx⟩ := List.mem_flatten.mp hx
      obtain ⟨k, rfl⟩ := (List.mem_ofFn' _ _).mp hl
      obtain ⟨i, rfl⟩ := (List.mem_ofFn' _ _).mp hx
      exact hholds k i
    have hfirst : ((s.connections ⟨0, hT⟩).collectors ⟨0, hm⟩,
      D ⟨0, hT⟩ ⟨0, hm⟩) ∈ L :=
      List.mem_flatten.mpr ⟨_, (List.mem_ofFn' _ _).mpr ⟨⟨0, hT⟩, rfl⟩,
        (List.mem_ofFn' _ _).mpr ⟨⟨0, hm⟩, rfl⟩⟩
    obtain ⟨x, hx, hcfg, hD⟩ :=
      compact_of_holds (List.ne_nil_of_mem hfirst) hmem
    rw [hfst] at hx
    rw [hsnd, hall] at hD
    obtain ⟨hcfg', hD'⟩ := freshCollector_holds h
      (List.ofFn jobs).flatten.flatten
    rw [hx, hD.eq hD' (hcfg.trans hcfg'.symm)]
  · have hlen := congrArg Multiset.card hall
    rw [Finset.sum_congr rfl fun k _ => hitems k, Multiset.card_sum,
      Multiset.coe_card] at hlen
    rw [hsum, ← hlen]
    refine (Finset.sum_congr rfl fun k _ => ?_).trans
      (Nat.cast_sum (R := BitVec 64) Finset.univ _).symm
    have hk := hcount k
    rwa [zero_add] at hk

/-- **Nobody waits for ever**: while the main thread is not through, some thread
can move. It is the main thread itself, or one of the connection it waits
for. -/
theorem enabled (hs : s.Sound jobs h) (hT : 0 < T) (hm : 0 < m)
    (hmain : ∀ master, s.main ≠ .done master) :
    ∃ t, (s.step jobs t).isSome = true := by
  by_cases hfin : ∀ k, (s.connections k).Finished
  · refine ⟨.main, ?_⟩
    show s.mainStep.isSome = true
    unfold SketchServer.mainStep
    cases hpc : s.main with
    | joining k =>
      dsimp only
      split
      · next hk =>
        obtain ⟨⟨job, hdone⟩, -⟩ := hfin ⟨k, hk⟩
        rw [hdone]
        rfl
      · rfl
    | compacting =>
      dsimp only
      rw [(hs.result hT hm hfin).1]
      rfl
    | done master => exact absurd hpc (hmain master)
  · obtain ⟨k, hk⟩ := not_forall.mp hfin
    obtain ⟨own, -, hsound⟩ := hs.connections
    obtain ⟨a, ha⟩ := (hsound k).enabled hm hk
    obtain ⟨c, hc⟩ := Option.isSome_iff_exists.mp ha
    refine ⟨.connection k a, ?_⟩
    show (Option.map (s.update k) (Server.step (jobs k) _ a)).isSome = true
    rw [SketchServer.view, Server.step_itemCount hc s.itemCount]
    rfl

end SketchServer.Sound

/-! ### How far the server can still go

The measure of the server is that of its main thread and those of all its
connections. -/

/-- The moves that are left to the main thread. -/
def MainPc.toGo (T : ℕ) : MainPc → ℕ
  | .joining k => T - k + 2
  | .compacting => 1
  | .done _ => 0

/-- How far the server can still go: the moves of its connections and of the
main thread. -/
def SketchServer.toGo (jobs : Fin T → List (List (BitVec 32)))
    (s : SketchServer T m) : ℕ :=
  s.main.toGo T + ∑ k, (s.connections k).toGo (jobs k)

/-- **Every move takes the server forward**, by a move of the connection it is
made in or of the main thread. -/
theorem SketchServer.Sound.toGo_lt
    {jobs : Fin T → List (List (BitVec 32))} {h : HashE}
    {s s' : SketchServer T m} (hs : s.Sound jobs h) {t : ServerThread T m}
    (hstep : s.step jobs t = some s') : s'.toGo jobs < s.toGo jobs := by
  cases t with
  | connection k a =>
    obtain ⟨c, hc, rfl⟩ := Option.map_eq_some_iff.mp hstep
    obtain ⟨own, -, hsound⟩ := hs.connections
    have hlt : c.toGo (jobs k) < (s.connections k).toGo (jobs k) := by
      have hown := (hsound k).toGo_lt (Server.step_itemCount hc (own k))
      exact hown
    refine Nat.add_lt_add_left
      (Finset.sum_lt_sum (fun j _ => ?_) ⟨k, Finset.mem_univ k, ?_⟩) _
    · show (Function.update s.connections k c j).toGo (jobs j) ≤ _
      by_cases hj : j = k
      · subst hj
        rw [Function.update_self]
        exact hlt.le
      · rw [Function.update_of_ne hj]
    · show (Function.update s.connections k c k).toGo (jobs k) < _
      rw [Function.update_self]
      exact hlt
  | main =>
    have hconnections := (SketchServer.connections_mainStep hstep).1
    refine lt_of_eq_of_lt (congrArg (s'.main.toGo T + ·) ?_)
      (Nat.add_lt_add_right ?_ _)
    · rw [hconnections]
    · replace hstep : s.mainStep = some s' := hstep
      unfold SketchServer.mainStep at hstep
      cases hmain : s.main with
      | joining k =>
        simp only [hmain] at hstep
        split at hstep
        · split at hstep <;> cases hstep
          simp only [MainPc.toGo]
          omega
        · cases hstep
          simp only [MainPc.toGo]
          omega
      | compacting =>
        simp only [hmain] at hstep
        obtain ⟨master, -, rfl⟩ := Option.map_eq_some_iff.mp hstep
        exact Nat.zero_lt_one
      | done master =>
        simp only [hmain] at hstep
        cases hstep

/-- How far the server can go from its start, with atomic queues. -/
theorem SketchServer.toGo_init
    (jobs : Fin T → List (List (BitVec 32))) (h : HashE)
    (pool : Fin T → Buffer m → List (BitVec 32)) :
    (SketchServer.init h pool).toGo jobs
      = ∑ k, jobsToGo (jobs k) + (T * (3 * m + 5) + 2) := by
  have hconnections : ∀ k, (Server.init h (pool k) 0).toGo (jobs k)
      = jobsToGo (jobs k) + (3 * m + 4) := fun k => Server.toGo_init _ h _ 0
  show T - 0 + 2 + ∑ k, (Server.init h (pool k) 0).toGo (jobs k) = _
  simp only [hconnections, Finset.sum_add_distrib,
    Finset.sum_const, Finset.card_univ,
    Fintype.card_fin, smul_eq_mul, Nat.mul_add]
  omega

/-! ## The results

They are about the implementation, with a mutex and a condition variable for
every queue, and each of them is the corresponding fact about atomic queues,
carried over by the results of `Skt.Lib.Monitor`. -/

section Results

variable (jobs : Fin T → List (List (BitVec 32))) (h : HashE)
  (pool : Fin T → Buffer m → List (BitVec 32))

/-- **The job queues behave as queues.** In every run of the server, with any
wake-ups for no reason: the state is one that is reached with atomic queues, no
two threads have the mutex of one queue, and every buffer of every connection is
in exactly one of `jobsFree`, `jobsFull`, the receiver's hand and one slave's
hand. -/
theorem jobQueues_refine
    {s : State (ServerThread T m) (Fin T × JobQueue) (SketchServer T m)}
    (hs : Reachable (sketchServer jobs).implStep
      (State.init (SketchServer.init h pool)) s) :
    Reachable (SketchServer.step jobs) (SketchServer.init h pool) s.prog
      ∧ (∀ t u q, (s.ctl t).owns = some q → (s.ctl u).owns = some q → t = u)
      ∧ ∀ k job, (s.prog.connections k).jobsFree.count job
          + (s.prog.connections k).jobsFull.count (some job)
          + (if (s.prog.connections k).receiver.holds job then 1 else 0)
          + (Finset.univ.filter fun i =>
            ((s.prog.connections k).slaves i).holds job).card = 1 := by
  have hprog := (sketchServer jobs).reachable_prog hs
  have hsound := (sketchServer jobs).sound_of_reachable hs
  refine ⟨hprog, fun t u q ht hu => hsound.owner.unique hu ht, fun k job => ?_⟩
  obtain ⟨own, -, hconnections⟩ :=
    (SketchServer.sound_of_reachable hprog).connections
  exact (hconnections k).count_eq_one job

/-- One connection with two slaves and two jobs. Both slaves sleep on `jobsFull`
before a job is there, one of them after it has been woken for no reason; the
receiver wakes each of them for a job, and they collect at the same time. When
the connection is closed, the first sleeps again and is woken for its null
pointer, and the second finds its own in the queue. -/
def twoJobsServerRun : List (Monitor.Actor (ServerThread 1 2)) :=
  let zero : Fin 1 := ⟨0, Nat.one_pos⟩
  let one : ServerThread 1 2 := .connection zero (.slave ⟨0, Nat.two_pos⟩)
  let two : ServerThread 1 2 := .connection zero (.slave ⟨1, Nat.one_lt_two⟩)
  let receiver := Monitor.Actor.thread
    (ServerThread.connection zero .receiver) none
  let first := Monitor.Actor.thread one none
  let second := Monitor.Actor.thread two none
  [first, first, first, .spurious one, first, first, second, second, second]
    ++ List.replicate 10 receiver
      ++ [.thread (.connection zero .receiver) (some one)]
    ++ List.replicate 10 receiver
      ++ [.thread (.connection zero .receiver) (some two)]
    ++ List.replicate 7 second ++ List.replicate 12 first
      ++ List.replicate 5 second
    ++ List.replicate 3 first
    ++ List.replicate 10 receiver
      ++ [.thread (.connection zero .receiver) (some one)]
    ++ List.replicate 6 receiver ++ List.replicate 5 second
      ++ List.replicate 4 first
    ++ List.replicate 3 receiver ++ List.replicate 3 (.thread .main none)

/-- Whether all threads are through, by evaluation. The collector at the end is
not compared with anything, so it need not be computed. -/
def SketchServer.through {T m : ℕ}
    (s : State (ServerThread T m) (Fin T × JobQueue) (SketchServer T m)) :
    Bool :=
  (match s.prog.main with
    | .done _ => true
    | _ => false) && decide (∀ t, s.ctl t = .outside)

/-- The evaluation is right: what it returns is the state a run leads to, with
every thread through. -/
theorem SketchServer.through_sound {T m : ℕ}
    {s : State (ServerThread T m) (Fin T × JobQueue) (SketchServer T m)}
    (h : SketchServer.through s = true) : SketchServer.Through s := by
  obtain ⟨hmain, hctl⟩ := Bool.and_eq_true_iff.mp h
  refine ⟨?_, of_decide_eq_true hctl⟩
  split at hmain
  · next master heq => exact ⟨master, heq⟩
  · cases hmain

/-- The run ends with all threads through. It is checked by executing it. -/
theorem twoJobsServerRun_reachable :
    ∃ s, Reachable (sketchServer fun _ : Fin 1 => [[0#32], [1#32]]).implStep
      (State.init (SketchServer.init .murmur3_128 fun _ _ => [])) s
    ∧ SketchServer.Through (T := 1) (m := 2) s := by
  have hrun : ((twoJobsServerRun.foldlM
      (sketchServer fun _ : Fin 1 => [[0#32], [1#32]]).implStep
      (State.init (SketchServer.init .murmur3_128 fun _ _ => []))).any
        SketchServer.through) = true := by decide +kernel
  obtain ⟨s, hs, hthrough⟩ := (Option.any_eq_true _ _).mp hrun
  exact ⟨s, .foldlM .init hs, SketchServer.through_sound hthrough⟩

/-- The run of two slaves and two jobs, and its buffers at the end. -/
theorem jobQueues_refine_instance :
    ∃ s : State (ServerThread 1 2) (Fin 1 × JobQueue) (SketchServer 1 2),
      SketchServer.Through s
      ∧ Reachable (SketchServer.step fun _ : Fin 1 => [[0#32], [1#32]])
        (SketchServer.init .murmur3_128 fun _ _ => []) s.prog
      ∧ (∀ t u q, (s.ctl t).owns = some q → (s.ctl u).owns = some q → t = u)
      ∧ ∀ k job, (s.prog.connections k).jobsFree.count job
          + (s.prog.connections k).jobsFull.count (some job)
          + (if (s.prog.connections k).receiver.holds job then 1 else 0)
          + (Finset.univ.filter fun i =>
            ((s.prog.connections k).slaves i).holds job).card = 1 := by
  obtain ⟨s, hs, hthrough⟩ := twoJobsServerRun_reachable
  exact ⟨s, hthrough, jobQueues_refine _ _ _ hs⟩

/-- **The server comes to its end.** In every run, with any wake-ups for no
reason, some thread can move while not all are through; and where nobody is
woken for no reason, a run is bounded by the items and jobs received and the
number of threads. -/
theorem sketchServer_completes (hT : 0 < T) (hm : 0 < m) :
    (∀ s, Reachable (sketchServer jobs).implStep
      (State.init (SketchServer.init h pool)) s →
        ¬ SketchServer.Through s → ∃ t w,
          ((sketchServer jobs).threadStep s t w).isSome = true)
      ∧ ∀ n s, ReachableIn
      (fun s (a : ServerThread T m × Option (ServerThread T m)) =>
          (sketchServer jobs).threadStep s a.1 a.2)
            (State.init (SketchServer.init h pool)) n s →
        n ≤ 8 * (∑ k, jobsToGo (jobs k) + (T * (3 * m + 5) + 2))
          + 3 * (T * (m + 1) + 1) := by
  refine ⟨fun s hs hthrough => ?_, fun n s hs => ?_⟩
  · have himpl := (sketchServer jobs).sound_of_reachable hs
    have hprog := SketchServer.sound_of_reachable
      ((sketchServer jobs).reachable_prog hs)
    by_cases hmain : ∃ master, s.prog.main = .done master
    · -- all threads are through but for the last queue operations
      obtain ⟨master, hmaster⟩ := hmain
      obtain ⟨t, ht⟩ := not_forall.mp fun hout =>
        hthrough ⟨⟨master, hmaster⟩, hout⟩
      refine himpl.enabled_of_inside ht fun q hq => ?_
      have hfits := himpl.fits t
      rw [hq] at hfits
      have hpop : s.prog.kind t = .pop q := hfits
      cases t with
      | main => exact (s.prog.kind_main q).1 hpop
      | connection k a =>
        obtain ⟨⟨job, hdone⟩, hslaves⟩ := hprog.finished (k := k) (by
          rw [hmaster]
          exact k.isLt)
        have hkind := (connectionKind_eq_pop.mp hpop).2
        cases a with
        | receiver =>
          replace hkind : (s.prog.connections k).receiver.kind
            = .pop q.2 := hkind
          rw [hdone] at hkind
          cases hkind
        | slave i =>
          replace hkind : ((s.prog.connections k).slaves i).kind
            = .pop q.2 := hkind
          rw [hslaves i] at hkind
          cases hkind
    · obtain ⟨t, ht⟩ := hprog.enabled hT hm fun master hmaster =>
        hmain ⟨master, hmaster⟩
      exact himpl.enabled ht
  · have hle := (sketchServer jobs).run_le (μ := SketchServer.toGo jobs)
      (fun s t s' hs h => (SketchServer.sound_of_reachable hs).toGo_lt h) hs
    rwa [SketchServer.toGo_init, ServerThread.card] at hle

/-- The bound for one connection with two slaves and two jobs of one item. -/
theorem sketchServer_completes_instance :
    (∀ s, Reachable (sketchServer fun _ : Fin 1 => [[0#32], [1#32]]).implStep
          (State.init (SketchServer.init .murmur3_128 fun _ _ => [])) s →
        ¬ SketchServer.Through (T := 1) (m := 2) s →
        ∃ t w, ((sketchServer fun _ : Fin 1 => [[0#32], [1#32]]).threadStep
          s t w).isSome = true)
      ∧ ∀ n s, ReachableIn
      (fun s (a : ServerThread 1 2 × Option (ServerThread 1 2)) =>
          (sketchServer fun _ : Fin 1 => [[0#32], [1#32]]).threadStep s a.1 a.2)
          (State.init (SketchServer.init .murmur3_128 fun _ _ => [])) n s →
            n ≤ 244 :=
  sketchServer_completes _ _ _ (by decide) (by decide)

/-- **What the server computes.** Whenever the main thread comes through, after
any run of the threads with any wake-ups for no reason, the merged collector is
the one a single thread collects from all the items received, and `itemCount` is
their number.

The counters of the merged collector are words, those of a single thread as
well, so nothing is assumed about the number of items. -/
theorem sketchServer_result (hT : 0 < T) (hm : 0 < m)
    {s : State (ServerThread T m) (Fin T × JobQueue) (SketchServer T m)}
    (hs : Reachable (sketchServer jobs).implStep
      (State.init (SketchServer.init h pool)) s)
    {master : SktCollector} (hmaster : s.prog.main = .done master) :
    master = (freshCollector h).collect (List.ofFn jobs).flatten.flatten
      ∧ s.prog.itemCount
        = BitVec.ofNat 64 (List.ofFn jobs).flatten.flatten.length := by
  have hprog := SketchServer.sound_of_reachable
    ((sketchServer jobs).reachable_prog hs)
  obtain ⟨hcompact, hcount⟩ := hprog.result hT hm fun k => hprog.finished (by
    rw [hmaster]
    exact k.isLt)
  refine ⟨Option.some.inj ?_, hcount⟩
  rw [← hprog.master master hmaster, hcompact]

/-- What the run of two slaves and two jobs computes. -/
theorem sketchServer_result_instance :
    ∃ s : State (ServerThread 1 2) (Fin 1 × JobQueue) (SketchServer 1 2),
      s.prog.main = .done ((freshCollector .murmur3_128).collect [0#32, 1#32])
        ∧ s.prog.itemCount = 2#64 := by
  obtain ⟨s, hs, ⟨master, hmaster⟩, -⟩ := twoJobsServerRun_reachable
  obtain ⟨rfl, hcount⟩ := sketchServer_result _ _ _ (by decide)
    (by decide) hs hmaster
  exact ⟨s, hmaster, hcount⟩

end Results

end Skt
