import Skt.Hardware.Rows

/-!
# A sketch between its lanes and its result

Each of the three sketches of the kernel is a network of rows with something
behind it: folds, a concatenation or an estimator. This module runs such a
sketch on its own. Hashed flits arrive on the lanes, every lane at its own pace,
and the processes are called in any order.

The `Consumer` stands for what is behind the rows, and `Consumer.Lawful` says
what has to be known of it: its equation, which does not see what its inputs
still hold, and that it is through with them when it is idle. Then a sketch is
sound in every run, and enough fair rounds complete its result. For a sketch
there remains to show that its consumer is lawful, and to read its tables.

Fairness is needed here for one thing, and it is asked of rounds: in each of
them every lane and every process has its turn, in any order and any number of
times. A round either changes a stream or finds everything done.
-/

namespace Skt.Hardware

open Streams Runs

/-! ## What is behind the rows

Whatever it is, it reads rows and writes a result. -/

/-- **A consumer of rows**: where it starts, and what a call of one of its
processes does to its state, the rows and its result. The types of processes
`κ`, of states `σ` and of results `τ` are its own. -/
structure Consumer (R : ℕ) (V κ σ τ : Type) where
  /-- Where it starts. -/
  state : σ
  /-- The result at the start, nothing written. -/
  result : τ
  /-- A call of one of its processes. -/
  call : κ → σ → (Fin R → Fifo (Flit V)) → τ → σ × (Fin R → Fifo (Flit V)) × τ

/-- **A consumer that keeps an equation**, on rows that carry given tables. The
equation relates its state and its result to what it has consumed; `complete`
says when it is through, and `size_le` bounds its result. -/
structure Consumer.Lawful {R : ℕ} {V κ σ τ : Type} [Growing τ]
    (c : Consumer R V κ σ τ) (tables : Fin R → List (Flit V))
    (Equation : σ → (Fin R → List (Flit V)) → τ → Prop)
    (Complete : τ → Prop) (bound : ℕ) : Prop where
  /-- The equation holds before anything has been consumed. -/
  start : Equation c.state (fun _ => []) c.result
  /-- Every call keeps the equation, on rows that carry the tables. Only what
  has been consumed appears in it, so that it does not see what arrives. -/
  sound : ∀ k s rows t, (∀ j, (rows j).written <+: tables j) →
    Equation s (fun j => (rows j).consumed) t →
    Equation (c.call k s rows t).1
      (fun j => ((c.call k s rows t).2.1 j).consumed)
      (c.call k s rows t).2.2
  /-- It puts nothing into its rows. -/
  written : ∀ k s rows t j, ((c.call k s rows t).2.1 j).written
    = (rows j).written
  /-- It lets its rows and its result grow. -/
  grows : ∀ k s rows t, (∀ j, Grows (rows j) ((c.call k s rows t).2.1 j))
    ∧ Grows t (c.call k s rows t).2.2
  /-- A call that changes no stream leaves the state as it is, so that another
  one would not do anything either. -/
  idle : ∀ k s rows t, (c.call k s rows t).2 = (rows, t) →
    (c.call k s rows t).1 = s
  /-- When it is idle on rows that have carried their tables, its result is
  complete. -/
  complete : ∀ s rows t, (∀ j, (rows j).written = tables j) →
    Equation s (fun j => (rows j).consumed) t →
      (∀ k, (c.call k s rows t).2 = (rows, t)) →
    Complete t
  /-- A complete result stays complete, since there is no more to be written. -/
  stays : ∀ s rows t t', (∀ j, rows j <+: tables j) →
    Equation s rows t' → Grows t t' →
    Complete t → Complete t'
  /-- Its result is bounded. -/
  size_le : ∀ s rows t, (∀ j, rows j <+: tables j) → Equation s rows t →
    Growing.size t ≤ bound

/-! ## Jobs

A job is given by what each lane carries of it; no funnel deals it out. -/

/-- The flits of a lane, for jobs that come as one list per lane, each framed by
its own `last`. -/
def laneFlits {X : Type*} {N : ℕ} (jobs : List (Fin N → List X))
    (i : Fin N) : List (Flit X) :=
  jobs.flatMap (fun job => frame (job i))

/-- A job over all its lanes, as a multiset: which lane has a flit does not
matter to a sketch. -/
def wholeJob {X : Type*} {N : ℕ} (job : Fin N → List X) : Multiset X :=
  ∑ i, (job i : Multiset X)

section Jobs

variable {X : Type*} {N : ℕ} {jobs : List (Fin N → List X)}

/-- A job has as many flits as its lanes carry. -/
theorem card_wholeJob (job : Fin N → List X) :
    (wholeJob job).card = ∑ i, (job i).length := by
  unfold wholeJob
  rw [Multiset.card_sum]
  rfl

/-- A lane has no more of a job than there is. -/
theorem length_le_card_wholeJob (job : Fin N → List X) (i : Fin N) :
    (job i).length ≤ (wholeJob job).card := by
  rw [card_wholeJob]
  exact Finset.single_le_sum (f := fun i => (job i).length)
    (fun _ _ => Nat.zero_le _)
    (Finset.mem_univ i)

variable (hjobs : ∀ job ∈ jobs, ∀ i, job i ≠ [])
include hjobs

/-- The lanes deal out the jobs, which is all the rows ask of them. -/
theorem dealt_laneFlits : Dealt (jobs.map wholeJob)
    (laneFlits jobs) := dealt_frame hjobs

/-- The jobs of a lane. -/
theorem jobsOf_laneFlits (i : Fin N) :
    jobsOf (laneFlits jobs i) = jobs.map (· i) :=
  jobsOf_lane hjobs i

/-- **What is open on a lane is the beginning of a job of it**, or nothing. So a
bound on the jobs is one on what a collector has in its memory. -/
theorem partOf_take_laneFlits (i : Fin N) (n : ℕ) :
    partOf ((laneFlits jobs i).take n) = []
      ∨ ∃ job ∈ jobs, partOf ((laneFlits jobs i).take n) <+: job i := by
  have htake : (laneFlits jobs i).take n
    <+: (jobs.map (· i)).flatMap frame := by
    rw [List.flatMap_map]
    exact List.take_prefix _ _
  rcases partOf_eq_nil_or_isPrefix (ne_nil_of_mem_lane hjobs i) htake
    with hnil | ⟨l, hl, hpart⟩
  · exact Or.inl hnil
  · obtain ⟨job, hjob, rfl⟩ := List.mem_map.mp hl
    exact Or.inr ⟨job, hjob, hpart⟩

/-- An open job of a lane is no larger than some job. -/
theorem length_partOf_take_laneFlits_lt {m : ℕ}
    (hm : ∀ job ∈ jobs, (wholeJob job).card < m) (h0 : 0 < m) (i : Fin N)
    (n : ℕ) :
    (partOf ((laneFlits jobs i).take n)).length < m := by
  rcases partOf_take_laneFlits hjobs i n with hnil | ⟨job, hjob, hpart⟩
  · rw [hnil]
    exact h0
  · calc (partOf ((laneFlits jobs i).take n)).length
             ≤ (job i).length := hpart.length_le
      _ ≤ (wholeJob job).card := length_le_card_wholeJob job i
      _ < m := hm job hjob

end Jobs

/-! ## Runs

Events, rounds, and the invariant. -/

/-- What can happen in a sketch: a flit arrives on a lane, or a process is
called. -/
inductive SketchEvent (N R : ℕ) (κ : Type) where
  /-- The next flit of a lane arrives. -/
  | arrive (i : Fin N)
  /-- A process of the rows is called. -/
  | row (p : RowProc N R)
  /-- A process behind them is. -/
  | consume (k : κ)

/-- The lanes and processes of a sketch: what must have its turn. A collector is
one task, however many writes a read of its memory misses. -/
inductive SketchTask (N R : ℕ) (κ : Type) where
  | arrive (i : Fin N)
  | row (k : RowTask N R)
  | consume (k : κ)

/-- What an event is about, which is what fairness is asked of. -/
def SketchEvent.task {N R : ℕ} {κ : Type} : SketchEvent N R κ → SketchTask N R κ
  | .arrive i => .arrive i
  | .row p => .row p.task
  | .consume k => .consume k

/-- **Fair rounds**: in every one of them, every lane and every process has its
turn. -/
def FairRounds {N R : ℕ} {κ : Type}
    (rounds : List (List (SketchEvent N R κ))) : Prop :=
  ∀ round ∈ rounds, ∀ k : SketchTask N R κ, ∃ e ∈ round, e.task = k

/-- There are fair rounds, as many as one likes, when what is behind the rows
has finitely many processes. A statement about fair rounds is not empty. -/
theorem exists_fairRounds (N R : ℕ) (κ : Type) [Fintype κ] (n : ℕ) :
    ∃ rounds : List (List (SketchEvent N R κ)), n < rounds.length
      ∧ FairRounds rounds := by
  let collects : List (SketchEvent N R κ) := (List.finRange N).flatMap (fun i =>
    (List.finRange R).map (fun j => SketchEvent.row (.collect i j 0)))
  let round : List (SketchEvent N R κ) :=
    (List.finRange N).map SketchEvent.arrive
      ++ (List.finRange N).map (fun i => SketchEvent.row (.split i)) ++ collects
      ++ (List.finRange R).map (fun j => SketchEvent.row (.reduce j))
      ++ (Finset.univ : Finset κ).toList.map SketchEvent.consume
  refine ⟨List.replicate (n + 1) round, ?_, fun r hr k => ?_⟩
  · rw [List.length_replicate]
    exact Nat.lt_succ_self n
  · rw [List.eq_of_mem_replicate hr]
    cases k with
    | arrive i => exact ⟨.arrive i, by simp [round], rfl⟩
    | row k =>
      cases k with
      | split i => exact ⟨.row (.split i), by simp [round], rfl⟩
      | collect i j =>
        exact ⟨.row (.collect i j 0), by simp [round, collects], rfl⟩
      | reduce j => exact ⟨.row (.reduce j), by simp [round], rfl⟩
    | consume k => exact ⟨.consume k, by simp [round], rfl⟩

/-- A sketch: its rows, what is behind them, and the result. -/
structure SketchRun (N R H w : ℕ) (I V σ τ : Type) where
  rows : Rows N R H w I V
  state : σ
  result : τ

namespace SketchRun

variable {N R H w : ℕ} {I V κ σ τ : Type} [Zero V]

/-- The start, with nothing arrived. -/
def start (c : Consumer R V κ σ τ) : SketchRun N R H w I V σ τ :=
  ⟨.init, c.state, c.result⟩

/-- One event. An arrival brings the next flit of the lane, or nothing when
there is none left. -/
def step (F : RowFunctions R H w I V) (c : Consumer R V κ σ τ)
    (lanes : Fin N → List (Flit (BitVec H))) (r : SketchRun N R H w I V σ τ) :
    SketchEvent N R κ → SketchRun N R H w I V σ τ
  | .arrive i =>
    { r with
      rows := { r.rows with
        hashed := Function.update r.rows.hashed i
          ((r.rows.hashed i).arrive (lanes i)) } }
  | .row p => { r with rows := r.rows.fire F p }
  | .consume k =>
    let p := c.call k r.state r.rows.counts r.result
    ⟨{ r.rows with counts := p.2.1 }, p.1, p.2.2⟩

/-- A run: events in some order. -/
def run (F : RowFunctions R H w I V) (c : Consumer R V κ σ τ)
    (lanes : Fin N → List (Flit (BitVec H)))
    (schedule : List (SketchEvent N R κ))
    (r : SketchRun N R H w I V σ τ) : SketchRun N R H w I V σ τ :=
  schedule.foldl (step F c lanes) r

omit [Zero V] in
/-- All streams of a sketch. -/
def streams (r : SketchRun N R H w I V σ τ) :=
  (r.rows.streams, r.result)

/-- **The invariant of a sketch**: the equations of the rows and of what is
behind them, and every lane carries the beginning of its flits. -/
structure Sound (F : RowFunctions R H w I V)
    (lanes : Fin N → List (Flit (BitVec H)))
    (Equation : σ → (Fin R → List (Flit V)) → τ → Prop)
    (r : SketchRun N R H w I V σ τ) :
    Prop where
  rows : r.rows.Sound F
  arrived : ∀ i, (r.rows.hashed i).written <+: lanes i
  /-- What is behind the rows keeps its equation with what it has consumed of
  them. -/
  consumer : Equation r.state (fun j => (r.rows.counts j).consumed) r.result

/-- The tables a row carries for the jobs, each framed. -/
def tables (op : V → V → V) [Std.Commutative op] [Std.Associative op]
    (kv : Fin R → BitVec H → BitVec w × I) (inc : I → V)
    (jobs : List (Multiset (BitVec H)))
    (j : Fin R) : List (Flit V) :=
  jobs.flatMap (fun job => frame (tableList (hashedTable op kv inc j job)))

omit [Zero V] in
/-- Something that is done: a lane has delivered its flits, or a process finds
nothing to do. -/
def Idle (c : Consumer R V κ σ τ) (lanes : Fin N → List (Flit (BitVec H)))
    (r : SketchRun N R H w I V σ τ) : SketchTask N R κ → Prop
  | .arrive i => (lanes i).length ≤ (r.rows.hashed i).written.length
  | .row k => r.rows.Idle k
  | .consume k => (c.call k r.state r.rows.counts r.result).2
    = (r.rows.counts, r.result)

variable {F : RowFunctions R H w I V} {c : Consumer R V κ σ τ}
  {lanes : Fin N → List (Flit (BitVec H))}
  {kv : Fin R → BitVec H → BitVec w × I}
  {op : V → V → V} [Std.Commutative op] [Std.Associative op] {inc : I → V}
  {jobs : List (Multiset (BitVec H))}
  {Equation : σ → (Fin R → List (Flit V)) → τ → Prop}
  {Complete : τ → Prop} {bound : ℕ}

/-- The tables of the jobs, taken off the stream again, one for each job. -/
theorem jobsOf_tables (j : Fin R) :
    jobsOf (tables op kv inc jobs j)
      = jobs.map (fun job => tableList (hashedTable op kv inc j job)) := by
  have hne : ∀ l
    ∈ jobs.map (fun job => tableList (hashedTable op kv inc j job)),
      l ≠ [] := by
    intro l hl
    obtain ⟨job, -, rfl⟩ := List.mem_map.mp hl
    exact tableList_ne_nil _
  have h := jobsOf_flatMap_frame hne
  rwa [List.flatMap_map] at h

variable [Growing τ]

omit [Std.Commutative op] [Std.Associative op] in
theorem sound_start {T : Fin R → List (Flit V)}
    (hc : c.Lawful T Equation Complete bound) :
    (start c : SketchRun N R H w I V σ τ).Sound F lanes Equation :=
  ⟨Rows.sound_init, fun _ => List.nil_prefix, hc.start⟩

omit [Std.Commutative op] [Std.Associative op] in
/-- Every event lets the streams grow, those of the lanes, of the rows and of
the result. -/
theorem step_grows {T : Fin R → List (Flit V)}
    (hc : c.Lawful T Equation Complete bound) (r : SketchRun N R H w I V σ τ)
    (e : SketchEvent N R κ) :
    Grows r.streams (r.step F c lanes e).streams := by
  cases e with
  | arrive i =>
    exact ⟨⟨grows_update (Fifo.grows_arrive _ _), Growing.refl _⟩,
      Growing.refl _⟩
  | row p => exact ⟨Rows.fire_grows r.rows p, Growing.refl _⟩
  | consume k =>
    obtain ⟨h₁, h₂⟩ := hc.grows k r.state r.rows.counts r.result
    exact ⟨⟨Growing.refl _, Growing.refl _, Growing.refl _, h₁⟩, h₂⟩

omit [Std.Commutative op] [Std.Associative op] [Growing τ] in
/-- **An event that changes no stream** finds nothing to do: the lane has
delivered its flits, or the process is idle. -/
theorem idle_of_step {r : SketchRun N R H w I V σ τ} {e : SketchEvent N R κ}
    (h : (r.step F c lanes e).streams = r.streams) : r.Idle c lanes e.task := by
  cases e with
  | arrive i =>
    have hhashed : Function.update r.rows.hashed i
      ((r.rows.hashed i).arrive (lanes i))
        = r.rows.hashed := congrArg (fun s => s.1.1) h
    exact Fifo.length_le_of_arrive (by simpa using congrFun hhashed i)
  | row p => exact Rows.idle_of_fire (F := F) (congrArg Prod.fst h)
  | consume k =>
    have hcounts : (c.call k r.state r.rows.counts r.result).2.1
      = r.rows.counts :=
      congrArg (fun s => s.1.2.2.2) h
    have hresult : (c.call k r.state r.rows.counts r.result).2.2
      = r.result := congrArg Prod.snd h
    exact Prod.ext hcounts hresult

omit [Std.Commutative op] [Std.Associative op] in
/-- **What is done stays done** under an event that changes no stream. So in a
round that changes nothing everything is done. -/
theorem Idle.step {T : Fin R →
    List (Flit V)} (hc : c.Lawful T Equation Complete bound)
    {r : SketchRun N R H w I V σ τ} {k : SketchTask N R κ}
    (hk : r.Idle c lanes k)
    {e : SketchEvent N R κ} (h : (r.step F c lanes e).streams = r.streams) :
    (r.step F c lanes e).Idle c lanes k := by
  have hhashed : (r.step F c lanes e).rows.hashed = r.rows.hashed :=
    congrArg (fun s => s.1.1) h
  have hcounts : (r.step F c lanes e).rows.counts = r.rows.counts :=
    congrArg (fun s => s.1.2.2.2) h
  have hresult : (r.step F c lanes e).result = r.result := congrArg Prod.snd h
  cases k with
  | arrive i =>
    show (lanes i).length ≤ ((r.step F c lanes e).rows.hashed i).written.length
    rw [hhashed]
    exact hk
  | row k =>
    cases e with
    | arrive i =>
      have hrows : (r.step F c lanes (.arrive i)).rows = r.rows :=
        congrArg (fun hashed => { r.rows with hashed := hashed }) hhashed
      show (r.step F c lanes (.arrive i)).rows.Idle k
      rw [hrows]
      exact hk
    | row p => exact Rows.Idle.fire (F := F) hk (congrArg Prod.fst h)
    | consume k' =>
      have hrows : (r.step F c lanes (.consume k')).rows = r.rows :=
        congrArg (fun counts => { r.rows with counts := counts }) hcounts
      show (r.step F c lanes (.consume k')).rows.Idle k
      rw [hrows]
      exact hk
  | consume k =>
    have hstate : (r.step F c lanes e).state = r.state := by
      cases e with
      | arrive i => rfl
      | row p => rfl
      | consume k' =>
        exact hc.idle k' r.state r.rows.counts r.result
          (Prod.ext hcounts hresult)
    show (c.call k (r.step F c lanes e).state (r.step F c lanes e).rows.counts
      (r.step F c lanes e).result).2
      = ((r.step F c lanes e).rows.counts, (r.step F c lanes e).result)
    rw [hstate, hcounts, hresult]
    exact hk

variable [Std.LawfulIdentity op 0]

section Sound

variable (hF : F.IsSketch kv op inc) (hN : 0 < N) (hdealt : Dealt jobs lanes)
  (hc : c.Lawful (tables op kv inc jobs) Equation Complete bound)
include hF hN hdealt

omit [Growing τ] in
/-- **The rows carry the beginning of the tables of the jobs**, which the
consumer relies on. -/
theorem Sound.counts_isPrefix {r : SketchRun N R H w I V σ τ}
    (h : r.Sound F lanes Equation)
    (j : Fin R) : (r.rows.counts j).written <+: tables op kv inc jobs j :=
  h.rows.dealt_isPrefix hF hN hdealt h.arrived j

include hc

/-- **Every event keeps the invariant**: arrivals and calls of the rows, since
the consumer does not see them, and calls of the consumer, since it is
lawful. -/
theorem Sound.step {r : SketchRun N R H w I V σ τ}
    (h : r.Sound F lanes Equation)
    (e : SketchEvent N R κ) : (r.step F c lanes e).Sound F lanes Equation := by
  cases e with
  | arrive i =>
    have hother : ∀ i',
      (Function.update r.rows.hashed i ((r.rows.hashed i).arrive (lanes i)) i'
        = (r.rows.hashed i').arrive (lanes i') ∧ i' = i)
        ∨ Function.update r.rows.hashed i
          ((r.rows.hashed i).arrive (lanes i)) i'
          = r.rows.hashed i' := fun i' => by
      by_cases hi : i' = i
      · subst hi
        exact Or.inl ⟨Function.update_self _ _ _, rfl⟩
      · exact Or.inr (Function.update_of_ne hi _ _)
    refine ⟨h.rows.congr (fun i' => ?_) rfl rfl (fun _ => rfl) rfl,
      fun i' => ?_, h.consumer⟩
    · show (Function.update r.rows.hashed i _ i').consumed = _
      rcases hother i' with ⟨he, -⟩ | he
      · rw [he, Fifo.consumed_arrive]
      · rw [he]
    · show (Function.update r.rows.hashed i _ i').written <+: lanes i'
      rcases hother i' with ⟨he, -⟩ | he
      · rw [he]
        exact Fifo.written_arrive (h.arrived i')
      · rw [he]
        exact h.arrived i'
  | row p =>
    obtain ⟨hwritten, hconsumed⟩ := Rows.fire_frame (F := F) r.rows p
    refine ⟨h.rows.fire p, fun i => ?_, ?_⟩
    · show ((r.rows.fire F p).hashed i).written <+: lanes i
      rw [hwritten]
      exact h.arrived i
    · show Equation r.state
        (fun j => ((r.rows.fire F p).counts j).consumed) r.result
      simp only [hconsumed]
      exact h.consumer
  | consume k =>
    refine ⟨h.rows.congr (fun _ => rfl) rfl rfl (fun j => ?_) rfl,
      h.arrived, ?_⟩
    · exact hc.written k r.state r.rows.counts r.result j
    · exact hc.sound k r.state r.rows.counts r.result
        (h.counts_isPrefix hF hN hdealt) h.consumer

/-- **Every run keeps the invariant**, by induction on its events. -/
theorem sound_run (schedule : List (SketchEvent N R κ)) :
    ((start c : SketchRun N R H w I V σ τ).run F c lanes schedule).Sound F
      lanes Equation :=
  foldl_invariant _ (fun _ e hr => hr.step hF hN hdealt hc e)
    schedule (sound_start hc)

/-- When everything is done, the rows have carried their tables and the result
is complete. The rows are idle first, and the consumer is idle on all of their
tables. -/
theorem Sound.complete {r : SketchRun N R H w I V σ τ}
    (h : r.Sound F lanes Equation) (hidle : ∀ k, r.Idle c lanes k) :
    (∀ j, (r.rows.counts j).written = tables op kv inc jobs j)
      ∧ Complete r.result := by
  have harrived : ∀ i, (r.rows.hashed i).written = lanes i := fun i =>
    (h.arrived i).eq_of_length_le (hidle (.arrive i))
  have hrows := h.rows.dealt_eq op hF hN hdealt harrived
    (fun k => hidle (.row k))
  exact ⟨hrows,
    hc.complete r.state r.rows.counts r.result hrows h.consumer
      (fun k => hidle (.consume k))⟩

/-- **Enough fair rounds complete the tables of the rows and the result**,
whatever has happened before. -/
theorem Sound.completes {r : SketchRun N R H w I V σ τ}
    (h : r.Sound F lanes Equation) :
    ∃ n, ∀ rounds : List (List (SketchEvent N R κ)),
      n < rounds.length → FairRounds rounds →
      (∀ j, ((r.run F c lanes rounds.flatten).rows.counts j).written
        = tables op kv inc jobs j)
        ∧ Complete (r.run F c lanes rounds.flatten).result := by
  set m := ∑ i, (lanes i).length with hm
  have hlanes : ∀ i, (lanes i).length ≤ m := fun i =>
    Finset.single_le_sum (f := fun i => (lanes i).length)
      (fun _ _ => Nat.zero_le _)
      (Finset.mem_univ i)
  have hcounts : ∀ r : SketchRun N R H w I V σ τ, r.Sound F lanes Equation →
      ∀ j, (r.rows.counts j).consumed <+: tables op kv inc jobs j :=
        fun r hr j =>
    (r.rows.counts j).consumed_isPrefix.trans
      (hr.counts_isPrefix hF hN hdealt j)
  obtain ⟨n, hn⟩ : ∃ n, ∀ r : SketchRun N R H w I V σ τ,
    r.Sound F lanes Equation →
      Growing.size r.streams ≤ n := ⟨_, fun r hr => Nat.add_le_add
    (hr.rows.dealt_size_le op hF hN hdealt
      (le_refl jobs.length) hlanes hr.arrived)
    (hc.size_le _ _ _ (hcounts r hr) hr.consumer)⟩
  refine ⟨n, fun rounds hlength hrounds => ?_⟩
  refine done_of_rounds streams (SketchRun.step F c lanes) SketchEvent.task
    (fun k r => r.Idle c lanes k) (fun r => r.Sound F lanes Equation)
    (fun t => (∀ j, (t.1.2.2.2 j).written = tables op kv inc jobs j)
      ∧ Complete t.2) ?_ (step_grows hc) ?_ ?_ ?_ ?_ hn h hrounds hlength
  · exact fun r e hr => hr.step hF hN hdealt hc e
  · exact fun r e hsame => (idle_of_step hsame).step hc hsame
  · exact fun r e k hk hsame => hk.step hc hsame
  · exact fun r hr hidle => hr.complete hF hN hdealt hc hidle
  · intro r e hr hdone
    have hr' := hr.step hF hN hdealt hc e
    have hgrows : ∀ j, Grows (r.rows.counts j)
      ((r.step F c lanes e).rows.counts j) :=
      (step_grows hc r e).1.2.2.2
    refine ⟨fun j =>
      (hr'.counts_isPrefix hF hN hdealt j).eq_of_length_le ?_, ?_⟩
    · rw [← hdone.1 j]
      exact (hgrows j).2.length_le
    · exact hc.stays _ _ r.result _ (hcounts _ hr') hr'.consumer
        (step_grows hc r e).2 hdone.2

end Sound

end SketchRun

end Skt.Hardware
