import Skt.Lib.Tally
import Skt.Hardware.Collect
import Skt.Hardware.Funnel

/-!
# Sketching over parallel lanes

The three sketches of the kernel share a network: the hashed items of every lane
are turned into key/value pairs for every row, collected lane by lane and row by
row, and the lanes of a row are reduced to one. HyperLogLog has one row, AGMS
and Count-Min have six; they differ in the functions that are put in.

What the collectors see depends on how the funnel dealt out the items; what the
reduction writes does not, because the lanes of a job together hold its items
and the statistics of parts combine to the statistics of the whole. For that the
update of a collector and the reduction must be one commutative and associative
operation, and its neutral element the zero the memories are cleared to.

The invariant of the network is the conjunction of the equations of its
processes. A call of one process changes the state of that process and the
streams next to it, so that its own equation is kept by the lemma on it and the
others by the facts on what it leaves alone.
-/

namespace Skt.Hardware

open Streams Tally

/-! ## The network

Its shape only: what the processes compute is a parameter. -/

/-- A sketch network of `N` lanes and `R` rows: its streams, and a collector for
every lane and row. The streams `counts0` are indexed by row first, as the
source has them, so that a row can be reduced. -/
structure Rows (N R H w : ℕ) (I V : Type) where
  /-- The hashed items of every lane. -/
  hashed : Fin N → Fifo (Flit (BitVec H))
  /-- The key and the increment of every item, for every row. -/
  keyed : Fin N → Fin R → Fifo (Flit (BitVec w × I))
  /-- The dumps of the collectors, by row and lane. -/
  counts0 : Fin R → Fin N → Fifo (Flit V)
  /-- The reduced rows. -/
  counts : Fin R → Fifo (Flit V)
  /-- The collectors, each with a table of its own. -/
  collect : Fin N → Fin R → Collect w V

/-- The functions of a sketch network, the lambdas of the source: what a hash
word stands for in a row, how a collector updates its table, and how lanes are
reduced. -/
structure RowFunctions (R H w : ℕ) (I V : Type) where
  /-- What a hash word stands for in a row. -/
  key : Flit (BitVec H) → Fin R → Flit (BitVec w × I)
  /-- How a collector updates the value of a key. -/
  update : V → I → V
  /-- How the values of the lanes are combined, flags included. -/
  reduce : Flit V → Flit V → Flit V

/-- The processes of a sketch network, with what a call may choose: which lane
and row, and how many writes the read of a memory misses. -/
inductive RowProc (N R : ℕ) where
  | split (i : Fin N)
  | collect (i : Fin N) (j : Fin R) (missed : Fin 4)
  | reduce (j : Fin R)

namespace Rows

variable {N R H w : ℕ} {I V : Type} [Zero V]

/-- The state at power-up: empty streams and empty tables. -/
def init : Rows N R H w I V where
  hashed _ := Fifo.new
  keyed _ _ := Fifo.new
  counts0 _ _ := Fifo.new
  counts _ := Fifo.new
  collect _ _ := Collect.init

/-- One call of one process, on the streams as they are. -/
def fire (F : RowFunctions R H w I V) (net : Rows N R H w I V) :
    RowProc N R → Rows N R H w I V
  | .split i =>
    let p := split F.key (net.hashed i) (net.keyed i)
    { net with
      hashed := Function.update net.hashed i p.1
      keyed := Function.update net.keyed i p.2 }
  | .collect i j missed =>
    let p := Collect.collect F.update missed (net.collect i j)
      (net.keyed i j) (net.counts0 j i)
    { net with
      collect := Function.update net.collect i
        (Function.update (net.collect i) j p.1)
      keyed := Function.update net.keyed i
        (Function.update (net.keyed i) j p.2.1)
      counts0 := Function.update net.counts0 j
        (Function.update (net.counts0 j) i p.2.2) }
  | .reduce j =>
    let p := reduce F.reduce ⟨false, 0⟩ (net.counts0 j) (net.counts j)
    { net with
      counts0 := Function.update net.counts0 j p.1
      counts := Function.update net.counts j p.2 }

omit [Zero V] in
/-- All streams of the network, for the order in which they grow. -/
def streams (net : Rows N R H w I V) :
    (Fin N → Fifo (Flit (BitVec H)))
      × (Fin N → Fin R → Fifo (Flit (BitVec w × I)))
      × (Fin R → Fin N → Fifo (Flit V)) × (Fin R → Fifo (Flit V)) :=
  (net.hashed, net.keyed, net.counts0, net.counts)

variable {F : RowFunctions R H w I V}

/-- Every call lets the streams grow. -/
theorem fire_grows (net : Rows N R H w I V) (p : RowProc N R) :
    Grows net.streams (net.fire F p).streams := by
  cases p with
  | split i =>
    obtain ⟨h₁, h₂⟩ := split_grows F.key (net.hashed i) (net.keyed i)
    exact ⟨grows_update h₁, grows_update h₂, Growing.refl _, Growing.refl _⟩
  | collect i j missed =>
    obtain ⟨h₁, h₂⟩ := Collect.collect_grows F.update
      (net.collect i j) missed (net.keyed i j)
      (net.counts0 j i)
    exact ⟨Growing.refl _, grows_update (grows_update h₁),
      grows_update (grows_update h₂),
      Growing.refl _⟩
  | reduce j =>
    obtain ⟨h₁, h₂⟩ := reduce_grows F.reduce ⟨false, 0⟩
      (net.counts0 j) (net.counts j)
    exact ⟨Growing.refl _, Growing.refl _, grows_update h₁, grows_update h₂⟩

/-! ## The invariant

It holds at the start and is kept by every call, and so in every schedule. -/

/-- **The invariant of a sketch network**: the equations of its processes. -/
structure Sound (F : RowFunctions R H w I V)
    (net : Rows N R H w I V) : Prop where
  /-- Every row of a lane has been written the keys of what was read from the
  lane. -/
  split : ∀ i j, (net.keyed i j).written
    = (net.hashed i).consumed.map (F.key · j)
  /-- Every collector keeps its equation, whatever its reads have missed. -/
  collect : ∀ i j, Collect.Collected F.update (net.collect i j)
    (net.keyed i j).consumed
    (net.counts0 j i).written
  /-- Every reduced row is the reduction of what has been taken from its
  lanes. -/
  reduce : ∀ j, Reduced F.reduce ⟨false, 0⟩
    (fun i => (net.counts0 j i).consumed)
    (net.counts j).written

theorem sound_init : (init : Rows N R H w I V).Sound F where
  split _ _ := rfl
  collect _ _ := Collect.collected_init _
  reduce _ := ⟨fun _ => rfl, fun k y hy => by simp [init] at hy⟩

/-- A member of a family of families, after one of them has changed. The streams
between lanes and rows are such families. -/
theorem update_update_apply {α β γ : Type*} [DecidableEq α]
    [DecidableEq β] (s : α → β → γ) (a : α) (b : β) (x : γ) (a' : α) (b' : β) :
    Function.update s a (Function.update (s a) b x) a' b'
      = if a' = a ∧ b' = b then x else s a' b' := by
  by_cases ha : a' = a
  · rw [ha, Function.update_self, Function.update_apply]
    simp
  · rw [Function.update_of_ne ha, if_neg (fun h => ha h.1)]

/-- Splitting a hash keeps the invariant: the equation of its lane is kept by
`split`, and the others do not see it. -/
theorem Sound.fire_split {net : Rows N R H w I V}
    (h : net.Sound F) (i : Fin N) :
    (net.fire F (.split i)).Sound F := by
  set q := Hardware.split F.key (net.hashed i) (net.keyed i) with hq
  refine ⟨fun i' j => ?_, fun i' j => ?_, h.reduce⟩
  · show (Function.update net.keyed i q.2 i' j).written
      = (Function.update net.hashed i q.1 i').consumed.map _
    by_cases hi : i' = i
    · rw [hi, Function.update_self, Function.update_self]
      exact split_sound (h.split i) j
    · rw [Function.update_of_ne hi, Function.update_of_ne hi]
      exact h.split i' j
  · show Collect.Collected F.update (net.collect i' j)
      (Function.update net.keyed i q.2 i' j).consumed _
    by_cases hi : i' = i
    · rw [hi, Function.update_self, hq, consumed_split]
      exact h.collect i j
    · rw [Function.update_of_ne hi]
      exact h.collect i' j

/-- So does collecting a key, whatever the read misses. Its row and its lane are
the only ones concerned. -/
theorem Sound.fire_collect {net : Rows N R H w I V} (h : net.Sound F)
    (i : Fin N) (j : Fin R)
    (missed : Fin 4) : (net.fire F (.collect i j missed)).Sound F := by
  set q := Collect.collect F.update missed (net.collect i j) (net.keyed i j)
    (net.counts0 j i) with hq
  have hkeyed : ∀ i' j',
    ((Rows.fire F net (.collect i j missed)).keyed i' j').written
      = (net.keyed i' j').written := by
    intro i' j'
    show (Function.update net.keyed i
      (Function.update (net.keyed i) j q.2.1) i' j').written = _
    rw [update_update_apply]
    split
    · next he => rw [he.1, he.2, hq, Collect.written_collect]
    · rfl
  have hcounts : ∀ i' j',
    ((Rows.fire F net (.collect i j missed)).counts0 j' i').consumed
      = (net.counts0 j' i').consumed := by
    intro i' j'
    show (Function.update net.counts0 j
      (Function.update (net.counts0 j) i q.2.2) j' i').consumed
      = _
    rw [update_update_apply]
    split
    · next he => rw [he.1, he.2, hq, Collect.consumed_collect]
    · rfl
  refine ⟨fun i' j' => ?_, fun i' j' => ?_, fun j' => ?_⟩
  · rw [hkeyed]
    exact h.split i' j'
  · show Collect.Collected F.update
      (Function.update net.collect i
        (Function.update (net.collect i) j q.1) i' j')
      (Function.update net.keyed i
        (Function.update (net.keyed i) j q.2.1) i' j').consumed
      (Function.update net.counts0 j
        (Function.update (net.counts0 j) i q.2.2) j' i').written
    rw [update_update_apply, update_update_apply, update_update_apply]
    by_cases he : i' = i ∧ j' = j
    · rw [if_pos he, if_pos he, if_pos ⟨he.2, he.1⟩]
      exact Collect.collect_sound (h.collect i j) missed
    · rw [if_neg he, if_neg he, if_neg (fun h => he ⟨h.2, h.1⟩)]
      exact h.collect i' j'
  · simp only [hcounts]
    exact h.reduce j'

/-- So does merging the tables of the lanes, one entry of each. -/
theorem Sound.fire_reduce {net : Rows N R H w I V}
    (h : net.Sound F) (j : Fin R) :
    (net.fire F (.reduce j)).Sound F := by
  set q := Hardware.reduce F.reduce ⟨false, 0⟩ (net.counts0 j)
    (net.counts j) with hq
  refine ⟨h.split, fun i' j' => ?_, fun j' => ?_⟩
  · show Collect.Collected F.update _ _
      (Function.update net.counts0 j q.1 j' i').written
    by_cases hj : j' = j
    · rw [hj, Function.update_self, hq, written_reduce]
      exact h.collect i' j
    · rw [Function.update_of_ne hj]
      exact h.collect i' j'
  · show Reduced F.reduce _
      (fun i => (Function.update net.counts0 j q.1 j' i).consumed)
      (Function.update net.counts j q.2 j').written
    by_cases hj : j' = j
    · rw [hj, Function.update_self, Function.update_self]
      exact reduce_sound (h.reduce j)
    · rw [Function.update_of_ne hj, Function.update_of_ne hj]
      exact h.reduce j'

/-- **Every call of every process keeps the invariant**, whatever the
schedule. -/
theorem Sound.fire {net : Rows N R H w I V}
    (h : net.Sound F) (p : RowProc N R) :
    (net.fire F p).Sound F := by
  cases p with
  | split i => exact h.fire_split i
  | collect i j missed => exact h.fire_collect i j missed
  | reduce j => exact h.fire_reduce j

/-- A call leaves alone what has been put into a sketch network, and what has
been taken from it. -/
theorem fire_frame (net : Rows N R H w I V) (p : RowProc N R) :
    (∀ i, ((net.fire F p).hashed i).written = (net.hashed i).written)
      ∧ ∀ j, ((net.fire F p).counts j).consumed = (net.counts j).consumed := by
  cases p with
  | split i =>
    refine ⟨fun i' => ?_, fun _ => rfl⟩
    show (Function.update net.hashed i _ i').written = _
    rw [Function.update_apply]
    split
    · next hi => rw [hi, written_split]
    · rfl
  | collect i j missed => exact ⟨fun _ => rfl, fun _ => rfl⟩
  | reduce j =>
    refine ⟨fun _ => rfl, fun j' => ?_⟩
    show (Function.update net.counts j _ j').consumed = _
    rw [Function.update_apply]
    split
    · next hj => rw [hj, consumed_reduce]
    · rfl

/-- The invariant does not see what arrives at the network and what is taken
from it: it speaks of what has been consumed at its inputs and of what has been
written at its outputs. -/
theorem Sound.congr {net net' : Rows N R H w I V} (h : net.Sound F)
    (hhashed : ∀ i, (net'.hashed i).consumed = (net.hashed i).consumed)
    (hkeyed : net'.keyed = net.keyed) (hcounts0 : net'.counts0 = net.counts0)
    (hcounts : ∀ j, (net'.counts j).written = (net.counts j).written)
    (hcollect : net'.collect = net.collect) : net'.Sound F where
  split i j := by
    rw [hkeyed, hhashed]
    exact h.split i j
  collect i j := by
    rw [hcollect, hkeyed, hcounts0]
    exact h.collect i j
  reduce j := by
    rw [hcounts0, hcounts]
    exact h.reduce j

end Rows

/-! ## Idle processes

A call that changes no stream may still change a pipeline register of a
collector. What matters is that it finds nothing to do, and that nothing has
come up for the others. -/

/-- The processes of a sketch network, whatever a read of a memory misses. -/
inductive RowTask (N R : ℕ) where
  | split (i : Fin N)
  | collect (i : Fin N) (j : Fin R)
  | reduce (j : Fin R)

/-- The process a call is made to, without the choice of what its read
misses. -/
def RowProc.task {N R : ℕ} : RowProc N R → RowTask N R
  | .split i => .split i
  | .collect i j _ => .collect i j
  | .reduce j => .reduce j

namespace Rows

variable {N R H w : ℕ} {I V : Type} [Zero V] {F : RowFunctions R H w I V}

omit [Zero V] in
/-- A process that has nothing to do: its input is empty, and a collector is not
in the middle of a dump. -/
def Idle (net : Rows N R H w I V) : RowTask N R → Prop
  | .split i => (net.hashed i).pending = []
  | .collect i j => (net.collect i j).dump = false
    ∧ (net.keyed i j).pending = []
  | .reduce j => ∃ i, (net.counts0 j i).pending = []

/-- **A call that changes no stream** finds nothing to do: each process writes
or reads something as long as it can. -/
theorem idle_of_fire {net : Rows N R H w I V} {p : RowProc N R}
    (h : (net.fire F p).streams = net.streams) : net.Idle p.task := by
  cases p with
  | split i =>
    have hsame : Function.update net.hashed i
      (Hardware.split F.key (net.hashed i) (net.keyed i)).1
        = net.hashed := congrArg (fun s => s.1) h
    exact split_idle (by simpa using congrFun hsame i)
  | collect i j missed =>
    set q := Collect.collect F.update missed (net.collect i j)
      (net.keyed i j) (net.counts0 j i)
      with hq
    have hkeyed : Function.update net.keyed i
      (Function.update (net.keyed i) j q.2.1)
        = net.keyed := congrArg (fun s => s.2.1) h
    have hcounts : Function.update net.counts0 j
      (Function.update (net.counts0 j) i q.2.2)
        = net.counts0 := congrArg (fun s => s.2.2.1) h
    refine Collect.collect_idle F.update (net.collect i j)
      missed (net.keyed i j)
      (net.counts0 j i) ?_ ?_
    · have hij := congrFun (congrFun hkeyed i) j
      rwa [update_update_apply, if_pos ⟨rfl, rfl⟩] at hij
    · have hji := congrFun (congrFun hcounts j) i
      rwa [update_update_apply, if_pos ⟨rfl, rfl⟩] at hji
  | reduce j =>
    have hcounts : Function.update net.counts j
        (Hardware.reduce F.reduce ⟨false, 0⟩ (net.counts0 j) (net.counts j)).2
          = net.counts :=
      congrArg (fun s => s.2.2.2) h
    exact reduce_idle (by simpa using congrFun hcounts j)

/-- **An idle process stays idle** under a call that changes no stream. A
collector that repeats its last write is still not dumping. -/
theorem Idle.fire {net : Rows N R H w I V} {k : RowTask N R}
    (hk : net.Idle k) {p : RowProc N R}
    (h : (net.fire F p).streams = net.streams) : (net.fire F p).Idle k := by
  have hhashed : (net.fire F p).hashed = net.hashed := congrArg (fun s => s.1) h
  have hkeyed : (net.fire F p).keyed = net.keyed := congrArg (fun s => s.2.1) h
  have hcounts : (net.fire F p).counts0 = net.counts0 :=
    congrArg (fun s => s.2.2.1) h
  cases k with
  | split i =>
    show ((net.fire F p).hashed i).pending = []
    rw [hhashed]
    exact hk
  | collect i j =>
    refine ⟨?_, by rw [hkeyed]; exact hk.2⟩
    cases p with
    | split i' => exact hk.1
    | collect i' j' missed =>
      show (Function.update net.collect i'
        (Function.update (net.collect i') j' _) i j).dump = false
      rw [update_update_apply]
      split
      · next he =>
        obtain ⟨rfl, rfl⟩ := he
        exact Collect.dump_collect F.update (net.collect i j)
          missed _ _ hk.1 hk.2
      · exact hk.1
    | reduce j' => exact hk.1
  | reduce j =>
    obtain ⟨i, hi⟩ := hk
    exact ⟨i, by rw [hcounts]; exact hi⟩

end Rows

/-! ## What the rows carry

The network is filled with the functions of a sketch, and its equations are
solved: from the hash words of the lanes to the tables of the jobs. -/

/-- **The functions of a sketch**: a hash word stands for a key and an increment
in every row, increments are combined by `op`, and lanes are reduced by `op` as
well, keeping the flag of the last lane. -/
structure RowFunctions.IsSketch {R H w : ℕ} {I V : Type} [Zero V]
    (F : RowFunctions R H w I V) (kv : Fin R → BitVec H → BitVec w × I)
    (op : V → V → V)
    (inc : I → V) : Prop where
  key : ∀ x j, F.key x j = x.map (kv j)
  /-- An element updates the value of its key by its increment. -/
  update : ∀ a b, F.update a b = op a (inc b)
  /-- The lanes are combined in the same way, so that it does not matter to
  which of them an element went. -/
  reduce : ∀ a b, F.reduce a b = ⟨b.last, op a.val b.val⟩

/-- **Jobs dealt out to lanes**: every lane carries a job for every job, and the
jobs of all lanes together are the job, as a multiset. It is what a sketch needs
to know of the funnel, and also holds where the lanes are fed without one. -/
structure Dealt {X : Type*} {N : ℕ} (jobs : List (Multiset X))
    (lanes : Fin N → List (Flit X)) :
    Prop where
  /-- Every lane carries as many jobs as there are, none of them left out. -/
  length : ∀ i, (jobsOf (lanes i)).length = jobs.length
  /-- What the lanes carry of a job adds up to the job. -/
  sum : ∀ t, ∑ i, ((jobsOf (lanes i)).getD t [] : Multiset X) = jobs.getD t 0

/-- Items distributed to lanes and hashed there are dealt out: the funnel's
specification implies the sketches' assumption. -/
theorem Distributed.dealt {N0 N H : ℕ} {words : List (Flit (BitVec (N0 * 32)))}
    {lanes : Fin N → List (Flit (BitVec 32))} (h : Distributed words lanes)
    (hash : BitVec 32 → BitVec H) :
    Dealt ((jobsOf words).map (fun job =>
      Multiset.map hash (job.flatMap wordItems : List (BitVec 32))))
      (fun i => (lanes i).map (Flit.map hash)) where
  length i := by rw [jobsOf_map, List.length_map, List.length_map, h.jobs i]
  sum t := by
    have hlane : ∀ i,
      ((jobsOf ((lanes i).map (Flit.map hash))).getD t [] : Multiset (BitVec H))
        = Multiset.map hash ((jobsOf (lanes i)).getD t []) := fun i => by
      rw [jobsOf_map, List.getD_eq_getElem?_getD,
        List.getD_eq_getElem?_getD, List.getElem?_map]
      cases (jobsOf (lanes i))[t]? <;> rfl
    have hsum := congrArg (Multiset.mapAddMonoidHom hash) (h.items t)
    rw [map_sum] at hsum
    simp only [hlane]
    refine hsum.trans ?_
    rw [Multiset.coe_mapAddMonoidHom, List.getD_eq_getElem?_getD,
      List.getD_eq_getElem?_getD, List.getElem?_map]
    cases (jobsOf words)[t]? <;> rfl

section Lanes

variable {X : Type*} {N : ℕ} {jobs : List (Fin N → List X)}

/-- The jobs of a lane have flits, so that each of them is framed by a
`last`. -/
theorem ne_nil_of_mem_lane (hjobs : ∀ job ∈ jobs, ∀ i, job i ≠ []) (i : Fin N) :
    ∀ l ∈ jobs.map (· i), l ≠ [] := by
  intro l hl
  obtain ⟨job, hjob, rfl⟩ := List.mem_map.mp hl
  exact hjobs job hjob i

/-- The jobs of a lane, for jobs that come as one list per lane, taken off the
lane again. -/
theorem jobsOf_lane (hjobs : ∀ job ∈ jobs, ∀ i, job i ≠ []) (i : Fin N) :
    jobsOf (jobs.flatMap (fun job => frame (job i))) = jobs.map (· i) := by
  have h := jobsOf_flatMap_frame (ne_nil_of_mem_lane hjobs i)
  rwa [List.flatMap_map] at h

/-- Jobs that come as one list per lane are dealt out. -/
theorem dealt_frame (hjobs : ∀ job ∈ jobs, ∀ i, job i ≠ []) :
    Dealt (jobs.map (fun job => ∑ i, (job i : Multiset X)))
      (fun i => jobs.flatMap (fun job => frame (job i))) := by
  refine ⟨fun i => by rw [jobsOf_lane hjobs, List.length_map,
    List.length_map], fun t => ?_⟩
  simp only [jobsOf_lane hjobs, List.getD_eq_getElem?_getD, List.getElem?_map]
  cases jobs[t]? with
  | none => simp
  | some job => rfl

end Lanes

section Tables

variable {N R H w : ℕ} {I V : Type} [Zero V] {F : RowFunctions R H w I V}
  {kv : Fin R → BitVec H → BitVec w × I} (op : V → V → V) [Std.Commutative op]
  [Std.Associative op] [Std.LawfulIdentity op 0] {inc : I → V}

/-- The table of a row for a job of hash words: their tally, key by key, which
does not depend on their order. -/
def hashedTable (kv : Fin R → BitVec H → BitVec w × I) (inc : I → V) (j : Fin R)
    (hashes : Multiset (BitVec H)) : BitVec w → V :=
  tally op 0 (fun h => (kv j h).1) (fun h => inc (kv j h).2) hashes

/-- The table of a row for a job: the tally of its items, key by key, each at
the key of its hash. -/
def rowTable (kv : Fin R → BitVec H → BitVec w × I) (inc : I → V)
    (hash : BitVec 32 → BitVec H)
    (j : Fin R) (items : Multiset (BitVec 32)) : BitVec w → V :=
  tally op 0 (fun x => (kv j (hash x)).1) (fun x => inc (kv j (hash x)).2) items

omit [Std.LawfulIdentity op 0] in
/-- The items of a job are tallied by their hash words. -/
theorem hashedTable_map (hash : BitVec 32 → BitVec H) (j : Fin R)
    (items : Multiset (BitVec 32)) :
    hashedTable op kv inc j (items.map hash)
      = rowTable op kv inc hash j items :=
  funext fun k => tally_map op 0 _ _ hash items k

/-- A table in the order of its keys, as it is dumped. -/
def tableList (t : BitVec w → V) : List V :=
  (List.range (2 ^ w)).map (fun k => t (BitVec.ofNat w k))

omit [Zero V] in
@[simp] theorem length_tableList (t : BitVec w → V) :
    (tableList t).length = 2 ^ w := by
  unfold tableList
  rw [List.length_map, List.length_range]

omit [Zero V] in
/-- A table has entries, also for keys of no bits; so its frame ends with a
`last`. -/
theorem tableList_ne_nil (t : BitVec w → V) : tableList t ≠ [] := by
  refine List.ne_nil_of_length_pos ?_
  rw [length_tableList]
  exact Nat.two_pow_pos w

omit [Zero V] in
/-- An entry of a table, at its key as a number. -/
theorem getElem?_tableList (t : BitVec w → V) {k : ℕ} (hk : k < 2 ^ w) :
    (tableList t)[k]? = some (t (BitVec.ofNat w k)) := by
  unfold tableList
  rw [List.getElem?_map, List.getElem?_range hk, Option.map_some]

/-- **A collector that combines by `op` tallies**: the left fold over the values
of a key is the sum of their increments, in any order. -/
theorem keyFold_eq_tally {X : Type} {update : V → I → V}
    (hupdate : ∀ a b, update a b = op a (inc b)) (f : X → BitVec w × I)
    (items : List X) (k : BitVec w) :
    keyFold update (items.map f) k
      = tally op 0 (fun x => (f x).1) (fun x => inc (f x).2)
      (items : Multiset X) k := by
  induction items using List.reverseRecOn with
  | nil => rfl
  | append_singleton items x ih =>
    rw [List.map_append, List.map_singleton, keyFold_concat, ← Multiset.coe_add,
      Multiset.coe_singleton, tally_add_singleton, ← ih, Function.update_apply]
    by_cases hk : k = (f x).1
    · rw [if_pos hk, if_pos hk.symm, hupdate, ← hk]
    · rw [if_neg hk, if_neg (fun h => hk h.symm)]

variable {op} in
/-- The dump of a job of hash words is its table, in whatever order the words
came. -/
theorem RowFunctions.IsSketch.dumped_eq (hF : F.IsSketch kv op inc) (j : Fin R)
    (job : List (BitVec H)) :
    dumped F.update (job.map (kv j))
      = tableList (hashedTable op kv inc j (job : Multiset (BitVec H))) :=
  List.map_congr_left (fun _ _ => keyFold_eq_tally op hF.update (kv j) job _)

omit [Zero V] [Std.Commutative op] [Std.Associative op]
    [Std.LawfulIdentity op 0] in
/-- The reduction of the lanes keeps the flag of the last one, and its value is
the combination of theirs. -/
theorem foldl_reduce {reduce : Flit V → Flit V → Flit V}
    (hreduce : ∀ a b, reduce a b = ⟨b.last, op a.val b.val⟩) {α : Type*}
    {l : List α} (hl : l ≠ []) (last : Bool) (v : α → V) (a : Flit V) :
    l.foldl (fun y i => reduce y ⟨last, v i⟩) a
      = ⟨last, l.foldl (fun y i => op y (v i)) a.val⟩ := by
  induction l generalizing a with
  | nil => exact absurd rfl hl
  | cons i l ih =>
    rw [List.foldl_cons, List.foldl_cons, hreduce]
    by_cases hl' : l = []
    · rw [hl']
      rfl
    · rw [ih hl']

variable {op}

omit [Std.Commutative op] [Std.Associative op] [Std.LawfulIdentity op 0] in
/-- What a collector reads is its lane, key by key, as far as the lane has been
split. -/
theorem Rows.Sound.keyed_isPrefix {net : Rows N R H w I V} (h : net.Sound F)
    (hF : F.IsSketch kv op inc) {lanes : Fin N → List (Flit (BitVec H))}
    (hhashed : ∀ i, (net.hashed i).written <+: lanes i) (i : Fin N)
    (j : Fin R) :
    (net.keyed i j).consumed <+: (lanes i).map (Flit.map (kv j)) := by
  refine (net.keyed i j).consumed_isPrefix.trans ?_
  rw [h.split i j, List.map_congr_left (fun x _ => hF.key x j)]
  exact ((net.hashed i).consumed_isPrefix.trans (hhashed i)).map
    (Flit.map (kv j))

omit [Std.Commutative op] [Std.Associative op] [Std.LawfulIdentity op 0] in
/-- What a collector writes is the beginning of the dumps of its lane's jobs,
row by row. -/
theorem Rows.Sound.counts0_isPrefix {net : Rows N R H w I V} (h : net.Sound F)
    (hF : F.IsSketch kv op inc) {lanes : Fin N → List (Flit (BitVec H))}
    (hhashed : ∀ i, (net.hashed i).written <+: lanes i) (i : Fin N)
    (j : Fin R) :
    (net.counts0 j i).written <+: (jobsOf (lanes i)).flatMap (fun job =>
      frame (dumped F.update (job.map (kv j)))) := by
  have hjobs := jobsOf_isPrefix (h.keyed_isPrefix hF hhashed i j)
  rw [jobsOf_map] at hjobs
  have hwritten := (h.collect i j).isPrefix.trans (flatMap_isPrefix hjobs _)
  rwa [List.flatMap_map] at hwritten

variable (op) in
/-- **While a collector reads, its memory is the table of the open job** of its
lane. -/
theorem Rows.Sound.mem_eq {net : Rows N R H w I V} (h : net.Sound F)
    (hF : F.IsSketch kv op inc) {lanes : Fin N → List (Flit (BitVec H))}
    (hhashed : ∀ i, (net.hashed i).written <+: lanes i) {i : Fin N} {j : Fin R}
    (hdump : (net.collect i j).dump = false) :
    (net.collect i j).mem 0 = hashedTable op kv inc j
      (partOf ((lanes i).take (net.keyed i j).consumed.length) :
        Multiset (BitVec H)) := by
  have hconsumed : (net.keyed i j).consumed
      = ((lanes i).take (net.keyed i j).consumed.length).map
        (Flit.map (kv j)) := by
    conv_lhs =>
      rw [List.prefix_iff_eq_take.mp (h.keyed_isPrefix hF hhashed i j)]
    rw [List.map_take]
  rw [((h.collect i j).consuming hdump).2.1]
  conv_lhs => rw [hconsumed, partOf_map]
  exact funext fun k => keyFold_eq_tally op hF.update (kv j) _ k

/-- **What the rows write is the beginning of the tables of the jobs**, however
the jobs are dealt out to the lanes. The tables of the lanes are different in
every schedule; their combination is not. -/
theorem Rows.Sound.dealt_isPrefix {net : Rows N R H w I V} (h : net.Sound F)
    (hF : F.IsSketch kv op inc) (hN : 0 < N) {jobs : List (Multiset (BitVec H))}
    {lanes : Fin N → List (Flit (BitVec H))} (hdealt : Dealt jobs lanes)
    (hhashed : ∀ i, (net.hashed i).written <+: lanes i) (j : Fin R) :
    (net.counts j).written <+: jobs.flatMap (fun job =>
      frame (tableList (hashedTable op kv inc j job))) := by
  have hB : 0 < 2 ^ w := Nat.two_pow_pos w
  -- what a lane's collector writes
  have hlane : ∀ i, (net.counts0 j i).consumed
    <+: (jobsOf (lanes i)).flatMap (fun job =>
      frame (dumped F.update (job.map (kv j)))) := fun i =>
    (net.counts0 j i).consumed_isPrefix.trans
      (h.counts0_isPrefix hF hhashed i j)
  refine prefix_of_getElem? (fun q y hy => ?_)
  obtain ⟨x, hx, rfl⟩ := (h.reduce j).entry q y hy
  -- the entry of every lane belongs to the same job and the same key
  have hk : q % 2 ^ w < 2 ^ w := Nat.mod_lt q hB
  set k := BitVec.ofNat w (q % 2 ^ w) with hkdef
  have hkNat : k.toNat = q % 2 ^ w := by
    rw [hkdef, BitVec.toNat_ofNat, Nat.mod_mod]
  have hentry : ∀ i, ∃ job, (jobsOf (lanes i))[q / 2 ^ w]? = some job
      ∧ x i = ⟨decide (k = BitVec.allOnes w),
        keyFold F.update (job.map (kv j)) k⟩ := by
    intro i
    have hget := getElem?_of_isPrefix (hlane i) (hx i)
    rw [getElem?_flatMap_block hB _ _ (fun job _ => by simp)] at hget
    obtain ⟨job, hjob, hval⟩ := Option.bind_eq_some_iff.mp hget
    refine ⟨job, hjob, ?_⟩
    rw [← hkNat, getElem?_frame_dumped, Option.some.injEq] at hval
    exact hval.symm
  choose job hjob hval using hentry
  have ht : q / 2 ^ w < jobs.length := by
    rw [← hdealt.length ⟨0, hN⟩]
    exact (List.getElem?_eq_some_iff.mp (hjob ⟨0, hN⟩)).1
  have hitems := hdealt.sum (q / 2 ^ w)
  simp only [List.getD_eq_getElem?_getD, hjob, Option.getD_some,
    List.getElem?_eq_getElem ht] at hitems
  -- the reduction of the lanes' entries
  have hfold : (List.finRange N).foldl (fun y i => F.reduce y (x i)) ⟨false, 0⟩
      = ⟨decide (k = BitVec.allOnes w),
        hashedTable op kv inc j jobs[q / 2 ^ w] k⟩ := by
    have hne : List.finRange N ≠ [] :=
      List.ne_nil_of_mem (List.mem_finRange ⟨0, hN⟩)
    have htally := foldl_tally_lanes op 0 (fun h => (kv j h).1)
      (fun h => inc (kv j h).2)
      (fun i => (job i : Multiset (BitVec H))) k
    simp only [hval]
    rw [foldl_reduce op hF.reduce hne]
    simp only [keyFold_eq_tally op hF.update (kv j)]
    rw [htally, hitems]
    rfl
  have htable :
    (frame (tableList (hashedTable op kv inc j jobs[q / 2 ^ w])))[q % 2 ^ w]?
      = some ⟨decide (k = BitVec.allOnes w),
        hashedTable op kv inc j jobs[q / 2 ^ w] k⟩ := by
    have hlast : decide (q % 2 ^ w + 1 = 2 ^ w)
      = decide (k = BitVec.allOnes w) := by
      refine decide_eq_decide.mpr ?_
      rw [← BitVec.toNat_inj, BitVec.toNat_allOnes, hkNat]
      omega
    rw [getElem?_frame, length_tableList, getElem?_tableList _ hk, hlast]
    rfl
  rw [getElem?_flatMap_block hB _ _ (fun job _ => by simp),
    List.getElem?_eq_getElem ht, hfold]
  exact htable

variable (op) in
/-- **A sketch network whose processes are idle has written the tables of all
jobs**, when the lanes have carried them all. No lane can be behind another one,
since the reduction would then have something to read. -/
theorem Rows.Sound.dealt_eq {net : Rows N R H w I V} (h : net.Sound F)
    (hF : F.IsSketch kv op inc) (hN : 0 < N) {jobs : List (Multiset (BitVec H))}
    {lanes : Fin N → List (Flit (BitVec H))} (hdealt : Dealt jobs lanes)
    (hhashed : ∀ i, (net.hashed i).written = lanes i) (hidle : ∀ k, net.Idle k)
    (j : Fin R) :
    (net.counts j).written = jobs.flatMap (fun job =>
      frame (tableList (hashedTable op kv inc j job))) := by
  have hcollect : ∀ i, (net.collect i j).dump = false
    ∧ (net.keyed i j).pending = [] :=
    fun i => hidle (.collect i j)
  -- the lane that has nothing left for the reduction has written all its tables
  obtain ⟨i, hi⟩ := hidle (.reduce j)
  have hlane : (net.counts0 j i).consumed
    = (jobsOf (lanes i)).flatMap (fun job =>
      frame (dumped F.update (job.map (kv j)))) := by
    have hkeyed : (net.keyed i j).consumed
      = (lanes i).map (Flit.map (kv j)) := by
      rw [Fifo.consumed_eq_written (hcollect i).2, h.split i j,
        List.map_congr_left (fun x _ => hF.key x j),
          Fifo.consumed_eq_written (hidle (.split i)),
        hhashed i]
    rw [Fifo.consumed_eq_written hi,
      ((h.collect i j).consuming (hcollect i).1).2.2, hkeyed,
      jobsOf_map, List.flatMap_map]
  refine (h.dealt_isPrefix hF hN hdealt
    (fun i => by rw [hhashed i]) j).eq_of_length ?_
  rw [← (h.reduce j).length i, hlane,
    length_flatMap_block (fun job => frame (dumped F.update (job.map (kv j))))
      (jobsOf (lanes i))
      (fun job _ => by rw [length_frame, length_dumped]),
    length_flatMap_block _ jobs
      (fun job _ => by rw [length_frame, length_tableList]),
    hdealt.length i]

variable (op) in
/-- **What has happened in a sketch network is bounded** by what its lanes
carry. Together with the calls that change a stream making it grow, this is why
the network comes to rest. -/
theorem Rows.Sound.dealt_size_le {net : Rows N R H w I V} (h : net.Sound F)
    (hF : F.IsSketch kv op inc) (hN : 0 < N) {jobs : List (Multiset (BitVec H))}
    {m n : ℕ} {lanes : Fin N → List (Flit (BitVec H))}
    (hdealt : Dealt jobs lanes) (hjobs : jobs.length ≤ n)
    (hlanes : ∀ i, (lanes i).length ≤ m)
    (hhashed : ∀ i, (net.hashed i).written <+: lanes i) :
    Growing.size net.streams
      ≤ N * (2 * m) + (N * (R * (2 * m))
        + (R * (N * (2 * (n * 2 ^ w))) + R * (2 * (n * 2 ^ w)))) := by
  have h₁ : ∀ i, (net.hashed i).written.length ≤ m := fun i =>
    (hhashed i).length_le.trans (hlanes i)
  have h₂ : ∀ i j, (net.keyed i j).written.length ≤ m := fun i j => by
    rw [h.split i j, List.length_map]
    exact ((net.hashed i).consumed_isPrefix.length_le).trans (h₁ i)
  have h₃ : ∀ j i, (net.counts0 j i).written.length ≤ n * 2 ^ w := fun j i => by
    have hle := (h.counts0_isPrefix hF hhashed i j).length_le
    rw [length_flatMap_block _ _
      (fun job _ => by rw [length_frame, length_dumped]),
      hdealt.length i] at hle
    exact hle.trans (Nat.mul_le_mul_right _ hjobs)
  have h₄ : ∀ j, (net.counts j).written.length ≤ n * 2 ^ w := fun j => by
    have hle := (h.dealt_isPrefix hF hN hdealt hhashed j).length_le
    rw [length_flatMap_block _ _
      (fun job _ => by rw [length_frame, length_tableList])] at hle
    exact hle.trans (Nat.mul_le_mul_right _ hjobs)
  refine Nat.add_le_add (size_family_le (fun i => Fifo.size_le (h₁ i)))
    (Nat.add_le_add
    (size_family_le (fun i => size_family_le (fun j => Fifo.size_le (h₂ i j))))
      (Nat.add_le_add
    (size_family_le (fun j => size_family_le (fun i => Fifo.size_le (h₃ j i))))
    (size_family_le (fun j => Fifo.size_le (h₄ j)))))

/-! ### Items hashed on their lanes

The same three results for lanes that are fed by a funnel and hash what they
get. -/

omit [Std.LawfulIdentity op 0] in
/-- The tables of the jobs of a distribution, by its items. -/
theorem flatMap_hashedTable {N0 : ℕ} (hash : BitVec 32 → BitVec H)
    (words : List (Flit (BitVec (N0 * 32)))) (j : Fin R) :
    ((jobsOf words).map (fun job =>
      Multiset.map hash (job.flatMap wordItems : List (BitVec 32)))).flatMap
        (fun job =>
        frame (tableList (hashedTable op kv inc j job)))
      = (jobsOf words).flatMap (fun job =>
        frame (tableList
          (rowTable op kv inc hash j (job.flatMap wordItems : List _)))) := by
  rw [List.flatMap_map]
  simp only [hashedTable_map]

/-- **What the rows write is the beginning of the tables of the jobs**, however
the items are distributed to the lanes. -/
theorem Rows.Sound.counts_isPrefix {net : Rows N R H w I V} (h : net.Sound F)
    (hF : F.IsSketch kv op inc) (hN : 0 < N) (hash : BitVec 32 → BitVec H)
    {N0 : ℕ} {words : List (Flit (BitVec (N0 * 32)))}
    {lanes : Fin N → List (Flit (BitVec 32))} (hdist : Distributed words lanes)
    (hhashed : ∀ i, (net.hashed i).written <+: (lanes i).map (Flit.map hash))
    (j : Fin R) :
    (net.counts j).written <+: (jobsOf words).flatMap (fun job =>
      frame (tableList
        (rowTable op kv inc hash j (job.flatMap wordItems : List _)))) := by
  rw [← flatMap_hashedTable]
  exact h.dealt_isPrefix hF hN (hdist.dealt hash) hhashed j

variable (op) in
/-- **An idle sketch network has written the tables of all jobs**, when the
lanes have carried them all. -/
theorem Rows.Sound.counts_eq {net : Rows N R H w I V} (h : net.Sound F)
    (hF : F.IsSketch kv op inc) (hN : 0 < N) (hash : BitVec 32 → BitVec H)
    {N0 : ℕ} {words : List (Flit (BitVec (N0 * 32)))}
    {lanes : Fin N → List (Flit (BitVec 32))} (hdist : Distributed words lanes)
    (hhashed : ∀ i, (net.hashed i).written = (lanes i).map (Flit.map hash))
    (hidle : ∀ p, (net.fire F p).streams = net.streams) (j : Fin R) :
    (net.counts j).written = (jobsOf words).flatMap (fun job =>
      frame (tableList
        (rowTable op kv inc hash j (job.flatMap wordItems : List _)))) := by
  have hall : ∀ k, net.Idle k := fun k => by
    cases k with
    | split i => exact Rows.idle_of_fire (hidle (.split i))
    | collect i j => exact Rows.idle_of_fire (hidle (.collect i j 0))
    | reduce j => exact Rows.idle_of_fire (hidle (.reduce j))
  rw [← flatMap_hashedTable]
  exact h.dealt_eq op hF hN (hdist.dealt hash) hhashed hall j

variable (op) in
/-- **What has happened in a sketch network is bounded** by the words its lanes
carry. -/
theorem Rows.Sound.size_le {net : Rows N R H w I V} (h : net.Sound F)
    (hF : F.IsSketch kv op inc) (hN : 0 < N) (hash : BitVec 32 → BitVec H)
    {N0 n : ℕ} {words : List (Flit (BitVec (N0 * 32)))}
    {lanes : Fin N → List (Flit (BitVec 32))} (hdist : Distributed words lanes)
    (hwords : words.length ≤ n)
    (hhashed : ∀ i, (net.hashed i).written <+: (lanes i).map (Flit.map hash)) :
    Growing.size net.streams
      ≤ N * (2 * (n * N0)) + (N * (R * (2 * (n * N0)))
        + (R * (N * (2 * (n * 2 ^ w))) + R * (2 * (n * 2 ^ w)))) := by
  refine h.dealt_size_le op hF hN (hdist.dealt hash) ?_ (fun i => ?_) hhashed
  · rw [List.length_map]
    exact (length_jobsOf_le words).trans hwords
  · calc ((lanes i).map (Flit.map hash)).length = (lanes i).length :=
             List.length_map _
      _ ≤ ∑ i, (lanes i).length :=
          Finset.single_le_sum (f := fun i => (lanes i).length)
            (fun _ _ => Nat.zero_le _)
            (Finset.mem_univ i)
      _ = words.length * N0 := hdist.total
      _ ≤ n * N0 := Nat.mul_le_mul_right N0 hwords

end Tables

end Skt.Hardware
