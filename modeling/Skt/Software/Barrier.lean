import Skt.Lib.Runs

/-!
# The barrier of the clients

`barrier_cross` lets `count` threads wait for each other. A thread counts itself
under the mutex; if it is not the last it waits on the condition variable, and
the last one wakes the others and starts the count over. `pthread_cond_wait` is
called once and not in a loop, so a thread that is woken for no reason leaves
the barrier early, which the standard allows to happen.

`EXEC_IN_DEC_ID_ORDER` puts the barrier to use: every thread counts `__i` down
from `nthr - 1`, executes a block where `__i` is its own id, and crosses the
barrier. The model is that loop, with `n` threads on a barrier for `n`. A move
is one statement of one thread; that a thread is woken for no reason is a move
of its own. The list of the blocks entered is kept for the statements only.

Without such wake-ups the barrier keeps the rounds of the threads apart, however
often it is crossed again, and the blocks are executed one after another by
decreasing id.

The delicate point is that the barrier is reused at once. A fast thread may be
back at it, and count itself, while slow ones are still on their way out. They
are no longer counted then, since the last thread has set `crossing` to zero
before anybody could leave: it does so under the mutex, which the woken threads
need to return from their wait.
-/

namespace Skt

open Runs

/-- The control point of a thread. The wait is split in two, for the thread
gives up the mutex and takes it again. -/
inductive BarrierPc where
  /-- at the test of `__i` -/
  | testing
  /-- in the block -/
  | inBlock
  /-- at `pthread_mutex_lock` -/
  | locking
  /-- at `b->crossing++` -/
  | counting
  /-- at `if (b->crossing < b->count)` -/
  | deciding
  /-- blocked in `pthread_cond_wait` -/
  | waiting
  /-- woken in `pthread_cond_wait`, which takes the mutex before it returns -/
  | waking
  /-- at `pthread_cond_broadcast` -/
  | broadcasting
  /-- at `b->crossing = 0` -/
  | resetting
  /-- at `pthread_mutex_unlock` -/
  | unlocking
  deriving DecidableEq

/-- The barrier and the threads that cross it. `count` does not change and is a
parameter of the moves. -/
structure Barrier (n : ℕ) where
  /-- The thread that has the mutex, if one has. -/
  mutex : Option (Fin n)
  /-- `crossing`: how many threads have come to the barrier of this turn. -/
  crossing : ℕ
  /-- The statement each thread is at. -/
  pc : Fin n → BarrierPc
  /-- `__i + 1`: the turns a thread still has to make. -/
  turns : Fin n → ℕ
  /-- The ids of the threads whose blocks were entered, in that order. -/
  blocks : List ℕ

variable {n : ℕ}

/-- The start of `EXEC_IN_DEC_ID_ORDER(id, nthr)` after `barrier_init`. All
threads are at the first test of their loops. -/
def Barrier.init (n nthr : ℕ) : Barrier n where
  mutex := none
  crossing := 0
  pc := fun _ => .testing
  turns := fun _ => nthr
  blocks := []

/-! ## The moves -/

/-- Thread `t` goes on to another statement, and nothing else changes. -/
def Barrier.goto (s : Barrier n) (t : Fin n) (pc : BarrierPc) : Barrier n :=
  { s with pc := Function.update s.pc t pc }

/-- What a broadcast does to a thread: it wakes it if it waits. -/
def BarrierPc.woken : BarrierPc → BarrierPc
  | .waiting => .waking
  | pc => pc

/-- **A statement of thread `t`**, on a barrier for `count` threads.

Waiting releases the mutex in the same move that puts the thread to sleep, as
`pthread_cond_wait` does. The last turn of the loop ends at the test, where
`__i` is below zero. -/
def Barrier.threadStep (count : ℕ) (s : Barrier n) (t : Fin n) :
    Option (Barrier n) :=
  match s.pc t with
  | .testing =>
    if s.turns t = 0 then none
    else if t.val + 1 = s.turns t then
      some { s.goto t .inBlock with blocks := s.blocks ++ [t.val] }
    else some (s.goto t .locking)
  | .inBlock => some (s.goto t .locking)
  | .locking =>
    match s.mutex with
    | none => some { s.goto t .counting with mutex := some t }
    | some _ => none
  | .counting => some { s.goto t .deciding with crossing := s.crossing + 1 }
  | .deciding =>
    if s.crossing < count then some { s.goto t .waiting with mutex := none }
    else some (s.goto t .broadcasting)
  | .waiting => none
  | .waking =>
    match s.mutex with
    | none => some { s.goto t .unlocking with mutex := some t }
    | some _ => none
  | .broadcasting =>
    some { s with pc := Function.update (fun u => (s.pc u).woken) t .resetting }
  | .resetting => some { s.goto t .unlocking with crossing := 0 }
  | .unlocking => some { s.goto t .testing with
      mutex := none
      turns := Function.update s.turns t (s.turns t - 1) }

/-- The threads, and the wake-ups that no broadcast caused, which the condition
variable allows. -/
inductive BarrierActor (n : ℕ) where
  | thread (t : Fin n)
  | spurious (t : Fin n)

/-- **One move**, of a thread or of whatever wakes a thread for no reason. -/
def Barrier.step (count : ℕ) (s : Barrier n) :
    BarrierActor n → Option (Barrier n)
  | .thread t => s.threadStep count t
  | .spurious t => if s.pc t = .waiting then some (s.goto t .waking) else none

/-- **What a statement of thread `t` does**, one case for each. The invariants
are proved by cases on this relation. -/
inductive Barrier.Moves (count : ℕ) (s : Barrier n) (t : Fin n) :
    Barrier n → Prop where
  /-- The turn is the thread's own, and it enters its block. -/
  | enter (hpc : s.pc t = .testing) (hid : t.val + 1 = s.turns t) :
    Moves count s t { s.goto t .inBlock with blocks := s.blocks ++ [t.val] }
  /-- The turn is another's, and the thread goes on to the barrier. -/
  | pass (hpc : s.pc t = .testing) (hturns : s.turns t ≠ 0)
    (hid : t.val + 1 ≠ s.turns t) :
    Moves count s t (s.goto t .locking)
  /-- It comes to the barrier from its block as well. -/
  | leave (hpc : s.pc t = .inBlock) : Moves count s t (s.goto t .locking)
  /-- `pthread_mutex_lock`: it takes the mutex if nobody has it. -/
  | lock (hpc : s.pc t = .locking) (hfree : s.mutex = none) :
    Moves count s t { s.goto t .counting with mutex := some t }
  /-- `crossing++`, under the mutex. -/
  | count (hpc : s.pc t = .counting) :
    Moves count s t { s.goto t .deciding with crossing := s.crossing + 1 }
  /-- Not all threads have come: the thread waits, and gives the mutex back. -/
  | wait (hpc : s.pc t = .deciding) (hlt : s.crossing < count) :
    Moves count s t { s.goto t .waiting with mutex := none }
  /-- All have: the thread is the last one, and wakes the others. -/
  | arriveLast (hpc : s.pc t = .deciding) (hge : count ≤ s.crossing) :
    Moves count s t (s.goto t .broadcasting)
  /-- A thread that was woken has to take the mutex again. It does not look at
  `crossing` once more. -/
  | wake (hpc : s.pc t = .waking) (hfree : s.mutex = none) :
    Moves count s t { s.goto t .unlocking with mutex := some t }
  /-- All that wait are woken at once. -/
  | broadcast (hpc : s.pc t = .broadcasting) :
    Moves count s t
      { s with pc := Function.update (fun u => (s.pc u).woken) t .resetting }
  /-- `crossing = 0`, by the last thread. -/
  | reset (hpc : s.pc t = .resetting) :
    Moves count s t { s.goto t .unlocking with crossing := 0 }
  /-- The mutex is given back, and the next turn begins. -/
  | unlock (hpc : s.pc t = .unlocking) :
    Moves count s t { s.goto t .testing with
      mutex := none
      turns := Function.update s.turns t (s.turns t - 1) }

/-- A statement does one of these, with the tests it made as hypotheses. -/
theorem Barrier.moves_of_threadStep {count : ℕ} {s s' : Barrier n} {t : Fin n}
    (h : s.threadStep count t = some s') : s.Moves count t s' := by
  unfold Barrier.threadStep at h
  cases hpc : s.pc t with
  | testing =>
    simp only [hpc] at h
    split at h
    · cases h
    · next hturns =>
      split at h
      · next hid =>
        cases h
        exact .enter hpc hid
      · next hid =>
        cases h
        exact .pass hpc hturns hid
  | inBlock =>
    simp only [hpc, Option.some.injEq] at h
    subst h
    exact .leave hpc
  | locking =>
    simp only [hpc] at h
    split at h
    · next hfree =>
      cases h
      exact .lock hpc hfree
    · cases h
  | counting =>
    simp only [hpc, Option.some.injEq] at h
    subst h
    exact .count hpc
  | deciding =>
    simp only [hpc] at h
    split at h
    · next hlt =>
      cases h
      exact .wait hpc hlt
    · next hge =>
      cases h
      exact .arriveLast hpc (Nat.le_of_not_lt hge)
  | waiting =>
    simp only [hpc] at h
    cases h
  | waking =>
    simp only [hpc] at h
    split at h
    · next hfree =>
      cases h
      exact .wake hpc hfree
    · cases h
  | broadcasting =>
    simp only [hpc, Option.some.injEq] at h
    subst h
    exact .broadcast hpc
  | resetting =>
    simp only [hpc, Option.some.injEq] at h
    subst h
    exact .reset hpc
  | unlocking =>
    simp only [hpc, Option.some.injEq] at h
    subst h
    exact .unlock hpc

/-! ## What the barrier is for

Crossing and arriving are counted separately for each thread. The specification
compares the two counts, of any two threads and at any moment. -/

/-- How often a thread has returned from the barrier. Each turn of the loop
crosses it once. -/
def Barrier.crossed (nthr : ℕ) (s : Barrier n) (t : Fin n) :
    ℕ := nthr - s.turns t

/-- Whether a thread has counted itself in its current turn, by where it is. -/
def BarrierPc.counted : BarrierPc → Bool
  | .deciding | .waiting | .waking | .broadcasting | .resetting | .unlocking =>
    true
  | _ => false

/-- How often a thread has arrived at the barrier, its current turn included.
The turns that are left are subtracted from all of them. -/
def Barrier.arrived (nthr : ℕ) (s : Barrier n) (t : Fin n) : ℕ :=
  s.crossed nthr t + if (s.pc t).counted then 1 else 0

/-- **The barrier separates the turns**: no thread has returned from it more
often than every thread has arrived at it. -/
def Barrier.Separated (nthr : ℕ) (s : Barrier n) : Prop :=
  ∀ t u, s.crossed nthr t ≤ s.arrived nthr u

/-- All threads are through: they have made their turns and are at the test. -/
def Barrier.Finished (s : Barrier n) : Prop :=
  ∀ t, s.pc t = .testing ∧ s.turns t = 0

instance (s : Barrier n) : Decidable s.Finished :=
  inferInstanceAs (Decidable (∀ t, s.pc t = .testing ∧ s.turns t = 0))

/-! ## The invariant

It is stated for the number of times the barrier has opened, which no variable
of the source holds. That number goes up at a broadcast. -/

/-- Whether a thread has the mutex, by where it is. -/
def BarrierPc.owns : BarrierPc → Bool
  | .counting | .deciding | .broadcasting | .resetting | .unlocking => true
  | _ => false

/-- One for a thread that is counted in `crossing`. A thread that was woken is
not, although it has not left yet. -/
def BarrierPc.current : BarrierPc → ℕ
  | .deciding | .waiting | .broadcasting => 1
  | _ => 0

/-- **The turn a thread is at**, when the barrier has opened `r` times: its own,
before it has counted itself and while it waits, or still the last one on its
way out. -/
def BarrierPc.Fits (nthr r id : ℕ) (turns : ℕ) : BarrierPc → Prop
  | .testing => turns + r = nthr
  | .inBlock => turns + r = nthr ∧ turns = id + 1
  | .locking | .counting | .deciding | .waiting | .broadcasting =>
    turns + r = nthr ∧ 0 < turns
  | .waking | .resetting | .unlocking => turns + r = nthr + 1 ∧ 0 < turns

/-- **The invariant of the barrier.** It has opened `r` times, the mutex is with
the thread that has it, and `crossing` is the number of threads that wait for it
to open again.

Between the broadcast and the reset `crossing` is still the old count. The last
three fields say what holds there: everybody was counted, nobody is any more,
and outside of these statements the count is below `n`. -/
structure Barrier.Sound (nthr : ℕ) (s : Barrier n) (r : ℕ) : Prop where
  /-- Every thread is at a statement of turn `r`, or through it and before the
  next barrier. -/
  fits : ∀ t, (s.pc t).Fits nthr r t.val (s.turns t)
  /-- Who has the mutex is at a statement under it, and nobody else is. -/
  owner : ∀ t, s.mutex = some t ↔ (s.pc t).owns = true
  /-- `crossing` counts the threads that have come to this barrier. -/
  crossing : (∀ t, s.pc t ≠ .resetting) → s.crossing = ∑ t, (s.pc t).current
  /-- When it is about to be reset, all of them have been let through. -/
  opened : ∀ t, s.pc t = .resetting → ∑ u, (s.pc u).current = 0
  /-- It is reset by a thread that has seen all the others come. -/
  full : ∀ t, s.pc t = .broadcasting → s.crossing = n
  /-- As long as nobody is about to decide, some thread has still to come. -/
  closed : (∀ t, s.pc t ≠ .deciding ∧ s.pc t ≠ .broadcasting
    ∧ s.pc t ≠ .resetting) →
    s.crossing < n

/-! ## The invariant, move by move -/

/-- A thread without the mutex is not about to open the barrier. -/
theorem BarrierPc.ne_of_not_owns {pc : BarrierPc} (h : pc.owns = false) :
    pc ≠ .deciding ∧ pc ≠ .broadcasting ∧ pc ≠ .resetting := by
  cases pc <;> simp [BarrierPc.owns] at h ⊢

/-- A thread that is counted and does not have the mutex waits. It is what a
thread that has the mutex knows of the others. -/
theorem BarrierPc.eq_waiting {pc : BarrierPc} (h : pc.owns = false)
    (hcurrent : pc.current = 1) :
    pc = .waiting := by
  cases pc <;> simp [BarrierPc.owns, BarrierPc.current] at h hcurrent ⊢

/-- A thread counts once. -/
theorem BarrierPc.current_le (pc : BarrierPc) : pc.current ≤ 1 := by
  cases pc <;> decide

namespace Barrier.Sound

variable {nthr r : ℕ} {s : Barrier n} {t : Fin n}

/-- Only one thread has the mutex, since the mutex names it. -/
theorem not_owns (hs : s.Sound nthr r) (ht : (s.pc t).owns = true)
    {u : Fin n} (hu : u ≠ t) :
    (s.pc u).owns = false := by
  by_contra h
  have hmutex := (hs.owner t).mpr ht
  rw [(hs.owner u).mpr (Bool.eq_true_of_not_eq_false h)] at hmutex
  exact hu (Option.some.inj hmutex)

/-- Nobody has the mutex while it is free. -/
theorem not_owns_of_free (hs : s.Sound nthr r)
    (hfree : s.mutex = none) (u : Fin n) :
    (s.pc u).owns = false := by
  by_contra h
  have hmutex := (hs.owner u).mpr (Bool.eq_true_of_not_eq_false h)
  rw [hfree] at hmutex
  cases hmutex

/-- At the start all threads are at their first test. -/
theorem init (hn : 0 < n) : (Barrier.init n nthr).Sound nthr 0 where
  fits _ := rfl
  owner _ := ⟨nofun, nofun⟩
  crossing _ := Finset.sum_const_zero.symm
  opened _ := nofun
  full _ := nofun
  closed _ := hn

/-- **A move of a thread outside the mutex** changes nothing but where it is. It
may happen while another thread is at the barrier. -/
theorem outside (hs : s.Sound nthr r) {pc : BarrierPc} (blocks : List ℕ)
    (hfrom : s.pc t = .testing ∨ s.pc t = .inBlock)
    (hto : pc = .inBlock ∨ pc = .locking)
    (hfits : pc.Fits nthr r t.val (s.turns t)) :
    Sound nthr { s.goto t pc with blocks := blocks } r := by
  have howns : pc.owns = (s.pc t).owns := by
    rcases hfrom with hfrom | hfrom <;> rcases hto with rfl | rfl
      <;> rw [hfrom] <;> rfl
  have hcurrent : pc.current = (s.pc t).current := by
    rcases hfrom with hfrom | hfrom <;> rcases hto with rfl | rfl
      <;> rw [hfrom] <;> rfl
  have hplain : ∀ q : BarrierPc, q.owns = true →
      ∀ u, (Function.update s.pc t pc u = q ↔ s.pc u = q) := by
    intro q hq u
    by_cases hu : u = t
    · subst hu
      rw [Function.update_self]
      refine iff_of_false (fun h => ?_) (fun h => ?_)
      · rw [← h] at hq
        rcases hto with rfl | rfl <;> cases hq
      · rw [← h] at hq
        rcases hfrom with hfrom | hfrom <;> rw [hfrom] at hq <;> cases hq
    · rw [Function.update_of_ne hu]
  have hsum : ∑ u, (Function.update s.pc t pc u).current
    = ∑ u, (s.pc u).current :=
    sum_update_of_eq BarrierPc.current hcurrent
  refine ⟨(Function.forall_update_iff s.pc _).mpr ⟨hfits, fun u _ => hs.fits u⟩,
    (Function.forall_update_iff s.pc fun u pc => s.mutex = some u
      ↔ pc.owns = true).mpr
      ⟨?_, fun u _ => hs.owner u⟩, fun h => ?_, fun u hu => ?_,
    fun u hu => hs.full u ((hplain _ rfl u).mp hu), fun h =>
      hs.closed fun u => ?_⟩
  · rw [howns]
    exact hs.owner t
  · exact (hs.crossing fun u hu =>
      h u ((hplain _ rfl u).mpr hu)).trans hsum.symm
  · exact hsum.trans (hs.opened u ((hplain _ rfl u).mp hu))
  · obtain ⟨h₁, h₂, h₃⟩ := h u
    exact ⟨fun hu => h₁ ((hplain _ rfl u).mpr hu), fun hu =>
      h₂ ((hplain _ rfl u).mpr hu),
      fun hu => h₃ ((hplain _ rfl u).mpr hu)⟩

/-- **A move under the mutex**: the thread that makes it is the only one that
counts for what the invariant says about the opening of the barrier. -/
theorem alone (hs : s.Sound nthr r) (halone : ∀ u, u ≠ t →
    (s.pc u).owns = false)
    (pc : BarrierPc) {mutex : Option (Fin n)} {crossing : ℕ} {turns : Fin n → ℕ}
    (hmutex : mutex = if pc.owns then some t else none)
    (hturns : ∀ u, u ≠ t → turns u = s.turns u)
    (hfits : pc.Fits nthr r t.val (turns t))
    (hcrossing : crossing = ∑ u, (Function.update s.pc t pc u).current)
    (hopened : pc ≠ .resetting) (hfull : pc = .broadcasting → crossing = n)
    (hclosed : pc ≠ .deciding → pc ≠ .broadcasting → crossing < n) :
    Sound nthr { s.goto t pc with
      mutex := mutex, crossing := crossing, turns := turns } r := by
  have hself : Function.update s.pc t pc t = pc :=
    Function.update_self t pc s.pc
  have hother : ∀ u, u ≠ t → Function.update s.pc t pc u = s.pc u :=
    fun u hu => Function.update_of_ne hu pc s.pc
  refine ⟨fun u => ?_, fun u => ?_, fun _ =>
    hcrossing, fun u hu => ?_, fun u hu => ?_,
    fun h => hclosed (fun hpc => (h t).1 (hself.trans hpc))
      (fun hpc => (h t).2.1 (hself.trans hpc))⟩
  · show (Function.update s.pc t pc u).Fits nthr r u.val (turns u)
    by_cases hu : u = t
    · rw [hu, hself]
      exact hfits
    · rw [hother u hu, hturns u hu]
      exact hs.fits u
  · show mutex = some u ↔ (Function.update s.pc t pc u).owns = true
    by_cases hu : u = t
    · rw [hu, hself, hmutex]
      cases pc.owns <;> simp
    · rw [hother u hu, halone u hu, hmutex]
      cases pc.owns <;> simp [Ne.symm hu]
  · replace hu : Function.update s.pc t pc u = .resetting := hu
    by_cases hut : u = t
    · rw [hut, hself] at hu
      exact absurd hu hopened
    · rw [hother u hut] at hu
      exact absurd hu (BarrierPc.ne_of_not_owns (halone u hut)).2.2
  · replace hu : Function.update s.pc t pc u = .broadcasting := hu
    by_cases hut : u = t
    · rw [hut, hself] at hu
      exact hfull hu
    · rw [hother u hut] at hu
      exact absurd hu (BarrierPc.ne_of_not_owns (halone u hut)).2.1

/-- Before the broadcast everybody else is waiting: `n` threads are counted, one
of them has the mutex, and the others can only wait. -/
theorem waiting_of_broadcasting (hs : s.Sound nthr r)
    (hpc : s.pc t = .broadcasting) {u : Fin n}
    (hu : u ≠ t) : s.pc u = .waiting := by
  have hothers : ∀ v, v ≠ t → (s.pc v).owns = false :=
    fun v hv => hs.not_owns (by rw [hpc]; rfl) hv
  have hfull : ∑ v, (s.pc v).current = n := by
    rw [← hs.crossing fun v hv => ?_, hs.full t hpc]
    by_cases hvt : v = t
    · rw [hvt, hpc] at hv
      cases hv
    · exact (BarrierPc.ne_of_not_owns (hothers v hvt)).2.2 hv
  have hones : ∑ v, (s.pc v).current = ∑ _v : Fin n, 1 := by
    rw [hfull, Finset.sum_const, Finset.card_univ, Fintype.card_fin,
      smul_eq_mul, mul_one]
  exact BarrierPc.eq_waiting (hothers u hu)
    ((Finset.sum_eq_sum_iff_of_le fun v _ => (s.pc v).current_le).mp hones u
      (Finset.mem_univ u))

/-- **The broadcast opens the barrier.** All the threads that wait are on their
way out at once, and the turns of all of them are the ones it opened for. -/
theorem broadcast (hs : s.Sound nthr r) (hpc : s.pc t = .broadcasting) :
    Sound nthr
      { s with pc := Function.update (fun u => (s.pc u).woken) t .resetting }
      (r + 1) := by
  have hwaiting : ∀ u, u ≠ t → s.pc u = .waiting :=
    fun u hu => hs.waiting_of_broadcasting hpc hu
  have hpc' : ∀ u, u ≠ t →
      Function.update (fun u => (s.pc u).woken) t .resetting u = .waking := by
    intro u hu
    rw [Function.update_of_ne hu, hwaiting u hu]
    rfl
  have hnone : ∑ u,
    (Function.update (fun u => (s.pc u).woken) t .resetting u).current = 0 := by
    refine Finset.sum_eq_zero fun u _ => ?_
    by_cases hu : u = t
    · rw [hu, Function.update_self]
      rfl
    · rw [hpc' u hu]
      rfl
  have hself : Function.update (fun u => (s.pc u).woken) t BarrierPc.resetting t
    = .resetting :=
    Function.update_self t _ _
  have hfits := hs.fits t
  rw [hpc] at hfits
  refine ⟨fun u => ?_, fun u => ?_, fun h => absurd hself (h t),
    fun _ _ => hnone,
    fun u hu => ?_, fun h => absurd hself (h t).2.2⟩
  · by_cases hu : u = t
    · subst hu
      simp only [Function.update_self]
      exact ⟨(Nat.add_assoc ..).symm.trans (congrArg (· + 1) hfits.1), hfits.2⟩
    · have hfits := hs.fits u
      rw [hwaiting u hu] at hfits
      simp only [hpc' u hu]
      exact ⟨(Nat.add_assoc ..).symm.trans (congrArg (· + 1) hfits.1), hfits.2⟩
  · by_cases hu : u = t
    · subst hu
      simp only [Function.update_self]
      rw [hs.owner u, hpc]
      rfl
    · simp only [hpc' u hu]
      rw [hs.owner u, hwaiting u hu]
      rfl
  · by_cases hut : u = t
    · subst hut
      simp only [Function.update_self] at hu
      cases hu
    · simp only [hpc' u hut] at hu
      cases hu

/-- **Every statement keeps the invariant**, and the broadcast is what opens the
barrier. -/
theorem threadStep
    (hs : s.Sound nthr r) {s' : Barrier n} (h : s.threadStep n t = some s') :
    s'.Sound nthr (r + if s.pc t = .broadcasting then 1 else 0) := by
  have hfits := hs.fits t
  -- what a thread under the mutex knows of the others
  have hothers : (s.pc t).owns = true → ∀ u, u ≠ t → (s.pc u).owns = false :=
    fun ht u hu => hs.not_owns ht hu
  have hmutex : (s.pc t).owns = true → s.mutex = some t := (hs.owner t).mpr
  have hcrossing : (s.pc t).owns = true → s.pc t ≠ .resetting →
      s.crossing = ∑ u, (s.pc u).current := by
    refine fun ht hne => hs.crossing fun u hu => ?_
    by_cases hut : u = t
    · exact hne (hut ▸ hu)
    · exact (BarrierPc.ne_of_not_owns (hothers ht u hut)).2.2 hu
  have hsum : ∀ pc : BarrierPc, pc.current = (s.pc t).current →
      ∑ u, (Function.update s.pc t pc u).current = ∑ u, (s.pc u).current :=
    fun pc h => sum_update_of_eq BarrierPc.current h
  cases Barrier.moves_of_threadStep h with
  | enter hpc hid =>
    rw [hpc] at hfits ⊢
    exact hs.outside _ (Or.inl hpc) (Or.inl rfl) ⟨hfits, hid.symm⟩
  | pass hpc hturns hid =>
    rw [hpc] at hfits ⊢
    exact hs.outside s.blocks (Or.inl hpc) (Or.inr rfl)
      ⟨hfits, Nat.pos_of_ne_zero hturns⟩
  | leave hpc =>
    rw [hpc] at hfits ⊢
    exact hs.outside s.blocks (Or.inr hpc) (Or.inr rfl)
      ⟨hfits.1, by rw [hfits.2]; omega⟩
  | lock hpc hfree =>
    rw [hpc] at hfits hsum ⊢
    have hnone := hs.not_owns_of_free hfree
    exact hs.alone (fun u _ => hnone u) .counting rfl (fun _ _ => rfl) hfits
      ((hs.crossing fun u => (BarrierPc.ne_of_not_owns (hnone u)).2.2).trans
        (hsum .counting rfl).symm)
      (by decide) nofun (fun _ _ =>
        hs.closed fun u => BarrierPc.ne_of_not_owns (hnone u))
  | count hpc =>
    rw [hpc] at hfits hothers hcrossing hmutex ⊢
    have hadd := sum_update_of_zero BarrierPc.current (f :=
      s.pc) (i := t) .deciding
      (by rw [hpc]; rfl)
    exact hs.alone (hothers rfl) .deciding (hmutex rfl) (fun _ _ => rfl) hfits
      (by rw [hadd, hcrossing rfl (by decide)]; rfl) (by decide)
        nofun (fun h _ => absurd rfl h)
  | wait hpc hlt =>
    rw [hpc] at hfits hothers hcrossing hmutex hsum ⊢
    exact hs.alone (hothers rfl) .waiting rfl (fun _ _ => rfl) hfits
      ((hcrossing rfl (by decide)).trans
        (hsum .waiting rfl).symm) (by decide) nofun
      (fun _ _ => hlt)
  | arriveLast hpc hge =>
    rw [hpc] at hfits hothers hcrossing hmutex hsum ⊢
    have hle : s.crossing ≤ n := by
      rw [hcrossing rfl (by decide)]
      refine (Finset.sum_le_sum fun u _ => (s.pc u).current_le).trans_eq ?_
      rw [Finset.sum_const,
        Finset.card_univ, Fintype.card_fin, smul_eq_mul, mul_one]
    exact hs.alone (hothers rfl)
      .broadcasting (hmutex rfl) (fun _ _ => rfl) hfits
      ((hcrossing rfl (by decide)).trans (hsum .broadcasting rfl).symm) (by
        decide)
      (fun _ => le_antisymm hle hge) (fun _ h => absurd rfl h)
  | wake hpc hfree =>
    rw [hpc] at hfits hsum ⊢
    have hnone := hs.not_owns_of_free hfree
    exact hs.alone (fun u _ => hnone u) .unlocking rfl (fun _ _ => rfl) hfits
      ((hs.crossing fun u => (BarrierPc.ne_of_not_owns (hnone u)).2.2).trans
        (hsum .unlocking rfl).symm)
      (by decide) nofun (fun _ _ =>
        hs.closed fun u => BarrierPc.ne_of_not_owns (hnone u))
  | broadcast hpc =>
    rw [hpc]
    exact hs.broadcast hpc
  | reset hpc =>
    rw [hpc] at hfits hothers hmutex hsum ⊢
    exact hs.alone (hothers rfl) .unlocking (hmutex rfl) (fun _ _ => rfl) hfits
      ((hs.opened t hpc).symm.trans (hsum .unlocking rfl).symm) (by
        decide) nofun (fun _ _ => t.pos)
  | unlock hpc =>
    rw [hpc] at hfits hothers hcrossing hsum ⊢
    have hlt : s.crossing < n := hs.closed fun u => by
      by_cases hu : u = t
      · rw [hu, hpc]
        decide
      · exact BarrierPc.ne_of_not_owns (hothers rfl u hu)
    have hturns : Function.update s.turns t (s.turns t - 1) t + r = nthr := by
      obtain ⟨h₁, h₂⟩ := hfits
      rw [Function.update_self]
      omega
    exact hs.alone (hothers rfl) .testing
      rfl (fun u hu => Function.update_of_ne hu _ _) hturns
      ((hcrossing rfl (by decide)).trans
        (hsum .testing rfl).symm) (by decide) nofun
      (fun _ _ => hlt)

end Barrier.Sound

/-- **In every run in which no thread is woken for no reason** the invariant
holds, for some number of times the barrier has opened. -/
theorem Barrier.sound_of_reachable {nthr : ℕ} (hn : 0 < n) {s : Barrier n}
    (hs : Reachable (fun s t => Barrier.step n s (.thread t))
      (Barrier.init n nthr) s) :
    ∃ r, s.Sound nthr r := by
  refine hs.invariant (I := fun s : Barrier n => ∃ r,
    s.Sound nthr r) ⟨0, .init hn⟩
    fun s t s' hr h => ?_
  obtain ⟨r, hr⟩ := hr
  exact ⟨_, hr.threadStep h⟩

/-! ## The turns are kept apart -/

/-- A barrier that has opened `r` times has been crossed so often at most, and
every thread has arrived at it so often at least. -/
theorem Barrier.Sound.separated {nthr r : ℕ} {s : Barrier n}
    (hs : s.Sound nthr r) :
    s.Separated nthr := by
  have hcrossed : ∀ t, s.crossed nthr t ≤ r := by
    intro t
    have hfits := hs.fits t
    unfold Barrier.crossed
    cases hpc : s.pc t <;> rw [hpc] at hfits
      <;> unfold BarrierPc.Fits at hfits <;> omega
  have harrived : ∀ u, r ≤ s.arrived nthr u := by
    intro u
    have hfits := hs.fits u
    unfold Barrier.arrived Barrier.crossed
    cases hpc : s.pc u <;> rw [hpc] at hfits
      <;> unfold BarrierPc.Fits at hfits <;>
      simp only [BarrierPc.counted, reduceIte, Bool.false_eq_true] <;> omega
  exact fun t u => (hcrossed t).trans (harrived u)

/-- **A wake-up for no reason is enough to break the barrier**: among two
threads one can leave it before the other arrives. The run is given: the first
thread waits, is woken, and returns. -/
theorem Barrier.not_separated_of_spurious {nthr : ℕ} (hn : 2 ≤ n)
    (hnthr : 0 < nthr) :
    ∃ s, Reachable (Barrier.step n) (Barrier.init n nthr) s
      ∧ ¬ s.Separated nthr := by
  -- a thread whose block does not come first, and another one
  obtain ⟨t, u, hut, hid⟩ : ∃ t u : Fin n, u ≠ t ∧ t.val + 1 ≠ nthr := by
    have h01 : (⟨0, by omega⟩ : Fin n) ≠ ⟨1, hn⟩ := by simp
    by_cases h : nthr = 1
    · exact ⟨⟨1, hn⟩, ⟨0, by omega⟩, h01, by simp [h]⟩
    · exact ⟨⟨0, by omega⟩, ⟨1, hn⟩, h01.symm, fun h0 => h h0.symm⟩
  set s₀ := Barrier.init n nthr with hs₀
  -- it is woken as soon as it waits
  have hlocking : Reachable (Barrier.step n) s₀ (s₀.goto t .locking) := by
    refine .next (a := .thread t) .init ?_
    show s₀.threadStep n t = _
    unfold Barrier.threadStep
    exact (if_neg hnthr.ne').trans (if_neg hid)
  have hcounting : Reachable (Barrier.step n) s₀
      ⟨some t, 0, Function.update s₀.pc t .counting, s₀.turns, []⟩ :=
    .next (a := .thread t) hlocking
      (by simp [Barrier.step, Barrier.threadStep,
        Barrier.goto, hs₀, Barrier.init])
  have hdeciding : Reachable (Barrier.step n) s₀
      ⟨some t, 1, Function.update s₀.pc t .deciding, s₀.turns, []⟩ :=
    .next (a := .thread t) hcounting
      (by simp [Barrier.step, Barrier.threadStep, Barrier.goto])
  have hwaiting : Reachable (Barrier.step n) s₀
      ⟨none, 1, Function.update s₀.pc t .waiting, s₀.turns, []⟩ :=
    .next (a := .thread t) hdeciding
      (by simp [Barrier.step, Barrier.threadStep, Barrier.goto,
        show 1 < n by omega])
  have hwaking : Reachable (Barrier.step n) s₀
      ⟨none, 1, Function.update s₀.pc t .waking, s₀.turns, []⟩ :=
    .next (a := .spurious t) hwaiting (by simp [Barrier.step, Barrier.goto])
  have hunlocking : Reachable (Barrier.step n) s₀
      ⟨some t, 1, Function.update s₀.pc t .unlocking, s₀.turns, []⟩ :=
    .next (a := .thread t) hwaking
      (by simp [Barrier.step, Barrier.threadStep, Barrier.goto])
  have hleft : Reachable (Barrier.step n) s₀
    ⟨none, 1, Function.update s₀.pc t .testing,
      Function.update s₀.turns t (s₀.turns t - 1), []⟩ :=
    .next (a := .thread t) hunlocking
      (by simp [Barrier.step, Barrier.threadStep, Barrier.goto])
  refine ⟨_, hleft, fun h => ?_⟩
  have htu := h t u
  simp only [Barrier.arrived, Barrier.crossed, Function.update_self,
    Function.update_of_ne hut,
    hs₀, Barrier.init, BarrierPc.counted] at htu
  simp at htu
  omega

/-- **The barrier separates the turns exactly where nobody is woken for no
reason.** In every run without such wake-ups, over any number of turns, no
thread has returned from the barrier more often than every thread has arrived at
it; where they are allowed this holds only if there is no other thread to wait
for, or no turn. -/
theorem barrier_separates {nthr : ℕ} (hn : 0 < n) :
    (∀ s, Reachable (fun s t => Barrier.step n s (.thread t))
      (Barrier.init n nthr) s →
      s.Separated nthr)
    ∧ ((∀ s, Reachable (Barrier.step n) (Barrier.init n nthr) s →
      s.Separated nthr)
      ↔ n = 1 ∨ nthr = 0) := by
  refine ⟨fun s hs => (Barrier.sound_of_reachable hn hs).elim
    fun _ h => h.separated,
    fun h => ?_, fun h s _ t u => ?_⟩
  · by_contra hne
    have hmany : 2 ≤ n ∧ 0 < nthr := by omega
    obtain ⟨s, hs, hnot⟩ := Barrier.not_separated_of_spurious hmany.1 hmany.2
    exact hnot (h s hs)
  · rcases h with rfl | rfl
    · rw [Subsingleton.elim t u]
      exact Nat.le_add_right _ _
    · simp [Barrier.crossed]

/-- Two threads and three turns: separated, but not where one may be woken for
no reason. -/
theorem barrier_separates_instance :
    (∀ s, Reachable (fun s t => Barrier.step 2 s (.thread t))
      (Barrier.init 2 3) s →
      s.Separated 3)
    ∧ ((∀ s, Reachable (Barrier.step 2) (Barrier.init 2 3) s → s.Separated 3)
      ↔ 2 = 1 ∨ 3 = 0) :=
  barrier_separates (by decide)

/-! ## The blocks are executed one by one

The block of a turn belongs to one thread, and the barrier ends the turn for
all. So the order of the turns is the order of the blocks. -/

/-- Whether the block of a thread is over or being executed, or not the thread's
to execute. -/
def Barrier.Entered (s : Barrier n) (t : Fin n) : Prop :=
  s.turns t ≤ t.val ∨ (s.turns t = t.val + 1 ∧ s.pc t ≠ .testing)

/-- The ids from `nthr - 1` down to zero, the order the macro is named for. -/
def decIds (nthr : ℕ) : List ℕ := (List.range nthr).reverse

/-- The ids in order. -/
theorem getElem?_decIds {nthr k : ℕ} (hk : k < nthr) :
    (decIds nthr)[k]? = some (nthr - 1 - k) := by
  unfold decIds
  rw [List.getElem?_reverse (by rwa [List.length_range]), List.length_range,
    List.getElem?_range (by omega)]

/-- **The blocks entered are the first `k`**, of which at most one is in the
turn the barrier has opened for. -/
structure Barrier.Ordered (nthr r : ℕ) (s : Barrier n) (k : ℕ) : Prop where
  /-- The blocks entered are the first `k` ones in decreasing order of their
  ids. -/
  blocks : s.blocks = (decIds nthr).take k
  /-- They are those of the threads with the greatest ids. -/
  entered : ∀ t, s.Entered t ↔ nthr ≤ t.val + k
  /-- Every turn that is over has had its block. -/
  le : r ≤ k
  /-- The present turn has had one at most. -/
  le_succ : k ≤ r + 1

namespace Barrier.Ordered

variable {nthr r k : ℕ} {s : Barrier n} {t : Fin n}

/-- A move that enters no block and does not open the barrier leaves the order
as it is. -/
theorem keep (ho : s.Ordered nthr r k) {s' : Barrier n}
    (hblocks : s'.blocks = s.blocks)
    (hother : ∀ u, u ≠ t → s'.turns u = s.turns u ∧ s'.pc u = s.pc u)
    (hself : s'.Entered t ↔ s.Entered t) : s'.Ordered nthr r k where
  blocks := hblocks.trans ho.blocks
  entered u := by
    rw [← ho.entered u]
    by_cases hu : u = t
    · rw [hu]
      exact hself
    · unfold Barrier.Entered
      rw [(hother u hu).1, (hother u hu).2]
  le := ho.le
  le_succ := ho.le_succ

/-- **A thread enters its block**: it is the next of the list, as the turns of
all threads are at its own id. -/
theorem enter (ho : s.Ordered nthr r k) (hfits : s.turns t + r = nthr)
    (hpc : s.pc t = .testing) (hid : t.val + 1 = s.turns t) :
    Ordered nthr r { s.goto t .inBlock with blocks := s.blocks ++ [t.val] }
    (k + 1) := by
  have hk : k = r := by
    have hnot : ¬ s.Entered t := by
      rintro (h | ⟨-, h⟩)
      · omega
      · exact h hpc
    have hlt := mt (ho.entered t).mpr hnot
    have hle := ho.le
    omega
  refine ⟨?_, fun u => ?_, by omega, by omega⟩
  · show s.blocks ++ [t.val] = _
    rw [List.take_add_one, ← ho.blocks, getElem?_decIds (by omega),
      show nthr - 1 - k = t.val by omega]
    rfl
  · by_cases hu : u = t
    · subst hu
      refine iff_of_true (Or.inr ⟨hid.symm, ?_⟩) (by omega)
      show Function.update s.pc u BarrierPc.inBlock u ≠ .testing
      rw [Function.update_self]
      decide
    · have hentered : Entered { s.goto t .inBlock with blocks :=
        s.blocks ++ [t.val] } u
          ↔ s.Entered u := by
        show (s.turns u ≤ u.val ∨ (s.turns u = u.val + 1
          ∧ Function.update s.pc t BarrierPc.inBlock u ≠ .testing))
            ↔ s.Entered u
        rw [Function.update_of_ne hu]
        rfl
      have hne : u.val ≠ t.val := fun h => hu (Fin.ext h)
      rw [hentered, ho.entered u]
      omega

/-- **The barrier opens**: the block of the turn it closes has been entered,
since its thread is among those that wait. -/
theorem broadcast (ho : s.Ordered nthr r k)
    (hs : s.Sound nthr r) (hnthr : nthr ≤ n)
    (hpc : s.pc t = .broadcasting) :
    Ordered nthr (r + 1)
      { s with pc := Function.update (fun u => (s.pc u).woken) t .resetting }
      k := by
  have hopen := hs.broadcast hpc
  have hfits := hs.fits t
  rw [hpc] at hfits
  obtain ⟨hturns, hpos⟩ := hfits
  have hwoken : ∀ v, Entered
      { s with pc := Function.update (fun u => (s.pc u).woken) t .resetting } v
        ↔ s.Entered v := by
    intro v
    show (s.turns v ≤ v.val ∨ (s.turns v = v.val + 1
      ∧ Function.update (fun u => (s.pc u).woken) t BarrierPc.resetting v
        ≠ .testing)) ↔ _
    unfold Barrier.Entered
    by_cases hv : v = t
    · rw [hv, Function.update_self, hpc]
      simp
    · rw [Function.update_of_ne hv, hs.waiting_of_broadcasting hpc hv]
      simp [BarrierPc.woken]
  -- the thread whose block belongs to the turn that ends
  have hentered : s.Entered ⟨nthr - 1 - r, by omega⟩ := by
    set u : Fin n := ⟨nthr - 1 - r, by omega⟩ with hu
    have hpcu : s.pc u = .broadcasting ∨ s.pc u = .waiting := by
      by_cases hut : u = t
      · exact Or.inl (hut ▸ hpc)
      · exact Or.inr (hs.waiting_of_broadcasting hpc hut)
    have hfitsu := hs.fits u
    have hval : u.val = nthr - 1 - r := rfl
    rcases hpcu with hpcu | hpcu <;> rw [hpcu] at hfitsu
      <;> obtain ⟨hturnsu, -⟩ := hfitsu <;>
      exact Or.inr ⟨by omega, by rw [hpcu]; decide⟩
  have hk : nthr ≤ nthr - 1 - r + k := (ho.entered _).mp hentered
  have hle := ho.le_succ
  exact ⟨ho.blocks, fun v => (hwoken v).trans (ho.entered v), by
    omega, by omega⟩

/-- At the start no block has been entered. -/
theorem init : (Barrier.init n nthr).Ordered nthr 0 0 where
  blocks := rfl
  entered t := by
    show nthr ≤ t.val ∨ (nthr = t.val + 1 ∧ BarrierPc.testing ≠ .testing) ↔ _
    simp
  le := le_rfl
  le_succ := Nat.zero_le _

/-- **Every statement keeps the order**, given that it keeps the invariant of
the barrier. -/
theorem threadStep (ho : s.Ordered nthr r k)
    (hs : s.Sound nthr r) (hnthr : nthr ≤ n) {s' : Barrier n}
    (h : s.threadStep n t = some s') :
    ∃ k', s'.Ordered nthr (r + if s.pc t = .broadcasting then 1 else 0) k' := by
  have hfits := hs.fits t
  -- a move to another statement of the same turn
  have hgoto : ∀ {s' : Barrier n} (pc : BarrierPc), s'.blocks = s.blocks →
      s'.turns = s.turns → s'.pc = Function.update s.pc t pc → pc ≠ .testing →
      (s.pc t = .testing → s.turns t ≠ t.val + 1) → s'.Ordered nthr r k := by
    intro s' pc hblocks hturns hpc hne htest
    refine ho.keep (t := t) hblocks (fun u hu => ?_) ?_
    · rw [hturns, hpc, Function.update_of_ne hu]
      exact ⟨rfl, rfl⟩
    · unfold Barrier.Entered
      rw [hturns, hpc, Function.update_self]
      refine or_congr_right (and_congr_right fun hid =>
        iff_of_true hne fun h => htest h hid)
  -- where the thread is at no test
  have htest : ∀ {pc : BarrierPc}, s.pc t = pc → pc ≠ .testing →
      s.pc t = .testing → s.turns t ≠ t.val + 1 := fun hpc hne h =>
        absurd (hpc.symm.trans h) hne
  cases Barrier.moves_of_threadStep h with
  | enter hpc hid =>
    rw [hpc] at hfits ⊢
    exact ⟨k + 1, ho.enter hfits hpc hid⟩
  | pass hpc hturns hid =>
    rw [hpc]
    exact ⟨k, hgoto .locking rfl rfl rfl (by decide) fun _ => Ne.symm hid⟩
  | leave hpc =>
    rw [hpc]
    exact ⟨k, hgoto .locking rfl rfl rfl (by decide) (htest hpc (by decide))⟩
  | lock hpc hfree =>
    rw [hpc]
    exact ⟨k, hgoto .counting rfl rfl rfl (by decide) (htest hpc (by decide))⟩
  | count hpc =>
    rw [hpc]
    exact ⟨k, hgoto .deciding rfl rfl rfl (by decide) (htest hpc (by decide))⟩
  | wait hpc hlt =>
    rw [hpc]
    exact ⟨k, hgoto .waiting rfl rfl rfl (by decide) (htest hpc (by decide))⟩
  | arriveLast hpc hge =>
    rw [hpc]
    exact ⟨k,
      hgoto .broadcasting rfl rfl rfl (by decide) (htest hpc (by decide))⟩
  | wake hpc hfree =>
    rw [hpc]
    exact ⟨k, hgoto .unlocking rfl rfl rfl (by decide) (htest hpc (by decide))⟩
  | broadcast hpc =>
    rw [hpc]
    exact ⟨k, ho.broadcast hs hnthr hpc⟩
  | reset hpc =>
    rw [hpc]
    exact ⟨k, hgoto .unlocking rfl rfl rfl (by decide) (htest hpc (by decide))⟩
  | unlock hpc =>
    rw [hpc] at hfits ⊢
    obtain ⟨-, hpos⟩ := hfits
    refine ⟨k, ho.keep (t := t) rfl (fun u hu => ⟨Function.update_of_ne hu _ _,
      Function.update_of_ne hu _ _⟩) ?_⟩
    show Function.update s.turns t (s.turns t - 1) t ≤ t.val
      ∨ (Function.update s.turns t (s.turns t - 1) t = t.val + 1
        ∧ Function.update s.pc t BarrierPc.testing t ≠ .testing) ↔ _
    unfold Barrier.Entered
    rw [Function.update_self, Function.update_self, hpc]
    simp only [ne_eq, not_true_eq_false, and_false, or_false,
      reduceCtorEq, not_false_eq_true,
      and_true]
    omega

end Barrier.Ordered

/-- **`EXEC_IN_DEC_ID_ORDER` executes the blocks by decreasing id, one at a
time.** In every run of `n` threads in which nobody is woken for no reason the
blocks entered are the first ones of that order, a thread in its block is the
one that entered last, and when all threads are through every block has been
executed.

There may be fewer turns than threads, but not more: a turn without a thread of
its id would have no block. -/
theorem exec_in_dec_id_order {nthr : ℕ} (hn : 0 < n)
    (hnthr : nthr ≤ n) {s : Barrier n}
    (hs : Reachable (fun s t => Barrier.step n s (.thread t))
      (Barrier.init n nthr) s) :
    s.blocks <+: decIds nthr
    ∧ (∀ t, s.pc t = .inBlock → s.blocks.getLast? = some t.val)
    ∧ (s.Finished → s.blocks = decIds nthr) := by
  obtain ⟨r, k, hsound, hordered⟩ : ∃ r k, s.Sound nthr r
    ∧ s.Ordered nthr r k := by
    refine hs.invariant (I := fun s : Barrier n => ∃ r k,
      s.Sound nthr r ∧ s.Ordered nthr r k)
      ⟨0, 0, .init hn, .init⟩ fun s t s' hr h => ?_
    obtain ⟨r, k, hsound, hordered⟩ := hr
    obtain ⟨k', hordered'⟩ := hordered.threadStep hsound hnthr h
    exact ⟨_, k', hsound.threadStep h, hordered'⟩
  refine ⟨hordered.blocks ▸ List.take_prefix _ _,
    fun t ht => ?_, fun hfin => ?_⟩
  · have hfits := hsound.fits t
    rw [ht] at hfits
    obtain ⟨hturns, hid⟩ := hfits
    have hk : nthr ≤ t.val + k :=
      (hordered.entered t).mp (Or.inr ⟨hid, by rw [ht]; decide⟩)
    have hle := hordered.le_succ
    rw [hordered.blocks, show k = nthr - 1 - t.val + 1 by
      omega, List.take_add_one,
      getElem?_decIds (by omega), Option.toList_some, List.getLast?_append,
      List.getLast?_singleton, show nthr - 1 - (nthr - 1 - t.val)
        = t.val by omega]
    rfl
  · have hk : nthr ≤ k := by
      have hentered := (hordered.entered ⟨0, hn⟩).mp
        (Or.inl ((hfin ⟨0, hn⟩).2.le))
      simpa using hentered
    rw [hordered.blocks, List.take_of_length_le]
    rwa [decIds, List.length_reverse, List.length_range]

/-- A run of two threads: the second executes its block first. -/
theorem exec_in_dec_id_order_instance :
    ∃ s : Barrier 2, s.Finished ∧ s.blocks = [1, 0] := by
  have hrun :
    (List.foldlM (fun s t => Barrier.step 2 s (.thread t)) (Barrier.init 2 2)
      [0, 0, 0, 0, 1, 1, 1, 1, 1, 1, 1, 1, 0, 0, 0, 0, 0, 0, 0, 1, 1, 1,
        1, 1, 1, 1, 0, 0]).map
      (fun s => decide s.Finished) = some true := by decide
  obtain ⟨s, hs, hfin⟩ := Option.map_eq_some_iff.mp hrun
  have hreach := Reachable.init.foldlM hs
  exact ⟨s, of_decide_eq_true hfin,
    (exec_in_dec_id_order (by decide) (by decide) hreach).2.2
      (of_decide_eq_true hfin)⟩

/-! ## The threads come through

A measure over all threads goes down with every statement. The broadcast moves
the waiting threads on, and they have less to go after it. -/

/-- The moves a thread may still make before the end of its turn. -/
def BarrierPc.toGo : BarrierPc → ℕ
  | .testing => 10
  | .inBlock => 9
  | .locking => 8
  | .counting => 7
  | .deciding => 6
  | .broadcasting => 5
  | .waiting => 4
  | .waking => 3
  | .resetting => 2
  | .unlocking => 1

/-- The moves a thread may still make, one more for each turn than the longest
way through it. -/
def Barrier.toGo (s : Barrier n) (t : Fin n) : ℕ :=
  11 * s.turns t + (s.pc t).toGo

/-- **Every statement is one move less to go** for the thread that executes it,
and none more for the others. -/
theorem Barrier.Sound.sum_toGo_lt {nthr r : ℕ} {s s' : Barrier n} {t : Fin n}
    (hs : s.Sound nthr r) (h : s.threadStep n t = some s') :
    ∑ u, s'.toGo u < ∑ u, s.toGo u := by
  have hfits := hs.fits t
  have hlt : ∀ (s' : Barrier n), (∀ u, u ≠ t → s'.toGo u ≤ s.toGo u) →
      s'.toGo t < s.toGo t →
        ∑ u, s'.toGo u < ∑ u, s.toGo u := fun s' hother hself =>
    Finset.sum_lt_sum
      (fun u _ => (em (u = t)).elim (fun hu => hu ▸ hself.le) (hother u))
      ⟨t, Finset.mem_univ t, hself⟩
  -- a move to another statement of the same turn
  have hgoto : ∀ (s' : Barrier n) (pc : BarrierPc), s'.turns = s.turns →
      s'.pc = Function.update s.pc t pc → pc.toGo < (s.pc t).toGo →
      ∑ u, s'.toGo u < ∑ u, s.toGo u := by
    intro s' pc hturns hpc hless
    refine hlt s' (fun u hu => ?_) ?_
    · unfold Barrier.toGo
      rw [hturns, hpc, Function.update_of_ne hu]
    · unfold Barrier.toGo
      rw [hturns, hpc, Function.update_self]
      omega
  cases Barrier.moves_of_threadStep h with
  | enter hpc hid => exact hgoto _ .inBlock rfl rfl (by rw [hpc]; decide)
  | pass hpc hturns hid => exact hgoto _ .locking rfl rfl (by rw [hpc]; decide)
  | leave hpc => exact hgoto _ .locking rfl rfl (by rw [hpc]; decide)
  | lock hpc hfree => exact hgoto _ .counting rfl rfl (by rw [hpc]; decide)
  | count hpc => exact hgoto _ .deciding rfl rfl (by rw [hpc]; decide)
  | wait hpc hlt => exact hgoto _ .waiting rfl rfl (by rw [hpc]; decide)
  | arriveLast hpc hge =>
    exact hgoto _ .broadcasting rfl rfl (by rw [hpc]; decide)
  | wake hpc hfree => exact hgoto _ .unlocking rfl rfl (by rw [hpc]; decide)
  | reset hpc => exact hgoto _ .unlocking rfl rfl (by rw [hpc]; decide)
  | broadcast hpc =>
    refine hlt _ (fun u hu => ?_) ?_
    · simp only [Barrier.toGo,
        Function.update_of_ne hu, hs.waiting_of_broadcasting hpc hu]
      exact Nat.add_le_add_left (by decide) _
    · simp only [Barrier.toGo, Function.update_self, hpc]
      exact Nat.add_lt_add_left (by decide) _
  | unlock hpc =>
    rw [hpc] at hfits
    obtain ⟨-, hpos⟩ := hfits
    refine hlt _ (fun u hu => ?_) ?_
    · simp only [Barrier.toGo, Barrier.goto, Function.update_of_ne hu]
      exact le_rfl
    · simp only [Barrier.toGo, Barrier.goto, Function.update_self, hpc,
        BarrierPc.toGo]
      omega

/-- A thread with the mutex can move: no statement under it waits for another
thread. -/
theorem Barrier.enabled_of_owns {s : Barrier n} {t : Fin n}
    (h : (s.pc t).owns = true) :
    (s.threadStep n t).isSome = true := by
  unfold Barrier.threadStep
  cases hpc : s.pc t with
  | counting | broadcasting | resetting | unlocking => rfl
  | deciding =>
    simp only
    split <;> rfl
  | testing | inBlock | locking | waiting | waking =>
    rw [hpc] at h
    cases h

/-- **Nobody is left waiting**: while a thread is not through, some thread can
move. All of them cannot wait, since then the last one would have opened the
barrier. -/
theorem Barrier.Sound.enabled {nthr r : ℕ} {s : Barrier n} (hs : s.Sound nthr r)
    (hfin : ¬ s.Finished) : ∃ t, (s.threadStep n t).isSome = true := by
  by_contra hnone
  have hstuck : ∀ t, s.threadStep n t = none := fun t =>
    Option.not_isSome_iff_eq_none.mp fun h => hnone ⟨t, h⟩
  have howns : ∀ t, (s.pc t).owns = false := fun t =>
    Bool.eq_false_iff.mpr fun h => hnone ⟨t, Barrier.enabled_of_owns h⟩
  have hfree : s.mutex = none := by
    cases hmutex : s.mutex with
    | none => rfl
    | some t =>
      have ht := (hs.owner t).mp hmutex
      rw [howns t] at ht
      cases ht
  -- what is left are threads that are through and threads that wait
  have hcases : ∀ t, (s.pc t = .testing ∧ s.turns t = 0)
    ∨ s.pc t = .waiting := by
    intro t
    have ht := hstuck t
    unfold Barrier.threadStep at ht
    have howns := howns t
    cases hpc : s.pc t with
    | testing =>
      simp only [hpc] at ht
      split at ht
      · next hturns => exact Or.inl ⟨rfl, hturns⟩
      · split at ht <;> cases ht
    | waiting => exact Or.inr rfl
    | inBlock | locking | waking =>
      simp only [hpc, hfree] at ht
      cases ht
    | counting | deciding | broadcasting | resetting | unlocking =>
      rw [hpc] at howns
      cases howns
  obtain ⟨t, ht⟩ : ∃ t, s.pc t = .waiting := by
    by_contra hwait
    exact hfin fun t => (hcases t).resolve_right fun h => hwait ⟨t, h⟩
  have hfits := hs.fits t
  rw [ht] at hfits
  obtain ⟨hturns, hpos⟩ := hfits
  -- a thread that is through has been as often as the barrier opened, so all
  -- wait
  have hall : ∀ u, s.pc u = .waiting := by
    refine fun u => (hcases u).resolve_left fun hu => ?_
    have hfitsu := hs.fits u
    rw [hu.1] at hfitsu
    have hsum : s.turns u + r = nthr := hfitsu
    omega
  have hcount := hs.crossing fun u => by rw [hall u]; decide
  have hlt := hs.closed fun u => by rw [hall u]; decide
  simp only [hall, BarrierPc.current, Finset.sum_const,
    Finset.card_univ, Fintype.card_fin,
    smul_eq_mul, mul_one] at hcount
  omega

/-- **All threads come through**: under any scheduler, a run in which nobody is
woken for no reason has `11 * nthr` moves for each thread at most, and it can be
continued until all threads are through. -/
theorem barrier_completes {nthr k : ℕ} (hn : 0 < n) {s : Barrier n}
    (hs : ReachableIn (fun s t => Barrier.step n s (.thread t))
      (Barrier.init n nthr) k s) :
    k ≤ n * (11 * nthr)
      ∧ (¬ s.Finished → ∃ t, (s.step n (.thread t)).isSome = true) := by
  obtain ⟨r, hsound⟩ := Barrier.sound_of_reachable hn hs.reachable
  refine ⟨?_, hsound.enabled⟩
  have hle := hs.add_le (μ := fun s => ∑ u, s.toGo u) fun s t s' hs h => by
    obtain ⟨r, hsound⟩ := Barrier.sound_of_reachable hn hs
    exact hsound.sum_toGo_lt h
  have hinit : ∑ u, (Barrier.init n nthr).toGo u = n * (11 * nthr + 10) := by
    show ∑ _u : Fin n, (11 * nthr + 10) = _
    rw [Finset.sum_const, Finset.card_univ, Fintype.card_fin, smul_eq_mul]
  -- a thread that is through has ten moves left by this count, any other more
  have hend : n * 10 ≤ ∑ u, s.toGo u := by
    have hten : ∀ u, 10 ≤ s.toGo u := by
      intro u
      have hfits := hsound.fits u
      unfold Barrier.toGo
      cases hpc : s.pc u <;> rw [hpc] at hfits
        <;> unfold BarrierPc.Fits at hfits <;>
        simp only [BarrierPc.toGo] <;> omega
    calc n * 10 = ∑ _u : Fin n, 10 := by
          rw [Finset.sum_const, Finset.card_univ, Fintype.card_fin, smul_eq_mul]
      _ ≤ ∑ u, s.toGo u := Finset.sum_le_sum fun u _ => hten u
  rw [hinit, Nat.mul_add] at hle
  omega

/-- The bound for two threads after a first move of each. -/
theorem barrier_completes_instance : ∃ s : Barrier 2,
    2 ≤ 2 * (11 * 3)
      ∧ (¬ s.Finished → ∃ t, (s.step 2 (.thread t)).isSome = true) := by
  have hmoves : ReachableIn (fun s t => Barrier.step 2 s (.thread t))
    (Barrier.init 2 3) 2 _ :=
    .next (a := 1) (.next (a := 0) .init rfl) rfl
  exact ⟨_, barrier_completes (by decide) hmoves⟩

end Skt
