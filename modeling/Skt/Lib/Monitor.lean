import Skt.Lib.Runs

/-!
# Queues under a mutex and a condition variable

Threads share queues. What a thread does next is of some kind: it pops from a
queue, pushes onto one, moves on its own, or joins another thread. In the
*program* a queue operation is one move, and a pop waits for its queue to be
non-empty.

In the *implementation* every queue has a mutex and a condition variable. A pop
takes the mutex, tests the queue, and sleeps on the condition variable as long
as the queue is empty; a push takes the mutex, appends, releases the mutex and
then wakes one sleeper. A thread that is woken takes the mutex again before it
tests again, and it may be woken for no reason.

Three results connect the two:

- `Program.reachable_prog`: the implementation refines the program, so what it
  reaches is reachable with atomic queues;
- `Program.Sound.enabled`: it does not get stuck before the program does, since
  no wake-up is lost: while threads sleep on a queue, every element in it has
  somebody on the way who is awake;
- `Program.run_le`: without wake-ups for no reason its runs are bounded, when
  those of the program are.

A program is verified with atomic queues, and what was proved of it is carried
over by these three.
-/

namespace Monitor

open Runs

variable {ι κ σ : Type*}

/-! ## Programs -/

/-- What a thread is about to do. It is read off the state of the program, and
it is all that the implementation knows of the program besides its moves. -/
inductive Kind (ι κ : Type*) where
  /-- The front of a queue is removed, after waiting for there to be one. -/
  | pop (q : κ)
  /-- Something is put at the back of a queue. -/
  | push (q : κ)
  /-- A step that has nothing to do with the queues. -/
  | move
  /-- The thread goes on when another one is through. -/
  | join (t : ι)
  /-- There is no step left. -/
  | done
  deriving DecidableEq

variable [DecidableEq ι] [DecidableEq κ]

/-- **A program of threads that share queues.** A pop waits exactly while its
queue is empty, queue operations change the length of their queue as they
should, and what a thread is about to do is up to the thread.

The last five fields are what the implementation relies on. The data in the
queues is part of the state, of which nothing else is assumed. -/
structure Program (ι κ σ : Type*) [DecidableEq ι] [DecidableEq κ] where
  /-- What a thread does next. -/
  kind : σ → ι → Kind ι κ
  /-- A move of a thread, with atomic queues. -/
  step : σ → ι → Option σ
  /-- The length of a queue. -/
  len : σ → κ → ℕ
  /-- A pop can be made when there is something to pop. -/
  isSome_pop : ∀ s t q, kind s t = .pop q →
    ((step s t).isSome = true ↔ 0 < len s q)
  /-- A push can always be made. -/
  isSome_push : ∀ s t q, kind s t = .push q → (step s t).isSome = true
  /-- A thread is joined after it is done. -/
  done_of_join : ∀ s t u, kind s t = .join u →
    (step s t).isSome = true → kind s u = .done
  /-- A move changes the lengths of the queues by its kind. -/
  len_step : ∀ s t s', step s t = some s' → ∀ q,
    len s' q + (if kind s t = .pop q then 1 else 0)
      = len s q + (if kind s t = .push q then 1 else 0)
  /-- A thread does not change what another is about to do. -/
  kind_step : ∀ s t s', step s t = some s' → ∀ u, u ≠ t → kind s' u = kind s u

/-! ## The implementation -/

/-- Where a thread is in a queue operation: between two operations, or at one of
the statements of a pop or a push. -/
inductive Ctl (κ : Type*) where
  /-- In no operation on a queue. -/
  | outside
  /-- about to take the mutex for a pop -/
  | popLocking (q : κ)
  /-- at the test whether the queue is empty -/
  | testing (q : κ)
  /-- Waiting on the condition variable, without the mutex. -/
  | sleeping (q : κ)
  /-- woken, and about to take the mutex again -/
  | waking (q : κ)
  /-- at the removal of the front -/
  | taking (q : κ)
  /-- about to take the mutex for a push -/
  | pushLocking (q : κ)
  /-- at the insertion at the back -/
  | putting (q : κ)
  /-- about to release the mutex, with a sleeper to wake behind it or not -/
  | unlocking (q : κ) (notify : Bool)
  /-- about to wake one sleeper -/
  | notifying (q : κ)
  deriving DecidableEq

/-- The state of the implementation: that of the program, who has each mutex,
and where every thread is. -/
structure State (ι κ σ : Type*) where
  /-- The state of the program the threads run, queues included. -/
  prog : σ
  /-- Who has the mutex of each queue. -/
  mutex : κ → Option ι
  /-- Where each thread is in an operation on a queue, or that it is in none. -/
  ctl : ι → Ctl κ

/-- The start of the implementation: nobody is in a queue operation and no mutex
is taken. -/
def State.init (s₀ : σ) : State ι κ σ := ⟨s₀, fun _ => none, fun _ => .outside⟩

/-- Thread `t` goes on to another place, which changes neither the mutexes nor
the program. -/
def State.goto (s : State ι κ σ) (t : ι) (c : Ctl κ) : State ι κ σ :=
  { s with ctl := Function.update s.ctl t c }

/-- Thread `t` takes the mutex of a queue if it is free, and goes on. Otherwise
it has to wait. -/
def State.lock (s : State ι κ σ) (t : ι) (q : κ) (c : Ctl κ) :
    Option (State ι κ σ) :=
  match s.mutex q with
  | none => some { s.goto t c with mutex := Function.update s.mutex q (some t) }
  | some _ => none

/-- Thread `t` releases the mutex of a queue and goes on. It is used by the
thread that has the mutex only, as the invariant shows. -/
def State.unlock (s : State ι κ σ) (t : ι) (q : κ) (c : Ctl κ) : State ι κ σ :=
  { s.goto t c with mutex := Function.update s.mutex q none }

/-- Thread `t` makes a move of the program and goes on, if the program lets
it. -/
def State.advance (p : Program ι κ σ) (s : State ι κ σ) (t : ι) (c : Ctl κ) :
    Option (State ι κ σ) :=
  (p.step s.prog t).map fun next => { s.goto t c with prog := next }

variable [Fintype ι]

/-- **A move of thread `t`**, which wakes `w` where it wakes one. A thread is
joined when it has left its last queue operation.

Releasing the mutex and going to sleep are one move, as the wait of a condition
variable promises. Waking is a move of its own behind the release, and it wakes
somebody if anybody sleeps; which sleeper it is, is left to `w`. -/
def Program.threadStep (p : Program ι κ σ) (s : State ι κ σ)
    (t : ι) (w : Option ι) :
    Option (State ι κ σ) :=
  match s.ctl t with
  | .outside =>
    match p.kind s.prog t with
    | .pop q => some (s.goto t (.popLocking q))
    | .push q => some (s.goto t (.pushLocking q))
    | .join u => if s.ctl u = .outside then s.advance p t .outside else none
    | .move | .done => s.advance p t .outside
  | .popLocking q => s.lock t q (.testing q)
  | .testing q =>
    if 0 < p.len s.prog q then some (s.goto t (.taking q))
      else some (s.unlock t q (.sleeping q))
  | .sleeping _ => none
  | .waking q => s.lock t q (.testing q)
  | .taking q => s.advance p t (.unlocking q false)
  | .pushLocking q => s.lock t q (.putting q)
  | .putting q => s.advance p t (.unlocking q true)
  | .unlocking q notify =>
    some (s.unlock t q (if notify then .notifying q else .outside))
  | .notifying q =>
    match w with
    | some u =>
      if s.ctl u = .sleeping q then some
        ((s.goto u (.waking q)).goto t .outside) else none
    | none => if ∀ u, s.ctl u ≠ .sleeping q then some
      (s.goto t .outside) else none

/-- The threads, with the sleeper they wake, and the wake-ups for no reason.
They are the sources of nondeterminism in a run. -/
inductive Actor (ι : Type*) where
  | thread (t : ι) (w : Option ι)
  | spurious (t : ι)

/-- **A move of the implementation.** A wake-up for no reason takes any sleeper
off the condition variable. -/
def Program.implStep (p : Program ι κ σ) (s : State ι κ σ) :
    Actor ι → Option (State ι κ σ)
  | .thread t w => p.threadStep s t w
  | .spurious t =>
    match s.ctl t with
    | .sleeping q => some (s.goto t (.waking q))
    | _ => none

/-! ## The implementation refines the program -/

variable (p : Program ι κ σ)

omit [Fintype ι] in
/-- An advance is a move of the program, and the only thing that is one. -/
theorem State.step_of_advance {s s' : State ι κ σ} {t : ι} {c : Ctl κ}
    (h : s.advance p t c = some s') : p.step s.prog t = some s'.prog := by
  obtain ⟨next, hnext, rfl⟩ := Option.map_eq_some_iff.mp h
  exact hnext

/-- **What a move of thread `t` does**, one case for each.

The step function is inverted once, here; every invariant is then proved by
cases on this relation and never unfolds the step. -/
inductive Program.Moves (s : State ι κ σ) (t : ι) : State ι κ σ → Prop where
  /-- The operations begin without the mutex. -/
  | pop {q : κ} (hctl : s.ctl t = .outside) (hkind : p.kind s.prog t = .pop q) :
    Moves s t (s.goto t (.popLocking q))
  | push {q : κ} (hctl : s.ctl t = .outside)
    (hkind : p.kind s.prog t = .push q) :
    Moves s t (s.goto t (.pushLocking q))
  /-- Any other step is one of the program, in one go. -/
  | outside {s' : State ι κ σ} (hctl : s.ctl t = .outside)
    (hpop : ∀ q, p.kind s.prog t ≠ .pop q)
      (hpush : ∀ q, p.kind s.prog t ≠ .push q)
        (h : s.advance p t .outside = some s') :
    Moves s t s'
  /-- The mutex is taken, by a thread that begins or by one that was woken. -/
  | lockPop {q : κ} (hctl : s.ctl t = .popLocking q ∨ s.ctl t = .waking q)
      (hfree : s.mutex q = none) :
    Moves s t
      { s.goto t (.testing q) with mutex := Function.update s.mutex q (some t) }
  | lockPush {q : κ} (hctl : s.ctl t = .pushLocking q)
      (hfree : s.mutex q = none) :
    Moves s t
      { s.goto t (.putting q) with mutex := Function.update s.mutex q (some t) }
  /-- The queue is empty: the thread goes to sleep and gives the mutex back, in
  one step. -/
  | wait {q : κ} (hctl : s.ctl t = .testing q) (hempty : p.len s.prog q = 0) :
    Moves s t (s.unlock t q (.sleeping q))
  /-- It is not, and the front can be removed. A thread that was woken comes
  here by the same test. -/
  | find {q : κ} (hctl : s.ctl t = .testing q) (hlen : 0 < p.len s.prog q) :
    Moves s t (s.goto t (.taking q))
  /-- The front is removed under the mutex. -/
  | take {q : κ} {s' : State ι κ σ} (hctl : s.ctl t = .taking q)
      (h : s.advance p t (.unlocking q false) = some s') : Moves s t s'
  /-- The element is put in under the mutex. -/
  | put {q : κ} {s' : State ι κ σ} (hctl : s.ctl t = .putting q)
      (h : s.advance p t (.unlocking q true) = some s') : Moves s t s'
  /-- The mutex is given back. After a push somebody is to be woken, and this
  happens without the mutex. -/
  | unlock {q : κ} {notify : Bool} (hctl : s.ctl t = .unlocking q notify) :
    Moves s t (s.unlock t q (if notify then .notifying q else .outside))
  /-- One of the sleepers is woken, any of them. -/
  | wake {q : κ}
    {u : ι} (hctl : s.ctl t = .notifying q) (hu : s.ctl u = .sleeping q) :
    Moves s t ((s.goto u (.waking q)).goto t .outside)
  /-- There is nobody to be woken, and the wake-up is lost. -/
  | wakeNone {q : κ} (hctl : s.ctl t = .notifying q)
      (hnone : ∀ u, s.ctl u ≠ .sleeping q) :
    Moves s t (s.goto t .outside)

/-- A move does one of these, with the tests it made as hypotheses. -/
theorem Program.moves_of_threadStep {s s' : State ι κ σ} {t : ι} {w : Option ι}
    (h : p.threadStep s t w = some s') : p.Moves s t s' := by
  unfold Program.threadStep at h
  cases hctl : s.ctl t with
  | outside =>
    simp only [hctl] at h
    cases hkind : p.kind s.prog t with
    | pop q =>
      simp only [hkind, Option.some.injEq] at h
      subst h
      exact .pop hctl hkind
    | push q =>
      simp only [hkind, Option.some.injEq] at h
      subst h
      exact .push hctl hkind
    | join u =>
      simp only [hkind] at h
      split at h
      · exact .outside hctl (by rw [hkind]; exact fun _ => nofun)
          (by rw [hkind]; exact fun _ => nofun) h
      · cases h
    | move | done =>
      simp only [hkind] at h
      exact .outside hctl (by rw [hkind]; exact fun _ => nofun)
        (by rw [hkind]; exact fun _ => nofun) h
  | popLocking q =>
    simp only [hctl, State.lock] at h
    split at h
    · next hfree =>
      cases h
      exact .lockPop (Or.inl hctl) hfree
    · cases h
  | waking q =>
    simp only [hctl, State.lock] at h
    split at h
    · next hfree =>
      cases h
      exact .lockPop (Or.inr hctl) hfree
    · cases h
  | pushLocking q =>
    simp only [hctl, State.lock] at h
    split at h
    · next hfree =>
      cases h
      exact .lockPush hctl hfree
    · cases h
  | testing q =>
    simp only [hctl] at h
    split at h
    · next hlen =>
      cases h
      exact .find hctl hlen
    · next hlen =>
      cases h
      exact .wait hctl (Nat.eq_zero_of_not_pos hlen)
  | sleeping q =>
    simp only [hctl] at h
    cases h
  | taking q =>
    simp only [hctl] at h
    exact .take hctl h
  | putting q =>
    simp only [hctl] at h
    exact .put hctl h
  | unlocking q notify =>
    simp only [hctl, Option.some.injEq] at h
    subst h
    exact .unlock hctl
  | notifying q =>
    simp only [hctl] at h
    split at h
    · split at h
      · next hu =>
        cases h
        exact .wake hctl hu
      · cases h
    · split at h
      · next hnone =>
        cases h
        exact .wakeNone hctl hnone
      · cases h

/-- **A move of a thread is a move of the program, or changes nothing that the
program sees.** This is the step of the simulation. -/
theorem Program.threadStep_prog {s s' : State ι κ σ} {t : ι} {w : Option ι}
    (h : p.threadStep s t w = some s') :
    s'.prog = s.prog ∨ p.step s.prog t = some s'.prog := by
  cases p.moves_of_threadStep h with
  | outside _ _ _ h | take _ h | put _ h => exact Or.inr (s.step_of_advance p h)
  | pop | push | lockPop | lockPush | wait | find | unlock | wake | wakeNone =>
    exact Or.inl rfl

/-- **The implementation refines the program**: what it reaches, with any
wake-ups for no reason, the program reaches with atomic queues. Every invariant
of the program holds in the implementation, therefore. -/
theorem Program.reachable_prog {s₀ : σ} {s : State ι κ σ}
    (hs : Reachable p.implStep (State.init s₀) s) :
    Reachable p.step s₀ s.prog := by
  refine hs.map State.prog fun s a s' h => ?_
  cases a with
  | thread t w => exact (p.threadStep_prog h).imp_right fun h => ⟨t, h⟩
  | spurious t =>
    simp only [Program.implStep] at h
    split at h <;> cases h
    exact Or.inl rfl

/-! ## The invariant of the implementation -/

/-- The queue whose mutex a thread has, as far as its place tells. -/
def Ctl.owns : Ctl κ → Option κ
  | .testing q | .taking q | .putting q | .unlocking q _ => some q
  | _ => none

/-- The kind of thing a thread does where it is. In a queue operation, what the
program is about to do is that operation; behind the move of the program it is
the next thing already, so there is nothing to say. -/
def Ctl.Fits (k : Kind ι κ) : Ctl κ → Prop
  | .popLocking q | .testing q | .sleeping q | .waking q | .taking q =>
    k = .pop q
  | .pushLocking q | .putting q => k = .push q
  | .outside | .unlocking _ _ | .notifying _ => True

/-- One for a thread that is awake and will look at a queue, or wake somebody
who does.

A thread at the removal counts as well: the element it takes is still there. -/
def Ctl.alert (q : κ) : Ctl κ → ℕ
  | .popLocking q' | .testing q' | .waking q' | .taking q' | .unlocking q' true
  | .notifying q' => if q' = q then 1 else 0
  | _ => 0

/-- Every mutex is with the thread that has it, and with no other. -/
def Owned (mutex : κ → Option ι) (ctl : ι → Ctl κ) : Prop :=
  ∀ q t, mutex q = some t ↔ (ctl t).owns = some q

/-- **The invariant**: mutual exclusion, nothing is removed from an empty queue,
and no wake-up is lost: while a thread sleeps on a queue there are as many
threads alert to it as it has elements.

The last part is why one notification for each push is enough, although the
thread that is woken need not be the one that finds the element. -/
structure Program.Sound (s : State ι κ σ) : Prop where
  /-- A mutex is had by the one thread that is at a statement under it. -/
  owner : Owned s.mutex s.ctl
  /-- Where a thread is fits the operation its program is at. -/
  fits : ∀ t, (s.ctl t).Fits (p.kind s.prog t)
  /-- What was tested under the mutex is still so at the removal. -/
  taking : ∀ t q, s.ctl t = .taking q → 0 < p.len s.prog q
  /-- No wake-up is lost. -/
  awake : ∀ t q, s.ctl t = .sleeping q → p.len s.prog q ≤ ∑ u, (s.ctl u).alert q

section Owned

omit [Fintype ι]

variable {mutex : κ → Option ι} {ctl : ι → Ctl κ} {t : ι} {c : Ctl κ} {q : κ}

omit [DecidableEq κ] in
/-- A move that neither takes nor releases a mutex keeps the owners. -/
theorem Owned.keep (h : Owned mutex ctl) (hc : c.owns = (ctl t).owns) :
    Owned mutex (Function.update ctl t c) := by
  intro q u
  rw [h q u]
  by_cases hu : u = t
  · rw [hu, Function.update_self, hc]
  · rw [Function.update_of_ne hu]

/-- A move that takes a free mutex makes its thread the owner. -/
theorem Owned.take (h : Owned mutex ctl) (hfree : mutex q = none)
    (hown : (ctl t).owns = none) (hc : c.owns = some q) :
    Owned (Function.update mutex q (some t)) (Function.update ctl t c) := by
  intro q' u
  by_cases hu : u = t
  · rw [hu, Function.update_self, hc]
    by_cases hq : q' = q
    · rw [hq, Function.update_self]
      exact iff_of_true rfl rfl
    · rw [Function.update_of_ne hq, h q' t, hown]
      exact iff_of_false nofun fun h => hq (Option.some.inj h).symm
  · rw [Function.update_of_ne hu, ← h q' u]
    by_cases hq : q' = q
    · rw [hq, Function.update_self, hfree]
      exact iff_of_false (fun h => hu (Option.some.inj h).symm) nofun
    · rw [Function.update_of_ne hq]

/-- A move that releases a mutex leaves it without an owner. -/
theorem Owned.release (h : Owned mutex ctl) (hown : (ctl t).owns = some q)
    (hc : c.owns = none) :
    Owned (Function.update mutex q none) (Function.update ctl t c) := by
  intro q' u
  have hq := (h q t).mpr hown
  by_cases hu : u = t
  · rw [hu, Function.update_self, hc]
    by_cases hq' : q' = q
    · rw [hq', Function.update_self]
      exact iff_of_false nofun nofun
    · rw [Function.update_of_ne hq', h q' t, hown]
      exact iff_of_false (fun h => hq' (Option.some.inj h).symm) nofun
  · rw [Function.update_of_ne hu, ← h q' u]
    by_cases hq' : q' = q
    · rw [hq', Function.update_self, hq]
      exact iff_of_false nofun fun h => hu (Option.some.inj h).symm
    · rw [Function.update_of_ne hq']

omit [DecidableEq ι] [DecidableEq κ] in
/-- Two threads do not have one mutex: this is mutual exclusion. -/
theorem Owned.unique (h : Owned mutex ctl) {u : ι} (ht : (ctl t).owns = some q)
    (hu : (ctl u).owns = some q) : u = t :=
  Option.some.inj (((h q u).mpr hu).symm.trans ((h q t).mpr ht))

end Owned

namespace Program.Sound

variable {p} {s : State ι κ σ} {t : ι}

/-- At the start nobody is in a queue operation, so nothing has to be shown. -/
theorem init (s₀ : σ) : p.Sound (State.init s₀ : State ι κ σ) where
  owner _ _ := iff_of_false nofun nofun
  fits _ := trivial
  taking _ _ := nofun
  awake _ _ := nofun

/-- **A move within a queue operation**, which changes no queue. The thread
stays as alert as it was, or the queue it is no longer alert to is empty. -/
theorem move_ctl (hs : p.Sound s) {mutex : κ → Option ι} {c : Ctl κ}
    (howner : Owned mutex (Function.update s.ctl t c))
    (hfits : c.Fits (p.kind s.prog t))
    (htaking : ∀ q, c = .taking q → 0 < p.len s.prog q)
    (hsleeping : ∀ q, c = .sleeping q → p.len s.prog q = 0)
    (halert : ∀ u q, s.ctl u = .sleeping q →
      (s.ctl t).alert q ≤ c.alert q ∨ p.len s.prog q = 0) :
    p.Sound ⟨s.prog, mutex, Function.update s.ctl t c⟩ where
  owner := howner
  fits := (Function.forall_update_iff s.ctl
    fun u c => c.Fits (p.kind s.prog u)).mpr ⟨hfits, fun u _ => hs.fits u⟩
  taking := (Function.forall_update_iff s.ctl
    fun _ c => ∀ q, c = .taking q → 0 < p.len s.prog q).mpr
      ⟨htaking, fun u _ => hs.taking u⟩
  awake u q hu := by
    show p.len s.prog q ≤ ∑ v, (Function.update s.ctl t c v).alert q
    have hsum := sum_update (Ctl.alert q) s.ctl t c
    by_cases hlen : p.len s.prog q = 0
    · omega
    · have hut : u ≠ t := fun h => hlen (hsleeping q (by rw [← hu, h]; simp))
      have hu' : s.ctl u = .sleeping q := by
        rw [← hu]
        exact (Function.update_of_ne hut c s.ctl).symm
      have hless := (halert u q hu').resolve_right hlen
      have hawake := hs.awake u q hu'
      omega

/-- **A move of the program**: the thread that makes it has the mutex of the
queue it changes, and stays as alert as the queue requires.

A push adds an element and an obligation to wake somebody at the same time; a
pop takes an element and gives up being alert. -/
theorem advance (hs : p.Sound s) {c : Ctl κ} {s' : State ι κ σ}
    (h : s.advance p t c = some s') (hc : c.owns = (s.ctl t).owns)
    (hfits : ∀ k : Kind ι κ, c.Fits k) (hsleeping : ∀ q, c ≠ .sleeping q)
    (htaking : ∀ q, c ≠ .taking q)
    (howns : ∀ q, p.kind s.prog t = .pop q → (s.ctl t).owns = some q)
    (halert : ∀ q, (if p.kind s.prog t = .push q then 1 else 0)
      + (s.ctl t).alert q
      ≤ (if p.kind s.prog t = .pop q then 1 else 0) + c.alert q) :
        p.Sound s' := by
  obtain ⟨next, hstep, rfl⟩ := Option.map_eq_some_iff.mp h
  refine ⟨hs.owner.keep hc,
    (Function.forall_update_iff s.ctl fun u c => c.Fits (p.kind next u)).mpr
      ⟨hfits _, fun u hu => ?_⟩,
    (Function.forall_update_iff s.ctl fun _ c => ∀ q, c = .taking q →
      0 < p.len next q).mpr
      ⟨fun q h => absurd h (htaking q), fun u hu q hq => ?_⟩, fun u q hu => ?_⟩
  · rw [p.kind_step _ _ _ hstep u hu]
    exact hs.fits u
  · have hlen := p.len_step _ _ _ hstep q
    have hpos := hs.taking u q hq
    have hne : p.kind s.prog t ≠ .pop q := fun h =>
      hu (hs.owner.unique (howns q h) (by rw [hq]; rfl))
    rw [if_neg hne] at hlen
    omega
  · show p.len next q ≤ ∑ v, (Function.update s.ctl t c v).alert q
    replace hu : Function.update s.ctl t c u = .sleeping q := hu
    have hsum := sum_update (Ctl.alert q) s.ctl t c
    have hut : u ≠ t := fun h =>
      hsleeping q (by rw [← hu, h, Function.update_self])
    rw [Function.update_of_ne hut] at hu
    have hawake := hs.awake u q hu
    have hlen := p.len_step _ _ _ hstep q
    have hless := halert q
    omega

/-- A thread that is woken, whoever wakes it, becomes alert. -/
theorem wake (hs : p.Sound s) {q : κ} (ht : s.ctl t = .sleeping q) :
    p.Sound (s.goto t (.waking q)) := by
  have hfits := hs.fits t
  rw [ht] at hfits
  exact hs.move_ctl (hs.owner.keep (by rw [ht]; rfl)) hfits
    (fun _ => nofun) (fun _ => nofun)
    fun _ q' _ => Or.inl (by rw [ht]; exact Nat.zero_le _)

/-- **A notification**: the thread that is woken takes over from the one that
wakes it. -/
theorem notify (hs : p.Sound s) {q : κ} {u : ι} (ht : s.ctl t = .notifying q)
    (hu : s.ctl u = .sleeping q) :
    p.Sound ((s.goto u (.waking q)).goto t .outside) := by
  have hne : t ≠ u := fun h => by
    rw [h, hu] at ht
    cases ht
  have hwake := hs.wake hu
  have ht' : (s.goto u (.waking q)).ctl t = .notifying q :=
    (Function.update_of_ne hne _ s.ctl).trans ht
  refine ⟨hwake.owner.keep (by rw [ht']; rfl),
    (Function.forall_update_iff (s.goto u (.waking q)).ctl
      fun v c => c.Fits (p.kind s.prog v)).mpr
        ⟨trivial, fun v _ => hwake.fits v⟩,
    (Function.forall_update_iff (s.goto u (.waking q)).ctl
      fun _ c => ∀ q, c = .taking q → 0 < p.len s.prog q).mpr
      ⟨fun _ => nofun, fun v _ => hwake.taking v⟩, fun v q' hv => ?_⟩
  show p.len s.prog q'
    ≤ ∑ v, (Function.update (Function.update s.ctl u (.waking q)) t
      .outside v).alert q'
  have hsum₁ := sum_update (Ctl.alert q') s.ctl u (.waking q)
  have hsum₂ := sum_update (Ctl.alert q')
    (Function.update s.ctl u (.waking q)) t .outside
  rw [Function.update_of_ne hne, ht] at hsum₂
  rw [hu] at hsum₁
  have hsame : (Ctl.notifying q).alert q' = (Ctl.waking q).alert q' := rfl
  have hzero : (Ctl.sleeping q).alert q' = 0
    ∧ (Ctl.outside : Ctl κ).alert q' = 0 := ⟨rfl, rfl⟩
  -- the sleepers there still are slept before
  have hsleeping : s.ctl v = .sleeping q' := by
    replace hv : Function.update
      (Function.update s.ctl u (.waking q)) t .outside v
      = .sleeping q' := hv
    by_cases hvt : v = t
    · rw [hvt, Function.update_self] at hv
      cases hv
    · rw [Function.update_of_ne hvt] at hv
      by_cases hvu : v = u
      · rw [hvu, Function.update_self] at hv
        cases hv
      · rwa [Function.update_of_ne hvu] at hv
  have hawake := hs.awake v q' hsleeping
  omega

/-- **Every move of a thread keeps the invariant.** -/
theorem threadStep (hs : p.Sound s) {s' : State ι κ σ} {w : Option ι}
    (h : p.threadStep s t w = some s') : p.Sound s' := by
  have hfits := hs.fits t
  cases p.moves_of_threadStep h with
  | pop hctl hkind | push hctl hkind =>
    exact hs.move_ctl (hs.owner.keep (by rw [hctl]; rfl)) hkind (fun _ => nofun)
      (fun _ => nofun) fun _ q _ => Or.inl (by rw [hctl]; exact Nat.zero_le _)
  | outside hctl hpop hpush h =>
    exact hs.advance h (by rw [hctl]) (fun _ => trivial)
      (fun _ => nofun) (fun _ => nofun)
      (fun q hq => absurd hq (hpop q)) fun q => by
        rw [if_neg (hpop q), if_neg (hpush q), hctl]
  | lockPop hctl hfree =>
    rcases hctl with hctl | hctl
    · rw [hctl] at hfits
      exact hs.move_ctl (hs.owner.take hfree (by rw [hctl]; rfl) rfl)
        hfits (fun _ => nofun)
        (fun _ => nofun) fun _ q' _ => Or.inl (by rw [hctl]; exact le_rfl)
    · rw [hctl] at hfits
      exact hs.move_ctl (hs.owner.take hfree (by rw [hctl]; rfl) rfl)
        hfits (fun _ => nofun)
        (fun _ => nofun) fun _ q' _ => Or.inl (by rw [hctl]; exact le_rfl)
  | lockPush hctl hfree =>
    rw [hctl] at hfits
    exact hs.move_ctl (hs.owner.take hfree (by rw [hctl]; rfl) rfl)
      hfits (fun _ => nofun)
      (fun _ => nofun) fun _ q' _ => Or.inl (by rw [hctl]; exact le_rfl)
  | find hctl hlen =>
    rw [hctl] at hfits
    refine hs.move_ctl (hs.owner.keep (by rw [hctl]; rfl))
      hfits (fun q' hq' => ?_)
      (fun _ => nofun) fun _ q' _ => Or.inl (by rw [hctl]; exact le_rfl)
    cases hq'
    exact hlen
  | @wait q hctl hempty =>
    rw [hctl] at hfits
    refine hs.move_ctl (hs.owner.release (by rw [hctl]; rfl) rfl)
      hfits (fun _ => nofun)
      (fun q' hq' => ?_) fun _ q' _ => ?_
    · cases hq'
      exact hempty
    · by_cases hq' : q = q'
      · subst hq'
        exact Or.inr hempty
      · refine Or.inl ?_
        rw [hctl, Ctl.alert, if_neg hq']
        exact Nat.zero_le _
  | @take q _ hctl h =>
    rw [hctl] at hfits
    have hkind : p.kind s.prog t = .pop q := hfits
    refine hs.advance h (by rw [hctl]; rfl) (fun _ => trivial)
      (fun _ => nofun) (fun _ => nofun)
      (fun q' hq' => ?_) fun q' => ?_
    · rw [hkind] at hq'
      cases hq'
      rw [hctl]
      rfl
    · rw [hkind, hctl]
      simp [Ctl.alert]
  | @put q _ hctl h =>
    rw [hctl] at hfits
    have hkind : p.kind s.prog t = .push q := hfits
    refine hs.advance h (by rw [hctl]; rfl) (fun _ => trivial)
      (fun _ => nofun) (fun _ => nofun)
      (fun q' hq' => ?_) fun q' => ?_
    · rw [hkind] at hq'
      cases hq'
    · rw [hkind, hctl]
      simp [Ctl.alert]
  | @unlock q notify hctl =>
    refine hs.move_ctl (hs.owner.release (by rw [hctl]; rfl) ?_)
      ?_ (fun q' hq' => ?_)
      (fun q' hq' => ?_) fun _ q' _ => Or.inl ?_
    · cases notify <;> rfl
    · cases notify <;> trivial
    · cases notify <;> cases hq'
    · cases notify <;> cases hq'
    · rw [hctl]
      cases notify <;> exact le_rfl
  | wake hctl hu => exact hs.notify hctl hu
  | @wakeNone q hctl hnone =>
    refine hs.move_ctl (hs.owner.keep (by rw [hctl]; rfl))
      trivial (fun _ => nofun)
      (fun _ => nofun) fun u q' hu => Or.inl ?_
    -- nobody sleeps on this queue
    have hne : q ≠ q' := fun h => hnone u (h ▸ hu)
    rw [hctl, Ctl.alert, if_neg hne]
    exact Nat.zero_le _

/-- **Every move keeps the invariant.** -/
theorem implStep (hs : p.Sound s) {s' : State ι κ σ} {a : Actor ι}
    (h : p.implStep s a = some s') : p.Sound s' := by
  cases a with
  | thread t w => exact hs.threadStep h
  | spurious t =>
    simp only [Program.implStep] at h
    split at h
    · next q hq =>
      cases h
      exact hs.wake hq
    · cases h

/-! ## Progress -/

/-- A thread that has a mutex can move: nothing it does under the mutex
waits. -/
theorem enabled_of_owns (hs : p.Sound s) {q : κ} (h : (s.ctl t).owns = some q) :
    (p.threadStep s t none).isSome = true := by
  have hfits := hs.fits t
  unfold Program.threadStep
  cases hctl : s.ctl t with
  | testing q' =>
    simp only
    split <;> rfl
  | unlocking q' notify => rfl
  | taking q' =>
    rw [hctl] at hfits
    simp only [State.advance, Option.isSome_map]
    exact (p.isSome_pop _ _ _ hfits).mpr (hs.taking t q' hctl)
  | putting q' =>
    rw [hctl] at hfits
    simp only [State.advance, Option.isSome_map]
    exact p.isSome_push _ _ _ hfits
  | outside | popLocking | pushLocking | sleeping | waking | notifying =>
    rw [hctl] at h
    cases h

/-- A thread that takes a mutex can move, or the one that has it can. -/
theorem enabled_of_lock (hs : p.Sound s) {q : κ} {c : Ctl κ}
    (h : ∀ w, p.threadStep s t w = s.lock t q c) :
    ∃ u w, (p.threadStep s u w).isSome = true := by
  cases hmutex : s.mutex q with
  | none =>
    refine ⟨t, none, ?_⟩
    rw [h none, State.lock, hmutex]
    rfl
  | some u => exact ⟨u, none, hs.enabled_of_owns ((hs.owner q u).mp hmutex)⟩

/-- **Whoever is awake in a queue operation** can move, or somebody else can.
Nobody awake waits for anything but a mutex. -/
theorem enabled_of_inside (hs : p.Sound s) (hout : s.ctl t ≠ .outside)
    (hawake : ∀ q, s.ctl t ≠ .sleeping q) :
    ∃ u w, (p.threadStep s u w).isSome = true := by
  cases hctl : s.ctl t with
  | outside => exact absurd hctl hout
  | sleeping q => exact absurd hctl (hawake q)
  | popLocking q | pushLocking q | waking q =>
    exact hs.enabled_of_lock (t := t) (q := q) fun w => by
      simp only [Program.threadStep, hctl]; rfl
  | testing q | taking q | putting q | unlocking q notify =>
    exact ⟨t, none, hs.enabled_of_owns (q := q) (by rw [hctl]; rfl)⟩
  | notifying q =>
    by_cases hsleeper : ∃ u, s.ctl u = .sleeping q
    · obtain ⟨u, hu⟩ := hsleeper
      refine ⟨t, some u, ?_⟩
      simp only [Program.threadStep, hctl]
      rw [if_pos hu]
      rfl
    · refine ⟨t, none, ?_⟩
      simp only [Program.threadStep, hctl]
      rw [if_pos (not_exists.mp hsleeper)]
      rfl

/-- **No wake-up is lost**: who sleeps on a queue that is not empty is not the
last one awake. There is an element, and by the invariant somebody alert to
it. -/
theorem enabled_of_sleeping (hs : p.Sound s) {q : κ}
    (ht : s.ctl t = .sleeping q) (hlen : 0 < p.len s.prog q) :
    ∃ u w, (p.threadStep s u w).isSome = true := by
  obtain ⟨u, -, hu⟩ := Finset.exists_ne_zero_of_sum_ne_zero
    (lt_of_lt_of_le hlen (hs.awake t q ht)).ne'
  refine hs.enabled_of_inside (t := u) (fun h => ?_) (fun q' h => ?_)
  · rw [h] at hu
    exact hu rfl
  · rw [h] at hu
    exact hu rfl

/-- **The implementation does not get stuck before the program does.** Where the
program lets thread `t` move, some thread of the implementation can move. -/
theorem enabled (hs : p.Sound s) (h : (p.step s.prog t).isSome = true) :
    ∃ u w, (p.threadStep s u w).isSome = true := by
  have hfits := hs.fits t
  by_cases hsleep : ∃ q, s.ctl t = .sleeping q
  · obtain ⟨q, hq⟩ := hsleep
    rw [hq] at hfits
    exact hs.enabled_of_sleeping hq ((p.isSome_pop _ _ _ hfits).mp h)
  · by_cases hout : s.ctl t = .outside
    · cases hkind : p.kind s.prog t with
      | pop q | push q =>
        refine ⟨t, none, ?_⟩
        simp only [Program.threadStep, hout, hkind]
        rfl
      | move | done =>
        refine ⟨t, none, ?_⟩
        simp only [Program.threadStep, hout, hkind,
          State.advance, Option.isSome_map]
        exact h
      | join u =>
        by_cases hu : s.ctl u = .outside
        · refine ⟨t, none, ?_⟩
          simp only [Program.threadStep, hout, hkind, if_pos hu,
            State.advance, Option.isSome_map]
          exact h
        · -- a thread that is through does not sleep
          refine hs.enabled_of_inside hu fun q hq => ?_
          have hfitsu := hs.fits u
          rw [hq, p.done_of_join _ _ _ hkind h] at hfitsu
          cases hfitsu
    · exact hs.enabled_of_inside hout fun q hq => hsleep ⟨q, hq⟩

end Program.Sound

/-! ## Termination

Without wake-ups for no reason, all that the implementation adds to a run of the
program is bounded: a queue operation goes through a fixed number of places, and
a push sends at most one sleeper through its test again. -/

/-- How far a thread can still go before it makes a move of the program. A
thread that will wake a sleeper has the sleeper's way in store. -/
def Ctl.toGo : Ctl κ → ℕ
  | .sleeping _ | .taking _ | .putting _ => 0
  | .testing _ | .pushLocking _ => 1
  | .popLocking _ | .waking _ => 2
  | .outside => 3
  | .unlocking _ false => 4
  | .notifying _ => 6
  | .unlocking _ true => 7

/-- How far the implementation can still go, from how far the program can. A
move of the program is worth eight, more than the longest way back to the next
one. -/
def State.toGo (μ : σ → ℕ) (s : State ι κ σ) : ℕ :=
  8 * μ s.prog + ∑ t, (s.ctl t).toGo

omit [DecidableEq κ] in
/-- A thread that goes on to a place from which it is less far takes the whole
forward. -/
theorem State.toGo_goto_lt (μ : σ → ℕ) {s s' : State ι κ σ} {t : ι} {c : Ctl κ}
    (hprog : s'.prog = s.prog) (hctl : s'.ctl = Function.update s.ctl t c)
    (hlt : c.toGo < (s.ctl t).toGo) : s'.toGo μ < s.toGo μ := by
  have hsum := sum_update Ctl.toGo s.ctl t c
  unfold State.toGo
  rw [hprog, hctl]
  omega

/-- A move of the program takes the program forward, by more than the thread's
next operation can add. -/
theorem State.toGo_advance_lt {μ : σ → ℕ}
    {s s' : State ι κ σ} {t : ι} {c : Ctl κ}
    (hμ : ∀ t next, p.step s.prog t = some next → μ next < μ s.prog)
    (h : s.advance p t c = some s') (hle : c.toGo < (s.ctl t).toGo + 8) :
    s'.toGo μ < s.toGo μ := by
  obtain ⟨next, hnext, rfl⟩ := Option.map_eq_some_iff.mp h
  have hsum := sum_update Ctl.toGo s.ctl t c
  have hlt := hμ t next hnext
  show 8 * μ next + ∑ u, (Function.update s.ctl t c u).toGo < s.toGo μ
  unfold State.toGo
  omega

omit [DecidableEq κ] in
/-- A notification: what the sleeper has to go is less than what its waker had
in store. -/
theorem State.toGo_notify_lt (μ : σ → ℕ) {s : State ι κ σ} {t u : ι} {q : κ}
    (ht : s.ctl t = .notifying q) (hu : s.ctl u = .sleeping q) :
    ((s.goto u (.waking q)).goto t .outside).toGo μ < s.toGo μ := by
  have hne : t ≠ u := fun h => by
    rw [h, hu] at ht
    cases ht
  have hsum₁ := sum_update Ctl.toGo s.ctl u (.waking q)
  have hsum₂ :=
    sum_update Ctl.toGo (Function.update s.ctl u (.waking q)) t .outside
  rw [Function.update_of_ne hne, ht] at hsum₂
  rw [hu] at hsum₁
  have hwaking : (Ctl.waking q).toGo = 2
    ∧ (Ctl.sleeping q).toGo = 0 := ⟨rfl, rfl⟩
  have hnotifying : (Ctl.notifying q).toGo = 6
    ∧ (Ctl.outside : Ctl κ).toGo = 3 := ⟨rfl, rfl⟩
  show 8 * μ s.prog
    + ∑ v, (Function.update
      (Function.update s.ctl u (.waking q)) t .outside v).toGo < _
  unfold State.toGo
  omega

/-- **Every move of a thread takes the implementation forward**, where every
move of the program takes the program forward. -/
theorem Program.toGo_lt {μ : σ → ℕ} {s s' : State ι κ σ} {t : ι} {w : Option ι}
    (hμ : ∀ t next, p.step s.prog t = some next → μ next < μ s.prog)
    (h : p.threadStep s t w = some s') : s'.toGo μ < s.toGo μ := by
  cases p.moves_of_threadStep h with
  | pop hctl _ | push hctl _ | lockPush hctl _ | wait hctl _ | find hctl _
  | wakeNone hctl _ =>
    exact State.toGo_goto_lt μ rfl rfl (by simp [hctl, Ctl.toGo])
  | lockPop hctl _ =>
    rcases hctl with hctl | hctl <;>
      exact State.toGo_goto_lt μ rfl rfl (by simp [hctl, Ctl.toGo])
  | outside hctl _ _ h | take hctl h | put hctl h =>
    exact s.toGo_advance_lt p hμ h (by simp [hctl, Ctl.toGo])
  | @unlock q notify hctl =>
    refine State.toGo_goto_lt μ rfl rfl ?_
    cases notify <;> simp [hctl, Ctl.toGo]
  | wake hctl hu => exact State.toGo_notify_lt μ hctl hu

/-- **A run in which nobody is woken for no reason is finite**: where a measure
bounds the runs of the program, eight times as many moves and three for each
thread bound those of the implementation.

With wake-ups for no reason there is no bound, since a thread may be woken and
put to sleep again for ever. -/
theorem Program.run_le {μ : σ → ℕ} {s₀ : σ} {s : State ι κ σ} {n : ℕ}
    (hμ : ∀ s t s', Reachable p.step s₀ s → p.step s t = some s' → μ s' < μ s)
    (hs : ReachableIn (fun s (a : ι × Option ι) => p.threadStep s a.1 a.2)
      (State.init s₀) n s) : n ≤ 8 * μ s₀ + 3 * Fintype.card ι := by
  have hle := hs.add_le (μ := State.toGo μ) fun s a s' hs h =>
    p.toGo_lt (hμ s.prog · · (hs.map State.prog fun _ b _ h =>
      (p.threadStep_prog h).imp_right fun h => ⟨b.1, h⟩)) h
  have hinit : (State.init s₀ : State ι κ σ).toGo μ
    = 8 * μ s₀ + 3 * Fintype.card ι := by
    show 8 * μ s₀ + ∑ _t : ι, 3 = _
    rw [Finset.sum_const, Finset.card_univ, smul_eq_mul, mul_comm 3]
  omega

/-- **In every run** the invariant holds, whatever is woken and when. -/
theorem Program.sound_of_reachable {s₀ : σ} {s : State ι κ σ}
    (hs : Reachable p.implStep (State.init s₀) s) : p.Sound s :=
  hs.invariant (.init s₀) fun _ _ _ hs h => hs.implStep h

end Monitor
