import Mathlib

/-!
# Runs of a system of actors

A system is a step function: an actor may be able to move in a state, or may
not. Its reachable states are those some interleaving of the actors ends in, and
what every move keeps holds in all of them. Where every actor can always move,
an interleaving is a list of actors and a run is a fold over it.

Three rules are used throughout:

- `Reachable.invariant`, for what holds in every reachable state: a safety
  property is proved of the start and of one move;
- `Reachable.map`, for a refinement: a system that does more than another, or
  takes smaller steps, only reaches states the other one reaches;
- `ReachableIn.add_le`, for termination: a measure that every move lowers bounds
  the number of moves, whatever the interleaving.

The rest of the module is about states that carry one component per actor. When
a single component changes, a sum over all of them changes in one summand, which
is how an invariant that counts over all actors is kept by the move of one.
-/

namespace Runs

variable {σ α : Type*}

/-- **The states reachable from `s₀`** by moves of the actors, in any order.

A move is `step s a = some s'`; an actor whose step is `none` has to wait, and
the interleaving continues with another one. Nothing is said about fairness:
what is proved of the reachable states holds of the finite beginnings of every
schedule, fair or not. -/
inductive Reachable (step : σ → α → Option σ) (s₀ : σ) : σ → Prop where
  | init : Reachable step s₀ s₀
  /-- One step more, which is possible in the state it starts from. -/
  | next {s s' : σ} {a : α} (hs : Reachable step s₀ s)
    (h : step s a = some s') :
      Reachable step s₀ s'

/-- **What holds at the start and survives every move holds in every reachable
state.**

The induction on the run is made here once. An invariant of a program is then
the two facts a reader looks for, its initial state and its single step, and `I`
may be any conjunction that is inductive as a whole. -/
theorem Reachable.invariant {step : σ → α → Option σ} {s₀ s : σ}
    (hs : Reachable step s₀ s) {I : σ → Prop} (hinit : I s₀)
    (hstep : ∀ s a s', I s → step s a = some s' → I s') : I s := by
  induction hs with
  | init => exact hinit
  | next _ h ih => exact hstep _ _ _ ih h

/-- **Simulation.** Where every move is a move of another system or changes
nothing that this system sees, reachable states are seen as reachable ones.

The moves that change nothing seen are the internal ones of the finer system,
for example a thread that wakes up, finds its condition false and sleeps
again. -/
theorem Reachable.map {τ β : Type*} {step : σ → α → Option σ}
    {step' : τ → β → Option τ} {s₀ s : σ} (hs : Reachable step s₀ s) (f : σ → τ)
    (hstep : ∀ s a s', step s a = some s' →
      f s' = f s ∨ ∃ b, step' (f s) b = some (f s')) :
    Reachable step' (f s₀) (f s) := by
  induction hs with
  | init => exact .init
  | next _ h ih =>
    rcases hstep _ _ _ h with heq | ⟨b, hb⟩
    · rw [heq]
      exact ih
    · exact .next ih hb

/-- The moves of a list, one after the other, lead from reachable states to
reachable states. A concrete run is given as the list of its moves and is
checked by evaluating it. -/
theorem Reachable.foldlM {step : σ → α → Option σ} {s₀ s s' : σ}
    (hs : Reachable step s₀ s) {moves : List α}
    (h : moves.foldlM step s = some s') :
    Reachable step s₀ s' := by
  induction moves generalizing s with
  | nil =>
    cases h
    exact hs
  | cons a moves ih =>
    rw [List.foldlM_cons, Option.bind_eq_bind] at h
    obtain ⟨t, ht, hmoves⟩ := Option.bind_eq_some_iff.mp h
    exact ih (.next hs ht) hmoves

/-- The states reachable from `s₀` in a number of moves.

`Reachable` forgets how long a run was; this one counts, so that a bound on the
length of every run can be stated. -/
inductive ReachableIn (step : σ → α → Option σ) (s₀ : σ) : ℕ → σ → Prop where
  | init : ReachableIn step s₀ 0 s₀
  /-- One step more, and one more counted. -/
  | next {n : ℕ} {s s' : σ} {a : α} (hs : ReachableIn step s₀ n s)
    (h : step s a = some s') :
      ReachableIn step s₀ (n + 1) s'

/-- A state reachable in a number of moves is reachable, so every invariant of
the system is available where runs are counted. -/
theorem ReachableIn.reachable {step : σ → α → Option σ} {s₀ s : σ} {n : ℕ}
    (hs : ReachableIn step s₀ n s) : Reachable step s₀ s := by
  induction hs with
  | init => exact .init
  | next _ h ih => exact .next ih h

/-- **A measure that every move lowers bounds every run.** The moves made and
what is left of the measure never exceed what it was at the start.

The measure has to go down on reachable states only, so its proof may use the
invariants of the system. -/
theorem ReachableIn.add_le {step : σ → α → Option σ} {s₀ s : σ} {n : ℕ}
    (hs : ReachableIn step s₀ n s) {μ : σ → ℕ}
    (hlt : ∀ s a s', Reachable step s₀ s → step s a = some s' → μ s' < μ s) :
    n + μ s ≤ μ s₀ := by
  induction hs with
  | init => exact (Nat.zero_add _).le
  | next hs h ih =>
    have hstep := hlt _ _ _ hs.reachable h
    omega

/-- **What holds at the start and survives every firing holds after every
schedule.** This is the rule of `Reachable.invariant` for systems in which an
actor can always be called, as a task that does nothing when its input is
empty. -/
theorem foldl_invariant (fire : σ → α → σ) {I : σ → Prop}
    (hfire : ∀ s a, I s → I (fire s a))
    (schedule : List α) {s : σ} (hinit : I s) : I (schedule.foldl fire s) := by
  induction schedule generalizing s with
  | nil => exact hinit
  | cons a schedule ih => exact ih (hfire s a hinit)

/-- **One component changes, one summand changes.** It is stated without a
subtraction, so that it holds in any commutative monoid, the natural numbers and
the multisets among them. -/
theorem sum_update {ι τ N : Type*} [Fintype ι] [DecidableEq ι]
    [AddCommMonoid N] (g : τ → N) (f : ι → τ) (i : ι) (v : τ) :
    ∑ j, g (Function.update f i v j) + g (f i) = ∑ j, g (f j) + g v := by
  have hupd : ∑ j ∈ Finset.univ.erase i, g (Function.update f i v j)
      = ∑ j ∈ Finset.univ.erase i, g (f j) :=
    Finset.sum_congr rfl (fun j hj => by
      rw [Function.update_of_ne (Finset.ne_of_mem_erase hj)])
  rw [← Finset.sum_erase_add Finset.univ _ (Finset.mem_univ i),
    ← Finset.sum_erase_add Finset.univ (fun j => g (f j))
      (Finset.mem_univ i), hupd,
    Function.update_self]
  exact add_right_comm _ _ _

/-- The summand that changes was zero, as that of an actor that had nothing
before the move: the sum grows by the new value. -/
theorem sum_update_of_zero {ι τ N : Type*} [Fintype ι]
    [DecidableEq ι] [AddCommMonoid N] (g : τ → N) {f : ι → τ} {i : ι} (v : τ)
    (h : g (f i) = 0) :
    ∑ j, g (Function.update f i v j) = ∑ j, g (f j) + g v := by
  rw [← sum_update g f i v, h, add_zero]

/-- The summand that changes keeps its value, so the sum does: the actor changed
in a way the sum does not see. -/
theorem sum_update_of_eq {ι τ N : Type*} [Fintype ι]
    [DecidableEq ι] [AddCommMonoid N] (g : τ → N) {f : ι → τ} {i : ι} {v : τ}
    (h : g v = g (f i)) :
    ∑ j, g (Function.update f i v j) = ∑ j, g (f j) := by
  refine Finset.sum_congr rfl (fun j _ => ?_)
  by_cases hj : j = i
  · rw [hj, Function.update_self, h]
  · rw [Function.update_of_ne hj]

end Runs
