import Skt.Hardware.Collect
import Skt.Lib.JobTallies

/-!
# Combining neighbours of one key

`Aggregate` is meant to stand in front of `Collect` and to take away from it the
values that follow each other closely under one key. The flits pass through a
window of places. When a flit of the same key is still under way, the one that
has just come in is combined into it and goes no further. The comparison takes a
call of its own, so that a match is acted on in the next call.

The flits in the window have different keys, so at most one of them takes the
new value, and nothing is lost or counted twice. But a flit that goes no further
takes its `last` flag with it, and the one that it is combined into may be of an
earlier job: the tallies of the jobs are kept in a run whose combinations all
stay within a job.

The class comment speaks of a statistics output that is triggered by `last`.
What the code does is write the oldest place in every call in which it holds a
flit, whatever the flags say. The model follows the code.
-/

namespace Skt.Hardware

open Streams

variable {n : ℕ} {K V : Type*}

/-! ## `Aggregate`

The window is a row of places, the newest flit in place `0` and the oldest in
place `N - 1`. -/

/-- A place of the window: an element of `aggr`. Without `vld` the other fields
mean nothing. -/
structure Slot (K V : Type*) where
  vld : Bool
  /-- The flag the flit came in with. It does nothing in the window. -/
  last : Bool
  key : K
  /-- Its value, with those combined into it. -/
  val : V

/-- The state of an `Aggregate` with a window of `N = n + 1` places; `hit` is
the `match` of the source, found by the call before. Its entries at `0` and `N -
1` are never used. -/
structure Aggregate (n : ℕ) (K V : Type*) where
  /-- The places, the newest flit first. -/
  aggr : Fin (n + 1) → Slot K V
  /-- Which places have the key of the newest flit, as compared when it came
  in. -/
  hit : Fin (n + 1) → Bool

namespace Aggregate

/-- The state at power-up: no place holds a flit. -/
def init [Zero K] [Zero V] : Aggregate n K V :=
  ⟨fun _ => ⟨false, false, 0, 0⟩, fun _ => false⟩

/-- The oldest place is written if it holds a flit, as the first thing in a
call. -/
def emit (s : Aggregate n K V) (dst : Fifo (Flit (K × V))) :
    Fifo (Flit (K × V)) :=
  let old := s.aggr (Fin.last n)
  if old.vld then dst.write ⟨old.last, old.key, old.val⟩ else dst

/-- `kill`: the newest flit is combined into another one, and so is not passed
on. -/
def kill (s : Aggregate n K V) : Bool :=
  decide (∃ i, 0 < i ∧ i < Fin.last n ∧ s.hit i = true)

/-- The places with the newest flit combined into those that match. The oldest
place takes no part: it has just been written. -/
def combined (f : V → V → V) (s : Aggregate n K V) :
    Fin (n + 1) → Slot K V := fun i =>
  if i = 0 then { s.aggr 0 with vld := (s.aggr 0).vld && !s.kill }
  else if i < Fin.last n ∧ s.hit i = true then
    { s.aggr i with val := f (s.aggr i).val (s.aggr 0).val }
  else s.aggr i

variable [DecidableEq K]

/-- The places move on, what has been read takes the first one, and the others
are compared with it. The comparison is with the places after the move, and it
finds nothing when nothing has been read. -/
def accept (f : V → V → V) (s : Aggregate n K V) (istb : Bool)
    (idat : Flit (K × V)) :
    Aggregate n K V :=
  let aggr : Fin (n + 1) → Slot K V :=
    Fin.cons ⟨istb, idat.last, idat.val.1, idat.val.2⟩ fun i =>
      s.combined f i.castSucc
  { aggr := aggr
    hit := fun i =>
      if 0 < i ∧ i < Fin.last n then istb && (aggr i).vld
        && decide ((aggr i).key = idat.val.1)
      else s.hit i }

/-- `aggregate`: one call. It reads at most one flit and writes at most one, and
without input the places move on all the same. -/
def aggregate [Zero K] [Zero V] (f : V → V → V) (s : Aggregate n K V)
    (src dst : Fifo (Flit (K × V))) :
    Aggregate n K V × Fifo (Flit (K × V)) × Fifo (Flit (K × V)) :=
  let dst := s.emit dst
  match src.readNb with
  | some (x, src) => (s.accept f true x, src, dst)
  | none => (s.accept f false ⟨false, 0, 0⟩, src, dst)

end Aggregate

/-! ## The flits in a row of places

In the order in which they will be written: the oldest first. -/

/-- The flit in a place, if there is one. -/
def Slot.flits (t : Slot K V) : List (Flit (K × V)) :=
  if t.vld then [⟨t.last, t.key, t.val⟩] else []

/-- The flits in a row of places, the oldest first. -/
def flitsOf {m : ℕ} (t : Fin m → Slot K V) : List (Flit (K × V)) :=
  (List.ofFn t).reverse.flatMap Slot.flits

/-- The flit of the first place comes last. -/
theorem flitsOf_succ {m : ℕ} (t : Fin (m + 1) → Slot K V) :
    flitsOf t = flitsOf (fun i => t i.succ) ++ (t 0).flits := by
  unfold flitsOf
  rw [List.ofFn_succ, List.reverse_cons, List.flatMap_append,
    List.flatMap_singleton]

/-- The flit of the last place comes first. -/
theorem flitsOf_castSucc {m : ℕ} (t : Fin (m + 1) → Slot K V) :
    flitsOf t = (t (Fin.last m)).flits ++ flitsOf (fun i => t i.castSucc) := by
  unfold flitsOf
  rw [List.ofFn_succ_last, List.reverse_append, List.flatMap_append,
    List.reverse_singleton,
    List.flatMap_singleton]

/-- There are none when no place holds one, as at the start and at the end. -/
theorem flitsOf_eq_nil {m : ℕ} {t : Fin m → Slot K V}
    (h : ∀ i, (t i).vld = false) :
    flitsOf t = [] := by
  unfold flitsOf
  rw [List.flatMap_eq_nil_iff]
  intro u hu
  obtain ⟨i, rfl⟩ := List.mem_ofFn.mp (List.mem_reverse.mp hu)
  rw [Slot.flits, h i]
  rfl

/-- **One place is changed**: the flits of the older places stand before its own
and those of the newer ones behind it. -/
theorem exists_flitsOf_update {m : ℕ} (t : Fin m → Slot K V) (j : Fin m) :
    ∃ older newer : List (Flit (K × V)),
      (∀ z ∈ newer, ∃ i < j, z ∈ (t i).flits)
        ∧ ∀ u, flitsOf (Function.update t j u) = older ++ u.flits ++ newer := by
  induction m with
  | zero => exact j.elim0
  | succ m ih =>
    induction j using Fin.cases with
    | zero =>
      refine ⟨flitsOf (fun i => t i.succ), [], fun z hz =>
        absurd hz List.not_mem_nil,
        fun u => ?_⟩
      rw [flitsOf_succ, Function.update_self, List.append_nil]
      refine congrArg (fun u' => flitsOf u' ++ _) (funext fun i => ?_)
      exact Function.update_of_ne (Fin.succ_ne_zero i) _ _
    | succ j =>
      obtain ⟨older, newer, hnewer, hupdate⟩ := ih (fun i => t i.succ) j
      refine ⟨older, newer ++ (t 0).flits, fun z hz => ?_, fun u => ?_⟩
      · rcases List.mem_append.mp hz with hz | hz
        · obtain ⟨i, hij, hi⟩ := hnewer z hz
          exact ⟨i.succ, Fin.succ_lt_succ_iff.mpr hij, hi⟩
        · exact ⟨0, Fin.succ_pos j, hz⟩
      · have htail : (fun i : Fin m => Function.update t j.succ u i.succ)
            = Function.update (fun i => t i.succ) j u := by
          funext i
          rw [Function.update_apply, Function.update_apply]
          exact if_congr (Fin.succ_inj) rfl rfl
        rw [flitsOf_succ, htail, hupdate,
          Function.update_of_ne (Fin.succ_ne_zero j).symm,
          ← List.append_assoc]

/-! ## The window

What is true of it between two calls, and what combining does to it. -/

namespace Aggregate

variable (f : V → V → V) (s : Aggregate n K V)

/-- The flits behind the newest one: the newest may still be combined, and is
told apart. -/
def older : List (Flit (K × V)) := flitsOf (fun i : Fin n => s.aggr i.succ)

/-- **A combination stays within a job**: the newest flit does not end a job if
it is combined, since its `last` flag would go with it, and none has ended since
the flit that it is combined into, since that one would then be of an earlier
job. It is a condition on the registers before a call, and holds of a call that
combines nothing. -/
def OwnJob : Prop :=
  ∀ i, 0 < i → i < Fin.last n → s.hit i = true →
    (s.aggr 0).last = false ∧ ∀ j, 0 < j → j ≤ i → (s.aggr j).vld = true →
      (s.aggr j).last = false

/-- Whether it does can be computed. -/
instance : Decidable s.OwnJob :=
  inferInstanceAs (Decidable (∀ _, _ → _ → _ → _ ∧ ∀ _, _))

/-- **The flits in the window have different keys**, and the places that match
are those with the key of the newest one. The newest flit itself is exempt: it
is the one that may have the key of another. -/
structure Distinct : Prop where
  /-- A place inside the window matches if it holds a flit of that key. -/
  hit_iff : ∀ i, 0 < i → i < Fin.last n →
    (s.hit i = true
      ↔ (s.aggr 0).vld = true ∧ (s.aggr i).vld = true
        ∧ (s.aggr i).key = (s.aggr 0).key)
  /-- Of the flits behind the newest no two have a key in common. -/
  distinct : ∀ i j, 0 < i → 0 < j → (s.aggr i).vld = true →
    (s.aggr j).vld = true →
    (s.aggr i).key = (s.aggr j).key → i = j

variable {s}

/-- The newest flit goes no further exactly when some place inside the window
matches. -/
theorem kill_iff :
    s.kill = true ↔ ∃ i, 0 < i ∧ i < Fin.last n ∧ s.hit i = true :=
  decide_eq_true_iff

theorem combined_zero :
    s.combined f 0 = { s.aggr 0 with vld := (s.aggr 0).vld && !s.kill } :=
      if_pos rfl

/-- A place that matches takes the new value. -/
theorem combined_of_hit {i : Fin (n + 1)} (h₀ : 0 < i) (hn : i < Fin.last n)
    (h : s.hit i = true) :
    s.combined f i
      = { s.aggr i with val := f (s.aggr i).val (s.aggr 0).val } := by
  unfold combined
  rw [if_neg h₀.ne', if_pos ⟨hn, h⟩]

/-- The other places stay as they are, the oldest among them. -/
theorem combined_of_not_hit {i : Fin (n + 1)} (h₀ : 0 < i)
    (h : i < Fin.last n → s.hit i = false) : s.combined f i = s.aggr i := by
  unfold combined
  rw [if_neg h₀.ne', if_neg fun hi =>
    Bool.false_ne_true ((h hi.1).symm.trans hi.2)]

/-- Combining leaves the keys. -/
theorem key_combined (i : Fin (n + 1)) :
    (s.combined f i).key = (s.aggr i).key := by
  unfold combined
  split
  · next h => rw [h]
  · split <;> rfl

/-- Combining empties at most the first place: all others keep their flits. -/
theorem vld_combined {i : Fin (n + 1)} (h₀ : 0 < i) :
    (s.combined f i).vld = (s.aggr i).vld := by
  unfold combined
  rw [if_neg h₀.ne']
  split <;> rfl

/-- No place is filled by combining. -/
theorem vld_combined_of_vld {i : Fin (n + 1)} (h : (s.aggr i).vld = false) :
    (s.combined f i).vld = false := by
  rcases (Fin.zero_le i).eq_or_lt with rfl | h₀
  · rw [combined_zero, h]
    rfl
  · rw [vld_combined f h₀, h]

/-- Nothing is combined when nothing matches. -/
theorem combined_of_not_kill (h : s.kill = false) : s.combined f = s.aggr := by
  funext i
  rcases (Fin.zero_le i).eq_or_lt with rfl | h₀
  · rw [combined_zero, h, Bool.not_false, Bool.and_true]
  · refine combined_of_not_hit f h₀ fun hn => ?_
    by_contra hi
    exact Bool.false_ne_true
      (h.symm.trans (kill_iff.mpr ⟨i, h₀, hn, Bool.eq_true_of_not_eq_false hi⟩))

/-- The oldest place takes no part in it, whatever `hit` says there. -/
theorem combined_last : s.combined f (Fin.last n) = s.aggr (Fin.last n) := by
  rcases (Fin.zero_le (Fin.last n)).eq_or_lt with h | h₀
  · -- a window of a single place
    rw [combined_of_not_kill f]
    by_contra hkill
    obtain ⟨i, h₀, hn, -⟩ := kill_iff.mp (Bool.eq_true_of_not_eq_false hkill)
    exact absurd (h₀.trans hn) (by rw [← h]; exact lt_irrefl _)
  · exact combined_of_not_hit f h₀ fun hn => absurd hn (lt_irrefl _)

/-- **After combining, all flits but the oldest have different keys.** -/
theorem Distinct.combined (h : s.Distinct) {i j : Fin (n + 1)}
    (hi : i < Fin.last n) (hj : j < Fin.last n)
    (hvi : (s.combined f i).vld = true) (hvj : (s.combined f j).vld = true)
    (hkey : (s.combined f i).key = (s.combined f j).key) : i = j := by
  -- a flit that stays in the first place matches no other one
  have hfirst : ∀ {i : Fin (n + 1)}, 0 < i → i < Fin.last n →
    (s.combined f i).vld = true →
      (s.combined f 0).vld = true → (s.aggr i).key ≠ (s.aggr 0).key := by
    intro i h₀ hn hv hvz hk
    rw [vld_combined f h₀] at hv
    rw [combined_zero] at hvz
    obtain ⟨hvz, hkill⟩ := (Bool.and_eq_true _ _).mp hvz
    have hhit := (h.hit_iff i h₀ hn).mpr ⟨hvz, hv, hk⟩
    rw [kill_iff.mpr ⟨i, h₀, hn, hhit⟩] at hkill
    exact Bool.false_ne_true hkill
  rw [key_combined, key_combined] at hkey
  rcases (Fin.zero_le i).eq_or_lt with rfl | hi₀
  · rcases (Fin.zero_le j).eq_or_lt with rfl | hj₀
    · rfl
    · exact absurd hkey.symm (hfirst hj₀ hj hvj hvi)
  · rcases (Fin.zero_le j).eq_or_lt with rfl | hj₀
    · exact absurd hkey (hfirst hi₀ hi hvi hvj)
    · rw [vld_combined f hi₀] at hvi
      rw [vld_combined f hj₀] at hvj
      exact h.distinct i j hi₀ hj₀ hvi hvj hkey

/-- **What happens to the flits when the newest one is combined**: it goes, and
the one flit of its key takes its value, in its place. -/
theorem Distinct.flitsOf_combined (h : s.Distinct)
    {j : Fin (n + 1)} (h₀ : 0 < j) (hn : j < Fin.last n) (hj : s.hit j = true) :
    ∃ out newer : List (Flit (K × V)),
      (∀ z ∈ newer, ∃ i, 0 < i ∧ i < j ∧ z ∈ (s.aggr i).flits)
        ∧ s.older = out ++ (s.aggr j).flits ++ newer
        ∧ flitsOf (s.combined f) = out ++ (s.combined f j).flits ++ newer := by
  obtain ⟨j, rfl⟩ := Fin.exists_succ_eq.mpr h₀.ne'
  obtain ⟨out, newer, hnewer, hupdate⟩ :=
    exists_flitsOf_update (fun i : Fin n => s.aggr i.succ) j
  refine ⟨out, newer, fun z hz => ?_, ?_, ?_⟩
  · obtain ⟨i, hij, hi⟩ := hnewer z hz
    exact ⟨i.succ, Fin.succ_pos i, Fin.succ_lt_succ_iff.mpr hij, hi⟩
  · rw [← hupdate, Function.update_eq_self]
    rfl
  · obtain ⟨hvz, hv, hk⟩ := (h.hit_iff _ h₀ hn).mp hj
    have hgone : (s.combined f 0).flits = [] := by
      rw [combined_zero, kill_iff.mpr ⟨_, h₀, hn, hj⟩,
        Bool.not_true, Bool.and_false]
      rfl
    have htail : (fun i : Fin n => s.combined f i.succ)
        = Function.update (fun i => s.aggr i.succ) j (s.combined f j.succ) := by
      funext i
      by_cases hi : i = j
      · rw [hi, Function.update_self]
      · rw [Function.update_of_ne hi]
        refine combined_of_not_hit f (Fin.succ_pos i) fun hin => ?_
        by_contra hhit
        obtain ⟨-, hvi, hki⟩ := (h.hit_iff _ (Fin.succ_pos i) hin).mp
          (Bool.eq_true_of_not_eq_false hhit)
        exact hi (Fin.succ_inj.mp
          (h.distinct _ _ (Fin.succ_pos i) h₀ hvi hv (hki.trans hk.symm)))
    rw [flitsOf_succ, htail, hupdate, hgone, List.append_nil]

/-! ## One call

Combining, moving and writing, in terms of the flits. -/

variable [DecidableEq K]

/-- Combining within a job keeps the tallies. The value moves past flits of
other keys and of the same job, which a tally does not see. -/
theorem Distinct.tallies_combined [Std.Commutative f]
    [Std.Associative f] (h : s.Distinct) (hown : s.OwnJob)
    (out : List (Flit (K × V))) :
    tallies f (out ++ flitsOf (s.combined f))
      = tallies f (out ++ (s.older ++ (s.aggr 0).flits)) := by
  cases hkill : s.kill with
  | false =>
    rw [combined_of_not_kill f hkill, flitsOf_succ]
    rfl
  | true =>
    obtain ⟨j, h₀, hn, hj⟩ := kill_iff.mp hkill
    obtain ⟨hvz, hv, hk⟩ := (h.hit_iff j h₀ hn).mp hj
    obtain ⟨hlast, hopen⟩ := hown j h₀ hn hj
    obtain ⟨before, newer, hnewer, holder, hcombined⟩ :=
      h.flitsOf_combined f h₀ hn hj
    have hfirst : (s.aggr 0).flits
      = [⟨(s.aggr 0).last, (s.aggr 0).key, (s.aggr 0).val⟩] :=
      if_pos hvz
    have hplace : (s.aggr j).flits
      = [⟨(s.aggr j).last, (s.aggr j).key, (s.aggr j).val⟩] :=
      if_pos hv
    have htaken : (s.combined f j).flits
        = [⟨(s.aggr j).last, (s.aggr j).key,
          f (s.aggr j).val (s.aggr 0).val⟩] := by
      rw [combined_of_hit f h₀ hn hj]
      exact if_pos hv
    have hopen' : ∀ z ∈ newer, z.last = false := fun z hz => by
      obtain ⟨i, hi₀, hij, hi⟩ := hnewer z hz
      unfold Slot.flits at hi
      split at hi
      · next hvi =>
        rw [List.mem_singleton.mp hi]
        exact hopen i hi₀ hij.le hvi
      · exact absurd hi List.not_mem_nil
    have hkeep :=
      tallies_combine f (x := ⟨(s.aggr 0).last, (s.aggr 0).key, (s.aggr 0).val⟩)
      (y := ⟨(s.aggr j).last, (s.aggr j).key, (s.aggr j).val⟩) hk.symm hlast
      (hopen j h₀ le_rfl hv) hopen' (out ++ before)
    rw [hcombined, holder, hfirst, hplace, htaken]
    simp only [List.append_assoc, List.cons_append] at hkeep ⊢
    exact hkeep.symm

/-- A call leaves the keys different: a flit that had the key of an older one
has gone. -/
theorem Distinct.accept (h : s.Distinct) (istb : Bool) (idat : Flit (K × V)) :
    (s.accept f istb idat).Distinct where
  hit_iff i h₀ hn := by
    show (if 0 < i ∧ i < Fin.last n then _ else _) = true ↔ _
    rw [if_pos ⟨h₀, hn⟩, Bool.and_eq_true, Bool.and_eq_true,
      decide_eq_true_iff, and_assoc]
    rfl
  distinct i j hi₀ hj₀ := by
    obtain ⟨i, rfl⟩ := Fin.exists_succ_eq.mpr hi₀.ne'
    obtain ⟨j, rfl⟩ := Fin.exists_succ_eq.mpr hj₀.ne'
    intro hvi hvj hkey
    have hij := h.combined f (Fin.castSucc_lt_last i)
      (Fin.castSucc_lt_last j) hvi hvj hkey
    exact congrArg Fin.succ (Fin.castSucc_injective _ hij)

/-- **A call writes the oldest flit and keeps the others**, as they are after
combining. -/
theorem written_emit (istb : Bool) (idat : Flit (K × V))
    (dst : Fifo (Flit (K × V))) :
    (s.emit dst).written ++ (s.accept f istb idat).older
      = dst.written ++ flitsOf (s.combined f) := by
  have hemit : (s.emit dst).written = dst.written
    ++ (s.aggr (Fin.last n)).flits := by
    unfold emit Slot.flits
    dsimp only
    split
    · exact Fifo.written_write _ _
    · exact (List.append_nil _).symm
  rw [hemit, flitsOf_castSucc, combined_last, List.append_assoc]
  rfl

end Aggregate

/-! ## Runs

The condition is asked of every call along a schedule, in the state before
it. -/

/-- What can happen at an `Aggregate`: the arrival of a flit, a call. -/
inductive AggregateEvent where
  | arrive
  | call

/-- An `Aggregate` between its streams. Nothing is taken from `dst`. -/
structure AggregateRun (n : ℕ) (K V : Type*) where
  state : Aggregate n K V
  src : Fifo (Flit (K × V))
  dst : Fifo (Flit (K × V))

namespace AggregateRun

variable [DecidableEq K] [Zero K] [Zero V]

/-- The start of a run: nothing has arrived, and the window is empty. -/
def init : AggregateRun n K V := ⟨Aggregate.init, Fifo.new, Fifo.new⟩

/-- One event. What arrives is the next flit of the jobs, and a call is a call
of `aggregate`. -/
def step (f : V → V → V) (jobs : List (List (K × V))) (r : AggregateRun n K V) :
    AggregateEvent → AggregateRun n K V
  | .arrive => { r with src := r.src.arrive (jobs.flatMap frame) }
  | .call =>
    let p := Aggregate.aggregate f r.state r.src r.dst
    ⟨p.1, p.2.1, p.2.2⟩

/-- **Every combination along a schedule stays within a job.** The states are
those the schedule goes through. -/
def OwnJobs (f : V → V → V) (jobs : List (List (K × V))) :
    AggregateRun n K V → List AggregateEvent → Prop
  | _, [] => True
  | r, e :: schedule =>
    (match e with
      | .arrive => True
      | .call => r.state.OwnJob) ∧ OwnJobs f jobs (r.step f jobs e) schedule

/-- Whether they do can be computed. -/
instance decidableOwnJobs (f : V → V → V) (jobs : List (List (K × V))) :
    ∀ (r : AggregateRun n K V) (schedule : List AggregateEvent),
      Decidable (OwnJobs f jobs r schedule)
  | _, [] => isTrue trivial
  | r, .arrive :: schedule =>
    have := decidableOwnJobs f jobs (r.step f jobs .arrive) schedule
    inferInstanceAs (Decidable (True ∧ _))
  | r, .call :: schedule =>
    have := decidableOwnJobs f jobs (r.step f jobs .call) schedule
    inferInstanceAs (Decidable (_ ∧ _))

/-- **The invariant of a run**: what has been written and what is under way have
the tallies of what has been read. -/
structure Sound (f : V → V → V) [Std.Commutative f] [Std.Associative f]
    (r : AggregateRun n K V) : Prop where
  distinct : r.state.Distinct
  /-- The tallies of what was read are those of what was written and what is
  still in the window, the older flits before the newest. -/
  tallied : tallies f r.src.consumed
    = tallies f (r.dst.written ++ (r.state.older ++ (r.state.aggr 0).flits))

variable (f : V → V → V) (jobs : List (List (K × V))) {r : AggregateRun n K V}

/-- A call on an empty input, and one that reads. In both the window moves
on. -/
theorem call_cases (r : AggregateRun n K V) :
    (r.src.pending = [] ∧ r.step f jobs .call
        = ⟨r.state.accept f false ⟨false, 0, 0⟩, r.src, r.state.emit r.dst⟩)
      ∨ ∃ x src, r.src.readNb = some (x, src) ∧ r.step f jobs .call
        = ⟨r.state.accept f true x, src, r.state.emit r.dst⟩ := by
  unfold step Aggregate.aggregate
  cases h : r.src.readNb with
  | none => exact Or.inl ⟨Fifo.readNb_eq_none.mp h, rfl⟩
  | some p => exact Or.inr ⟨p.1, p.2, rfl, rfl⟩

section Tallied

variable [Std.Commutative f] [Std.Associative f]

theorem sound_init : (init : AggregateRun n K V).Sound f where
  distinct := ⟨fun _ _ _ => ⟨fun h => absurd h Bool.false_ne_true,
    fun h => absurd h.1 Bool.false_ne_true⟩, fun _ _ _ _ h =>
      absurd h Bool.false_ne_true⟩
  tallied := by
    have hnone : (init : AggregateRun n K V).state.older = [] :=
      flitsOf_eq_nil fun _ => rfl
    rw [hnone]
    rfl

/-- **A call keeps the invariant** if its combination stays within a job. -/
theorem Sound.call (h : r.Sound f) (hown : r.state.OwnJob) :
    (r.step f jobs .call).Sound f := by
  -- the places move on, and what has been read is in the first one
  have hmoved : ∀ istb (idat : Flit (K × V)), tallies f r.src.consumed
      = tallies f
        ((r.state.emit r.dst).written
          ++ (r.state.accept f istb idat).older) := by
    intro istb idat
    rw [Aggregate.written_emit, h.distinct.tallies_combined f hown]
    exact h.tallied
  rcases call_cases f jobs r with ⟨-, hstep⟩ | ⟨x, src, hx, hstep⟩
  · rw [hstep]
    refine ⟨h.distinct.accept f _ _, ?_⟩
    rw [← List.append_assoc]
    exact (hmoved _ _).trans (congrArg (tallies f) (List.append_nil _).symm)
  · rw [hstep]
    refine ⟨h.distinct.accept f _ _, ?_⟩
    show tallies f src.consumed = _
    rw [Fifo.consumed_of_readNb hx, ← List.append_assoc]
    exact tallies_append f (hmoved _ _) [x]

/-- The invariant of every run whose combinations stay within a job, by
induction on its events. -/
theorem Sound.foldl (h : r.Sound f) {schedule : List AggregateEvent}
    (hown : OwnJobs f jobs r schedule) :
    (schedule.foldl (step f jobs) r).Sound f := by
  induction schedule generalizing r with
  | nil => exact h
  | cons e schedule ih =>
    refine ih ?_ hown.2
    cases e with
    | arrive =>
      exact ⟨h.distinct,
        (congrArg (tallies f) (Fifo.consumed_arrive _ _)).trans h.tallied⟩
    | call => exact h.call f jobs hown.1

end Tallied

/-! ## Draining

When nothing arrives any more, calls read what is left and then empty the
window. -/

/-- **Calls empty the input and then the window**: as many calls as there are
flits to read and places to pass. -/
theorem drained_calls (r : AggregateRun n K V) (m : ℕ) :
    let r' := (List.replicate m AggregateEvent.call).foldl (step f jobs) r
    r'.src.written = r.src.written ∧ r'.src.pending.length
      = r.src.pending.length - m
      ∧ ∀ i : Fin (n + 1), r.src.pending.length + i.val < m →
        (r'.state.aggr i).vld = false := by
  induction m with
  | zero => exact ⟨rfl, rfl, fun i hi => absurd hi (Nat.not_lt_zero _)⟩
  | succ m ih =>
    intro r'
    set q := (List.replicate m AggregateEvent.call).foldl
      (step f jobs) r with hq
    have hr' : r' = q.step f jobs .call := by
      show (List.replicate (m + 1) _).foldl _ _ = _
      rw [List.replicate_succ', List.foldl_append, ← hq]
      rfl
    obtain ⟨hwritten, hpending, hvld⟩ := ih
    -- a place takes over the flit of the one before it
    have hmove : ∀ istb (idat : Flit (K × V)) (i : Fin n),
        r.src.pending.length + i.succ.val < m + 1 →
          ((q.state.accept f istb idat).aggr i.succ).vld = false := by
      intro istb idat i hi
      refine Aggregate.vld_combined_of_vld f (hvld i.castSucc ?_)
      rw [Fin.val_succ] at hi
      exact Nat.lt_of_succ_lt_succ hi
    rw [hr']
    rcases call_cases f jobs q with ⟨hempty, hstep⟩ | ⟨x, src, hx, hstep⟩
    · rw [hstep]
      rw [hempty, List.length_nil] at hpending
      refine ⟨hwritten, ?_, fun i hi => ?_⟩
      · show q.src.pending.length = _
        rw [hempty, List.length_nil]
        omega
      · induction i using Fin.cases with
        | zero => rfl
        | succ i => exact hmove _ _ i hi
    · have hrest : q.src.pending.length = src.pending.length + 1 := by
        obtain ⟨rest, hrest, rfl⟩ := Fifo.readNb_eq_some.mp hx
        rw [hrest]
        rfl
      rw [hstep]
      refine ⟨(Fifo.written_of_readNb hx).trans hwritten, ?_, fun i hi => ?_⟩
      · show src.pending.length = _
        omega
      · induction i using Fin.cases with
        | zero =>
          rw [Fin.val_zero] at hi
          omega
        | succ i => exact hmove _ _ i hi

/-! ## The tallies of the jobs

What a `Collect` behind the window would see of the jobs. -/

/-- **An output keeps the tallies of the jobs**: it carries as many jobs, all
complete, and in each the values of a key combine to the same as in the job. -/
def KeepsTallies [Std.Commutative f] [Std.Associative f]
    (out : List (Flit (K × V))) : Prop :=
  (jobsOf out).length = jobs.length ∧ partOf out = []
    ∧ ∀ (i : ℕ) (job job' : List (K × V)), jobs[i]? = some job →
      (jobsOf out)[i]? = some job' →
      ∀ k, jobTally f job' k = jobTally f job k

/-- **`Aggregate` keeps the tallies of the jobs as long as it combines within a
job**: in every run whose combinations all do, whatever the window, the
operation and the timing, the drained output carries the jobs, and each with its
tallies. -/
theorem keepsTallies [Std.Commutative f] [Std.Associative f]
    (hjobs : ∀ job ∈ jobs, job ≠ []) (schedule : List AggregateEvent) (m : ℕ)
    (hown : OwnJobs f jobs (init : AggregateRun n K V)
      (schedule ++ List.replicate m AggregateEvent.call)) :
    let r : AggregateRun n K V := schedule.foldl (step f jobs) init
    r.src.written = jobs.flatMap frame → r.src.pending.length + (n + 1) ≤ m →
      KeepsTallies f jobs
        ((List.replicate m AggregateEvent.call).foldl
          (step f jobs) r).dst.written := by
  intro r harrived hm
  obtain ⟨hwritten, hpending, hvld⟩ := drained_calls f jobs r m
  have hsound := (sound_init f).foldl f jobs hown
  rw [List.foldl_append] at hsound
  set r' := (List.replicate m AggregateEvent.call).foldl (step f jobs) r
  have hempty : ∀ i, (r'.state.aggr i).vld = false := fun i =>
    hvld i (by have hi := i.isLt; omega)
  have hwindow : r'.state.older ++ (r'.state.aggr 0).flits = [] := by
    rw [Aggregate.older, flitsOf_eq_nil (fun i => hempty i.succ),
      Slot.flits, hempty 0]
    rfl
  have hconsumed : r'.src.consumed = jobs.flatMap frame := by
    rw [Fifo.consumed_eq_written (List.length_eq_zero_iff.mp (by omega)),
      hwritten, harrived]
  have htallied : tallies f (jobs.flatMap frame)
    = tallies f r'.dst.written := by
    have h := hsound.tallied
    rwa [hwindow, List.append_nil, hconsumed] at h
  obtain ⟨hcomplete, hpart⟩ := Prod.ext_iff.mp htallied
  replace hcomplete : (jobsOf (jobs.flatMap frame)).map (jobTally f)
    = (jobsOf r'.dst.written).map (jobTally f) := hcomplete
  replace hpart : jobTally f (partOf (jobs.flatMap frame))
    = jobTally f (partOf r'.dst.written) :=
    hpart
  rw [jobsOf_flatMap_frame hjobs] at hcomplete
  rw [partOf_flatMap_frame hjobs] at hpart
  refine ⟨?_, eq_nil_of_jobTally f hpart.symm,
    fun i job job' hjob hjob' k => ?_⟩
  · have hlen := congrArg List.length hcomplete
    rw [List.length_map, List.length_map] at hlen
    exact hlen.symm
  · have hi := congrArg (fun l => l[i]?) hcomplete
    simp only [List.getElem?_map, hjob, hjob', Option.map_some] at hi
    exact congrFun (Option.some.inj hi).symm k

/-- Two jobs, the first of which uses one key twice in a row; the second comes
when the first has left the window, and both keep their tallies. -/
theorem keepsTallies_instance :
    let jobs : List (List (BitVec 1 × ℕ)) :=
      [[(0, 1), (0, 2), (1, 4)], [(1, 8)]]
    let schedule : List AggregateEvent :=
      [.arrive, .arrive, .call, .arrive, .call, .call, .call, .call, .arrive]
    let r := schedule.foldl (step (· + ·) jobs)
      (init : AggregateRun 2 (BitVec 1) ℕ)
    KeepsTallies (V := ℕ) (· + ·) jobs
      ((List.replicate 4 AggregateEvent.call).foldl
        (step (· + ·) jobs) r).dst.written :=
  keepsTallies (· + ·) _ (by decide) _ 4 (by decide) (by decide) (by decide)

/-- **A flit that is combined takes its `last` flag with it**: a job of two
flits of one key leaves the window as one flit, of which the job does not
end. -/
theorem not_keepsTallies :
    let jobs : List (List (BitVec 1 × ℕ)) := [[(0, 1), (0, 2)]]
    let r := [AggregateEvent.arrive, .arrive].foldl (step (· + ·) jobs)
      (init : AggregateRun 2 (BitVec 1) ℕ)
    let r' := (List.replicate 5 AggregateEvent.call).foldl (step (· + ·) jobs) r
    r.src.written = jobs.flatMap frame ∧ r.src.pending.length + 3 ≤ 5
      ∧ r'.dst.written = [⟨false, 0, 3⟩]
        ∧ ¬ KeepsTallies (V := ℕ) (· + ·) jobs r'.dst.written := by
  intro jobs r r'
  have hout : r'.dst.written = [⟨false, 0, 3⟩] := by decide
  refine ⟨by decide, by decide, hout, fun h => ?_⟩
  rw [hout] at h
  exact absurd h.1 (by decide)

/-- A flit is also combined into one of the job before. -/
example :
    let jobs : List (List (BitVec 1 × ℕ)) := [[(0, 1)], [(0, 2), (1, 4)]]
    let r := (List.replicate 3 AggregateEvent.arrive).foldl (step (· + ·) jobs)
      (init : AggregateRun 2 (BitVec 1) ℕ)
    ((List.replicate 6 AggregateEvent.call).foldl
      (step (· + ·) jobs) r).dst.written
      = [⟨true, 0, 3⟩, ⟨true, 1, 4⟩] := by
  decide

end AggregateRun

end Skt.Hardware
