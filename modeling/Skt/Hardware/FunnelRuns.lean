import Skt.Lib.Runs
import Skt.Hardware.Funnel

/-!
# The funnel over whole runs

With fewer lanes than items, which lane an item goes to depends on when the
words arrive: a rest of a job is shipped on its own, or together with the first
items of the next job. This module looks at a funnel between its streams, with
words arriving and calls happening in any order.

Nothing is lost and nothing is counted twice, what the refill leaves behind the
valid entries of the buffer is never looked at, and every lane carries every job
with its own `last`, so that the streams behind the lanes can be read job by
job.

The kernel of the repository has as many lanes as items and calls the other
instance of the funnel, which has no buffer. The results here are about the one
with a buffer, for all `0 < K < N`.
-/

namespace Skt.Hardware

open Streams Runs

namespace Funnel

variable {N K : ℕ}

/-! ## What is delivered and what is not

The equation of the funnel counts what waits in the buffer as carried. Here the
two are told apart. -/

/-- The images of the elements of several lists, list by list. -/
theorem coe_flatMap_flatten {α β : Type*} (f : α → List β) (l : List (List α)) :
    (l.flatten.flatMap f : Multiset β)
      = ∑ t ∈ Finset.range l.length,
        ((l.getD t []).flatMap f : Multiset β) := by
  induction l using List.reverseRecOn with
  | nil => rfl
  | append_singleton l a ih =>
    rw [List.flatten_append, List.flatten_singleton, List.flatMap_append,
      ← Multiset.coe_add, ih,
      List.length_append, List.length_singleton, Finset.sum_range_succ]
    refine congrArg₂ _ (Finset.sum_congr rfl (fun t ht => ?_)) ?_
    · rw [getD_concat, if_neg (Finset.mem_range.mp ht).ne]
    · rw [getD_concat, if_pos rfl]

/-- The values of a list, job by job, and those of the open job. -/
theorem sum_getD_jobsOf {α : Type*} (xs : List (Flit α)) {n : ℕ}
    (hn : (jobsOf xs).length = n) :
    ((xs.map Flit.val : List α) : Multiset α)
      = ∑ t ∈ Finset.range n, ((jobsOf xs).getD t [] : Multiset α)
        + (partOf xs : Multiset α) := by
  have hflatten := coe_flatMap_flatten (fun a : α => [a]) (jobsOf xs)
  simp only [List.flatMap_singleton'] at hflatten
  rw [map_val_eq_jobsOf, ← Multiset.coe_add, hflatten, hn]

/-- **The lanes of a distribution carry its items**, those of complete jobs and
those of the open one. -/
theorem sum_map_val_of_distributed {words : List (Flit (BitVec (N * 32)))}
    {lanes : Fin K → List (Flit (BitVec 32))} (h : Distributed words lanes) :
    ∑ i, ((lanes i).map Flit.val : Multiset (BitVec 32))
      = (words.flatMap (fun x => wordItems x.val) : List (BitVec 32)) := by
  have hwords : (words.flatMap (fun x => wordItems x.val) : List (BitVec 32))
      = (words.map Flit.val).flatMap wordItems := by
    rw [List.flatMap_map]
  simp only [fun i => sum_getD_jobsOf (lanes i) (h.jobs i)]
  rw [Finset.sum_add_distrib, Finset.sum_comm, h.part,
    Finset.sum_congr rfl (fun t _ => h.items t),
    hwords, map_val_eq_jobsOf, List.flatMap_append, ← Multiset.coe_add,
      coe_flatMap_flatten]

/-- Lanes have no open job when the words have none: every lane gets the `last`
of a job. -/
theorem partOf_of_distributed {words : List (Flit (BitVec (N * 32)))}
    {lanes : Fin K → List (Flit (BitVec 32))} (h : Distributed words lanes)
    (hpart : partOf words = []) (i : Fin K) : partOf (lanes i) = [] := by
  have hsum := h.part
  rw [hpart] at hsum
  have hle : (partOf (lanes i) : Multiset (BitVec 32)) ≤ 0 :=
    (Finset.single_le_sum
      (f := fun i => (partOf (lanes i) : Multiset (BitVec 32)))
      (fun _ _ => Multiset.zero_le _) (Finset.mem_univ i)).trans_eq hsum
  exact (Multiset.coe_eq_zero _).mp (Multiset.le_zero.mp hle)

/-- The valid items of the buffer, those below `Cnt`. -/
def valid (s : Funnel) : List (BitVec 32) :=
  (List.range s.cnt).map (fun q => (s.buf q).val)

/-- What waits for the lanes is what is valid in the buffer, since every
position belongs to one lane. -/
theorem sum_waiting (hK : 0 < K) (s : Funnel) :
    ∑ i : Fin K, ((s.waiting i).map Flit.val : Multiset (BitVec 32))
      = (s.valid : List _) := by
  unfold waiting valid
  simp only [List.map_map]
  exact sum_filter_mod hK (fun q => (s.buf q).val) (List.range s.cnt)

/-- **What is delivered and what is valid in the buffer is what was read.** No
item is lost, and none is there twice. -/
theorem Funnelled.sum_written (hK : 0 < K) {s : Funnel}
    {src : List (Flit (BitVec (N * 32)))}
    {dst : Fin K → List (Flit (BitVec 32))} (h : Funnelled s src dst) :
    ∑ i, ((dst i).map Flit.val : Multiset (BitVec 32))
      + (s.valid : List (BitVec 32))
      = (src.flatMap (fun x => wordItems x.val) : List (BitVec 32)) := by
  rw [← sum_map_val_of_distributed h.distributed, ← sum_waiting hK s,
    ← Finset.sum_add_distrib]
  refine Finset.sum_congr rfl (fun i _ => ?_)
  rw [List.map_append, Multiset.coe_add]

/-! ## What is left behind the valid entries

A refill writes the whole rest of the buffer, beyond the items there are, and
shifting leaves the top where it was. The flag of the first entry is looked at
even when the buffer is empty. -/

/-- Two states that agree on the valid entries of the buffer, and so do not
differ in anything that will be delivered. -/
def Agrees (s s' : Funnel) : Prop := s.cnt = s'.cnt
    ∧ ∀ q < s.cnt, s.buf q = s'.buf q

/-- With nothing valid in the buffer, nothing is shipped, also when a stale flag
marks it as the end of a job. -/
theorem ship_of_cnt_eq_zero (hK : 0 < K) {s : Funnel} (hs : s.cnt = 0)
    (dst : Fin K → Fifo (Flit (BitVec 32))) :
    (Funnel.ship N s dst).2 = dst ∧ (Funnel.ship N s dst).1.cnt = 0 := by
  rcases ship_cases (N := N) s dst with ⟨hle, -⟩ | ⟨-, -, he⟩ | ⟨-, -, he⟩
  · omega
  · rw [he]
    refine ⟨funext fun i => if_neg ?_, rfl⟩
    rw [hs]
    exact Nat.not_lt_zero i
  · rw [he]
    exact ⟨rfl, hs⟩

/-- Shipping does not look behind the valid entries, except at the flag of the
first one, which then ships nothing. -/
theorem Agrees.ship {s s' : Funnel} (h : s.Agrees s')
    (dst : Fin K → Fifo (Flit (BitVec 32))) :
    (ship N s dst).2 = (ship N s' dst).2
      ∧ (ship N s dst).1.Agrees (ship N s' dst).1 := by
  obtain ⟨hcnt, hbuf⟩ := h
  rcases Nat.lt_or_ge s.cnt K with hfew | hfull
  · rcases Nat.eq_zero_or_pos s.cnt with hzero | hpos
    · obtain ⟨h₁, h₂⟩ := ship_of_cnt_eq_zero (N := N) (K := K)
        (by omega) hzero dst
      obtain ⟨h₃, h₄⟩ := ship_of_cnt_eq_zero (N := N) (K := K)
        (by omega) (hcnt ▸ hzero) dst
      refine ⟨h₁.trans h₃.symm, h₂.trans h₄.symm, fun q hq => ?_⟩
      rw [h₂] at hq
      exact absurd hq (Nat.not_lt_zero q)
    · have hfirst := hbuf 0 hpos
      rcases ship_cases (N := N) s dst
        with ⟨hle, -⟩ | ⟨-, hlast, he⟩ | ⟨-, hlast, he⟩
      · omega
      · rcases ship_cases (N := N) s' dst
          with ⟨hle, -⟩ | ⟨-, -, he'⟩ | ⟨-, hlast', -⟩
        · omega
        · rw [he, he']
          refine ⟨funext fun i => ?_, rfl, fun q hq =>
            absurd hq (Nat.not_lt_zero q)⟩
          show (if i.val < s.cnt then (dst i).write (s.buf i) else dst i)
            = if i.val < s'.cnt then (dst i).write (s'.buf i) else dst i
          rw [← hcnt]
          split
          · next hi => rw [hbuf i hi]
          · rfl
        · rw [← hfirst, hlast] at hlast'
          cases hlast'
      · rcases ship_cases (N := N) s' dst
          with ⟨hle, -⟩ | ⟨-, hlast', -⟩ | ⟨-, -, he'⟩
        · omega
        · rw [← hfirst, hlast] at hlast'
          cases hlast'
        · rw [he, he']
          exact ⟨rfl, hcnt, hbuf⟩
  · rcases ship_cases (N := N) s dst with ⟨-, he⟩ | ⟨hlt, -⟩ | ⟨hlt, -⟩
    · rcases ship_cases (N := N) s' dst with ⟨-, he'⟩ | ⟨hlt, -⟩ | ⟨hlt, -⟩
      · rw [he, he']
        refine ⟨funext fun i => ?_, congrArg (· - K) hcnt, fun q hq => ?_⟩
        · show (dst i).write (s.buf i) = (dst i).write (s'.buf i)
          rw [hbuf i (lt_of_lt_of_le i.isLt hfull)]
        · have hq' : q < s.cnt - K := hq
          show (if q < N - 1 then s.buf (q + K) else s.buf q)
            = if q < N - 1 then s'.buf (q + K) else s'.buf q
          rw [hbuf (q + K) (by omega), hbuf q (by omega)]
      · omega
      · omega
    · omega
    · omega

/-- Loading does not look behind the valid entries, and what it leaves there is
not valid. -/
theorem Agrees.load (hKN : K < N) {s s' : Funnel} (h : s.Agrees s')
    (src : Fifo (Flit (BitVec (N * 32)))) :
    (load K s src).2 = (load K s' src).2
      ∧ (load K s src).1.Agrees (load K s' src).1 := by
  obtain ⟨hcnt, hbuf⟩ := h
  rcases load_cases hKN s src
    with ⟨hnone, he⟩ | ⟨x, t, hlt, hx, he₂, hc, hlow, hhigh⟩
  · rcases load_cases hKN s' src with ⟨-, he'⟩ | ⟨x', t', hlt', hx', -⟩
    · rw [he, he']
      exact ⟨rfl, hcnt, hbuf⟩
    · rw [hnone (hcnt ▸ hlt')] at hx'
      cases hx'
  · rcases load_cases hKN s' src
      with ⟨hnone', -⟩ | ⟨x', t', hlt', hx', he₂', hc', hlow', hhigh'⟩
    · rw [hnone' (hcnt ▸ hlt)] at hx
      cases hx
    · obtain ⟨rfl, rfl⟩ : x = x' ∧ t = t' := by simpa using hx.symm.trans hx'
      refine ⟨he₂.trans he₂'.symm, by rw [hc, hc', hcnt], fun q hq => ?_⟩
      rw [hc] at hq
      rcases Nat.lt_or_ge q s.cnt with hlt | hge
      · rw [hlow q hlt, hlow' q (hcnt ▸ hlt), hbuf q hlt]
      · obtain ⟨r, rfl⟩ : ∃ r, q = s.cnt + r := ⟨q - s.cnt, by omega⟩
        have hr : r < N := by omega
        have h' := hhigh' r hr
        rw [← hcnt] at h'
        rw [hhigh r hr, h']

/-- **A call does not look behind the valid entries**: the same is read and
written, and the states agree again. -/
theorem Agrees.distrFunnel (hKN : K < N) {s s' : Funnel} (h : s.Agrees s')
    (src : Fifo (Flit (BitVec (N * 32))))
    (dst : Fin K → Fifo (Flit (BitVec 32))) :
    (distrFunnel s src dst).2 = (distrFunnel s' src dst).2
      ∧ (distrFunnel s src dst).1.Agrees (distrFunnel s' src dst).1 := by
  unfold Funnel.distrFunnel
  rw [if_pos hKN, if_pos hKN]
  obtain ⟨hdst, hship⟩ := h.ship (N := N) dst
  obtain ⟨hsrc, hload⟩ := hship.load hKN src
  exact ⟨Prod.ext hsrc hdst, hload⟩

/-! ## Draining

What happens when a job has ended and nothing follows. -/

/-- **A call without input ships a row**, or the rest of a job. The count goes
down by a row, or to zero. -/
theorem Funnelled.cnt_distrFunnel (hKN : K < N) {s : Funnel}
    {src : Fifo (Flit (BitVec (N * 32)))}
    {dst : Fin K → Fifo (Flit (BitVec 32))}
    (h : Funnelled s src.consumed (fun i => (dst i).written))
    (hpart : partOf src.consumed = []) (hsrc : src.pending = []) :
    (distrFunnel s src dst).1.cnt = s.cnt - K
      ∧ (distrFunnel s src dst).2.1 = src := by
  have hload : ∀ t : Funnel, load K t src = (t, src) := fun t => by
    rcases load_cases hKN t src with ⟨-, he⟩ | ⟨x, src', -, hx, -⟩
    · exact he
    · rw [Fifo.readNb_eq_none.mpr hsrc] at hx
      cases hx
  unfold distrFunnel
  rw [if_pos hKN]
  show (load K (ship N s dst).1 src).1.cnt = s.cnt - K
    ∧ (load K (ship N s dst).1 src).2 = src
  rw [hload]
  refine ⟨?_, rfl⟩
  rcases ship_cases (N := N) s dst
    with ⟨-, he⟩ | ⟨hfew, -, he⟩ | ⟨hfew, hlast, he⟩
  · rw [he]
  · rw [he]
    exact (Nat.sub_eq_zero_of_le hfew.le).symm
  · -- a rest of a job is marked
    rw [he]
    rcases Nat.eq_zero_or_pos s.cnt with hzero | hpos
    · show s.cnt = s.cnt - K
      omega
    · rw [h.marked hpart 0 (by omega) hpos] at hlast
      cases hlast

end Funnel

/-! ## Runs

Arrivals and calls in any order, as in the runs of `Collect`. -/

/-- What can happen around a funnel: the next word arrives, or `distr_funnel` is
called. -/
inductive FunnelEvent where
  | arrive
  | call

/-- A funnel between its streams, and the words still to arrive. Nothing is
taken from the lanes. -/
structure FunnelRun (N K : ℕ) where
  state : Funnel
  src : Fifo (Flit (BitVec (N * 32)))
  dst : Fin K → Fifo (Flit (BitVec 32))
  arriving : List (Flit (BitVec (N * 32)))

namespace FunnelRun

variable {N K : ℕ}

/-- The start, with all jobs still to arrive. -/
def start (K : ℕ) (jobs : List (List (BitVec (N * 32)))) : FunnelRun N K :=
  ⟨Funnel.init, Fifo.new, fun _ => Fifo.new, jobs.flatMap frame⟩

/-- One event: the next word arrives, or `distr_funnel` is called. -/
def step (r : FunnelRun N K) : FunnelEvent → FunnelRun N K
  | .arrive =>
    match r.arriving with
    | [] => r
    | x :: rest => { r with src := r.src.write x, arriving := rest }
  | .call =>
    let p := Funnel.distrFunnel r.state r.src r.dst
    ⟨p.1, p.2.1, p.2.2, r.arriving⟩

/-- A run: events in some order. -/
def run (r : FunnelRun N K) (schedule : List FunnelEvent) : FunnelRun N K :=
  schedule.foldl step r

/-- **The invariant of a run**: the equation of the funnel, and nothing is lost
on the way in. -/
structure Sound (jobs : List (List (BitVec (N * 32))))
    (r : FunnelRun N K) : Prop where
  funnelled : Funnel.Funnelled r.state r.src.consumed
    (fun i => (r.dst i).written)
  arrived : r.src.written ++ r.arriving = jobs.flatMap frame

variable {jobs : List (List (BitVec (N * 32)))} {r : FunnelRun N K}

theorem sound_start (hK : 0 < K) (jobs : List (List (BitVec (N * 32)))) :
    (start K jobs).Sound jobs :=
  ⟨Funnel.funnelled_init hK, rfl⟩

/-- Every event keeps the invariant: an arrival moves a word, and a call keeps
the equation of the funnel. -/
theorem Sound.step (hK : 0 < K) (hKN : K < N)
    (h : r.Sound jobs) (e : FunnelEvent) :
    (r.step e).Sound jobs := by
  cases e with
  | arrive =>
    unfold FunnelRun.step
    cases harr : r.arriving with
    | nil => simpa only [harr] using h
    | cons x rest =>
      refine ⟨h.funnelled, ?_⟩
      show (r.src.write x).written ++ rest = _
      rw [Fifo.written_write, List.append_assoc, List.singleton_append, ← harr]
      exact h.arrived
  | call =>
    refine ⟨Funnel.distrFunnel_sound hK hKN.le h.funnelled, ?_⟩
    show (Funnel.distrFunnel r.state r.src r.dst).2.1.written ++ r.arriving = _
    rw [Funnel.written_distrFunnel]
    exact h.arrived

/-- Every run keeps the invariant, by induction on its events. -/
theorem Sound.run (hK : 0 < K) (hKN : K < N) (h : r.Sound jobs)
    (schedule : List FunnelEvent) :
    (r.run schedule).Sound jobs :=
  foldl_invariant _ (fun _ e hr => hr.step hK hKN e) schedule h

/-- Events let the streams behind the funnel grow: what is delivered stays
delivered. -/
theorem dst_grows (r : FunnelRun N K) (schedule : List FunnelEvent)
    (i : Fin K) :
    Grows (r.dst i) ((r.run schedule).dst i) := by
  refine grows_foldl (fun r : FunnelRun N K => r.dst i) step
    (fun r e => ?_) schedule r
  cases e with
  | arrive =>
    show Grows (r.dst i) ((r.step .arrive).dst i)
    unfold step
    cases r.arriving <;> exact Growing.refl _
  | call => exact (Funnel.distrFunnel_grows r.state r.src r.dst).2 i

/-- Everything arrives, if the schedule goes on. -/
theorem exists_arrived (r : FunnelRun N K) :
    ∃ schedule, (r.run schedule).arriving = [] := by
  obtain ⟨state, src, dst, arriving⟩ := r
  induction arriving generalizing src with
  | nil => exact ⟨[], rfl⟩
  | cons x rest ih =>
    obtain ⟨schedule, hschedule⟩ := ih (src.write x)
    exact ⟨.arrive :: schedule, hschedule⟩

/-- No more words arrive than there are. -/
theorem Sound.length_src_le (h : r.Sound jobs) :
    r.src.written.length ≤ (jobs.flatMap frame).length := by
  rw [← h.arrived, List.length_append]
  exact Nat.le_add_right _ _

/-- A lane gets no more than the items of these words, which bounds how often a
call can change something. -/
theorem Sound.length_dst_le (h : r.Sound jobs) (i : Fin K) :
    (r.dst i).written.length ≤ (jobs.flatMap frame).length * N :=
  calc (r.dst i).written.length
      ≤ (r.dst i).written.length + (r.state.waiting i).length :=
        Nat.le_add_right _ _
    _ = ((r.dst i).written ++ r.state.waiting i).length :=
      List.length_append.symm
    _ ≤ ∑ i, ((r.dst i).written ++ r.state.waiting i).length :=
        Finset.single_le_sum
          (f := fun i => ((r.dst i).written ++ r.state.waiting i).length)
          (fun _ _ => Nat.zero_le _) (Finset.mem_univ i)
    _ = r.src.consumed.length * N := h.funnelled.distributed.total
    _ ≤ (jobs.flatMap frame).length * N :=
        Nat.mul_le_mul_right N
          ((Fifo.consumed_isPrefix _).length_le.trans h.length_src_le)

/-- **Every run can go on until all jobs are delivered**: first everything
arrives, then calls go on until they change nothing. -/
theorem Sound.exists_delivered (hK : 0 < K) (hKN : K < N)
    (hjobs : ∀ job ∈ jobs, job ≠ []) (h : r.Sound jobs) :
    ∃ schedule, Distributed (jobs.flatMap frame)
      (fun i => ((r.run schedule).dst i).written) := by
  obtain ⟨first, hfirst⟩ := exists_arrived r
  -- the calls after everything has arrived
  have hcalls : ∀ n,
    ((r.run first).run (List.replicate n .call)).arriving = [] := by
    intro n
    induction n with
    | zero => exact hfirst
    | succ n ih =>
      rw [List.replicate_succ', FunnelRun.run, List.foldl_append]
      exact ih
  have hsound := fun n =>
    ((h.run hK hKN first).run hK hKN (List.replicate n .call))
  set S := fun s : FunnelRun N K => ∃ n,
    s = (r.run first).run (List.replicate n .call) with hS
  have hlength : ∀ s, S s → s.src.written = jobs.flatMap frame := by
    rintro s ⟨n, rfl⟩
    rw [← (hsound n).arrived, hcalls n, List.append_nil]
  have hbound : Bounded S (fun s => (s.src, s.dst)) := by
    refine Bounded.prod (Fifo.bounded (n := (jobs.flatMap frame).length) ?_)
      (Bounded.family fun i =>
        Fifo.bounded (n := (jobs.flatMap frame).length * N) ?_)
    · rintro s ⟨n, rfl⟩
      exact (hsound n).length_src_le
    · rintro s ⟨n, rfl⟩
      exact (hsound n).length_dst_le i
  have hfirst : S (r.run first) := ⟨0, rfl⟩
  obtain ⟨s, ⟨n, rfl⟩, hmax⟩ :=
    exists_not_outgrown (fun s : FunnelRun N K => (s.src, s.dst))
    hfirst hbound
  set s := (r.run first).run (List.replicate n .call) with hs
  have hnext : S (s.step .call) := ⟨n + 1, by
    rw [List.replicate_succ', FunnelRun.run, List.foldl_append]
    rfl⟩
  have hidle := hmax _ hnext (Funnel.distrFunnel_grows s.state s.src s.dst)
  obtain ⟨hpending, hwaiting⟩ := Funnel.distrFunnel_idle hK hKN.le
    (hsound n).funnelled
    (congrArg Prod.fst hidle) (congrArg Prod.snd hidle)
  have hconsumed : s.src.consumed = jobs.flatMap frame := by
    rw [Fifo.consumed_eq_written hpending, hlength s ⟨n, rfl⟩]
  have hpart : partOf s.src.consumed = [] := by
    rw [hconsumed, partOf_flatMap_frame hjobs]
  refine ⟨first ++ List.replicate n .call, ?_⟩
  have hrun : r.run (first ++ List.replicate n .call) = s := List.foldl_append
  have hempty : ∀ i : Fin K, s.state.waiting i = [] := hwaiting hpart
  have hdist := (hsound n).funnelled.distributed
  simp only [← hs, hconsumed, hempty, List.append_nil] at hdist
  rw [hrun]
  exact hdist

/-- **Calls without input drain the buffer**, a row a call, by induction on the
calls. -/
theorem Sound.drain (hK : 0 < K) (hKN : K < N) (h : r.Sound jobs)
    (hpart : partOf r.src.consumed = []) (hsrc : r.src.pending = []) (n : ℕ) :
    (r.run (List.replicate n .call)).state.cnt = r.state.cnt - n * K
      ∧ (r.run (List.replicate n .call)).src = r.src := by
  induction n with
  | zero => exact ⟨by simp [FunnelRun.run], rfl⟩
  | succ n ih =>
    obtain ⟨hcnt, hsame⟩ := ih
    have hsound := h.run hK hKN (List.replicate n .call)
    set s := r.run (List.replicate n .call) with hs
    have hrun : r.run (List.replicate (n + 1) .call) = s.step .call := by
      rw [List.replicate_succ', FunnelRun.run, List.foldl_append]
      rfl
    obtain ⟨hcnt', hsrc'⟩ := hsound.funnelled.cnt_distrFunnel hKN
      (by rw [hsame]; exact hpart)
      (by rw [hsame]; exact hsrc)
    rw [hrun]
    refine ⟨?_, hsrc'.trans hsame⟩
    show (Funnel.distrFunnel s.state s.src s.dst).1.cnt = _
    rw [hcnt', hcnt, Nat.succ_mul, Nat.sub_sub]

/-- The run does not look behind the valid entries of the buffer, now or
later. -/
theorem run_of_agrees (hKN : K < N) {s s' : Funnel}
    (h : s.Agrees s') (src : Fifo _) (dst : Fin K → Fifo _)
    (arriving : List (Flit (BitVec (N * 32)))) (schedule : List FunnelEvent) :
    ((⟨s, src, dst, arriving⟩ : FunnelRun N K).run schedule).dst
        = ((⟨s', src, dst, arriving⟩ : FunnelRun N K).run schedule).dst
      ∧ ((⟨s, src, dst, arriving⟩ : FunnelRun N K).run schedule).src
        = ((⟨s', src, dst, arriving⟩ : FunnelRun N K).run schedule).src := by
  induction schedule generalizing s s' src dst arriving with
  | nil => exact ⟨rfl, rfl⟩
  | cons e schedule ih =>
    cases e with
    | arrive =>
      cases arriving with
      | nil => exact ih h src dst []
      | cons x rest => exact ih h (src.write x) dst rest
    | call =>
      obtain ⟨hstreams, hagrees⟩ := h.distrFunnel hKN src dst
      have hrest := ih hagrees (Funnel.distrFunnel s src dst).2.1
        (Funnel.distrFunnel s src dst).2.2 arriving
      have hnext :
        (⟨(Funnel.distrFunnel s' src dst).1, (Funnel.distrFunnel s src dst).2.1,
          (Funnel.distrFunnel s src dst).2.2, arriving⟩ : FunnelRun N K)
          = (⟨s', src, dst, arriving⟩ : FunnelRun N K).step .call := by
        rw [hstreams]
        rfl
      rw [hnext] at hrest
      exact hrest

/-- **The lanes carry the jobs**: at any time they have been written the
beginning of their shares of the jobs, each framed by its own `last`. -/
theorem Sound.exists_shares (hK : 0 < K) (hKN : K < N)
    (hjobs : ∀ job ∈ jobs, job ≠ []) (h : r.Sound jobs) :
    ∃ shares : Fin K → List (List (BitVec 32)),
      (∀ i, (shares i).length = jobs.length ∧ (∀ share ∈ shares i, share ≠ [])
        ∧ (r.dst i).written <+: (shares i).flatMap frame)
      ∧ ∀ t, ∑ i, ((shares i).getD t [] : Multiset (BitVec 32))
        = ((jobs.getD t []).flatMap wordItems : List (BitVec 32)) := by
  obtain ⟨rest, hdist⟩ := h.exists_delivered hK hKN hjobs
  have hpart := Funnel.partOf_of_distributed hdist (partOf_flatMap_frame hjobs)
  refine ⟨fun i => jobsOf ((r.run rest).dst i).written,
    fun i => ⟨?_, fun share hshare =>
    ne_nil_of_mem_jobsOf hshare, ?_⟩, fun t => ?_⟩
  · rw [hdist.jobs i, jobsOf_flatMap_frame hjobs]
  · have hall := flatMap_frame_jobsOf ((r.run rest).dst i).written
    rw [hpart i, List.map_nil, List.append_nil] at hall
    rw [hall]
    exact (dst_grows r rest i).2
  · rw [hdist.items t, jobsOf_flatMap_frame hjobs]

/-- **The funnel loses, duplicates and mis-frames nothing.** For all `0 < K <
N`, every sequence of jobs and every interleaving of arrivals and calls:

* `Cnt` never exceeds `N + K - 1`;
* what stands behind the valid entries of the buffer never matters, now or
  later;
* the items written to the lanes and those valid in the buffer are the items
  read;
* every lane is written the beginning of its shares of the jobs, one after the
  other, none of them empty and each with `last` on its final item; the shares
  of a job are its items;
* when the word read last has ended a job and nothing else arrives, `⌈(N + K -
  1) / K⌉` calls empty the buffer, and every lane has been written its shares of
  all jobs read. -/
theorem funnel_lossless (hK : 0 < K) (hKN : K < N)
    {jobs : List (List (BitVec (N * 32)))} (hjobs : ∀ job ∈ jobs, job ≠ [])
    (schedule : List FunnelEvent) :
    let r := (start K jobs).run schedule
    r.state.cnt ≤ N + K - 1
    ∧ (∀ buf, (∀ q < r.state.cnt, buf q = r.state.buf q) → ∀ rest,
        let r' : FunnelRun N K := { r with state := ⟨buf, r.state.cnt⟩ }
        (r'.run rest).dst = (r.run rest).dst
          ∧ (r'.run rest).src = (r.run rest).src)
    ∧ (∑ i, ((r.dst i).written.map Flit.val : Multiset (BitVec 32))
      + (r.state.valid : List _)
        = (r.src.consumed.flatMap (fun x => wordItems x.val) : List
          (BitVec 32)))
    ∧ (∃ shares : Fin K → List (List (BitVec 32)),
        (∀ i, (shares i).length = jobs.length ∧ (∀ share ∈ shares i, share ≠ [])
          ∧ (r.dst i).written <+: (shares i).flatMap frame)
        ∧ ∀ t, ∑ i, ((shares i).getD t [] : Multiset (BitVec 32))
          = ((jobs.getD t []).flatMap wordItems : List (BitVec 32)))
    ∧ (partOf r.src.consumed = [] → r.src.pending = [] →
      ∀ n, (N + K - 1) ⌈/⌉ K ≤ n →
        let r' := r.run (List.replicate n .call)
        r'.state.cnt = 0 ∧ Distributed r.src.consumed
          (fun i => (r'.dst i).written)
          ∧ ∀ i, partOf (r'.dst i).written = []) := by
  intro r
  have hsound : r.Sound jobs := (sound_start hK jobs).run hK hKN schedule
  have hcnt := hsound.funnelled.cnt_lt
  refine ⟨by omega, fun buf hbuf rest => ?_, hsound.funnelled.sum_written hK,
    hsound.exists_shares hK hKN hjobs, fun hpart hsrc n hn => ?_⟩
  · have hagrees : Funnel.Agrees ⟨buf, r.state.cnt⟩ r.state := ⟨rfl, hbuf⟩
    exact run_of_agrees hKN hagrees r.src r.dst r.arriving rest
  · intro r'
    obtain ⟨hcnt', hsame⟩ := hsound.drain hK hKN hpart hsrc n
    have hsound' : r'.Sound jobs := hsound.run hK hKN (List.replicate n .call)
    have hzero : r'.state.cnt = 0 := by
      have hle : N + K - 1 ≤ K * n := (ceilDiv_le_iff_le_mul hK).mp hn
      rw [Nat.mul_comm] at hle
      exact hcnt'.trans (by omega)
    have hempty : ∀ i : Fin K, r'.state.waiting i = [] := fun i => by
      unfold Funnel.waiting
      rw [hzero]
      rfl
    have hdist := hsound'.funnelled.distributed
    simp only [hempty, List.append_nil] at hdist
    rw [show r'.src = r.src from hsame] at hdist
    exact ⟨hzero, hdist, Funnel.partOf_of_distributed hdist hpart⟩

/-- Three items and two lanes: the rest of the first job may still be in the
buffer when the second one arrives. -/
theorem funnel_lossless_instance :
    let jobs : List (List (BitVec (3 * 32))) := [[0x1#96, 0x2#96], [0x3#96]]
    let r := (start 2 jobs).run [.arrive, .call, .arrive, .call,
      .call, .arrive, .call]
    r.state.cnt ≤ 3 + 2 - 1
    ∧ (∀ buf, (∀ q < r.state.cnt, buf q = r.state.buf q) → ∀ rest,
        let r' : FunnelRun 3 2 := { r with state := ⟨buf, r.state.cnt⟩ }
        (r'.run rest).dst = (r.run rest).dst
          ∧ (r'.run rest).src = (r.run rest).src)
    ∧ (∑ i, ((r.dst i).written.map Flit.val : Multiset (BitVec 32))
      + (r.state.valid : List _)
        = (r.src.consumed.flatMap (fun x => wordItems x.val) : List
          (BitVec 32)))
    ∧ (∃ shares : Fin 2 → List (List (BitVec 32)),
        (∀ i, (shares i).length = jobs.length ∧ (∀ share ∈ shares i, share ≠ [])
          ∧ (r.dst i).written <+: (shares i).flatMap frame)
        ∧ ∀ t, ∑ i, ((shares i).getD t [] : Multiset (BitVec 32))
          = ((jobs.getD t []).flatMap wordItems : List (BitVec 32)))
    ∧ (partOf r.src.consumed = [] → r.src.pending = [] →
      ∀ n, (3 + 2 - 1) ⌈/⌉ 2 ≤ n →
        let r' := r.run (List.replicate n .call)
        r'.state.cnt = 0 ∧ Distributed r.src.consumed
          (fun i => (r'.dst i).written)
          ∧ ∀ i, partOf (r'.dst i).written = []) :=
  funnel_lossless (by decide) (by decide) (by decide) _

end FunnelRun

end Skt.Hardware
