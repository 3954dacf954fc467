import Skt.Lib.Runs
import Skt.Hardware.Streaming

/-!
# Interleaving streams

`Interleave` reads its input streams in turn, a batch from each. It waits for
the stream whose turn it is, whatever has arrived on the others, so what it
writes does not depend on the timing: dealing out the output batch by batch
gives what was consumed, and streams that a sequence was dealt to become that
sequence again.

Whose turn it is follows from the number of elements written: element `i` comes
from stream `i / B % n`. The source keeps that number as two counters, one for
the stream and one for the batch, in registers of `clog2` bits, and the model
keeps their widths. That they never wrap where they should not is `turn_succ`.

Nothing in the repository uses `Interleave`. It is the counterpart of a dealer
of batches, and that is what it is specified against.
-/

namespace Skt.Hardware

open Streams Runs

variable {α : Type*} {n : ℕ}

/-- `Interleave::interleave`, with the stream it is at and the elements it has
read of the batch, both in their registers. An index outside the array is never
reached. -/
def interleave (B idx cnt : ℕ) (src : Fin n → Fifo α) (dst : Fifo α) :
    (ℕ × ℕ) × (Fin n → Fifo α) × Fifo α :=
  if h : idx < n then
    match (src ⟨idx, h⟩).readNb with
    | none => ((idx, cnt), src, dst)
    | some (x, s) =>
      (if cnt < B - 1 then (idx, (cnt + 1) % 2 ^ clog2 B)
        else (if idx = n - 1 then 0 else (idx + 1) % 2 ^ clog2 n, 0),
        Function.update src ⟨idx, h⟩ s, dst.write x)
  else ((idx, cnt), src, dst)

/-! ## Dealing

What `Interleave` undoes, as a function on sequences. -/

section Deal

variable (B : ℕ) (hn : 0 < n)

/-- The stream whose turn it is after `i` elements: batches of `B`, and the
streams one after the other. -/
def turnOf (i : ℕ) : Fin n := ⟨i / B % n, Nat.mod_lt _ hn⟩

/-- **What a stream is dealt** of a sequence of which `i` elements have been
dealt before. -/
def dealFrom (j : Fin n) : ℕ → List α → List α
  | _, [] => []
  | i, x :: xs => if turnOf B hn i = j then x :: dealFrom j (i + 1) xs
    else dealFrom j (i + 1) xs

/-- What a stream is dealt of a sequence, batch by batch, the first batch going
to the first stream. -/
def deal (xs : List α) (j : Fin n) : List α := dealFrom B hn j 0 xs

variable {B hn}

/-- Dealing in two steps: the second goes on where the first has stopped. -/
theorem dealFrom_append (j : Fin n) (i : ℕ) (xs ys : List α) :
    dealFrom B hn j i (xs ++ ys)
      = dealFrom B hn j i xs ++ dealFrom B hn j (i + xs.length) ys := by
  induction xs generalizing i with
  | nil => rfl
  | cons x xs ih =>
    have hlength : i + (x :: xs).length = i + 1 + xs.length := by
      rw [List.length_cons]
      omega
    rw [List.cons_append, dealFrom, dealFrom, ih, hlength]
    split <;> rfl

/-- Dealing one element more gives it to the stream whose turn it is. -/
theorem deal_concat (xs : List α) (x : α) (j : Fin n) :
    deal B hn (xs ++ [x]) j
      = if turnOf B hn xs.length = j then deal B hn xs j ++ [x]
        else deal B hn xs j := by
  unfold deal
  rw [dealFrom_append, Nat.zero_add]
  simp only [dealFrom]
  split
  · rfl
  · exact List.append_nil _

/-- **Every element is dealt once**, to one stream and to no other. -/
theorem sum_length_deal (xs : List α) :
    ∑ j, (deal B hn xs j).length = xs.length := by
  induction xs using List.reverseRecOn with
  | nil => exact Finset.sum_eq_zero fun _ _ => rfl
  | append_singleton xs x ih =>
    have hone : ∀ j, (deal B hn (xs ++ [x]) j).length
        = (deal B hn xs j).length + if turnOf B hn xs.length = j then 1
          else 0 := fun j => by
      rw [deal_concat]
      split
      · rw [List.length_append, List.length_singleton]
      · rfl
    simp only [hone, Finset.sum_add_distrib, ih]
    rw [Finset.sum_ite_eq, if_pos (Finset.mem_univ _), List.length_append,
      List.length_singleton]

/-- **A sequence is known from what was dealt**: beginnings of what was dealt
come from a beginning of the sequence. -/
theorem isPrefix_of_dealFrom {i : ℕ} {ys xs : List α}
    (h : ∀ j, dealFrom B hn j i ys <+: dealFrom B hn j i xs) : ys <+: xs := by
  induction ys generalizing i xs with
  | nil => exact List.nil_prefix
  | cons y ys ih =>
    have hturn := h (turnOf B hn i)
    cases xs with
    | nil =>
      simp only [dealFrom, if_true] at hturn
      exact absurd (List.prefix_nil.mp hturn) (List.cons_ne_nil _ _)
    | cons x xs =>
      simp only [dealFrom, if_true] at hturn
      obtain ⟨rfl, -⟩ := List.cons_prefix_cons.mp hturn
      refine List.cons_prefix_cons.mpr ⟨rfl, ih (i := i + 1) fun j => ?_⟩
      have hj := h j
      simp only [dealFrom] at hj
      split at hj
      · exact (List.cons_prefix_cons.mp hj).2
      · exact hj

end Deal

/-! ## What a call does

The counters are determined by what has been written, and then the call is. -/

section Call

variable {B : ℕ} {hn : 0 < n}

/-- **The equation of `Interleave`**: it is where its output has brought it, and
what its output deals to a stream was consumed there. -/
structure Interleaved (B : ℕ) (hn : 0 < n) (idx cnt : ℕ)
    (src : Fin n → List α) (dst : List α) :
    Prop where
  /-- The stream it is at follows from how much it has written. -/
  idx : idx = turnOf B hn dst.length
  /-- So does its place in the batch. -/
  cnt : cnt = dst.length % B
  /-- Dealing out the output gives what was taken from every stream. -/
  consumed : ∀ j, src j = deal B hn dst j

/-- At the start nothing has been read. -/
theorem interleaved_init :
    Interleaved B hn 0 0 (fun _ => []) ([] : List α) where
  idx := by
    show 0 = 0 / B % n
    rw [Nat.zero_div, Nat.zero_mod]
  cnt := (Nat.zero_mod B).symm
  consumed _ := rfl

/-- **The turn after one element more**, in registers that are wide enough: the
increments of the source, cut to their widths, are those of the quotient and the
remainder. -/
theorem turn_succ (hn : 0 < n) (hB : 0 < B) (i : ℕ) :
    (if i % B < B - 1 then (i / B % n, (i % B + 1) % 2 ^ clog2 B)
      else (if i / B % n = n - 1 then 0 else (i / B % n + 1) % 2 ^ clog2 n, 0))
      = ((i + 1) / B % n, (i + 1) % B) := by
  have hlast := Nat.mod_lt i hB
  have hsucc : i + 1 = B * (i / B) + (i % B + 1) := by
    rw [← Nat.add_assoc, Nat.div_add_mod]
  rw [hsucc, Nat.mul_add_div hB, Nat.mul_add_mod]
  by_cases hin : i % B < B - 1
  · have hlt : i % B + 1 < B := by omega
    rw [if_pos hin, Nat.div_eq_of_lt hlt, Nat.mod_eq_of_lt hlt,
      Nat.mod_eq_of_lt (hlt.trans_le (le_two_pow_clog2 B))]
    rfl
  · have heq : i % B + 1 = B := by omega
    rw [if_neg hin, heq, Nat.div_self hB, Nat.mod_self]
    refine Prod.ext ?_ rfl
    show (if i / B % n = n - 1 then 0 else (i / B % n + 1) % 2 ^ clog2 n)
      = (i / B + 1) % n
    have hturn := Nat.mod_lt (i / B) hn
    have hnext : (i / B + 1) % n = (i / B % n + 1) % n :=
      (Nat.mod_add_mod _ _ _).symm
    rw [hnext]
    split
    · next hend => rw [hend, Nat.sub_add_cancel hn, Nat.mod_self]
    · next hend =>
      have hlt : i / B % n + 1 < n := by omega
      rw [Nat.mod_eq_of_lt hlt,
        Nat.mod_eq_of_lt (hlt.trans_le (le_two_pow_clog2 n))]

/-- A call of `interleave` is idle when the stream whose turn it is is empty,
and otherwise hands on one element of that stream. -/
theorem interleave_cases {idx cnt : ℕ} {src : Fin n → Fifo α}
    {dst : Fifo α} (hB : 0 < B)
    (h : Interleaved B hn idx cnt (fun j => (src j).consumed) dst.written) :
    ((src (turnOf B hn dst.written.length)).pending = []
        ∧ interleave B idx cnt src dst = ((idx, cnt), src, dst))
    ∨ ∃ x s, (src (turnOf B hn dst.written.length)).readNb = some (x, s)
      ∧ interleave B idx cnt src dst
        = (((turnOf B hn (dst.written.length + 1)).val,
          (dst.written.length + 1) % B),
          Function.update src (turnOf B hn dst.written.length) s,
            dst.write x) := by
  have hidx : idx < n := by
    rw [h.idx]
    exact (turnOf B hn dst.written.length).isLt
  have hturn : (⟨idx, hidx⟩ : Fin n) = turnOf B hn dst.written.length :=
    Fin.ext h.idx
  unfold interleave
  rw [dif_pos hidx, hturn]
  cases hread : (src (turnOf B hn dst.written.length)).readNb with
  | none => exact Or.inl ⟨Fifo.readNb_eq_none.mp hread, rfl⟩
  | some p =>
    obtain ⟨x, s⟩ := p
    refine Or.inr ⟨x, s, rfl, Prod.ext ?_ rfl⟩
    dsimp only
    rw [h.cnt, h.idx]
    exact turn_succ hn hB dst.written.length

/-- **A call keeps the equation**: the element is dealt back to the stream it
came from. -/
theorem interleave_sound {idx cnt : ℕ} {src : Fin n → Fifo α}
    {dst : Fifo α} (hB : 0 < B)
    (h : Interleaved B hn idx cnt (fun j => (src j).consumed) dst.written) :
    Interleaved B hn (interleave B idx cnt src dst).1.1
      (interleave B idx cnt src dst).1.2
      (fun j => ((interleave B idx cnt src dst).2.1 j).consumed)
      (interleave B idx cnt src dst).2.2.written := by
  rcases interleave_cases hB h with ⟨-, he⟩ | ⟨x, s, hx, he⟩
  · rw [he]
    exact h
  · rw [he]
    dsimp only
    rw [Fifo.written_write]
    refine ⟨?_, ?_, fun j => ?_⟩
    · rw [List.length_append, List.length_singleton]
    · rw [List.length_append, List.length_singleton]
    · rw [deal_concat, ← h.consumed j]
      by_cases hj : turnOf B hn dst.written.length = j
      · subst hj
        rw [if_pos rfl, Function.update_self, Fifo.consumed_of_readNb hx]
      · rw [if_neg hj, Function.update_of_ne (Ne.symm hj)]

/-- A call lets its streams grow, the inputs and the output. -/
theorem interleave_grows (B idx cnt : ℕ) (src : Fin n → Fifo α) (dst : Fifo α) :
    Grows (src, dst) (interleave B idx cnt src dst).2 := by
  unfold interleave
  split
  · next h =>
    cases hx : (src ⟨idx, h⟩).readNb with
    | none => exact Growing.refl _
    | some p =>
      refine ⟨fun j => ?_, Fifo.grows_write _ _⟩
      show Grows (src j) (Function.update src ⟨idx, h⟩ p.2 j)
      rw [Function.update_apply]
      split
      · next hj =>
        rw [hj]
        exact Fifo.grows_of_readNb hx
      · exact Growing.refl _
  · exact Growing.refl _

/-- A call puts nothing into its inputs. -/
@[simp] theorem written_interleave (B idx cnt : ℕ)
    (src : Fin n → Fifo α) (dst : Fifo α)
    (j : Fin n) : ((interleave B idx cnt src dst).2.1 j).written
      = (src j).written := by
  unfold interleave
  split
  · next h =>
    cases hx : (src ⟨idx, h⟩).readNb with
    | none => rfl
    | some p =>
      show (Function.update src ⟨idx, h⟩ p.2 j).written = _
      rw [Function.update_apply]
      split
      · next hj => rw [hj, Fifo.written_of_readNb hx]
      · rfl
  · rfl

end Call

/-! ## Runs

The streams are filled in any order, and the calls come at any time. -/

/-- What can happen around an `Interleave`: the next element arrives on a
stream, or `interleave` is called. -/
inductive InterleaveEvent (n : ℕ) where
  | arrive (j : Fin n)
  | call

/-- An `Interleave` between its streams, and the elements still to arrive on
each. -/
structure InterleaveRun (n : ℕ) (α : Type*) where
  idx : ℕ
  cnt : ℕ
  src : Fin n → Fifo α
  dst : Fifo α
  arriving : Fin n → List α

namespace InterleaveRun

/-- The start, with all elements still to arrive. -/
def start (arriving : Fin n → List α) : InterleaveRun n α :=
  ⟨0, 0, fun _ => Fifo.new, Fifo.new, arriving⟩

/-- One event: an arrival on one of the streams, or a call. -/
def step (B : ℕ) (r : InterleaveRun n α) : InterleaveEvent n → InterleaveRun n α
  | .arrive j =>
    match r.arriving j with
    | [] => r
    | x :: rest =>
      { r with
        src := Function.update r.src j ((r.src j).write x)
        arriving := Function.update r.arriving j rest }
  | .call =>
    let p := interleave B r.idx r.cnt r.src r.dst
    ⟨p.1.1, p.1.2, p.2.1, p.2.2, r.arriving⟩

/-- **The invariant of a run**: the equation of `Interleave`, and nothing is
lost on the way in. -/
structure Sound (B : ℕ) (hn : 0 < n) (contents : Fin n → List α)
    (r : InterleaveRun n α) :
    Prop where
  interleaved : Interleaved B hn r.idx r.cnt
    (fun j => (r.src j).consumed) r.dst.written
  arrived : ∀ j, (r.src j).written ++ r.arriving j = contents j

variable {B : ℕ} {hn : 0 < n} {contents : Fin n → List α}
    {r : InterleaveRun n α}

/-- At the start nothing has arrived. -/
theorem sound_start (B : ℕ) (hn : 0 < n) (contents : Fin n → List α) :
    (start contents).Sound B hn contents :=
  ⟨interleaved_init, fun _ => rfl⟩

/-- An element arrives. -/
theorem step_arrive {j : Fin n} {x : α} {rest : List α}
    (h : r.arriving j = x :: rest) :
    r.step B (.arrive j) = { r with
      src := Function.update r.src j ((r.src j).write x)
      arriving := Function.update r.arriving j rest } := by
  simp only [step, h]

/-- Nothing is left to arrive. -/
theorem step_arrive_nil {j : Fin n} (h : r.arriving j = []) :
    r.step B (.arrive j) = r := by
  simp only [step, h]

/-- Every event keeps the invariant: an arrival moves an element, and a call
keeps the equation. -/
theorem Sound.step (hB : 0 < B) (h : r.Sound B hn contents)
    (e : InterleaveEvent n) :
    (r.step B e).Sound B hn contents := by
  cases e with
  | arrive j =>
    cases harr : r.arriving j with
    | nil =>
      rw [step_arrive_nil harr]
      exact h
    | cons x rest =>
      rw [step_arrive harr]
      refine ⟨?_, fun k => ?_⟩
      · have hconsumed :
          (fun k => (Function.update r.src j ((r.src j).write x) k).consumed)
            = fun k => (r.src k).consumed := funext fun k => by
          by_cases hk : k = j
          · subst hk
            rw [Function.update_self]
            rfl
          · rw [Function.update_of_ne hk]
        show Interleaved B hn r.idx r.cnt
          (fun k => (Function.update r.src j ((r.src j).write x) k).consumed)
            r.dst.written
        rw [hconsumed]
        exact h.interleaved
      · show (Function.update r.src j ((r.src j).write x) k).written
          ++ Function.update r.arriving j rest k = contents k
        by_cases hk : k = j
        · subst hk
          rw [Function.update_self, Function.update_self,
            Fifo.written_write, List.append_assoc,
            List.singleton_append, ← harr]
          exact h.arrived k
        · rw [Function.update_of_ne hk, Function.update_of_ne hk]
          exact h.arrived k
  | call =>
    refine ⟨interleave_sound hB h.interleaved, fun j => ?_⟩
    show ((interleave B r.idx r.cnt r.src r.dst).2.1 j).written
      ++ r.arriving j = _
    rw [written_interleave]
    exact h.arrived j

/-- What is consumed of a stream is the beginning of its contents, in their
order. -/
theorem Sound.consumed_isPrefix (h : r.Sound B hn contents) (j : Fin n) :
    (r.src j).consumed <+: contents j :=
  h.arrived j ▸ (r.src j).consumed_isPrefix.trans (List.prefix_append _ _)

/-- **What is written of a sequence that was dealt** is its beginning, since it
deals beginnings to all streams. -/
theorem Sound.written_isPrefix {xs : List α} (h : r.Sound B hn (deal B hn xs)) :
    r.dst.written <+: xs :=
  isPrefix_of_dealFrom (B := B) (i := 0) fun j =>
    (h.interleaved.consumed j) ▸ h.consumed_isPrefix j

/-- **A call that has nothing to read is behind the whole sequence**, when
everything has arrived. -/
theorem Sound.written_eq {xs : List α} (h : r.Sound B hn (deal B hn xs))
    (harr : ∀ j, r.arriving j = [])
    (hidle : (r.src (turnOf B hn r.dst.written.length)).pending = []) :
    r.dst.written = xs := by
  obtain ⟨rest, hrest⟩ := h.written_isPrefix
  set j := turnOf B hn r.dst.written.length with hj
  have hall : deal B hn r.dst.written j = deal B hn xs j := by
    rw [← h.interleaved.consumed j, ← h.arrived j, harr j, List.append_nil,
      Fifo.consumed_eq_written hidle]
  cases rest with
  | nil => rw [← hrest, List.append_nil]
  | cons x rest =>
    -- the next element would be dealt to the stream that has nothing left
    refine absurd (congrArg List.length hall) (Nat.ne_of_lt ?_)
    have hlonger : deal B hn xs j
        = (deal B hn r.dst.written j ++ [x])
          ++ dealFrom B hn j (0 + (r.dst.written ++ [x]).length) rest := by
      have hone : deal B hn (r.dst.written ++ [x]) j
        = deal B hn r.dst.written j ++ [x] := by
        rw [deal_concat, if_pos hj.symm]
      rw [← hrest, ← hone, ← List.singleton_append, ← List.append_assoc]
      exact dealFrom_append j 0 _ rest
    rw [hlonger, List.length_append, List.length_append, List.length_singleton]
    omega

/-- **After enough calls the sequence is written**: a call that changes no
stream means that there is nothing left to do, and the streams only grow so
far. -/
theorem Sound.completes (hB : 0 < B) {xs : List α}
    (h : r.Sound B hn (deal B hn xs)) (harr : ∀ j, r.arriving j = [])
    {calls : ℕ} (hcalls : 4 * xs.length < calls) :
    ((List.replicate calls InterleaveEvent.call).foldl
      (InterleaveRun.step B) r).dst.written
      = xs := by
  have hmoves : 4 * xs.length < (List.replicate calls ()).length := by
    rwa [List.length_replicate]
  have hdone := done_of_length (fun r : InterleaveRun n α => (r.src, r.dst))
    (fun r (_ : Unit) => r.step B .call)
    (fun r => r.Sound B hn (deal B hn xs) ∧ ∀ j, r.arriving j = [])
    (fun r => r.dst.written = xs) ?_ ?_ ?_ ?_ ?_ ⟨h, harr⟩ hmoves
  · rw [← List.foldl_map (f := fun _ : Unit => InterleaveEvent.call)] at hdone
    rwa [List.map_replicate] at hdone
  · exact fun r _ hr => ⟨hr.1.step hB _, hr.2⟩
  · exact fun r _ => interleave_grows B r.idx r.cnt r.src r.dst
  · intro r _ hr hsame
    refine hr.1.written_eq hr.2 ?_
    rcases interleave_cases hB hr.1.interleaved with ⟨hidle, -⟩ | ⟨x, s, hx, he⟩
    · exact hidle
    · refine absurd (congrArg Prod.snd hsame) ?_
      show (interleave B r.idx r.cnt r.src r.dst).2.2 ≠ r.dst
      rw [he]
      exact Fifo.write_ne _ _
  · intro r _ hr hall
    refine ((hr.1.step hB .call).written_isPrefix).eq_of_length_le ?_
    rw [← hall]
    exact (interleave_grows B r.idx r.cnt r.src r.dst).2.2.length_le
  · intro r hr
    have hsrc : ∀ j, Growing.size (r.src j)
      ≤ 2 * (deal B hn xs j).length := fun j =>
      Fifo.size_le
        ((List.prefix_append _ _).length_le.trans_eq
          (congrArg List.length (hr.1.arrived j)))
    have hdst := Fifo.size_le hr.1.written_isPrefix.length_le
    calc Growing.size (r.src, r.dst)
        ≤ ∑ j, 2 * (deal B hn xs j).length + 2 * xs.length :=
          Nat.add_le_add (Finset.sum_le_sum fun j _ => hsrc j) hdst
      _ = 4 * xs.length := by
          rw [← Finset.mul_sum, sum_length_deal]
          omega

/-- **`Interleave` undoes dealing.** For every number of streams and every batch
size, whatever the streams carry and whatever the interleaving of arrivals and
calls: dealing out what is written gives what was consumed of each stream. If
the streams carry what they were dealt of a sequence, the output is a beginning
of the sequence, and once everything has arrived enough calls complete it. -/
theorem interleave_undeals (hB : 0 < B) (hn : 0 < n) (contents : Fin n → List α)
    (schedule : List (InterleaveEvent n)) :
    let r := schedule.foldl (InterleaveRun.step B) (start contents)
    (∀ j, deal B hn r.dst.written j = (r.src j).consumed
      ∧ (r.src j).consumed <+: contents j)
    ∧ ∀ xs, contents = deal B hn xs → r.dst.written <+: xs
      ∧ ((∀ j, r.arriving j = []) → ∀ calls, 4 * xs.length < calls →
        ((List.replicate calls InterleaveEvent.call).foldl
          (InterleaveRun.step B) r).dst.written
          = xs) := by
  intro r
  have hsound : r.Sound B hn contents :=
    foldl_invariant _ (fun _ e hr => hr.step hB e) schedule
      (sound_start B hn contents)
  refine ⟨fun j =>
    ⟨(hsound.interleaved.consumed j).symm, hsound.consumed_isPrefix j⟩, ?_⟩
  rintro xs rfl
  exact ⟨hsound.written_isPrefix, fun harr calls hcalls =>
    hsound.completes hB harr hcalls⟩

/-- Two streams in batches of two. The second has all its elements before the
first has its own. -/
theorem interleave_undeals_instance :
    let contents : Fin 2 → List ℕ := ![[1, 2, 5], [3, 4]]
    let schedule : List (InterleaveEvent 2) :=
      [.arrive 1, .call, .arrive 1, .arrive 0, .call, .call, .arrive 0, .call]
    let r := schedule.foldl (InterleaveRun.step 2) (start contents)
    (∀ j, deal 2 Nat.two_pos r.dst.written j = (r.src j).consumed
      ∧ (r.src j).consumed <+: contents j)
    ∧ ∀ xs, contents = deal 2 Nat.two_pos xs → r.dst.written <+: xs
      ∧ ((∀ j, r.arriving j = []) → ∀ calls, 4 * xs.length < calls →
        ((List.replicate calls InterleaveEvent.call).foldl
          (InterleaveRun.step 2) r).dst.written
          = xs) :=
  interleave_undeals Nat.two_pos Nat.two_pos _ _

end InterleaveRun

end Skt.Hardware
