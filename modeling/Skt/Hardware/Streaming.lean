import Skt.Lib.Fifo
import Skt.Lib.Framing
import Skt.Lib.Sequencer
import Skt.Hardware.BitUtils

/-!
# The streaming transforms

`map`, `split`, `reduce`, `Fold` and `Concat` of the streaming library, each as
one call: it looks at its input streams once, without blocking, and does nothing
when it finds nothing to read. The kernel calls them over and over, and how
often a call finds something depends on the timing of the others.

What a transform has written is nevertheless a function of what it has consumed,
whatever the timing of the calls; and a call that changes no stream means that
there is nothing left to do. A network of transforms computes what its parts
compute, without a word on the order in which they are called.

For each transform there are four facts: a call keeps its equation, puts nothing
into its input, takes nothing from its output, and is idle only on an empty
input. The second and the third say that a stream has one writer and one reader.
The last three are what the neighbours in a network rely on.
-/

namespace Skt.Hardware

open Streams

variable {α β ι : Type*}

/-! ## Stateless transforms

Nothing is kept between two calls, so that each call is an element moved or
nothing at all. -/

/-- `map`: one element is read, and its image under `f` is written. -/
def map (f : α → β) (src : Fifo α) (dst : Fifo β) : Fifo α × Fifo β :=
  match src.readNb with
  | none => (src, dst)
  | some (x, src) => (src, dst.write (f x))

/-- `split`: one element is read and written to every output, each time through
`f`, which is also told the index of the output. -/
def split (f : α → ι → β) (src : Fifo α) (dst : ι → Fifo β) :
    Fifo α × (ι → Fifo β) :=
  match src.readNb with
  | none => (src, dst)
  | some (x, src) => (src, fun i => (dst i).write (f x i))

/-- `reduce`: it reads only when no input is empty, and then one element from
each. They are assimilated in the order of the inputs, starting from `zero`. -/
def reduce {n : ℕ} (f : β → α → β) (zero : β)
    (src : Fin n → Fifo α) (dst : Fifo β) :
    (Fin n → Fifo α) × Fifo β :=
  if h : ∀ i, (src i).pending ≠ [] then
    (fun i => ((src i).read (h i)).2,
      dst.write
        ((List.finRange n).foldl (fun y i => f y ((src i).read (h i)).1) zero))
  else (src, dst)

section Map

variable (f : α → β) (src : Fifo α) (dst : Fifo β)

/-- A call of `map` is idle on an empty input and moves one element
otherwise. -/
theorem map_cases : (src.readNb = none ∧ map f src dst = (src, dst))
    ∨ ∃ x src', src.readNb = some (x, src') ∧ map f src dst
      = (src', dst.write (f x)) := by
  unfold map
  cases h : src.readNb with
  | none => exact Or.inl ⟨rfl, rfl⟩
  | some p => exact Or.inr ⟨p.1, p.2, rfl, rfl⟩

/-- **What `map` has written is its function of what it has consumed.** A call
appends an element to both sides, or to neither. -/
theorem map_sound {f : α → β} {src : Fifo α} {dst : Fifo β}
    (h : dst.written = src.consumed.map f) :
    (map f src dst).2.written = (map f src dst).1.consumed.map f := by
  rcases map_cases f src dst with ⟨-, he⟩ | ⟨x, src', hx, he⟩
  · rw [he]
    exact h
  · rw [he, Fifo.written_write, h, Fifo.consumed_of_readNb hx, List.map_append,
      List.map_singleton]

@[simp] theorem written_map : (map f src dst).1.written = src.written := by
  rcases map_cases f src dst with ⟨-, he⟩ | ⟨x, src', hx, he⟩
  · rw [he]
  · rw [he, Fifo.written_of_readNb hx]

@[simp] theorem consumed_map : (map f src dst).2.consumed = dst.consumed := by
  rcases map_cases f src dst with ⟨-, he⟩ | ⟨x, src', hx, he⟩
  · rw [he]
  · rw [he, Fifo.consumed_write]

/-- A call of `map` lets its streams grow: what has passed through them is never
taken back. -/
theorem map_grows :
    Grows src (map f src dst).1 ∧ Grows dst (map f src dst).2 := by
  rcases map_cases f src dst with ⟨-, he⟩ | ⟨x, src', hx, he⟩
  · rw [he]
    exact ⟨Growing.refl _, Growing.refl _⟩
  · rw [he]
    exact ⟨Fifo.grows_of_readNb hx, Fifo.grows_write _ _⟩

/-- **An idle `map` has nothing left to do**: its input is empty. -/
theorem map_idle {f : α → β} {src : Fifo α} {dst : Fifo β}
    (h : (map f src dst).1 = src) :
    src.pending = [] := by
  rcases map_cases f src dst with ⟨hx, -⟩ | ⟨x, src', hx, he⟩
  · exact Fifo.readNb_eq_none.mp hx
  · rw [he] at h
    exact absurd h (Fifo.ne_of_readNb hx)

end Map

section Split

variable (f : α → ι → β) (src : Fifo α) (dst : ι → Fifo β)

/-- A call of `split` is idle on an empty input and copies one element
otherwise. -/
theorem split_cases : (src.readNb = none ∧ split f src dst = (src, dst))
    ∨ ∃ x src', src.readNb = some (x, src')
      ∧ split f src dst = (src', fun i => (dst i).write (f x i)) := by
  unfold split
  cases h : src.readNb with
  | none => exact Or.inl ⟨rfl, rfl⟩
  | some p => exact Or.inr ⟨p.1, p.2, rfl, rfl⟩

/-- **What `split` has written on each output is its function of what it has
consumed.** -/
theorem split_sound {f : α → ι → β} {src : Fifo α} {dst : ι → Fifo β}
    (h : ∀ i, (dst i).written = src.consumed.map (f · i)) (i : ι) :
    ((split f src dst).2 i).written
      = (split f src dst).1.consumed.map (f · i) := by
  rcases split_cases f src dst with ⟨-, he⟩ | ⟨x, src', hx, he⟩
  · rw [he]
    exact h i
  · rw [he, Fifo.written_write, h i, Fifo.consumed_of_readNb hx,
      List.map_append,
      List.map_singleton]

@[simp] theorem written_split : (split f src dst).1.written = src.written := by
  rcases split_cases f src dst with ⟨-, he⟩ | ⟨x, src', hx, he⟩
  · rw [he]
  · rw [he, Fifo.written_of_readNb hx]

@[simp] theorem consumed_split (i : ι) :
    ((split f src dst).2 i).consumed = (dst i).consumed := by
  rcases split_cases f src dst with ⟨-, he⟩ | ⟨x, src', hx, he⟩
  · rw [he]
  · rw [he, Fifo.consumed_write]

/-- A call of `split` lets its streams grow, the input and every output. -/
theorem split_grows :
    Grows src (split f src dst).1
      ∧ ∀ i, Grows (dst i) ((split f src dst).2 i) := by
  rcases split_cases f src dst with ⟨-, he⟩ | ⟨x, src', hx, he⟩
  · rw [he]
    exact ⟨Growing.refl _, fun _ => Growing.refl _⟩
  · rw [he]
    exact ⟨Fifo.grows_of_readNb hx, fun _ => Fifo.grows_write _ _⟩

/-- **An idle `split` has nothing left to do**: its input is empty. -/
theorem split_idle {f : α → ι → β} {src : Fifo α} {dst : ι → Fifo β}
    (h : (split f src dst).1 = src) : src.pending = [] := by
  rcases split_cases f src dst with ⟨hx, -⟩ | ⟨x, src', hx, he⟩
  · exact Fifo.readNb_eq_none.mp hx
  · rw [he] at h
    exact absurd h (Fifo.ne_of_readNb hx)

end Split

section Reduce

variable {n : ℕ} (f : β → α → β) (zero : β)
    (src : Fin n → Fifo α) (dst : Fifo β)

/-- A call of `reduce` is idle when some input is empty and takes one element
from each of them otherwise. There is nothing in between: it never takes from a
part of its inputs. -/
theorem reduce_cases :
    ((∃ i, (src i).pending = []) ∧ reduce f zero src dst = (src, dst))
    ∨ ∃ (x : Fin n → α) (src' : Fin n → Fifo α),
        (∀ i, (src i).readNb = some (x i, src' i))
        ∧ reduce f zero src dst
          = (src',
            dst.write
            ((List.finRange n).foldl (fun y i => f y (x i)) zero)) := by
  unfold reduce
  by_cases h : ∀ i, (src i).pending ≠ []
  · rw [dif_pos h]
    exact Or.inr ⟨_, _, fun i => Fifo.readNb_eq_read (h i), rfl⟩
  · rw [dif_neg h]
    obtain ⟨i, hi⟩ := not_forall.mp h
    exact Or.inl ⟨⟨i, not_not.mp hi⟩, rfl⟩

/-- **The equation of `reduce`**: as many elements written as consumed from each
input, each the reduction of those at its position. All inputs have therefore
been consumed to the same length, although they may have been written to
different ones. -/
structure Reduced (f : β → α → β) (zero : β) (src : Fin n → List α)
    (dst : List β) : Prop where
  /-- All inputs have been consumed to the length of the output. -/
  length : ∀ i, (src i).length = dst.length
  /-- An element of the output is the reduction of the elements at its
  position. -/
  entry : ∀ (k : ℕ) (y : β), dst[k]? = some y → ∃ x : Fin n →
    α, (∀ i, (src i)[k]? = some (x i))
    ∧ y = (List.finRange n).foldl (fun y i => f y (x i)) zero

/-- One more element from each input makes one more element of the output. -/
theorem Reduced.concat {f : β → α → β} {zero : β}
    {src : Fin n → List α} {dst : List β} (h : Reduced f zero src dst)
    (x : Fin n → α) :
    Reduced f zero (fun i => src i ++ [x i])
      (dst ++ [(List.finRange n).foldl (fun y i => f y (x i)) zero]) where
  length i := by
    rw [List.length_append, List.length_append, h.length i]
    rfl
  entry k y hy := by
    rcases Nat.lt_or_ge k dst.length with hk | hk
    · rw [List.getElem?_append_left hk] at hy
      obtain ⟨x', hx', rfl⟩ := h.entry k y hy
      refine ⟨x', fun i => ?_, rfl⟩
      rw [List.getElem?_append_left (by rw [h.length i]; exact hk), hx' i]
    · rw [List.getElem?_append_right hk] at hy
      obtain ⟨hk', rfl⟩ := List.getElem?_eq_some_iff.mp hy
      have hk0 : k = dst.length := by
        rw [List.length_singleton] at hk'
        omega
      refine ⟨x, fun i => ?_, by simp⟩
      rw [List.getElem?_append_right (by rw [h.length i]; exact hk),
        h.length i, hk0,
        Nat.sub_self]
      rfl

/-- **What `reduce` has written is its reduction of what it has consumed.** A
call appends one element to the output and one to what is consumed of each
input. -/
theorem reduce_sound {f : β → α → β} {zero : β}
    {src : Fin n → Fifo α} {dst : Fifo β}
    (h : Reduced f zero (fun i => (src i).consumed) dst.written) :
    Reduced f zero (fun i => ((reduce f zero src dst).1 i).consumed)
      (reduce f zero src dst).2.written := by
  rcases reduce_cases f zero src dst with ⟨-, he⟩ | ⟨x, src', hx, he⟩
  · rw [he]
    exact h
  · rw [he, Fifo.written_write, show (fun i => (src' i).consumed)
      = fun i => (src i).consumed ++ [x i] from funext fun i =>
        Fifo.consumed_of_readNb (hx i)]
    exact h.concat x

@[simp] theorem written_reduce (i : Fin n) :
    ((reduce f zero src dst).1 i).written = (src i).written := by
  rcases reduce_cases f zero src dst with ⟨-, he⟩ | ⟨x, src', hx, he⟩
  · rw [he]
  · rw [he, Fifo.written_of_readNb (hx i)]

@[simp] theorem consumed_reduce : (reduce f zero src dst).2.consumed
    = dst.consumed := by
  rcases reduce_cases f zero src dst with ⟨-, he⟩ | ⟨x, src', hx, he⟩
  · rw [he]
  · rw [he, Fifo.consumed_write]

/-- A call of `reduce` lets its streams grow, every input and the output. -/
theorem reduce_grows : (∀ i, Grows (src i) ((reduce f zero src dst).1 i))
    ∧ Grows dst (reduce f zero src dst).2 := by
  rcases reduce_cases f zero src dst with ⟨-, he⟩ | ⟨x, src', hx, he⟩
  · rw [he]
    exact ⟨fun _ => Growing.refl _, Growing.refl _⟩
  · rw [he]
    exact ⟨fun i => Fifo.grows_of_readNb (hx i), Fifo.grows_write _ _⟩

/-- **An idle `reduce` has an empty input**, one at least. That the others are
empty as well follows only where all of them are written to the same length. -/
theorem reduce_idle {f : β → α → β} {zero : β}
    {src : Fin n → Fifo α} {dst : Fifo β}
    (h : (reduce f zero src dst).2 = dst) : ∃ i, (src i).pending = [] := by
  rcases reduce_cases f zero src dst with ⟨hx, -⟩ | ⟨x, src', hx, he⟩
  · exact hx
  · rw [he] at h
    exact absurd h (Fifo.write_ne _ _)

end Reduce

/-! ## Fold

The first transform with a state. Its buffer is between two jobs what it was at
the start, and that is why what it writes is a function of the single job. -/

/-- `Fold::fold`, with the folding buffer `res`. The element with an asserted
`last` is folded in before the result is written, and the buffer is reset to
`zero` in the same call. -/
def fold (f : β → α → β) (zero : β) (res : β)
    (src : Fifo (Flit α)) (dst : Fifo β) :
    β × Fifo (Flit α) × Fifo β :=
  match src.readNb with
  | none => (res, src, dst)
  | some (x, src) =>
    let res := f res x.val
    if x.last then (zero, src, dst.write res) else (res, src, dst)

section Fold

variable (f : β → α → β) (zero res : β) (src : Fifo (Flit α)) (dst : Fifo β)

/-- A call of `fold` is idle on an empty input and takes one element in
otherwise. Whether it writes depends on the flag of that element only. -/
theorem fold_cases :
    (src.readNb = none ∧ fold f zero res src dst = (res, src, dst))
    ∨ ∃ x src', src.readNb = some (x, src')
      ∧ fold f zero res src dst
        = if x.last then (zero, src', dst.write (f res x.val))
          else (f res x.val, src', dst) := by
  unfold fold
  cases h : src.readNb with
  | none => exact Or.inl ⟨rfl, rfl⟩
  | some p => exact Or.inr ⟨p.1, p.2, rfl, rfl⟩

/-- **The equation of `Fold`**: one element written per job consumed, its fold;
and the buffer holds the fold of the open job, which is empty after a `last`. -/
structure Folded (f : β → α → β) (zero res : β) (src : List (Flit α))
    (dst : List β) : Prop where
  /-- The buffer holds the fold of what has been read since the last `last`. -/
  res : res = (partOf src).foldl f zero
  /-- The output is the folds of the complete jobs. -/
  dst : dst = (jobsOf src).map (List.foldl f zero)

/-- **What `fold` has written is its fold of the jobs it has consumed.** An
element extends the open job or closes it, and the equation is kept in both
cases. -/
theorem fold_sound {f : β → α → β} {zero res : β}
    {src : Fifo (Flit α)} {dst : Fifo β}
    (h : Folded f zero res src.consumed dst.written) :
    Folded f zero (fold f zero res src dst).1
      (fold f zero res src dst).2.1.consumed
      (fold f zero res src dst).2.2.written := by
  rcases fold_cases f zero res src dst with ⟨-, he⟩ | ⟨x, src', hx, he⟩
  · rw [he]
    exact h
  · have hres : f res x.val
      = (partOf src.consumed ++ [x.val]).foldl f zero := by
      rw [List.foldl_append, ← h.res]
      rfl
    rw [he]
    cases hlast : x.last with
    | true =>
      refine ⟨?_, ?_⟩
      · simp only [if_true, Fifo.consumed_of_readNb hx, partOf_concat, hlast]
        rfl
      · simp only [if_true, Fifo.consumed_of_readNb hx, jobsOf_concat, hlast,
          Fifo.written_write, h.dst, hres, List.map_append, List.map_singleton]
    | false =>
      refine ⟨?_, ?_⟩
      · simp only [Bool.false_eq_true, if_false,
          Fifo.consumed_of_readNb hx, partOf_concat,
          hlast, hres]
      · simp only [Bool.false_eq_true, if_false,
          Fifo.consumed_of_readNb hx, jobsOf_concat,
          hlast, h.dst]

@[simp] theorem written_fold :
    (fold f zero res src dst).2.1.written = src.written := by
  rcases fold_cases f zero res src dst with ⟨-, he⟩ | ⟨x, src', hx, he⟩
  · rw [he]
  · rw [he]
    split <;> exact Fifo.written_of_readNb hx

@[simp] theorem consumed_fold : (fold f zero res src dst).2.2.consumed
    = dst.consumed := by
  rcases fold_cases f zero res src dst with ⟨-, he⟩ | ⟨x, src', hx, he⟩
  · rw [he]
  · rw [he]
    split <;> rfl

/-- A call of `fold` lets its streams grow. -/
theorem fold_grows : Grows src (fold f zero res src dst).2.1
    ∧ Grows dst (fold f zero res src dst).2.2 := by
  rcases fold_cases f zero res src dst with ⟨-, he⟩ | ⟨x, src', hx, he⟩
  · rw [he]
    exact ⟨Growing.refl _, Growing.refl _⟩
  · rw [he]
    split
    · exact ⟨Fifo.grows_of_readNb hx, Fifo.grows_write _ _⟩
    · exact ⟨Fifo.grows_of_readNb hx, Growing.refl _⟩

/-- **An idle `fold` has nothing left to do**: its input is empty. -/
theorem fold_idle {f : β → α → β} {zero res : β}
    {src : Fifo (Flit α)} {dst : Fifo β}
    (h : (fold f zero res src dst).2.1 = src) : src.pending = [] := by
  rcases fold_cases f zero res src dst with ⟨hx, -⟩ | ⟨x, src', hx, he⟩
  · exact Fifo.readNb_eq_none.mp hx
  · rw [he] at h
    refine absurd ?_ (Fifo.ne_of_readNb hx)
    split at h <;> exact h

end Fold

/-! ## Concat

The transform that waits for one stream at a time. It is treated as a sequencer:
the order in which it asks for elements is a script, known from the jobs, and
the arrival of the rows can only delay it. -/

/-- `Concat::concat`, with the stream it is at. Only the `last` of the final row
survives, and with it the index wraps to `0`. The index is a register of `clog2
n` bits; one outside the array is never reached. -/
def concat {n : ℕ} (idx : ℕ) (src : Fin n → Fifo (Flit α))
    (dst : Fifo (Flit α)) :
    ℕ × (Fin n → Fifo (Flit α)) × Fifo (Flit α) :=
  if h : idx < n then
    match (src ⟨idx, h⟩).readNb with
    | none => (idx, src, dst)
    | some (x, s) =>
      let wrap := x.last && decide (idx = n - 1)
      (if x.last then if wrap then 0 else (idx + 1) % 2 ^ clog2 n else idx,
        Function.update src ⟨idx, h⟩ s, dst.write ⟨wrap, x.val⟩)
  else (idx, src, dst)

/-- `Concat` as a sequencer: it waits for the stream it is at, hands each
element on with the `last` of the whole, and moves to the next stream behind a
`last` of the row. -/
def concatSequencer (α : Type*) {n : ℕ} (hn : 0 < n) :
    Sequencer (Fin n) (Flit α) (Flit α) (Fin n) where
  select idx := idx
  next idx x := if x.last then if h : idx.val + 1 < n then ⟨idx + 1, h⟩
    else ⟨0, hn⟩ else idx
  out idx x := [⟨x.last && decide (idx.val = n - 1), x.val⟩]

/-- The order in which `Concat` asks for the rows of a job: all of the first
row, framed by its `last`, then all of the second, and so on. -/
def rowScript {n : ℕ} (rows : Fin n → List α) : List (Fin n × Flit α) :=
  (List.finRange n).flatMap (fun j => (frame (rows j)).map (Prod.mk j))

/-- **The equation of `Concat`**: it has come some way down the script of its
jobs. What it has read and what it has written are determined by how far it has
come. -/
def Concatenated {n : ℕ} (hn : 0 < n) (jobs : List (Fin n → List α)) (idx : ℕ)
    (src : Fin n → List (Flit α)) (dst : List (Flit α)) : Prop :=
  ∃ k s, idx = s.val
    ∧ (concatSequencer α hn).After ⟨0, hn⟩ (jobs.flatMap rowScript) k src s dst

section Concat

variable {n : ℕ} (hn : 0 < n)

/-- Reading a row takes `Concat` to the next stream; only the final row ends
the output. -/
theorem concat_row (idx : Fin n) {row : List α} (hrow : row ≠ []) :
    (concatSequencer α hn).Passes idx ((frame row).map (Prod.mk idx))
      (if h : idx.val + 1 < n then ⟨idx + 1, h⟩ else ⟨0, hn⟩)
      (if idx.val + 1 < n then row.map (Flit.mk false) else frame row) := by
  induction row with
  | nil => exact absurd rfl hrow
  | cons x row ih =>
    cases row with
    | nil =>
      refine ⟨⟨rfl, trivial⟩, rfl, ?_⟩
      show [(⟨true && decide (idx.val = n - 1), x⟩ : Flit α)] ++ [] = _
      split
      · next h =>
        rw [decide_eq_false (by omega)]
        rfl
      · next h =>
        rw [decide_eq_true (by omega)]
        rfl
    | cons y row =>
      obtain ⟨h₁, h₂, h₃⟩ := ih (List.cons_ne_nil _ _)
      refine ⟨⟨rfl, h₁⟩, h₂, ?_⟩
      show [(⟨false && decide (idx.val = n - 1), x⟩ : Flit α)]
        ++ (concatSequencer α hn).emits idx
          (((frame (y :: row)).map (Prod.mk idx)).map Prod.snd)
        = _
      rw [h₃]
      split <;> rfl

/-- The rows from `j` on, by induction on how many of them are left. -/
theorem concat_rows {rows : Fin n → List α}
    (hrows : ∀ j, rows j ≠ []) (j : Fin n) :
    (concatSequencer α hn).Passes j
      (((List.finRange n).drop j).flatMap
        (fun j => (frame (rows j)).map (Prod.mk j))) ⟨0, hn⟩
      (frame (((List.finRange n).drop j).flatMap rows)) := by
  have hrow := concat_row hn j (hrows j)
  have hdrop : (List.finRange n).drop j
    = j :: (List.finRange n).drop (j + 1) := by
    rw [List.drop_eq_getElem_cons (by rw [List.length_finRange]; exact j.isLt)]
    simp
  rw [hdrop]
  by_cases hj : j.val + 1 < n
  · have hrest := concat_rows hrows ⟨j + 1, hj⟩
    rw [dif_pos hj, if_pos hj] at hrow
    have hne : ((List.finRange n).drop (j + 1)).flatMap rows ≠ [] := by
      rw [List.drop_eq_getElem_cons (by rw [List.length_finRange]; exact hj),
        List.flatMap_cons]
      exact fun h => hrows _ (List.append_eq_nil_iff.mp h).1
    rw [List.flatMap_cons, List.flatMap_cons, frame_append _ hne]
    exact hrow.append hrest
  · -- the final row
    rw [dif_neg hj, if_neg hj] at hrow
    have hend : (List.finRange n).drop (j + 1) = [] :=
      List.drop_eq_nil_of_le (by rw [List.length_finRange]; omega)
    rw [hend, List.flatMap_singleton, List.flatMap_singleton]
    exact hrow
termination_by n - j

/-- **The rows of a job in one**: `Concat` reads them in order, is back at the
first stream, and writes them as one job. -/
theorem concat_job {rows : Fin n → List α} (hrows : ∀ j, rows j ≠ []) :
    (concatSequencer α hn).Passes ⟨0, hn⟩ (rowScript rows) ⟨0, hn⟩
      (frame ((List.finRange n).flatMap rows)) :=
  concat_rows hn hrows ⟨0, hn⟩

/-- Job after job: a script of whole jobs leads back to the first stream, and
writes one job for each. -/
theorem concat_jobs {jobs : List (Fin n → List α)}
    (hjobs : ∀ rows ∈ jobs, ∀ j, rows j ≠ []) :
    (concatSequencer α hn).Passes ⟨0, hn⟩ (jobs.flatMap rowScript) ⟨0, hn⟩
      (jobs.flatMap (fun rows => frame ((List.finRange n).flatMap rows))) :=
  Sequencer.passes_flatMap (fun rows hrows => concat_job hn (hjobs rows hrows))

/-- What `Concat` is asked to read on stream `j`: the `j`-th row of every job,
and nothing of the other rows. -/
theorem addressed_rowScript (jobs : List (Fin n → List α)) (j : Fin n) :
    Sequencer.addressed j (jobs.flatMap rowScript)
      = jobs.flatMap (fun rows => frame (rows j)) := by
  rw [Sequencer.addressed_flatMap]
  refine List.flatMap_congr (fun rows _ => ?_)
  exact Sequencer.addressed_feed j (fun j => frame (rows j))
    (List.nodup_finRange n)
    (List.mem_finRange j)

variable {hn}

variable (hn) in
/-- A call of `concat` is idle when the stream it is at is empty, whatever the
other streams hold, and otherwise a step of the sequencer. -/
theorem concat_cases {idx : Fin n} (src : Fin n → Fifo (Flit α))
    (dst : Fifo (Flit α)) :
    ((src idx).readNb = none ∧ concat idx src dst = (idx.val, src, dst))
    ∨ ∃ x s, (src idx).readNb = some (x, s)
      ∧ concat idx src dst = (((concatSequencer α hn).next idx x).val,
        Function.update src idx s,
        dst.write ⟨x.last && decide (idx.val = n - 1), x.val⟩) := by
  unfold concat
  rw [dif_pos idx.isLt]
  cases h : (src idx).readNb with
  | none => exact Or.inl ⟨rfl, rfl⟩
  | some p =>
    obtain ⟨x, s⟩ := p
    refine Or.inr ⟨x, s, rfl, ?_⟩
    refine Prod.ext ?_ rfl
    show (if x.last then if x.last && decide (idx.val = n - 1) then 0
      else (idx.val + 1) % 2 ^ clog2 n else idx.val)
      = (if x.last then if h : idx.val + 1
        < n then (⟨idx + 1, h⟩ : Fin n) else ⟨0, hn⟩
        else idx).val
    cases x.last with
    | false => rfl
    | true =>
      by_cases hlt : idx.val + 1 < n
      · have hfit : (idx.val + 1) % 2 ^ clog2 n = idx.val + 1 :=
          Nat.mod_eq_of_lt (lt_of_lt_of_le hlt (le_two_pow_clog2 n))
        have hne : decide (idx.val = n - 1) = false :=
          decide_eq_false (by omega)
        rw [dif_pos hlt, hne, hfit]
        rfl
      · have heq : decide (idx.val = n - 1) = true := decide_eq_true (by omega)
        rw [dif_neg hlt, heq]
        rfl

/-- **`Concat` stays on its script**, as long as its streams carry the rows of
the jobs. The next element of the stream it is at is then the next one of the
script. -/
theorem concat_sound {jobs : List (Fin n → List α)}
    (hjobs : ∀ rows ∈ jobs, ∀ j, rows j ≠ []) {idx : ℕ}
    {src : Fin n → Fifo (Flit α)} {dst : Fifo (Flit α)}
    (hsrc : ∀ j, (src j).written <+: jobs.flatMap (fun rows => frame (rows j)))
    (h : Concatenated hn jobs idx (fun j => (src j).consumed) dst.written) :
    Concatenated hn jobs (concat idx src dst).1
      (fun j => ((concat idx src dst).2.1 j).consumed)
      (concat idx src dst).2.2.written := by
  obtain ⟨k, s, rfl, hafter⟩ := h
  rcases concat_cases hn src dst with ⟨-, he⟩ | ⟨x, s', hx, he⟩
  · rw [he]
    exact ⟨k, s, rfl, hafter⟩
  · have hfollows := (concat_jobs hn hjobs).follows
    have hnext :
      (Sequencer.addressed s (jobs.flatMap rowScript))[(src s).consumed.length]?
        = some x := by
      rw [addressed_rowScript]
      exact Fifo.getElem?_of_readNb hx (hsrc s)
    rw [he]
    refine ⟨k + 1, _, rfl, ?_⟩
    rw [Fifo.written_write]
    refine hafter.read hfollows hnext ?_ (fun i hi => ?_)
    · show (Function.update src s s' s).consumed = _
      rw [Function.update_self, Fifo.consumed_of_readNb hx]
      rfl
    · show (Function.update src s s' i).consumed = _
      rw [Function.update_of_ne (show i ≠ s from hi)]

/-- **An idle `Concat` is through its jobs**, when its streams have carried all
their rows. -/
theorem concat_through {jobs : List (Fin n → List α)}
    (hjobs : ∀ rows ∈ jobs, ∀ j, rows j ≠ []) {idx : ℕ}
    {src : Fin n → Fifo (Flit α)} {dst : Fifo (Flit α)}
    (hsrc : ∀ j, (src j).written = jobs.flatMap (fun rows => frame (rows j)))
    (h : Concatenated hn jobs idx (fun j => (src j).consumed) dst.written)
    (hidle : (concat idx src dst).2.2 = dst) :
    dst.written
      = jobs.flatMap (fun rows => frame ((List.finRange n).flatMap rows)) := by
  obtain ⟨k, s, rfl, hafter⟩ := h
  rcases concat_cases hn src dst with ⟨hx, -⟩ | ⟨x, s', hx, he⟩
  · have hall := concat_jobs hn hjobs
    have hdone : (src s).consumed = Sequencer.addressed s
      (jobs.flatMap rowScript) := by
      rw [addressed_rowScript, ← hsrc,
        Fifo.consumed_eq_written (Fifo.readNb_eq_none.mp hx)]
    rw [(hafter.through hall.follows hdone).2.2, hall.given]
  · rw [he] at hidle
    exact absurd hidle (Fifo.write_ne _ _)

omit hn in
/-- A call of `concat` puts nothing into its inputs. -/
@[simp] theorem written_concat (idx : ℕ) (src : Fin n → Fifo (Flit α))
    (dst : Fifo (Flit α))
    (j : Fin n) : ((concat idx src dst).2.1 j).written = (src j).written := by
  unfold concat
  split
  · next h =>
    cases hx : (src ⟨idx, h⟩).readNb with
    | none => rfl
    | some p =>
      show (Function.update src ⟨idx, h⟩ p.2 j).written = _
      rw [Function.update_apply]
      split
      · next hj => rw [hj, Fifo.written_of_readNb hx]
      · rfl
  · rfl

omit hn in
/-- A call of `concat` takes nothing from its output. -/
@[simp] theorem consumed_concat (idx : ℕ) (src : Fin n → Fifo (Flit α))
    (dst : Fifo (Flit α)) :
    (concat idx src dst).2.2.consumed = dst.consumed := by
  unfold concat
  split
  · split <;> rfl
  · rfl

omit hn in
/-- A call of `concat` lets its streams grow, every input and the output. -/
theorem concat_grows (idx : ℕ) (src : Fin n → Fifo (Flit α))
    (dst : Fifo (Flit α)) :
    (∀ j, Grows (src j) ((concat idx src dst).2.1 j))
      ∧ Grows dst (concat idx src dst).2.2 := by
  unfold concat
  split
  · next h =>
    cases hx : (src ⟨idx, h⟩).readNb with
    | none => exact ⟨fun _ => Growing.refl _, Growing.refl _⟩
    | some p =>
      refine ⟨fun j => ?_, Fifo.grows_write _ _⟩
      show Grows (src j) (Function.update src ⟨idx, h⟩ p.2 j)
      rw [Function.update_apply]
      split
      · next hj => rw [hj]; exact Fifo.grows_of_readNb hx
      · exact Growing.refl _
  · exact ⟨fun _ => Growing.refl _, Growing.refl _⟩

/-- The output of `Concat` is the beginning of the jobs in one row each, at any
point of the script. -/
theorem Concatenated.isPrefix {jobs : List (Fin n → List α)}
    (hjobs : ∀ rows ∈ jobs, ∀ j, rows j ≠ []) {idx : ℕ}
    {src : Fin n → List (Flit α)} {dst : List (Flit α)}
    (h : Concatenated hn jobs idx src dst) :
    dst <+: jobs.flatMap
      (fun rows => frame ((List.finRange n).flatMap rows)) := by
  obtain ⟨k, s, -, hafter⟩ := h
  have hgiven := hafter.given_isPrefix
  rw [(concat_jobs hn hjobs).given] at hgiven
  exact hgiven

end Concat

end Skt.Hardware
