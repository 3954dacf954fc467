import Mathlib

/-!
# Jobs on a stream

Elements travel with a `last` flag that ends a job. `frame` puts a job on a
stream and `deframe` takes the jobs off again, with the elements of the job that
is not complete yet. `deframe` is a fold, so it follows a stream element by
element, and the complete jobs only ever grow.

A process that works job by job is described with these two functions. What it
has consumed so far deframes into complete jobs and an open one; the complete
jobs determine what it must have written, and the open one what it holds in its
registers. The lemmas about prefixes then say how the description moves when one
more element is consumed.

The last section is about sequences of blocks of one length, as when every job
yields the same number of output elements.
-/

namespace Streams

/-- A value with the flag that marks the last one of a job. A job thus has at
least one element, since there is no flag without a value to carry it. -/
@[ext] structure Flit (α : Type*) where
  /-- Whether a job ends with this element. -/
  last : Bool
  /-- What it carries. -/
  val : α
  deriving DecidableEq

variable {α β : Type*}

/-- Applying a function to the value. The flag goes along, so the jobs stay
apart at the same places. -/
def Flit.map (f : α → β) (x : Flit α) : Flit β := ⟨x.last, f x.val⟩

@[simp] theorem Flit.last_map (f : α → β) (x : Flit α) :
    (x.map f).last = x.last := rfl

@[simp] theorem Flit.val_map (f : α → β) (x : Flit α) :
    (x.map f).val = f x.val := rfl

/-- **A job on a stream**: `last` is set on the final element only. The empty
job leaves no trace on the stream. -/
def frame : List α → List (Flit α)
  | [] => []
  | [x] => [⟨true, x⟩]
  | x :: y :: rest => ⟨false, x⟩ :: frame (y :: rest)

/-- One element more of a stream: it ends a job or continues one. The pair holds
the jobs that are complete and the elements of the one that is open. -/
def deframeStep (d : List (List α) × List α) (x : Flit α) :
    List (List α) × List α :=
  if x.last then (d.1 ++ [d.2 ++ [x.val]], []) else (d.1, d.2 ++ [x.val])

/-- The complete jobs of a stream and the elements behind them, read from left
to right as a process does that sees one element at a time. -/
def deframe (xs : List (Flit α)) : List (List α) × List α :=
  xs.foldl deframeStep ([], [])

/-- The complete jobs of a stream, in the order in which they ended. -/
def jobsOf (xs : List (Flit α)) : List (List α) := (deframe xs).1

/-- The elements of a stream behind its complete jobs: the job that is open. -/
def partOf (xs : List (Flit α)) : List α := (deframe xs).2

@[simp] theorem jobsOf_nil : jobsOf ([] : List (Flit α)) = [] := rfl

@[simp] theorem partOf_nil : partOf ([] : List (Flit α)) = [] := rfl

/-- One element more is one step more of the fold. -/
theorem deframe_concat (xs : List (Flit α)) (x : Flit α) :
    deframe (xs ++ [x]) = deframeStep (deframe xs) x := by
  unfold deframe
  rw [List.foldl_append]
  rfl

/-- The complete jobs after one element more: with `last` the open job joins
them. -/
theorem jobsOf_concat (xs : List (Flit α)) (x : Flit α) :
    jobsOf (xs ++ [x]) = if x.last then jobsOf xs ++ [partOf xs ++ [x.val]]
      else jobsOf xs := by
  unfold jobsOf partOf
  rw [deframe_concat, deframeStep]
  split <;> rfl

/-- The open job after one element more: `last` empties it, and any other
element makes it longer. -/
theorem partOf_concat (xs : List (Flit α)) (x : Flit α) :
    partOf (xs ++ [x]) = if x.last then [] else partOf xs ++ [x.val] := by
  unfold partOf
  rw [deframe_concat, deframeStep]
  split <;> rfl

/-- A stream has no more jobs than elements, which bounds what a process that
answers every job can write. -/
theorem length_jobsOf_le (xs : List (Flit α)) :
    (jobsOf xs).length ≤ xs.length := by
  induction xs using List.reverseRecOn with
  | nil => exact le_rfl
  | append_singleton xs x ih =>
    rw [jobsOf_concat, List.length_append, List.length_singleton]
    split
    · rw [List.length_append, List.length_singleton]
      omega
    · omega

/-- Complete jobs stay: what comes later on the stream does not change them. -/
theorem jobsOf_append (xs ys : List (Flit α)) :
    jobsOf xs <+: jobsOf (xs ++ ys) := by
  induction ys using List.reverseRecOn with
  | nil => rw [List.append_nil]
  | append_singleton ys y ih =>
    rw [← List.append_assoc, jobsOf_concat]
    split
    · exact ih.trans (List.prefix_append _ _)
    · exact ih

/-- **The complete jobs grow with the stream.** A process that is behind has
seen a prefix of the jobs, never other ones. -/
theorem jobsOf_isPrefix {xs ys : List (Flit α)} (h : xs <+: ys) :
    jobsOf xs <+: jobsOf ys := by
  obtain ⟨zs, rfl⟩ := h
  exact jobsOf_append xs zs

/-- **The open job is the beginning of the job it will be**, or stays open.

In a longer stream the job at the same position, complete or not, starts with
the elements that are there already. -/
theorem partOf_isPrefix_append (xs ys : List (Flit α)) :
    partOf xs <+: (jobsOf (xs ++ ys) ++ [partOf (xs ++ ys)]).getD
      (jobsOf xs).length [] := by
  induction ys using List.reverseRecOn with
  | nil => simp
  | append_singleton ys y ih =>
    rw [← List.append_assoc, jobsOf_concat, partOf_concat]
    set jobs := jobsOf (xs ++ ys)
    have hlen : (jobsOf xs).length ≤ jobs.length :=
      (jobsOf_append xs ys).length_le
    simp only [List.getD_eq_getElem?_getD] at ih ⊢
    rcases Nat.lt_or_ge (jobsOf xs).length jobs.length with hlt | hge
    · -- the job is complete already
      rw [List.getElem?_append_left hlt] at ih
      split
      · rw [List.append_assoc, List.getElem?_append_left hlt]
        exact ih
      · rw [List.getElem?_append_left hlt]
        exact ih
    · have heq : (jobsOf xs).length = jobs.length := le_antisymm hlen hge
      rw [heq, List.getElem?_concat_length, Option.getD_some] at ih
      rw [heq]
      split
      · rw [List.append_assoc, List.getElem?_append_right le_rfl, Nat.sub_self]
        exact ih.trans (List.prefix_append _ _)
      · rw [List.getElem?_concat_length]
        exact ih.trans (List.prefix_append _ _)

/-- **A stretch of a stream without a `last`** continues the open job and
completes none. -/
theorem deframe_append_of_not_last (xs : List (Flit α)) {ys : List (Flit α)}
    (h : ∀ y ∈ ys, y.last = false) :
    deframe (xs ++ ys) = (jobsOf xs, partOf xs ++ ys.map Flit.val) := by
  induction ys using List.reverseRecOn with
  | nil => simp [jobsOf, partOf]
  | append_singleton ys y ih =>
    rw [← List.append_assoc, deframe_concat,
      ih (fun z hz => h z (List.mem_append_left _ hz)),
      deframeStep, h y (by simp)]
    simp

/-- **A stretch of a stream with its `last` at the end** completes the open
job. -/
theorem deframe_append_of_last (xs : List (Flit α))
    {ys : List (Flit α)} {y : Flit α} (h : ∀ z ∈ ys, z.last = false)
    (hy : y.last = true) :
    deframe (xs ++ (ys ++ [y]))
      = (jobsOf xs ++ [partOf xs ++ (ys ++ [y]).map Flit.val], []) := by
  rw [← List.append_assoc, deframe_concat, deframe_append_of_not_last xs h,
    deframeStep, hy]
  simp

/-- A job is all its elements but the final one, and that one. This is the shape
in which a loop that sees the job from its beginning produces it. -/
theorem frame_concat (xs : List α) (x : α) :
    frame (xs ++ [x]) = xs.map (Flit.mk false) ++ [⟨true, x⟩] := by
  induction xs with
  | nil => rfl
  | cons y xs ih =>
    cases xs with
    | nil => rfl
    | cons z xs => exact congrArg (Flit.mk false y :: ·) ih

/-- A job in two parts: only the second one ends it. The second part has to be
there, since the flag goes with its final element. -/
theorem frame_append (xs : List α) {ys : List α} (h : ys ≠ []) :
    frame (xs ++ ys) = xs.map (Flit.mk false) ++ frame ys := by
  obtain ⟨zs, z, rfl⟩ : ∃ zs z, ys = zs ++ [z] :=
    ⟨ys.dropLast, ys.getLast h, (List.dropLast_append_getLast h).symm⟩
  rw [← List.append_assoc, frame_concat, frame_concat,
    List.map_append, List.append_assoc]

/-- A job keeps its elements, in their order. -/
theorem map_val_frame (job : List α) : (frame job).map Flit.val = job := by
  rcases List.eq_nil_or_concat job with rfl | ⟨xs, x, rfl⟩
  · rfl
  · rw [List.concat_eq_append, frame_concat, List.map_append, List.map_map]
    exact congrArg (· ++ [x]) (List.map_id' xs)

/-- A framed job is as long as the job. -/
@[simp] theorem length_frame (job : List α) :
    (frame job).length = job.length := by
  rw [← List.length_map Flit.val, map_val_frame]

/-- **An element of a framed job**: the final one is flagged. An index past the
end has no element on either side. -/
theorem getElem?_frame (job : List α) (k : ℕ) :
    (frame job)[k]? = job[k]?.map (Flit.mk (decide (k + 1 = job.length))) := by
  rcases List.eq_nil_or_concat job with rfl | ⟨xs, x, rfl⟩
  · simp [frame]
  · rw [List.concat_eq_append, frame_concat]
    rcases Nat.lt_trichotomy k xs.length with hk | rfl | hk
    · rw [List.getElem?_append_left (by simpa using hk),
        List.getElem?_append_left hk,
        decide_eq_false (by simp; omega), List.getElem?_map]
    · simp
    · rw [List.getElem?_eq_none (by simp; omega),
        List.getElem?_eq_none (by simp; omega)]
      rfl

/-- **A stream is its complete jobs and the open one**, framed. So nothing about
a stream is lost when it is described by them. -/
theorem flatMap_frame_jobsOf (xs : List (Flit α)) :
    (jobsOf xs).flatMap frame ++ (partOf xs).map (Flit.mk false) = xs := by
  induction xs using List.reverseRecOn with
  | nil => rfl
  | append_singleton xs x ih =>
    obtain ⟨last, val⟩ := x
    conv_rhs => rw [← ih]
    rw [jobsOf_concat, partOf_concat]
    cases last with
    | true =>
      rw [if_pos rfl, if_pos rfl, List.flatMap_append,
        List.flatMap_singleton, frame_concat]
      simp
    | false => simp

/-- The values on a stream are those of its jobs and of the open one, which lets
a count over the stream be split at the ends of the jobs. -/
theorem map_val_eq_jobsOf (xs : List (Flit α)) :
    xs.map Flit.val = (jobsOf xs).flatten ++ partOf xs := by
  conv_lhs => rw [← flatMap_frame_jobsOf xs]
  rw [List.map_append, List.map_flatMap, List.map_map]
  simp only [map_val_frame]
  exact congrArg₂ _ List.flatMap_id (List.map_id' _)

/-- A complete job has an element, the one that ended it. There is no empty job
to consider where jobs are read off a stream. -/
theorem ne_nil_of_mem_jobsOf {xs : List (Flit α)} {job : List α}
    (h : job ∈ jobsOf xs) :
    job ≠ [] := by
  induction xs using List.reverseRecOn with
  | nil => exact absurd h List.not_mem_nil
  | append_singleton xs x ih =>
    rw [jobsOf_concat] at h
    split at h
    · rcases List.mem_append.mp h with h | h
      · exact ih h
      · rw [List.mem_singleton.mp h]
        exact List.append_ne_nil_of_right_ne_nil _ (List.cons_ne_nil _ _)
    · exact ih h

/-- A framed job completes the job that is open. On a stream between two jobs it
is a job of its own. -/
theorem deframe_append_frame (xs : List (Flit α))
    {job : List α} (h : job ≠ []) :
    deframe (xs ++ frame job) = (jobsOf xs ++ [partOf xs ++ job], []) := by
  obtain ⟨ys, y, rfl⟩ : ∃ ys y, job = ys ++ [y] :=
    ⟨job.dropLast, job.getLast h, (List.dropLast_append_getLast h).symm⟩
  rw [frame_concat, deframe_append_of_last xs (by simp) rfl,
    List.map_append, List.map_map]
  exact congrArg (fun l => (jobsOf xs ++ [partOf xs ++ (l ++ [y])], []))
    (List.map_id' ys)

/-- **Jobs survive the stream.** The hypothesis excludes empty jobs, of which
nothing is put on the stream. -/
theorem deframe_flatMap_frame {jobs : List (List α)}
    (h : ∀ job ∈ jobs, job ≠ []) :
    deframe (jobs.flatMap frame) = (jobs, []) := by
  induction jobs using List.reverseRecOn with
  | nil => rfl
  | append_singleton jobs job ih =>
    have hrest := ih (fun j hj => h j (List.mem_append_left _ hj))
    rw [List.flatMap_append, List.flatMap_singleton,
      deframe_append_frame _ (h job (by simp)), jobsOf, partOf, hrest]
    rfl

/-- The complete jobs of a stream of jobs are these jobs. -/
theorem jobsOf_flatMap_frame {jobs : List (List α)}
    (h : ∀ job ∈ jobs, job ≠ []) :
    jobsOf (jobs.flatMap frame) = jobs := by
  rw [jobsOf, deframe_flatMap_frame h]

/-- No job is open at the end of a stream of jobs. -/
theorem partOf_flatMap_frame {jobs : List (List α)}
    (h : ∀ job ∈ jobs, job ≠ []) :
    partOf (jobs.flatMap frame) = [] := by
  rw [partOf, deframe_flatMap_frame h]

/-- On a stream of jobs the open job is the beginning of the next one. The
number of complete jobs names it, and behind the last one the open job is
empty. -/
theorem partOf_isPrefix {jobs : List (List α)} (h : ∀ job ∈ jobs, job ≠ [])
    {xs : List (Flit α)}
    (hxs : xs <+: jobs.flatMap frame) :
    partOf xs <+: jobs.getD (jobsOf xs).length [] := by
  obtain ⟨ys, hys⟩ := hxs
  have hpart := partOf_isPrefix_append xs ys
  rw [hys, jobsOf_flatMap_frame h, partOf_flatMap_frame h] at hpart
  simp only [List.getD_eq_getElem?_getD] at hpart ⊢
  rcases Nat.lt_or_ge (jobsOf xs).length jobs.length with hlt | hge
  · rwa [List.getElem?_append_left hlt] at hpart
  · rw [List.getElem?_eq_none hge]
    rw [List.getElem?_append_right hge] at hpart
    cases hn : (jobsOf xs).length - jobs.length with
    | zero => rwa [hn] at hpart
    | succ n => rwa [hn] at hpart

/-- **An open job is the beginning of one of the jobs**, or empty. What is
bounded in every beginning of every job is therefore bounded at every moment. -/
theorem partOf_eq_nil_or_isPrefix {jobs : List (List α)}
    (h : ∀ job ∈ jobs, job ≠ []) {xs : List (Flit α)}
    (hxs : xs <+: jobs.flatMap frame) :
    partOf xs = [] ∨ ∃ job ∈ jobs, partOf xs <+: job := by
  have hpart := partOf_isPrefix h hxs
  rw [List.getD_eq_getElem?_getD] at hpart
  cases hjob : jobs[(jobsOf xs).length]? with
  | none =>
    rw [hjob] at hpart
    exact Or.inl (List.prefix_nil.mp hpart)
  | some job =>
    rw [hjob] at hpart
    exact Or.inr ⟨job, List.mem_of_getElem? hjob, hpart⟩

/-- **The element that comes next belongs to the job that is open**: it carries
the job on, and with `last` it is its final one.

This is the step lemma of a process that reads a stream of jobs. It names the
job by the number of the complete ones before it. -/
theorem exists_job_of_concat {jobs : List (List α)} (h : ∀ job ∈ jobs, job ≠ [])
    {xs : List (Flit α)} {x : Flit α} (hxs : xs ++ [x] <+: jobs.flatMap frame) :
    ∃ job, jobs[(jobsOf xs).length]? = some job ∧ partOf xs ++ [x.val] <+: job
      ∧ (x.last = true → partOf xs ++ [x.val] = job) := by
  cases hlast : x.last with
  | true =>
    have hjobs := jobsOf_isPrefix hxs
    rw [jobsOf_flatMap_frame h, jobsOf_concat, hlast, if_pos rfl] at hjobs
    refine ⟨partOf xs ++ [x.val], ?_, List.prefix_rfl, fun _ => rfl⟩
    obtain ⟨rest, hrest⟩ := hjobs
    rw [← hrest, List.append_assoc, List.getElem?_append_right le_rfl,
      Nat.sub_self]
    rfl
  | false =>
    have hpart := partOf_isPrefix h hxs
    rw [partOf_concat, jobsOf_concat, hlast, if_neg Bool.false_ne_true,
      if_neg Bool.false_ne_true, List.getD_eq_getElem?_getD] at hpart
    cases hjob : jobs[(jobsOf xs).length]? with
    | none =>
      rw [hjob] at hpart
      exact absurd (List.prefix_nil.mp hpart)
        (List.append_ne_nil_of_right_ne_nil _ (by simp))
    | some job =>
      rw [hjob] at hpart
      exact ⟨job, rfl, hpart, fun hx => absurd hx Bool.false_ne_true⟩

/-- Applying a function to the elements applies it to the jobs, the complete
ones and the open one alike. -/
theorem deframe_map (f : α → β) (xs : List (Flit α)) :
    deframe (xs.map (Flit.map f))
      = ((jobsOf xs).map (List.map f), (partOf xs).map f) := by
  induction xs using List.reverseRecOn with
  | nil => rfl
  | append_singleton xs x ih =>
    rw [List.map_append, List.map_singleton, deframe_concat, ih,
      deframeStep, jobsOf_concat,
      partOf_concat]
    cases hx : x.last <;> simp [hx]

/-- The complete jobs of a stream read through a function. -/
theorem jobsOf_map (f : α → β) (xs : List (Flit α)) :
    jobsOf (xs.map (Flit.map f)) = (jobsOf xs).map (List.map f) := by
  rw [jobsOf, deframe_map]

/-- The open job of a stream read through a function. -/
theorem partOf_map (f : α → β) (xs : List (Flit α)) :
    partOf (xs.map (Flit.map f)) = (partOf xs).map f := by
  rw [partOf, deframe_map]

/-- Framing commutes with applying a function, since the flag depends on the
position only. -/
theorem frame_map (f : α → β) (job : List α) :
    frame (job.map f) = (frame job).map (Flit.map f) := by
  rcases List.eq_nil_or_concat job with rfl | ⟨xs, x, rfl⟩
  · rfl
  · rw [List.concat_eq_append, List.map_append, List.map_singleton,
      frame_concat, frame_concat,
      List.map_append, List.map_map, List.map_map]
    rfl

/-! ## Blocks of one length -/

/-- **An element of a sequence of blocks of one length** is named by its block
and its offset there. A process with a counter for the offset can be followed
element by element in this way. -/
theorem getElem?_flatMap_block {B : ℕ} (hB : 0 < B)
    (block : α → List β) (jobs : List α)
    (h : ∀ job ∈ jobs, (block job).length = B) (k : ℕ) :
    (jobs.flatMap block)[k]?
      = jobs[k / B]?.bind (fun job => (block job)[k % B]?) := by
  induction jobs generalizing k with
  | nil => simp
  | cons job jobs ih =>
    have hlen := h job List.mem_cons_self
    rw [List.flatMap_cons]
    rcases Nat.lt_or_ge k B with hk | hk
    · rw [List.getElem?_append_left (by omega), Nat.div_eq_of_lt hk,
        Nat.mod_eq_of_lt hk]
      rfl
    · rw [List.getElem?_append_right (by omega), hlen,
        ih (fun j hj => h j (List.mem_cons_of_mem _ hj)),
          Nat.div_eq_sub_div hB hk,
        List.getElem?_cons_succ, Nat.mod_eq_sub_mod hk]

/-- The length of a sequence of blocks of one length is the number of blocks
times that length. -/
theorem length_flatMap_block {B : ℕ} (block : α → List β) (jobs : List α)
    (h : ∀ job ∈ jobs, (block job).length = B) :
    (jobs.flatMap block).length = jobs.length * B := by
  rw [List.length_flatMap, List.map_congr_left h,
    List.map_const', List.sum_replicate,
    smul_eq_mul]

/-- A prefix is read off entry by entry: it is enough that every entry the
shorter list has is there in the longer one. -/
theorem prefix_of_getElem? {l l' : List α}
    (h : ∀ (k : ℕ) (x : α), l[k]? = some x → l'[k]? = some x) :
    l <+: l' := by
  rw [List.prefix_iff_getElem?]
  intro k hk
  rw [h k l[k] (List.getElem?_eq_getElem hk)]

/-- An entry of a prefix is an entry of the whole. -/
theorem getElem?_of_isPrefix {l l' : List α} (h : l <+: l') {k : ℕ} {x : α}
    (hx : l[k]? = some x) : l'[k]? = some x := by
  obtain ⟨rest, rfl⟩ := h
  rw [List.getElem?_append_left (List.getElem?_eq_some_iff.mp hx).1, hx]

/-- Blocks of a longer list begin with the blocks of a shorter one. What was
written for the jobs seen so far stays the beginning of what will be written. -/
theorem flatMap_isPrefix {jobs jobs' : List α} (h : jobs <+: jobs')
    (block : α → List β) :
    jobs.flatMap block <+: jobs'.flatMap block := by
  obtain ⟨rest, rfl⟩ := h
  rw [List.flatMap_append]
  exact List.prefix_append _ _

end Streams
