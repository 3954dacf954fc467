import Skt.Lib.Framing
import Skt.Lib.Tally

/-!
# Tallies of the jobs on a stream

The elements of a stream carry a key and a value, and the jobs on it are tallied
one by one: for each key, the combination of the values of that key. There need
not be any, so the combination is optional, and the operation only has to be
associative and commutative.

A stream may then be shortened without changing the tallies of its jobs: an
element may be combined into an earlier one of its key, as long as no job ends
between the two, at the earlier one or at the element itself
(`tallies_combine`). This is the licence under which a process may hold back
some elements and merge later ones into them. Where it merges across the end of
a job, the tallies of two jobs change.
-/

namespace Streams

open Tally

variable {K V : Type*} [DecidableEq K] (f : V → V → V)
    [Std.Commutative f] [Std.Associative f]

/-- **The tally of a job**: for each key, the combination of its values.

A key that does not occur has no combination, which is why the result is
optional and no neutral element is asked for. -/
def jobTally (job : List (K × V)) (k : K) : Option V :=
  tally (Option.merge f) none Prod.fst (fun x => some x.2)
    (job : Multiset (K × V)) k

/-- The tallies of the complete jobs of a stream, and that of the elements
behind them. Two streams with the same tallies serve a reader that combines by
key equally well. -/
def tallies (xs : List (Flit (K × V))) : List (K → Option V) × (K → Option V) :=
  ((jobsOf xs).map (jobTally f), jobTally f (partOf xs))

/-- A job in two parts is tallied part by part. -/
theorem jobTally_append (xs ys : List (K × V)) (k : K) :
    jobTally f (xs ++ ys) k
      = Option.merge f (jobTally f xs k) (jobTally f ys k) := by
  unfold jobTally
  rw [← Multiset.coe_add]
  exact tally_add _ _ _ _ _ _ _

/-- A single element is tallied at its own key, and every other key has
nothing. -/
theorem jobTally_singleton (x : K × V) (k : K) :
    jobTally f [x] k = if x.1 = k then some x.2 else none :=
  tally_singleton _ _ _ _ _ _

/-- Only an empty job has an empty tally, since every element shows at its
key. -/
theorem eq_nil_of_jobTally {job : List (K × V)}
    (h : jobTally f job = jobTally f []) :
    job = [] := by
  cases job with
  | nil => rfl
  | cons x job =>
    have hx := congrFun h x.1
    rw [show x :: job = [x] ++ job from rfl, jobTally_append,
      jobTally_singleton, if_pos rfl] at hx
    exact absurd (Option.merge_eq_none_iff.mp hx).1 (Option.some_ne_none _)

/-- **Two elements of one key may be combined.** The order of the two plays no
role, the operation being commutative. -/
theorem jobTally_pair {x y : K × V} (h : x.1 = y.1) :
    jobTally f [y, x] = jobTally f [(y.1, f y.2 x.2)] := by
  funext k
  rw [show [y, x] = [y] ++ [x] from rfl, jobTally_append,
    jobTally_singleton, jobTally_singleton,
    jobTally_singleton, h]
  by_cases hk : y.1 = k
  · rw [if_pos hk, if_pos hk, if_pos hk]
    rfl
  · rw [if_neg hk, if_neg hk, if_neg hk]
    rfl

/-- The element may also be some way behind the one it is combined into,
whatever the keys in between. -/
theorem jobTally_combine {x y : K × V} (h : x.1 = y.1) (xs ys : List (K × V)) :
    jobTally f (xs ++ y :: ys ++ [x])
      = jobTally f (xs ++ (y.1, f y.2 x.2) :: ys) := by
  have hperm : (xs ++ y :: ys ++ [x]).Perm (xs ++ ([y, x] ++ ys)) := by
    rw [List.append_assoc]
    exact (List.perm_append_comm.cons y).append_left xs
  have hcoe : jobTally f (xs ++ y :: ys ++ [x])
    = jobTally f (xs ++ ([y, x] ++ ys)) := by
    unfold jobTally
    rw [Multiset.coe_eq_coe.mpr hperm]
  rw [hcoe]
  funext k
  rw [jobTally_append, jobTally_append, jobTally_pair f h,
    ← jobTally_append, ← jobTally_append]
  rfl

/-- **Streams of equal tallies stay so** when they go on with the same elements.
With it a step that shortens a stream need only be looked at where it
happens. -/
theorem tallies_append {xs ys : List (Flit (K × V))}
    (h : tallies f xs = tallies f ys)
    (zs : List (Flit (K × V))) :
    tallies f (xs ++ zs) = tallies f (ys ++ zs) := by
  induction zs using List.reverseRecOn with
  | nil => rwa [List.append_nil, List.append_nil]
  | append_singleton zs z ih =>
    obtain ⟨hjobs, hpart⟩ := Prod.ext_iff.mp ih
    replace hjobs : (jobsOf (xs ++ zs)).map (jobTally f)
      = (jobsOf (ys ++ zs)).map (jobTally f) :=
      hjobs
    replace hpart : jobTally f (partOf (xs ++ zs))
      = jobTally f (partOf (ys ++ zs)) := hpart
    have hopen : jobTally f (partOf (xs ++ zs) ++ [z.val])
        = jobTally f (partOf (ys ++ zs) ++ [z.val]) := by
      funext k
      rw [jobTally_append, jobTally_append, hpart]
    unfold tallies
    rw [← List.append_assoc, ← List.append_assoc, jobsOf_concat,
      partOf_concat, jobsOf_concat,
      partOf_concat]
    cases z.last with
    | true =>
      refine Prod.ext ?_ rfl
      show List.map _ (_ ++ [_]) = List.map _ (_ ++ [_])
      rw [List.map_append, List.map_append, List.map_singleton,
        List.map_singleton, hjobs, hopen]
    | false => exact Prod.ext hjobs hopen

/-- **An element may be combined into an earlier one of its key** and job.

The three hypotheses about `last` are what keeps it inside the job: neither of
the two elements ends one, nor does anything between them. -/
theorem tallies_combine {x y : Flit (K × V)} (h : x.val.1 = y.val.1)
    (hx : x.last = false) (hy : y.last = false) {ys : List (Flit (K × V))}
    (hys : ∀ z ∈ ys, z.last = false) (xs : List (Flit (K × V))) :
    tallies f (xs ++ y :: ys ++ [x])
      = tallies f (xs ++ ⟨y.last, y.val.1, f y.val.2 x.val.2⟩ :: ys) := by
  have hbefore : ∀ z ∈ y :: ys ++ [x], z.last = false := fun z hz => by
    rcases List.mem_append.mp hz with hz | hz
    · rcases List.mem_cons.mp hz with rfl | hz
      · exact hy
      · exact hys z hz
    · rwa [List.mem_singleton.mp hz]
  have hafter : ∀ z
    ∈ (⟨y.last, y.val.1, f y.val.2 x.val.2⟩ : Flit (K × V)) :: ys,
      z.last = false := fun z hz => by
    rcases List.mem_cons.mp hz with rfl | hz
    · exact hy
    · exact hys z hz
  have hopen := deframe_append_of_not_last xs hbefore
  have hclosed := deframe_append_of_not_last xs hafter
  unfold tallies jobsOf partOf
  rw [List.append_assoc, hopen, hclosed]
  refine Prod.ext rfl ?_
  show jobTally f (partOf xs ++ (y :: ys ++ [x]).map Flit.val) = _
  rw [List.map_append, List.map_cons, List.map_singleton, ← List.append_assoc]
  exact jobTally_combine f h _ _

end Streams
