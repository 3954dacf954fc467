import Mathlib

/-!
# Keyed tallies

A **tally** sorts the elements of a collection by a key and combines, key by
key, what each element contributes. Counting occurrences, adding signed weights
and keeping maxima are all tallies: they differ in the operation that combines
two contributions, which has to be associative and commutative and to have the
neutral element the table starts from.

A tally is a function of a *multiset*. That is the whole point: it may be built
in any order, and a collection may be cut into parts, tallied part by part and
combined afterwards (`tally_add`, `foldl_tally_lanes`). A program that shards
its data over threads, or a circuit that deals it to lanes, is described by the
same function as one that works through it alone.
-/

namespace Tally

variable {X K V : Type*} [DecidableEq K]

section Commutative

variable (op : V → V → V) [Std.Commutative op] [Std.Associative op]
variable (e : V) [Std.LawfulIdentity op e]

/-- **The tally of a multiset**: at each key, the combination of what the
elements of that key contribute.

The three parameters are the operation with its neutral element, the key, which
is where an element is entered, and its contribution there. -/
def tally (key : X → K) (inc : X → V) (D : Multiset X) (k : K) : V :=
  ((D.filter (fun x => key x = k)).map inc).fold op e

variable (key : X → K) (inc : X → V)

omit [Std.LawfulIdentity op e] in
/-- Nothing is tallied from nothing: the table is as it was cleared. -/
@[simp] theorem tally_zero (k : K) : tally op e key inc 0 k = e := rfl

/-- **A tally of two parts is the combination of the tallies.** Where the parts
were cut plays no role, since a multiset has no order. -/
theorem tally_add (D E : Multiset X) (k : K) :
    tally op e key inc (D + E) k
      = op (tally op e key inc D k) (tally op e key inc E k) := by
  have h : op e e = e := Std.LawfulRightIdentity.right_id e
  unfold tally
  rw [Multiset.filter_add, Multiset.map_add]
  conv_lhs => rw [← h]
  exact Multiset.fold_add op e e _ _

/-- A single element is tallied at its own key and leaves the other keys
neutral. -/
theorem tally_singleton (x : X) (k : K) :
    tally op e key inc {x} k = if key x = k then inc x else e := by
  have hid : op (inc x) e = inc x := Std.LawfulRightIdentity.right_id _
  unfold tally
  rw [Multiset.filter_singleton]
  split
  · rw [Multiset.map_singleton, Multiset.fold_singleton, hid]
  · rfl

/-- One more element adds its contribution at its own key, which is one turn of
the loop that builds a table. -/
theorem tally_add_singleton (D : Multiset X) (x : X) (k : K) :
    tally op e key inc (D + {x}) k
      = if key x = k then op (tally op e key inc D k) (inc x)
        else tally op e key inc D k := by
  have he : op (tally op e key inc D k) e = tally op e key inc D k :=
    Std.LawfulRightIdentity.right_id _
  rw [tally_add, tally_singleton]
  by_cases hk : key x = k
  · rw [if_pos hk, if_pos hk]
  · rw [if_neg hk, if_neg hk, he]

/-- **Parts tallied apart are combined afterwards**: tallying each part of a
list of parts and combining the tallies is tallying everything. -/
theorem foldl_tally_parts (Ds : List (Multiset X)) (k : K) :
    Ds.foldl (fun acc D => op acc (tally op e key inc D k)) e
      = tally op e key inc Ds.sum k := by
  induction Ds using List.reverseRecOn with
  | nil => rfl
  | append_singleton Ds D ih =>
    rw [List.foldl_append, ih, List.sum_append, List.sum_singleton, tally_add]
    rfl

/-- The same over a finite family of parts, in the order of its index. The
family is how a circuit with a fixed number of lanes, or a pool of threads, sees
its data. -/
theorem foldl_tally_lanes {n : ℕ} (D : Fin n → Multiset X) (k : K) :
    (List.finRange n).foldl (fun acc i => op acc (tally op e key inc (D i) k)) e
      = tally op e key inc (∑ i, D i) k := by
  have h := foldl_tally_parts op e key inc ((List.finRange n).map D) k
  rw [List.foldl_map] at h
  rw [h, ← List.ofFn_eq_map, List.sum_ofFn]

omit [Std.LawfulIdentity op e] in
/-- **A homomorphism of contributions is one of tallies.** Reading a wide sum
modulo a power of two is one, so a table of machine integers can be specified by
exact ones. -/
theorem tally_hom {V' : Type*} {op' : V' → V' → V'} [Std.Commutative op']
    [Std.Associative op'] (e' : V') (m : V → V') (he : m e = e')
    (hop : ∀ a b, m (op a b) = op' (m a) (m b)) (D : Multiset X) (k : K) :
    m (tally op e key inc D k) = tally op' e' key (fun x => m (inc x)) D k := by
  have h := Multiset.fold_hom op hop e ((D.filter (fun x => key x = k)).map inc)
  rw [he, Multiset.map_map] at h
  exact h.symm

omit [Std.LawfulIdentity op e] in
/-- Elements may be renamed before they are tallied, for instance replaced by
their hashes. -/
theorem tally_map {Y : Type*} (f : Y → X) (D : Multiset Y) (k : K) :
    tally op e key inc (D.map f) k
      = tally op e (fun y => key (f y)) (fun y => inc (f y)) D k := by
  unfold tally
  rw [Multiset.filter_map, Multiset.map_map]
  rfl

omit [Std.LawfulIdentity op e] in
/-- A tally only sees which elements have the key, and what they contribute. The
two keys may be of different types, a number here and a word there. -/
theorem tally_congr {K' : Type*} [DecidableEq K'] {key : X → K}
    {key' : X → K'} {inc inc' : X → V} {k : K} {k' : K'}
    (hkey : ∀ x, key x = k ↔ key' x = k') (hinc : ∀ x, inc x = inc' x)
    (D : Multiset X) : tally op e key inc D k = tally op e key' inc' D k' := by
  unfold tally
  rw [Multiset.filter_congr (fun x _ => hkey x),
    Multiset.map_congr rfl (fun x _ => hinc x)]

end Commutative

/-! ## The tallies with a closed form

Counting and adding are the tallies of addition; these lemmas write them the way
a specification does. -/

/-- Adding is the sum of what has the key. -/
theorem tally_add_eq_sum {A : Type*} [AddCommMonoid A]
    (key : X → K) (inc : X → A) (D : Multiset X) (k : K) :
    tally (fun a b : A => a + b) 0 key inc D k
      = ((D.filter (fun x => key x = k)).map inc).sum := by
  rw [Multiset.sum_eq_foldr]
  exact Multiset.fold_eq_foldr _ _ _

/-- Adding one for every element counts what has the key. -/
theorem tally_one_eq_card (key : X → K) (D : Multiset X) (k : K) :
    tally (fun a b : ℕ => a + b) 0 key (fun _ => 1) D k
      = (D.filter (fun x => key x = k)).card := by
  rw [tally_add_eq_sum]
  simp

/-- **Every element has one key**: what is counted over all keys is everything.
A row of counters thus adds up to the number of elements. -/
theorem sum_card_filter {n : ℕ} {key : X → ℕ}
    (hkey : ∀ x, key x < n) (D : Multiset X) :
    ∑ k ∈ Finset.range n, (D.filter (fun x => key x = k)).card = D.card := by
  have hcount : ∀ k, (D.filter (fun x => key x = k)).card
    = (D.map key).count k := fun k => by
    rw [Multiset.count_map]
    exact congrArg Multiset.card (Multiset.filter_congr (fun x _ => eq_comm))
  rw [Finset.sum_congr rfl (fun k _ => hcount k),
    Multiset.sum_count_eq_card, Multiset.card_map]
  intro k hk
  obtain ⟨x, -, rfl⟩ := Multiset.mem_map.mp hk
  exact Finset.mem_range.mpr (hkey x)

end Tally
