import Skt.Software.Summary

/-!
# Sharding a file over threads

`sketch_fileclient` maps a file into memory, gives every thread the slice
between `i*isize/nthreads` and `(i+1)*isize/nthreads` to collect, and merges the
partial collectors into the first. The products are `size_t` products: they wrap
at `2 ^ 64`, and a slice computed from a wrapped product reaches outside the
mapping.

The threads write to collectors of their own and only read the mapping, so their
interleaving is of no consequence and the model runs them one after the other.

As long as the largest product fits, the slices make up the file, and what the
partial collectors hold adds up to what one collector holds that is given the
whole file. When it does not fit, some slice starts high and ends low. Its size,
a difference of `size_t`, is then nearly `2 ^ 64`, and the thread reads outside
the mapping: the run has no result. So the condition is exact.
-/

namespace Skt

open SktCollector

/-- The element `&idata[i*isize/nthreads]` a thread starts at. The product is
cut off at 64 bits before the division. -/
def shardStart (nthreads isize i : ℕ) : ℕ := i * isize % 2 ^ 64 / nthreads

/-- The `size` a thread is given, a difference of two `size_t`, which wraps
where the second is larger. -/
def shardSize (nthreads isize i : ℕ) : ℕ :=
  (shardStart nthreads isize (i + 1) + 2 ^ 64
    - shardStart nthreads isize i) % 2 ^ 64

/-- Reading `size` items from `start` on, defined inside the array only. A
thread that is given no items reads nothing and may start at the end. -/
def readItems (idata : List (BitVec 32)) (start size : ℕ) :
    Option (List (BitVec 32)) :=
  if start + size ≤ idata.length then some
    ((idata.drop start).take size) else none

/-- Merging a vector of collectors into its first. A vector without a first one
has no result, as `collectors.front()` is undefined on it. -/
def compact : List SktCollector → Option SktCollector
  | [] => none
  | master :: rest => rest.foldlM (fun m c => (m.merge0 c).toOption) master

/-- `main` of `sketch_fileclient`, up to the merged collector. It is undefined
where a thread reads outside the mapping, and there is no collector without
threads. The dimensions and the hash function are constants of the tool. -/
def sketchFileclient (nthreads : ℕ) (idata : List (BitVec 32)) :
    Option SktCollector := do
  let shards ← (List.range nthreads).mapM (fun i =>
    readItems idata (shardStart nthreads idata.length i)
      (shardSize nthreads idata.length i))
  compact (shards.map
    (fun data => (new 13 5 13 5 13 .murmur3_128).collect data))

/-- **The sharded run agrees with a single collector**: it is defined and ends
with the tables of one collector that was given the whole file. -/
def ShardedAgrees (nthreads : ℕ) (idata : List (BitVec 32)) : Prop :=
  ∃ c, sketchFileclient nthreads idata = some c
    ∧ c.toSktTables
      = ((new 13 5 13 5 13 .murmur3_128).collect idata).toSktTables

/-- Reading slices that are all there yields them all. -/
theorem mapM_eq_some_map {α β : Type} {f : α → Option β}
    {g : α → β} (l : List α)
    (h : ∀ x ∈ l, f x = some (g x)) : l.mapM f = some (l.map g) := by
  induction l with
  | nil => rfl
  | cons x l ih =>
    rw [List.mapM_cons, h x List.mem_cons_self,
      ih (fun y hy => h y (List.mem_cons_of_mem _ hy))]
    rfl

/-- One undefined read makes the whole undefined. -/
theorem mapM_eq_none {α β : Type} {f : α → Option β} {l : List α}
    {x : α} (hx : x ∈ l)
    (h : f x = none) : l.mapM f = none := by
  induction l with
  | nil => exact absurd hx List.not_mem_nil
  | cons y l ih =>
    rw [List.mapM_cons]
    rcases List.mem_cons.mp hx with rfl | hx
    · rw [h]
      rfl
    · rw [ih hx]
      cases f y <;> rfl

/-! ## Where the products fit

The largest product of all threads is that of the last end, the number of
threads times the number of items. -/

section Fits

variable {nthreads : ℕ} {idata : List (BitVec 32)}

/-- Without a wrap the starts are the floors of the products. -/
theorem shardStart_of_lt {n isize i : ℕ} (h : n * isize < 2 ^ 64) (hi : i ≤ n) :
    shardStart n isize i = i * isize / n := by
  unfold shardStart
  rw [Nat.mod_eq_of_lt (lt_of_le_of_lt (Nat.mul_le_mul_right _ hi) h)]

/-- Floors of the products grow with the index. -/
theorem div_mono (n isize i : ℕ) : i * isize / n ≤ (i + 1) * isize / n :=
  Nat.div_le_div_right (Nat.mul_le_mul_right _ (Nat.le_succ i))

/-- Floors of the products stay within the file, the last one being its
length. -/
theorem div_le_isize {n isize i : ℕ} (hn : 0 < n) (hi : i ≤ n) :
    i * isize / n ≤ isize := by
  calc i * isize / n ≤ n * isize / n :=
           Nat.div_le_div_right (Nat.mul_le_mul_right _ hi)
    _ = isize := Nat.mul_div_cancel_left _ hn

/-- Without a wrap the sizes are the differences of the floors, so the slices of
two neighbours meet. -/
theorem shardSize_of_lt {n isize i : ℕ} (h : n * isize < 2 ^ 64) (hi : i < n)
    (hisize : isize < 2 ^ 64) :
    shardSize n isize i = (i + 1) * isize / n - i * isize / n := by
  have h1 := div_mono n isize i
  have h2 : (i + 1) * isize / n ≤ isize :=
    div_le_isize (Nat.zero_lt_of_lt hi) hi
  unfold shardSize
  rw [shardStart_of_lt h hi.le, shardStart_of_lt h hi]
  rw [show (i + 1) * isize / n + 2 ^ 64 - i * isize / n
      = (i + 1) * isize / n - i * isize / n + 2 ^ 64 by
        omega, Nat.add_mod_right,
    Nat.mod_eq_of_lt (lt_of_le_of_lt ((Nat.sub_le _ _).trans h2) hisize)]

/-- The slice a thread collects, in terms of numbers that do not wrap. -/
def shard (n : ℕ) (idata : List (BitVec 32)) (i : ℕ) : List (BitVec 32) :=
  (idata.drop (i * idata.length / n)).take
    ((i + 1) * idata.length / n - i * idata.length / n)

/-- Without a wrap every thread reads its slice. -/
theorem readItems_shard (h : nthreads * idata.length < 2 ^ 64)
    (hlen : idata.length < 2 ^ 64) {i : ℕ} (hi : i < nthreads) :
    readItems idata (shardStart nthreads idata.length i)
      (shardSize nthreads idata.length i)
      = some (shard nthreads idata i) := by
  have h1 := div_mono nthreads idata.length i
  have h2 : (i + 1) * idata.length / nthreads ≤ idata.length :=
    div_le_isize (Nat.zero_lt_of_lt hi) hi
  unfold readItems
  rw [shardStart_of_lt h hi.le, shardSize_of_lt h hi hlen, if_pos (by omega)]
  rfl

/-- **The slices of the first `k` threads make up the file so far.** With all
threads this is the whole file, each item in one slice. -/
theorem flatten_shards (n : ℕ) (idata : List (BitVec 32)) (k : ℕ) :
    ((List.range k).map (shard n idata)).flatten
      = idata.take (k * idata.length / n) := by
  induction k with
  | zero => simp
  | succ k ih =>
    rw [List.range_succ, List.map_append, List.flatten_append,
      ih, List.map_singleton,
      List.flatten_singleton, shard, ← List.take_add,
      Nat.add_sub_cancel' (div_mono n idata.length k)]

/-- A fresh collector of the client is in range. -/
theorem inRange_client : (new 13 5 13 5 13 .murmur3_128).InRange :=
  ⟨by decide, by decide⟩

/-- **Merging partial collectors into a first one adds what they hold.** It is
the loop over the remaining collectors, with `Holds.merge0` for its step. -/
theorem compact_holds {c m : SktCollector} {D : Multiset (BitVec 32)}
    (hm : m.SameConfig c) (hD : m.Holds D)
    (rest : List (SktCollector × Multiset (BitVec 32)))
    (hrest : ∀ r ∈ rest, r.1.SameConfig c ∧ r.1.Holds r.2) :
    ∃ x, compact (m :: rest.map Prod.fst) = some x
      ∧ x.SameConfig c ∧ x.Holds (D + (rest.map Prod.snd).sum) := by
  show ∃ x, (rest.map Prod.fst).foldlM
    (fun m c => (m.merge0 c).toOption) m = some x ∧ _
  induction rest generalizing m D with
  | nil => exact ⟨m, rfl, hm, by simpa using hD⟩
  | cons r rest ih =>
    obtain ⟨hr, hr'⟩ := hrest r List.mem_cons_self
    obtain ⟨y, hy, hcfg, hhold⟩ := hD.merge0 hr' (hm.trans hr.symm)
    obtain ⟨x, hx, hx', hx''⟩ :=
      ih (hcfg.trans hm) hhold (fun q hq => hrest q (List.mem_cons_of_mem _ hq))
    refine ⟨x, ?_, hx', ?_⟩
    · rw [List.map_cons, List.foldlM_cons, hy]
      exact hx
    · rw [List.map_cons, List.sum_cons, ← add_assoc]
      exact hx''

/-- **Where no product wraps the sharded run agrees with a single collector.**
Both hold the items of the file. -/
theorem shardedAgrees_of_lt (hn : 0 < nthreads)
    (h : nthreads * idata.length < 2 ^ 64) :
    ShardedAgrees nthreads idata := by
  set c₀ := new 13 5 13 5 13 .murmur3_128 with hc₀
  have hlen : idata.length < 2 ^ 64 :=
    lt_of_le_of_lt (Nat.le_mul_of_pos_left _ hn) h
  have hholds : ∀ data : List (BitVec 32), (c₀.collect data).SameConfig c₀
      ∧ (c₀.collect data).Holds (data : Multiset (BitVec 32)) := by
    intro data
    refine ⟨⟨rfl, rfl, rfl, rfl, rfl, rfl⟩, ?_⟩
    have := (holds_new 13 5 13 5 13 .murmur3_128).collect inRange_client data
    rwa [zero_add] at this
  have hmapM : (List.range nthreads).mapM (fun i =>
      readItems idata (shardStart nthreads idata.length i)
        (shardSize nthreads idata.length i))
      = some ((List.range nthreads).map (shard nthreads idata)) :=
    mapM_eq_some_map _
      (fun i hi => readItems_shard h hlen (List.mem_range.mp hi))
  obtain ⟨n, rfl⟩ : ∃ n, nthreads = n + 1 := ⟨nthreads - 1, by omega⟩
  set shards := (List.range (n + 1)).map (shard (n + 1) idata) with hshards
  obtain ⟨s₀, rest, hcons⟩ : ∃ s₀ rest, shards = s₀ :: rest := by
    rw [hshards, List.range_succ_eq_map]
    exact ⟨_, _, rfl⟩
  obtain ⟨x, hx, hcfg, hhold⟩ := compact_holds (c := c₀)
    (hholds s₀).1 (hholds s₀).2
    (rest.map (fun data => (c₀.collect data, (data : Multiset (BitVec 32)))))
    (by
      intro r hr
      obtain ⟨data, -, rfl⟩ := List.mem_map.mp hr
      exact hholds data)
  refine ⟨x, ?_, ?_⟩
  · unfold sketchFileclient
    rw [hmapM, hcons]
    rw [List.map_map] at hx
    exact hx
  · -- together the slices are the file
    have hsum : (s₀ : Multiset (BitVec 32))
        + ((rest.map
          (fun data => (c₀.collect data, (data : Multiset (BitVec 32))))).map
          Prod.snd).sum = (idata : Multiset (BitVec 32)) := by
      have hflat : (s₀ :: rest).flatten = idata := by
        rw [← hcons, hshards, flatten_shards,
          Nat.mul_div_cancel_left _ (Nat.succ_pos n),
          List.take_length]
      rw [List.map_map]
      show ((s₀ : Multiset (BitVec 32))
        + (rest.map (fun data => Multiset.ofList data)).sum) = _
      rw [← hflat, List.flatten_cons, ← Multiset.coe_add,
        ← Multiset.coe_join, Multiset.join,
        Multiset.sum_coe]
    rw [hsum] at hhold
    exact hhold.tables_eq (hholds idata).2 (hcfg.trans (hholds idata).1.symm)

end Fits

/-! ## Where a product wraps -/

/-- **Where a product wraps some thread reads outside the mapping**: the slice
that crosses the wrap starts high and ends low, so its size is close to `2 ^
64`. -/
theorem sketchFileclient_of_ge {nthreads : ℕ} {idata : List (BitVec 32)}
    (hn : nthreads < 2 ^ 32) (hlen : idata.length < 2 ^ 62)
    (h : 2 ^ 64 ≤ nthreads * idata.length) :
    sketchFileclient nthreads idata = none := by
  set L := idata.length with hL
  have hpos : 0 < L := Nat.pos_of_ne_zero (fun h0 => by rw [h0] at h; omega)
  have hnpos : 0 < nthreads :=
    Nat.pos_of_ne_zero (fun h0 => by rw [h0] at h; omega)
  -- the last index whose product still fits
  set i := (2 ^ 64 - 1) / L with hi
  have hile : i * L < 2 ^ 64 := by
    have := Nat.div_mul_le_self (2 ^ 64 - 1) L
    rw [← hi] at this
    omega
  have hinext : 2 ^ 64 ≤ (i + 1) * L := by
    have := Nat.lt_div_mul_add hpos (a := 2 ^ 64 - 1)
    rw [← hi] at this
    rw [Nat.succ_mul]
    omega
  have hin : i < nthreads := by
    by_contra hge
    have := Nat.mul_le_mul_right L (Nat.le_of_not_lt hge)
    omega
  have hstart : shardStart nthreads L i = i * L / nthreads := by
    rw [shardStart, Nat.mod_eq_of_lt hile]
  have hend : shardStart nthreads L (i + 1)
    = ((i + 1) * L - 2 ^ 64) / nthreads := by
    rw [Nat.succ_mul] at hinext
    rw [shardStart, Nat.succ_mul, Nat.mod_eq_sub_mod hinext,
      Nat.mod_eq_of_lt (by omega)]
  have hlow : ((i + 1) * L - 2 ^ 64) / nthreads < i * L / nthreads := by
    rw [Nat.succ_mul] at hinext ⊢
    have hgap : (i * L + L - 2 ^ 64) / nthreads + 1 ≤ i * L / nthreads := by
      rw [← Nat.add_div_right _ hnpos]
      exact Nat.div_le_div_right (by omega)
    exact hgap
  refine (congrArg (fun r => r >>= _)
    (mapM_eq_none (List.mem_range.mpr hin) ?_)).trans rfl
  have hstart_lt : i * L / nthreads < 2 ^ 64 :=
    lt_of_le_of_lt (Nat.div_le_self _ _) hile
  have hsize : shardSize nthreads L i
      = ((i + 1) * L - 2 ^ 64) / nthreads + 2 ^ 64 - i * L / nthreads := by
    rw [shardSize, hstart, hend, Nat.mod_eq_of_lt (by omega)]
  unfold readItems
  rw [hstart, hsize, if_neg (by omega)]

/-- **The sharded run agrees with a single collector exactly where the product
of the thread count and the item count fits a `size_t`.**

The two hypotheses about the sizes are those of the types: `nthreads` is an
`unsigned`, and a file of `2 ^ 62` items would have more bytes than a `size_t`
counts. -/
theorem shardedAgrees_iff {nthreads : ℕ} {idata : List (BitVec 32)}
    (hpos : 0 < nthreads) (hn : nthreads < 2 ^ 32)
    (hlen : idata.length < 2 ^ 62) :
    ShardedAgrees nthreads idata ↔ nthreads * idata.length < 2 ^ 64 := by
  refine ⟨fun ⟨c, hc, _⟩ => ?_, shardedAgrees_of_lt hpos⟩
  by_contra h
  rw [sketchFileclient_of_ge hn hlen (by omega)] at hc
  exact absurd hc (by simp)

/-! ## Sketch semantics over whole runs

Both parts of the software are put together here: the collectors of a program
that calls their methods in any order, and the tool that shards a file. -/

/-- **Software sketch semantics, over whole runs and over the sharded run.** A
family of collectors of one configuration never throws and holds, entry by
entry, the sketches of what each has absorbed since it was last clean, after any
sequence of operations; together with the agreement of the sharded run this is
the case exactly where the product of thread count and item count fits a
`size_t`. The ranges of `nthreads` and of the item count are those of their
types, `unsigned` and a quarter of `size_t`.

Counters are read modulo `2 ^ 32`, in the AGMS table as well, where `merge` adds
`signed` entries: the compiled addition of two `int`s wraps. The registers are
exact. -/
theorem software_sketch_semantics {ι : Type} [DecidableEq ι] (h : HashE)
    {hp ar ap cr cp : ℕ} (hhp : hp ≤ 16) (hap : 0 < ap) (ops : List (Op ι))
    {nthreads : ℕ} {idata : List (BitVec 32)} (hpos : 0 < nthreads)
    (hn : nthreads < 2 ^ 32) (hlen : idata.length < 2 ^ 62) :
    ((∃ s, runOps ops (fun _ => new hp ar ap cr cp h) = .ok s ∧
        ∀ i, (s i).Summarizes (hash h) hp ar ap cr cp
        (absorbed ops (fun _ => 0) i))
      ∧ ShardedAgrees nthreads idata)
    ↔ nthreads * idata.length < 2 ^ 64 := by
  have hrange : (new hp ar ap cr cp h).InRange := ⟨hhp, hap⟩
  have hruns : ∃ s, runOps ops (fun _ => new hp ar ap cr cp h) = .ok s ∧
      ∀ i, (s i).Summarizes (hash h) hp ar ap cr cp
        (absorbed ops (fun _ => 0) i) := by
    obtain ⟨s, hs, hall⟩ := runOps_holds hrange ops
      (s := fun _ : ι => new hp ar ap cr cp h)
      (D := fun _ => 0)
        (fun i => ⟨⟨rfl, rfl, rfl, rfl, rfl, rfl⟩, holds_new hp ar ap cr cp h⟩)
    refine ⟨s, hs, fun i => ?_⟩
    obtain ⟨⟨h1, h2, h3, h4, h5, h6⟩, hhold⟩ := hall i
    unfold SktCollector.Holds at hhold
    rw [h1, h2, h3, h4, h5, h6] at hhold
    exact hhold
  exact ⟨fun hall => (shardedAgrees_iff hpos hn hlen).mp hall.2,
    fun hfit => ⟨hruns, (shardedAgrees_iff hpos hn hlen).mpr hfit⟩⟩

/-- The semantics of a run that collects, merges a collector into another and
into itself, and cleans, next to a file of three items read by two threads. -/
theorem software_sketch_semantics_instance :
    ((∃ s, runOps [Op.collect 0 [5#32, 7#32], .merge 1 0,
      .merge 1 1, .clean (0 : Fin 2)]
          (fun _ => new 16 6 13 6 13 .murmur3_64) = .ok s ∧
        ∀ i, (s i).Summarizes (hash .murmur3_64) 16 6 13 6 13
          (absorbed [Op.collect 0 [5#32, 7#32], .merge 1 0,
            .merge 1 1, .clean (0 : Fin 2)]
            (fun _ => 0) i))
      ∧ ShardedAgrees 2 [1#32, 2#32, 3#32])
    ↔ 2 * [1#32, 2#32, 3#32].length < 2 ^ 64 :=
  software_sketch_semantics .murmur3_64 (by decide) (by decide) _
    (by decide) (by decide)
    (by decide)

/-- **A file of `2 ^ 44` items read by `2 ^ 20` threads**: the last product is
`2 ^ 64`, the last slice is computed from its wrap, and the run is undefined. -/
theorem not_shardedAgrees_wrap :
    ¬ ShardedAgrees (2 ^ 20) (List.replicate (2 ^ 44) 0#32) := by
  intro h
  rw [shardedAgrees_iff (by norm_num) (by norm_num)
    (by rw [List.length_replicate]; norm_num),
    List.length_replicate] at h
  norm_num at h

end Skt
