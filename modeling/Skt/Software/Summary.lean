import Skt.Software.Collector

/-!
# What a software collector holds

`Summarizes` says that three tables are the sketches of a multiset of items,
entry by entry: it is the relation between the collector of the source and the
abstract sketches of `Skt.Sketch`. Collecting, merging and cleaning carry it
along, so it holds in every state a family of collectors can reach
(`runOps_holds`), whatever the order of the operations.

The relation is exact for the registers and modulo `2 ^ 32` for the counters, as
their words are. In particular a merge of two counters adds words, and what it
says about the merged one is again a statement modulo `2 ^ 32`.

Since a table is determined by what it summarizes (`Holds.eq`), two collectors
that were given the same items in whatever way are equal, which is how the tools
built on collectors are compared later on.
-/

namespace Skt

open Bits Table Tally

/-! ## Entries as sketch values

The two updates of a register, by a rank and by another register, are both a
comparison in front of an assignment in the source. -/

/-- Raising a register to a rank takes the maximum, as long as both fit. The
comparison of the source is with the rank less one. -/
theorem raise_ofNat {r v : ℕ} (hr : 1 ≤ r)
    (hr' : r < 2 ^ 32) (hv : v < 2 ^ 32) :
    (if BitVec.ofNat 32 v ≤ BitVec.ofNat 32 (r - 1) then BitVec.ofNat 32 r
      else BitVec.ofNat 32 v) = BitVec.ofNat 32 (max v r) := by
  have hle : BitVec.ofNat 32 v ≤ BitVec.ofNat 32 (r - 1) ↔ v < r := by
    rw [BitVec.le_def, BitVec.toNat_ofNat, BitVec.toNat_ofNat,
      Nat.mod_eq_of_lt hv,
      Nat.mod_eq_of_lt (by omega)]
    omega
  by_cases h : v < r
  · rw [if_pos (hle.mpr h), max_eq_right h.le]
  · rw [if_neg (mt hle.mp h), max_eq_left (by omega)]

/-- Joining two registers takes the maximum, with a strict comparison this
time. -/
theorem join_ofNat {a b : ℕ} (ha : a < 2 ^ 32) (hb : b < 2 ^ 32) :
    (if BitVec.ofNat 32 a < BitVec.ofNat 32 b then BitVec.ofNat 32 b
      else BitVec.ofNat 32 a) = BitVec.ofNat 32 (max a b) := by
  have hlt : BitVec.ofNat 32 a < BitVec.ofNat 32 b ↔ a < b := by
    rw [BitVec.lt_def, BitVec.toNat_ofNat, BitVec.toNat_ofNat,
      Nat.mod_eq_of_lt ha,
      Nat.mod_eq_of_lt hb]
  by_cases h : a < b
  · rw [if_pos (hlt.mpr h), max_eq_right h.le]
  · rw [if_neg (mt hlt.mp h), max_eq_left (by omega)]

/-- **Three tables summarize a multiset of items** when every entry is the value
of the corresponding sketch: the HyperLogLog register, the Fast-AGMS counter and
the Count-Min counter, the latter two modulo `2 ^ 32`.

An entry is named by its row and its offset in the row. That it is there at all
is part of the statement. -/
structure SktTables.Summarizes {W : ℕ} (hash : BitVec 32 → BitVec W)
    (hp ar ap cr cp : ℕ) (t : SktTables) (D : Multiset (BitVec 32)) : Prop where
  /-- The registers are those of the sketch. -/
  hll : ∀ b, b < 2 ^ hp → t.bucketsHll[b]?
    = some (BitVec.ofNat 32 (Sketch.hll hp hash D b))
  /-- The signed counters are those of the sketch, modulo `2 ^ 32`. -/
  agms : ∀ j k, j < ar → k < 2 ^ ap →
    t.tableAgms[j * 2 ^ ap + k]?
      = some (BitVec.ofInt 32 (Sketch.agms ap hash D j k))
  /-- So are the counters of the Count-Min table. -/
  cm : ∀ j k, j < cr → k < 2 ^ cp →
    t.tableCm[j * 2 ^ cp + k]?
      = some (BitVec.ofNat 32 (Sketch.cm cp hash D j k))

section Collect

variable {W : ℕ} (hash : BitVec 32 → BitVec W) {hp ar ap cr cp : ℕ}

/-- Registers fit an `unsigned`, being at most 129. -/
theorem hll_lt_word (hW : W ≤ 128) (p : ℕ) (D : Multiset (BitVec 32)) (b : ℕ) :
    Sketch.hll p hash D b < 2 ^ 32 :=
  lt_of_le_of_lt (Sketch.hll_le p hash D b) (by omega)

/-- The registers after one more item: that of its bucket is raised to its
rank. -/
theorem hll_add_singleton (p : ℕ) (D : Multiset (BitVec 32))
    (x : BitVec 32) (b : ℕ) :
    Sketch.hll p hash (D + {x}) b
      = if Sketch.hllBucket p (hash x) = b
        then max (Sketch.hll p hash D b) (Sketch.hllRank p (hash x))
        else Sketch.hll p hash D b := by
  simp only [Sketch.hll_eq_tally]
  exact tally_add_singleton max 0 _ _ D x b

/-- The AGMS counters after one more item: that of its bucket moves by its
sign. -/
theorem agms_add_singleton (p : ℕ) (D : Multiset (BitVec 32))
    (x : BitVec 32) (j k : ℕ) :
    Sketch.agms p hash (D + {x}) j k
      = if Sketch.agmsKey p j (hash x) = k
        then Sketch.agms p hash D j k + Sketch.agmsSign p j (hash x)
        else Sketch.agms p hash D j k := by
  simp only [Sketch.agms_eq_tally]
  exact tally_add_singleton (fun a b : ℤ => a + b) 0 _ _ D x k

/-- The Count-Min counters after one more item: that of its bucket goes up. -/
theorem cm_add_singleton (q : ℕ) (D : Multiset (BitVec 32))
    (x : BitVec 32) (j k : ℕ) :
    Sketch.cm q hash (D + {x}) j k
      = if Sketch.cmKey q j (hash x) = k then Sketch.cm q hash D j k + 1
        else Sketch.cm q hash D j k := by
  simp only [Sketch.cm_eq_tally]
  exact tally_add_singleton (fun a b : ℕ => a + b) 0 _ _ D x k

/-- **One turn of the collection loop absorbs its item.** This is the step lemma
of the loop, and the only place where the three updates of the source are
compared with the three sketches. -/
theorem collectItem_summarizes [ClzNz W] (h32 : 32 ≤ W)
    (h128 : W ≤ 128) (hhp : hp ≤ W) (hap : 0 < ap) {t : SktTables}
    {D : Multiset (BitVec 32)} (ht : t.Summarizes hash hp ar ap cr cp D)
    (x : BitVec 32) :
    (collectItem hash hp ar ap cr cp t x).Summarizes hash hp ar ap cr cp
      (D + {x}) where
  hll b hb := by
    have hrank : Sketch.hllRank hp (hash x) < 2 ^ 32 :=
      lt_of_le_of_lt (Sketch.hllRank_le hp (hash x)) (by omega)
    show (hllUpdate hp (hash x) t.bucketsHll)[b]? = _
    rw [hllUpdate_eq hp hhp (by omega), List.getElem?_modify,
      ht.hll b hb, hll_add_singleton,
      Option.map_eq_map, Option.map_some]
    split
    · rw [raise_ofNat (Sketch.one_le_hllRank _ _) hrank
        (hll_lt_word hash h128 _ _ _)]
    · rfl
  agms j k hj hk := by
    show ((agmsTurn ap)^[ar] (hash x, 0, t.tableAgms)).2.2[j * 2 ^ ap + k]? = _
    rw [agmsTurn_iterate ap hap h32]
    show (rowUpdates _ _ _ ar t.tableAgms)[j * 2 ^ ap + k]? = _
    rw [getElem?_rowUpdates _ _ _
      (fun j => Sketch.agmsKey_lt ap j (hash x)) _ _ _ _ hk,
      ht.agms j k hj hk, agms_add_singleton, Option.map_some]
    split
    · next h => rw [if_pos h.2, BitVec.ofInt_add]
    · next h => rw [if_neg (fun h' => h ⟨hj, h'⟩)]
  cm j k hj hk := by
    show ((cmTurn cp)^[cr] (hash x, 0, t.tableCm)).2.2[j * 2 ^ cp + k]? = _
    rw [cmTurn_iterate]
    show (rowUpdates _ _ _ cr t.tableCm)[j * 2 ^ cp + k]? = _
    rw [getElem?_rowUpdates _ _ _
      (fun j => Sketch.cmKey_lt cp j (hash x)) _ _ _ _ hk,
      ht.cm j k hj hk, cm_add_singleton, Option.map_some]
    split
    · next h => rw [if_pos h.2, BitVec.ofNat_add]
    · next h => rw [if_neg (fun h' => h ⟨hj, h'⟩)]

/-- **The collection loop absorbs its data**, by induction on the items that are
left. The tables need not be fresh. -/
theorem sktCollectBase_summarizes [ClzNz W] (h32 : 32 ≤ W)
    (h128 : W ≤ 128) (hhp : hp ≤ W) (hap : 0 < ap) (data : List (BitVec 32))
    {t : SktTables} {D : Multiset (BitVec 32)}
    (ht : t.Summarizes hash hp ar ap cr cp D) :
    (sktCollectBase hash data t hp ar ap cr cp).Summarizes hash hp ar ap cr cp
      (D + (data : Multiset (BitVec 32))) := by
  unfold sktCollectBase
  induction data generalizing t D with
  | nil => simpa using ht
  | cons x data ih =>
    have h := ih (collectItem_summarizes hash h32 h128 hhp hap ht x)
    rw [add_assoc, Multiset.singleton_add, Multiset.cons_coe] at h
    exact h

end Collect

/-! ## The collector -/

namespace SktCollector

/-- **A collector holds a multiset of items**: its tables summarize it, at the
collector's own dimensions and hash function. -/
def Holds (c : SktCollector) (D : Multiset (BitVec 32)) : Prop :=
  c.Summarizes (hash c.dispatch) c.pHll c.rAgms c.pAgms c.rCm c.pCm D

/-- The range of dimensions the sketches are used with. The tools check these
two bounds before they build a collector, or build it with constants inside
them.

The check accepts a HyperLogLog precision of zero, for which the source shifts
the hash word by its full width (`collect_safe_iff`). `collect` reads such a
shift as one that leaves nothing, so that all items are in the one bucket there
is; on a processor that reduces the amount it would leave the word as it is. -/
structure InRange (c : SktCollector) : Prop where
  pHll_le : c.pHll ≤ 16
  pAgms_pos : 0 < c.pAgms

/-- Two collectors of one configuration. The dispatch entry is part of it,
although `merge0` does not compare it. -/
structure SameConfig (a b : SktCollector) : Prop where
  pHll : a.pHll = b.pHll
  rAgms : a.rAgms = b.rAgms
  pAgms : a.pAgms = b.pAgms
  rCm : a.rCm = b.rCm
  pCm : a.pCm = b.pCm
  dispatch : a.dispatch = b.dispatch

/-- A position named by row and offset lies in the table. -/
theorem row_position_lt {j k r s : ℕ} (hj : j < r) (hk : k < s) :
    j * s + k < s * r := by
  calc j * s + k < j * s + s := Nat.add_lt_add_left hk _
    _ = (j + 1) * s := (Nat.succ_mul j s).symm
    _ ≤ r * s := Nat.mul_le_mul_right s hj
    _ = s * r := Nat.mul_comm r s

/-- A fresh collector holds nothing, whatever its dimensions. -/
theorem holds_new (hp ar ap cr cp : ℕ) (h : HashE) :
    (new hp ar ap cr cp h).Holds 0 where
  hll b hb := by
    show (List.replicate (2 ^ hp) (0 : BitVec 32))[b]? = _
    exact (List.getElem?_replicate).trans (if_pos hb)
  agms j k hj hk := by
    show (List.replicate (2 ^ ap * ar) (0 : BitVec 32))[j * 2 ^ ap + k]? = _
    exact (List.getElem?_replicate).trans (if_pos (row_position_lt hj hk))
  cm j k hj hk := by
    show (List.replicate (2 ^ cp * cr) (0 : BitVec 32))[j * 2 ^ cp + k]? = _
    exact (List.getElem?_replicate).trans (if_pos (row_position_lt hj hk))

/-- **Collecting absorbs the data**, on top of what the collector holds
already. -/
theorem Holds.collect {c : SktCollector} {D : Multiset (BitVec 32)}
    (hc : c.Holds D) (hr : c.InRange) (data : List (BitVec 32)) :
    (c.collect data).Holds (D + data) :=
  sktCollectBase_summarizes (hash c.dispatch)
    c.dispatch.le_width c.dispatch.width_le
    (hr.pHll_le.trans (le_trans (by decide) c.dispatch.le_width))
      hr.pAgms_pos data hc

/-- A table cleared up to its length reads zero everywhere. -/
theorem getElem?_cleared {M i : ℕ} {t : List (BitVec 32)}
    (hlen : t.length = M) (hi : i < M) :
    (forEach M (fun _ _ => (0 : BitVec 32)) t)[i]? = some 0 := by
  rw [getElem?_forEach, List.getElem?_eq_getElem (hlen ▸ hi),
    Option.map_some, if_pos hi]

/-- Cleaning empties: the collector is as good as a fresh one, and nothing is
asked of what it held. -/
theorem holds_clean (c : SktCollector) : c.clean.Holds 0 where
  hll _ hb := getElem?_cleared c.length_bucketsHll hb
  agms _ _ hj hk := getElem?_cleared c.length_tableAgms (row_position_lt hj hk)
  cm _ _ hj hk := getElem?_cleared c.length_tableCm (row_position_lt hj hk)

/-- **Merging collectors of one configuration adds what they hold.** The checks
pass, every table is combined entry by entry, and the sketch of a sum is the
combination of the sketches.

The two may hold common items. These count twice in the counters, as they would
in one collector given both data lists, and once in the registers. -/
theorem Holds.merge0 {a b : SktCollector}
    {D E : Multiset (BitVec 32)} (ha : a.Holds D) (hb : b.Holds E)
    (hab : a.SameConfig b) :
    ∃ c, a.merge0 b = .ok c ∧ c.SameConfig a ∧ c.Holds (D + E) := by
  obtain ⟨h1, h2, h3, h4, h5, h6⟩ := hab
  unfold SktCollector.merge0
  rw [if_neg (not_not.mpr h1), if_neg (by simp [h2, h3]),
    if_neg (by simp [h4, h5])]
  refine ⟨_, rfl, ⟨rfl, rfl, rfl, rfl, rfl, rfl⟩, ⟨?_, ?_, ?_⟩⟩
  · intro i hi
    have hB := hb.hll i (h1 ▸ hi)
    rw [← h6, ← h1] at hB
    have hbound := fun X =>
      hll_lt_word (hash a.dispatch) a.dispatch.width_le a.pHll X i
    show (forEach (2 ^ b.pHll) _ a.bucketsHll)[i]? = _
    rw [getElem?_forEach, ha.hll i hi, Option.map_some, if_pos (h1 ▸ hi)]
    simp only [List.getD_eq_getElem?_getD, hB, Option.getD_some]
    rw [join_ofNat (hbound D) (hbound E)]
    simp only [Sketch.hll_eq_tally]
    rw [tally_add max 0]
  · intro j k hj hk
    have hB := hb.agms j k (h2 ▸ hj) (h3 ▸ hk)
    rw [← h6, ← h3] at hB
    show (forEach (2 ^ b.pAgms * b.rAgms) _ a.tableAgms)[j
      * 2 ^ a.pAgms + k]? = _
    rw [getElem?_forEach, ha.agms j k hj hk, Option.map_some,
      if_pos (h2 ▸ h3 ▸ row_position_lt hj hk)]
    simp only [List.getD_eq_getElem?_getD, hB, Option.getD_some]
    simp only [Sketch.agms_eq_tally]
    rw [tally_add (fun a b : ℤ => a + b) 0, BitVec.ofInt_add]
  · intro j k hj hk
    have hB := hb.cm j k (h4 ▸ hj) (h5 ▸ hk)
    rw [← h6, ← h5] at hB
    show (forEach (2 ^ b.pCm * b.rCm) _ a.tableCm)[j * 2 ^ a.pCm + k]? = _
    rw [getElem?_forEach, ha.cm j k hj hk, Option.map_some,
      if_pos (h4 ▸ h5 ▸ row_position_lt hj hk)]
    simp only [List.getD_eq_getElem?_getD, hB, Option.getD_some]
    simp only [Sketch.cm_eq_tally]
    rw [tally_add (fun a b : ℕ => a + b) 0, BitVec.ofNat_add]

/-- **What a collector holds determines its tables**, as every position of a
table is a row and an offset. -/
theorem Holds.tables_eq {a b : SktCollector}
    {D : Multiset (BitVec 32)} (ha : a.Holds D) (hb : b.Holds D)
    (hab : a.SameConfig b) :
    a.toSktTables = b.toSktTables := by
  obtain ⟨h1, h2, h3, h4, h5, h6⟩ := hab
  -- an entry is named by its row and its offset
  have hrow : ∀ {p r i : ℕ}, i < 2 ^ p * r →
      i / 2 ^ p < r ∧ i % 2 ^ p < 2 ^ p ∧ i / 2 ^ p * 2 ^ p + i % 2 ^ p
        = i := fun {p r i} hi =>
    ⟨Nat.div_lt_of_lt_mul hi, Nat.mod_lt _ (Nat.two_pow_pos p),
      Nat.div_add_mod' i (2 ^ p)⟩
  have hhll : a.bucketsHll = b.bucketsHll := by
    refine List.ext_getElem? (fun i => ?_)
    rcases Nat.lt_or_ge i (2 ^ a.pHll) with hi | hi
    · rw [ha.hll i hi, hb.hll i (h1 ▸ hi), h6, h1]
    · rw [List.getElem?_eq_none (a.length_bucketsHll.trans_le hi),
        List.getElem?_eq_none (b.length_bucketsHll.trans_le (h1 ▸ hi))]
  have hagms : a.tableAgms = b.tableAgms := by
    refine List.ext_getElem? (fun i => ?_)
    rcases Nat.lt_or_ge i (2 ^ a.pAgms * a.rAgms) with hi | hi
    · obtain ⟨hj, hk, hjk⟩ := hrow hi
      have hA := ha.agms _ _ hj hk
      have hB := hb.agms _ _ (h2 ▸ hj) (h3 ▸ hk)
      rw [← h6, ← h3] at hB
      rw [← hjk, hA, hB]
    · rw [List.getElem?_eq_none (a.length_tableAgms.trans_le hi),
        List.getElem?_eq_none (b.length_tableAgms.trans_le (h2 ▸ h3 ▸ hi))]
  have hcm : a.tableCm = b.tableCm := by
    refine List.ext_getElem? (fun i => ?_)
    rcases Nat.lt_or_ge i (2 ^ a.pCm * a.rCm) with hi | hi
    · obtain ⟨hj, hk, hjk⟩ := hrow hi
      have hA := ha.cm _ _ hj hk
      have hB := hb.cm _ _ (h4 ▸ hj) (h5 ▸ hk)
      rw [← h6, ← h5] at hB
      rw [← hjk, hA, hB]
    · rw [List.getElem?_eq_none (a.length_tableCm.trans_le hi),
        List.getElem?_eq_none (b.length_tableCm.trans_le (h4 ▸ h5 ▸ hi))]
  exact SktTables.ext hhll hagms hcm

/-- Configurations agree in both directions. -/
theorem SameConfig.symm {a b : SktCollector}
    (h : a.SameConfig b) : b.SameConfig a :=
  ⟨h.1.symm, h.2.symm, h.3.symm, h.4.symm, h.5.symm, h.6.symm⟩

/-- Configurations agree through a third collector. -/
theorem SameConfig.trans {a b c : SktCollector} (h : a.SameConfig b)
    (h' : b.SameConfig c) :
    a.SameConfig c :=
  ⟨h.1.trans h'.1, h.2.trans h'.2, h.3.trans h'.3,
    h.4.trans h'.4, h.5.trans h'.5,
    h.6.trans h'.6⟩

/-- **What a collector of a configuration holds determines it.** So two ways to
bring the same items together end with the same collector. -/
theorem Holds.eq {a b : SktCollector} {D : Multiset (BitVec 32)}
    (ha : a.Holds D)
    (hb : b.Holds D) (hab : a.SameConfig b) : a = b := by
  have ht := ha.tables_eq hb hab
  obtain ⟨h1, h2, h3, h4, h5, h6⟩ := hab
  cases a
  cases b
  cases ht
  cases h1
  cases h2
  cases h3
  cases h4
  cases h5
  cases h6
  rfl

/-- The range is a property of the configuration, so it is checked once for a
whole family. -/
theorem InRange.of_sameConfig {a b : SktCollector}
    (h : a.SameConfig b) (ha : a.InRange) :
    b.InRange :=
  ⟨h.1 ▸ ha.1, h.3 ▸ ha.2⟩

end SktCollector

/-! ## Families of collectors

A program works with several collectors at once. Their states are a function of
the name of a collector, and an operation changes the one it is called on. -/

section Family

variable {ι : Type} [DecidableEq ι]

/-- An operation on a family of collectors, which are the public methods that
change one. -/
inductive Op (ι : Type) where
  /-- `a.collect(data, n)` -/
  | collect (a : ι) (data : List (BitVec 32))
  /-- `a.merge(b)` -/
  | merge (a b : ι)
  /-- `a.clean()` -/
  | clean (a : ι)

/-- The operation, run on the collectors. Only a merge can throw. It may merge a
collector into itself, as `c.merge(c)` does. -/
def Op.exec (s : ι → SktCollector) : Op ι → Except String (ι → SktCollector)
  | .collect a data => .ok (Function.update s a ((s a).collect data))
  | .merge a b => ((s a).merge0 (s b)).map (Function.update s a)
  | .clean a => .ok (Function.update s a (s a).clean)

/-- The operation, read on what the collectors have absorbed since they were
last clean. This is the specification the tables are compared with. -/
def Op.absorb (D : ι → Multiset (BitVec 32)) : Op ι → ι → Multiset (BitVec 32)
  | .collect a data => Function.update D a (D a + data)
  | .merge a b => Function.update D a (D a + D b)
  | .clean a => Function.update D a 0

/-- A sequence of operations, run on the collectors, up to the first that
throws. -/
def runOps (ops : List (Op ι)) (s : ι → SktCollector) :
    Except String (ι → SktCollector) :=
  ops.foldlM Op.exec s

/-- What the collectors have absorbed after a sequence of operations. -/
def absorbed (ops : List (Op ι)) (D : ι → Multiset (BitVec 32)) :
    ι → Multiset (BitVec 32) :=
  ops.foldl Op.absorb D

/-- **One operation carries the relation along**: on a family of one
configuration it never throws, leaves the configuration alone, and what it does
to the tables it does to the multisets. -/
theorem Op.exec_holds {c : SktCollector} (hc : c.InRange) (o : Op ι)
    {s : ι → SktCollector} {D : ι → Multiset (BitVec 32)}
    (hs : ∀ i, (s i).SameConfig c ∧ (s i).Holds (D i)) :
    ∃ s', o.exec s = .ok s' ∧ ∀ i, (s' i).SameConfig c
      ∧ (s' i).Holds (o.absorb D i) := by
  -- only the collector the operation is called on changes
  have hupd : ∀ (a : ι) (x : SktCollector) (E : Multiset (BitVec 32)),
      x.SameConfig c → x.Holds E → ∀ i, (Function.update s a x i).SameConfig c
        ∧ (Function.update s a x i).Holds (Function.update D a E i) := by
    intro a x E hx hE i
    by_cases hi : i = a
    · subst hi
      simpa using ⟨hx, hE⟩
    · simpa [hi] using hs i
  cases o with
  | collect a data =>
    refine ⟨_, rfl, hupd a _ _ ?_ ?_⟩
    · exact ⟨(hs a).1.1, (hs a).1.2, (hs a).1.3, (hs a).1.4,
        (hs a).1.5, (hs a).1.6⟩
    · exact (hs a).2.collect (hc.of_sameConfig (hs a).1.symm) data
  | merge a b =>
    obtain ⟨x, hx, hcfg, hE⟩ := (hs a).2.merge0 (hs b).2
      ((hs a).1.trans (hs b).1.symm)
    refine ⟨_, ?_, hupd a x _ (hcfg.trans (hs a).1) hE⟩
    show ((s a).merge0 (s b)).map _ = _
    rw [hx]
    rfl
  | clean a =>
    refine ⟨_, rfl, hupd a _ _ ?_ (SktCollector.holds_clean _)⟩
    exact ⟨(hs a).1.1, (hs a).1.2, (hs a).1.3, (hs a).1.4,
      (hs a).1.5, (hs a).1.6⟩

/-- **In every reachable state the collectors hold what they absorbed.** The
induction is on the operations, with the step above. -/
theorem runOps_holds {c : SktCollector} (hc : c.InRange) (ops : List (Op ι))
    {s : ι → SktCollector} {D : ι → Multiset (BitVec 32)}
    (hs : ∀ i, (s i).SameConfig c ∧ (s i).Holds (D i)) :
    ∃ s', runOps ops s = .ok s' ∧ ∀ i, (s' i).SameConfig c
      ∧ (s' i).Holds (absorbed ops D i) := by
  induction ops generalizing s D with
  | nil => exact ⟨s, rfl, hs⟩
  | cons o ops ih =>
    obtain ⟨s₁, h₁, hs₁⟩ := o.exec_holds hc hs
    obtain ⟨s₂, h₂, hs₂⟩ := ih hs₁
    refine ⟨s₂, ?_, hs₂⟩
    show List.foldlM Op.exec s (o :: ops) = _
    rw [List.foldlM_cons, h₁]
    exact h₂

end Family

end Skt
