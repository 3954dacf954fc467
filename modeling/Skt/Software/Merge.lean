import Skt.Software.Summary

/-!
# Merging in place

`merge0` throws when the dimensions of the two collectors differ. Otherwise it
runs one loop per table, which reads an entry of both collectors and writes the
result back to the first. Here the loops run in place on the tables of a family
of collectors, with every access checked, so that a collector may also be merged
with itself.

What an item does to a table is to combine it with the table of that item alone.
So collecting two lists after each other combines the sketches of the two, and
this is what `merge0` computes, *provided that both sides were collected with
the same hash function*. A collector knows its function, as the dispatch entry
it was constructed with, but `merge0` does not compare it.

Two different functions are told apart by a single item: some item has another
top bit under the other function, and thus another register.
-/

namespace Skt

open Bits Table

/-! ## The loops

The two collectors are named, not given, since they may be the same one and then
the loop reads what it writes. -/

section InPlace

variable {ι : Type} [DecidableEq ι]

/-- One turn of a loop of `merge0`: `cand` and `*ref` are read, and `*ref` is
written. Both have to be in their tables. -/
def mergeTurn (combine : BitVec 32 → BitVec 32 → BitVec 32) (this other : ι)
    (tables : ι → List (BitVec 32)) (i : ℕ) :
    Option (ι → List (BitVec 32)) := do
  let ref ← (tables this)[i]?
  let cand ← (tables other)[i]?
  return Function.update tables this ((tables this).set i (combine ref cand))

/-- A loop of `merge0`, whose bound is the size of the table of `other`. -/
def mergeLoop (combine : BitVec 32 → BitVec 32 → BitVec 32)
    (M : ℕ) (this other : ι)
    (tables : ι → List (BitVec 32)) : Option (ι → List (BitVec 32)) :=
  (List.range M).foldlM (mergeTurn combine this other) tables

/-- `if(*ref < cand) *ref = cand`: the larger of two registers. -/
def raise (ref cand : BitVec 32) : BitVec 32 := if ref < cand then cand else ref

/-- The tables of a family of collectors. -/
def tablesOf (s : ι → SktCollector) (i : ι) : SktTables := (s i).toSktTables

/-- `merge0` on a family of collectors: what it throws or returns, and the
tables it leaves, unless an access is outside of its table.

The sums of both counter tables are sums of words. For the `signed` entries of
the AGMS table this reads `*ref += cand` as the two's complement addition it is
compiled to, where the language leaves an overflow undefined. -/
def mergeInPlace (s : ι → SktCollector) (this other : ι) :
    Option (Except String Unit × (ι → SktTables)) :=
  if (s this).pHll ≠ (s other).pHll then
    some (.error "HLL incompatible bucket sets.", tablesOf s)
  else if (s this).pAgms ≠ (s other).pAgms ∨ (s this).rAgms
    ≠ (s other).rAgms then
    some (.error "AGMS incompatible table.", tablesOf s)
  else if (s this).pCm ≠ (s other).pCm ∨ (s this).rCm ≠ (s other).rCm then
    some (.error "CM incompatible table.", tablesOf s)
  else do
    let mHll := 2 ^ (s other).pHll
    let mAgms := 2 ^ (s other).pAgms * (s other).rAgms
    let mCm := 2 ^ (s other).pCm * (s other).rCm
    let hll ← mergeLoop raise mHll this other (fun i => (s i).bucketsHll)
    let agms ← mergeLoop (· + ·) mAgms this other (fun i => (s i).tableAgms)
    let cm ← mergeLoop (· + ·) mCm this other (fun i => (s i).tableCm)
    return (.ok (), fun i => ⟨hll i, agms i, cm i⟩)

/-- **A loop combines two tables entry by entry**, also when both are the same:
the entries above the one it stands at are still as they were. -/
theorem mergeLoop_eq (combine : BitVec 32 → BitVec 32 → BitVec 32)
    {M : ℕ} (this other : ι) {tables : ι → List (BitVec 32)}
    (hthis : (tables this).length = M) (hother : (tables other).length = M) :
    mergeLoop combine M this other tables
      = some (Function.update tables this
          (List.zipWith combine (tables this) (tables other))) := by
  have hturns : ∀ n ≤ M, (List.range n).foldlM
    (mergeTurn combine this other) tables
      = some (Function.update tables this
          (forEach n (fun i ref => combine ref ((tables other).getD i 0))
            (tables this))) := by
    intro n hn
    induction n with
    | zero => exact congrArg some (Function.update_eq_self this tables).symm
    | succ n ih =>
      have hnthis : n < (tables this).length := by omega
      have hnother : n < (tables other).length := by omega
      set f := fun i ref => combine ref ((tables other).getD i 0) with hf
      have href : (forEach n f (tables this))[n]? = some (tables this)[n] := by
        rw [getElem?_forEach, List.getElem?_eq_getElem hnthis, Option.map_some,
          if_neg (lt_irrefl n)]
      have hcand :
        (Function.update tables this (forEach n f (tables this)) other)[n]?
          = some ((tables other).getD n 0) := by
        rw [List.getD_eq_getElem?_getD, List.getElem?_eq_getElem hnother,
          Option.getD_some]
        by_cases hsame : other = this
        · subst hsame
          rw [Function.update_self, href]
        · rw [Function.update_of_ne hsame, List.getElem?_eq_getElem hnother]
      rw [foldlM_range_succ, ih (Nat.le_of_succ_le hn)]
      show mergeTurn combine this other _ n = _
      unfold mergeTurn
      rw [Function.update_self, href, hcand, forEach_succ]
      show some (Function.update (Function.update tables this _) this _) = _
      rw [Function.update_idem]
      congr 2
      refine List.ext_getElem? (fun k => ?_)
      rw [List.getElem?_modify, List.getElem?_set]
      by_cases hk : n = k
      · subst hk
        rw [href]
        simp [hnthis, hf]
      · simp [hk]
  unfold mergeLoop
  rw [hturns M le_rfl, forEach_eq_zipWith combine 0 hthis hother]

end InPlace

/-! ## Tables combined

The combination is associative, and the tables of one item are combined with
what was there before. The loops of the source are brought into this form. -/

/-- Raising to a register and then to a rank. -/
theorem raise_assoc (a b c : BitVec 32) :
    raise a (raise b c) = raise (raise a b) c := by
  unfold raise
  simp only [BitVec.lt_def]
  split_ifs <;> first | rfl | omega

/-- An empty register raises nothing. -/
theorem raise_zero (a : BitVec 32) : raise a 0 = a :=
  if_neg (BitVec.not_lt_zero)

/-- The larger of two registers, as a number. -/
theorem toNat_raise (a b : BitVec 32) :
    (raise a b).toNat = max a.toNat b.toNat := by
  unfold raise
  simp only [BitVec.lt_def]
  split <;> omega

/-- **Two multi-sketches combined**: the larger register, and the sum of the
counters. -/
def SktTables.join (t u : SktTables) : SktTables where
  bucketsHll := List.zipWith raise t.bucketsHll u.bucketsHll
  tableAgms := List.zipWith (· + ·) t.tableAgms u.tableAgms
  tableCm := List.zipWith (· + ·) t.tableCm u.tableCm

section Collect

variable {W : ℕ} (hash : BitVec 32 → BitVec W) (hp ar ap cr cp : ℕ)

/-- The register of an item's bucket is raised to the item's rank. The
comparison of the source is not strict and goes before the increment. -/
theorem hllUpdate_eq_raise [ClzNz W] (h128 : W ≤ 128) (hashv : BitVec W)
    (buckets : List (BitVec 32)) :
    hllUpdate hp hashv buckets
      = buckets.modify (hashv >>> (W - hp)).toNat (fun bucket => raise bucket
          (BitVec.ofNat 32 (ClzNz.clzNz (((hashv + 1#W) <<< hp) - 1#W))
            + 1#32)) := by
  have hle : ClzNz.clzNz (((hashv + 1#W) <<< hp) - 1#W) ≤ 128 := by
    rw [ClzNz.clzNz_eq]
    exact (leadingZeros_le _ _).trans h128
  unfold hllUpdate
  generalize ClzNz.clzNz (((hashv + 1#W) <<< hp) - 1#W) = lzcnt at hle
  -- the rank does not wrap around
  have hlt : ∀ bucket : BitVec 32, bucket ≤ BitVec.ofNat 32 lzcnt
      ↔ bucket < BitVec.ofNat 32 lzcnt + 1#32 := by
    intro bucket
    rw [BitVec.le_def, BitVec.lt_def, ← BitVec.ofNat_add,
      BitVec.toNat_ofNat, BitVec.toNat_ofNat,
      Nat.mod_eq_of_lt (by omega), Nat.mod_eq_of_lt (by omega)]
    omega
  simp only [hlt]
  rfl

/-- **An item's registers, on top of others.** It does not matter on which side
of the combination the item is collected. -/
theorem hllUpdate_join [ClzNz W] (h128 : W ≤ 128) (hashv : BitVec W)
    (t u : List (BitVec 32)) :
    hllUpdate hp hashv (List.zipWith raise t u)
      = List.zipWith raise t (hllUpdate hp hashv u) := by
  rw [hllUpdate_eq_raise hp h128, hllUpdate_eq_raise hp h128]
  exact (zipWith_modify raise raise_assoc t u _ _).symm

/-- **An item's AGMS counters, on top of others**, row by row. -/
theorem agmsTurn_join (h32 : 32 ≤ W) (n : ℕ) (hashv : BitVec W)
    (t u : List (BitVec 32)) :
    ((agmsTurn ap)^[n] (hashv, 0, List.zipWith (· + ·) t u)).2.2
      = List.zipWith (· + ·) t ((agmsTurn ap)^[n] (hashv, 0, u)).2.2 := by
  -- one turn adds to an entry, whatever is in the table
  have hturn : Function.Semiconj
      (fun s : BitVec W × ℕ × List (BitVec 32) =>
        (s.1, s.2.1, List.zipWith (· + ·) t s.2.2))
      (agmsTurn ap) (agmsTurn ap) := by
    rintro ⟨ahashv, rowBase, u⟩
    unfold agmsTurn
    simp only [setWidth_signExtend_add_bit h32]
    rw [zipWith_modify (· + ·) (fun a b c => (BitVec.add_assoc a b c).symm)]
  exact congrArg (fun s => s.2.2) (hturn.iterate_right n (hashv, 0, u)).symm

/-- **An item's Count-Min counters, on top of others**, row by row. -/
theorem cmTurn_join (n : ℕ) (hashv : BitVec W) (t u : List (BitVec 32)) :
    ((cmTurn cp)^[n] (hashv, 0, List.zipWith (· + ·) t u)).2.2
      = List.zipWith (· + ·) t ((cmTurn cp)^[n] (hashv, 0, u)).2.2 := by
  have hturn : Function.Semiconj
      (fun s : BitVec W × ℕ × List (BitVec 32) =>
        (s.1, s.2.1, List.zipWith (· + ·) t s.2.2))
      (cmTurn cp) (cmTurn cp) := by
    rintro ⟨chashv, rowBase, u⟩
    unfold cmTurn
    simp only
    rw [zipWith_modify (· + ·) (fun a b c => (BitVec.add_assoc a b c).symm)]
  exact congrArg (fun s => s.2.2) (hturn.iterate_right n (hashv, 0, u)).symm

/-- **Collecting on top of a sketch combines it with what is collected**, for
any tables, whether or not they are sketches of anything. -/
theorem sktCollectBase_join [ClzNz W] (h32 : 32 ≤ W) (h128 : W ≤ 128)
    (data : List (BitVec 32)) (t u : SktTables) :
    sktCollectBase hash data (t.join u) hp ar ap cr cp
      = t.join (sktCollectBase hash data u hp ar ap cr cp) := by
  unfold sktCollectBase
  induction data generalizing u with
  | nil => rfl
  | cons x data ih =>
    have hitem : collectItem hash hp ar ap cr cp (t.join u) x
        = t.join (collectItem hash hp ar ap cr cp u x) :=
      SktTables.ext (hllUpdate_join hp h128 _ _ _)
        (agmsTurn_join ap h32 ar _ _ _)
        (cmTurn_join cp cr _ _ _)
    rw [List.foldl_cons, List.foldl_cons, hitem]
    exact ih _

end Collect

namespace SktCollector

/-! ## Sketches of lists

What a collector that was constructed and then given a list holds. -/

/-- A collector as another one was constructed, with the same hash function. -/
def fresh (c : SktCollector) : SktCollector :=
  new c.pHll c.rAgms c.pAgms c.rCm c.pCm c.dispatch

/-- Collecting in a fresh collector leaves the configuration. -/
@[simp] theorem fresh_collect (c : SktCollector) (data : List (BitVec 32)) :
    (c.fresh.collect data).fresh = c.fresh := rfl

/-- Combining with empty tables changes nothing. -/
theorem join_fresh (c : SktCollector) :
    c.toSktTables.join c.fresh.toSktTables = c.toSktTables := by
  refine SktTables.ext ?_ ?_ ?_
  · show List.zipWith raise c.bucketsHll (List.replicate (2 ^ c.pHll) 0) = _
    rw [← c.length_bucketsHll]
    exact zipWith_replicate_right raise raise_zero _
  · show List.zipWith (· + ·) c.tableAgms
      (List.replicate (2 ^ c.pAgms * c.rAgms) 0) = _
    rw [← c.length_tableAgms]
    exact zipWith_replicate_right (· + ·) BitVec.add_zero _
  · show List.zipWith (· + ·) c.tableCm
      (List.replicate (2 ^ c.pCm * c.rCm) 0) = _
    rw [← c.length_tableCm]
    exact zipWith_replicate_right (· + ·) BitVec.add_zero _

/-- **The sketch of two lists is that of each, combined.** -/
theorem fresh_collect_append (c : SktCollector) (D E : List (BitVec 32)) :
    (c.fresh.collect (D ++ E)).toSktTables
      = (c.fresh.collect D).toSktTables.join
        (c.fresh.collect E).toSktTables := by
  show sktCollectBase (hash c.dispatch)
    (D ++ E) c.fresh.toSktTables _ _ _ _ _ = _
  have hjoin := sktCollectBase_join (hash c.dispatch) c.pHll
    c.rAgms c.pAgms c.rCm c.pCm
    c.dispatch.le_width c.dispatch.width_le E
      (c.fresh.collect D).toSktTables c.fresh.toSktTables
  rw [show (c.fresh.collect D).toSktTables.join c.fresh.toSktTables
    = (c.fresh.collect D).toSktTables from (c.fresh.collect D).join_fresh]
      at hjoin
  refine Eq.trans ?_ hjoin
  unfold sktCollectBase
  rw [List.foldl_append]
  rfl

/-! ## What merging does

With the same dimensions it combines, with others it throws; and nothing else is
looked at. -/

/-- Two collectors of the same dimensions, which is what `merge0` checks. The
hash function is not among them. -/
structure SameDims (a b : SktCollector) : Prop where
  pHll : a.pHll = b.pHll
  rAgms : a.rAgms = b.rAgms
  pAgms : a.pAgms = b.pAgms
  rCm : a.rCm = b.rCm
  pCm : a.pCm = b.pCm

namespace SameDims

variable {a b : SktCollector} (h : a.SameDims b)
include h

/-- The registers of `this` are as many as those of `other`. -/
theorem length_bucketsHll : a.bucketsHll.length = 2 ^ b.pHll :=
  h.pHll ▸ a.length_bucketsHll

/-- So are its AGMS counters, so that the loop over `other` stays inside. -/
theorem length_tableAgms : a.tableAgms.length = 2 ^ b.pAgms * b.rAgms :=
  h.pAgms ▸ h.rAgms ▸ a.length_tableAgms

/-- So are its Count-Min counters. -/
theorem length_tableCm : a.tableCm.length = 2 ^ b.pCm * b.rCm :=
  h.pCm ▸ h.rCm ▸ a.length_tableCm

/-- **With the same dimensions, `merge0` combines the tables** and does not
throw. -/
theorem merge0 : ∃ c, a.merge0 b = .ok c ∧ c.toSktTables
    = a.toSktTables.join b.toSktTables := by
  unfold SktCollector.merge0
  rw [if_neg (not_not.mpr h.pHll), if_neg (by simp [h.rAgms, h.pAgms]),
    if_neg (by simp [h.rCm, h.pCm])]
  exact ⟨_, rfl, SktTables.ext
    (forEach_eq_zipWith raise 0 h.length_bucketsHll b.length_bucketsHll)
    (forEach_eq_zipWith (· + ·) 0 h.length_tableAgms b.length_tableAgms)
    (forEach_eq_zipWith (· + ·) 0 h.length_tableCm b.length_tableCm)⟩

end SameDims

/-- **With different dimensions, it throws.** Which of the three messages it is
depends on the first dimension that differs. -/
theorem merge0_of_not_sameDims {a b : SktCollector} (h : ¬ a.SameDims b) :
    ∃ msg, a.merge0 b = .error msg := by
  unfold SktCollector.merge0
  split_ifs with hpHll hAgms hCm
  · exact ⟨_, rfl⟩
  · exact ⟨_, rfl⟩
  · exact ⟨_, rfl⟩
  · simp only [ne_eq, not_or, not_not] at hpHll hAgms hCm
    exact absurd ⟨hpHll, hAgms.2, hAgms.1, hCm.2, hCm.1⟩ h

section Outcome

variable {ι : Type} [DecidableEq ι] {s : ι → SktCollector} {this other : ι}

/-- **The loops in place combine the tables** for the same dimensions: all
accesses are in the tables, and only those of `this` change. -/
theorem mergeInPlace_of_sameDims (h : (s this).SameDims (s other)) :
    mergeInPlace s this other = some (.ok (), Function.update (tablesOf s) this
      ((s this).toSktTables.join (s other).toSktTables)) := by
  have hll : mergeLoop raise (2 ^ (s other).pHll) this other
    (fun i => (s i).bucketsHll) = _ :=
    mergeLoop_eq raise this other h.length_bucketsHll
      (s other).length_bucketsHll
  have hagms : mergeLoop (· + ·)
    (2 ^ (s other).pAgms * (s other).rAgms) this other
      (fun i => (s i).tableAgms) = _ :=
    mergeLoop_eq (· + ·) this other h.length_tableAgms
      (s other).length_tableAgms
  have hcm : mergeLoop (· + ·) (2 ^ (s other).pCm * (s other).rCm) this other
      (fun i => (s i).tableCm) = _ :=
    mergeLoop_eq (· + ·) this other h.length_tableCm (s other).length_tableCm
  unfold mergeInPlace
  rw [if_neg (not_not.mpr h.pHll), if_neg (by simp [h.rAgms, h.pAgms]),
    if_neg (by simp [h.rCm, h.pCm])]
  simp only [hll, hagms, hcm]
  show some (Except.ok (), _) = _
  congr 2
  funext i
  by_cases hi : i = this
  · subst hi
    simp only [Function.update_self]
    rfl
  · simp only [Function.update_of_ne hi]
    rfl

/-- **The loops in place compute `merge0`**, which combines the tables as
values, and they throw what it throws, before any table is touched. -/
theorem mergeInPlace_eq_merge0 (s : ι → SktCollector) (this other : ι) :
    mergeInPlace s this other = match (s this).merge0 (s other) with
      | .error msg => some (.error msg, tablesOf s)
      | .ok c =>
        some (.ok (), Function.update (tablesOf s) this c.toSktTables) := by
  by_cases h : (s this).SameDims (s other)
  · obtain ⟨c, hc, htables⟩ := h.merge0
    rw [mergeInPlace_of_sameDims h, hc, ← htables]
  · obtain ⟨msg, hmsg⟩ := merge0_of_not_sameDims h
    rw [hmsg]
    unfold SktCollector.merge0 at hmsg
    unfold mergeInPlace
    split_ifs at hmsg ⊢ <;> cases hmsg <;> rfl

/-- **Merging is all or nothing**: it throws and leaves all tables alone, or it
stays in the tables, leaves those of all others alone and makes of those of
`this` what collecting the data of both in one collector makes. -/
def MergeSound (s : ι → SktCollector) (this other : ι)
    (D E : List (BitVec 32)) : Prop :=
  (∃ msg, mergeInPlace s this other = some (.error msg, tablesOf s))
  ∨ ∃ tables, mergeInPlace s this other = some (.ok (), tables)
    ∧ (∀ i ≠ this, tables i = tablesOf s i)
    ∧ tables this = ((s this).fresh.collect (D ++ E)).toSktTables

/-- **A collector reads as the sketch of a list** under the hash function of
`this`: its counters are those of the list, and so are its registers as far as
they exceed those of `this`.

A smaller register is lost in the merge, whatever it is, so it need not
agree. -/
structure ReadsAs (this other : SktCollector)
    (data : List (BitVec 32)) : Prop where
  /-- The registers are joined with those of this collector, and only what comes
  out of that has to be the same. -/
  hll : ∀ i < 2 ^ this.pHll,
    max (this.bucketsHll.getD i 0).toNat (other.bucketsHll.getD i 0).toNat
      = max (this.bucketsHll.getD i 0).toNat
        ((this.fresh.collect data).bucketsHll.getD i 0).toNat
  /-- The counters are added, so that they must be those of the data. -/
  agms : other.tableAgms = (this.fresh.collect data).tableAgms
  cm : other.tableCm = (this.fresh.collect data).tableCm

/-- Sums with the same counters are the same only for the same counters. -/
theorem zipWith_add_left_inj {M : ℕ} {t u v : List (BitVec 32)}
    (ht : t.length = M) (hu : u.length = M) (hv : v.length = M) :
    List.zipWith (· + ·) t u = List.zipWith (· + ·) t v ↔ u = v := by
  refine ⟨fun h => ?_, fun h => by rw [h]⟩
  have hget := (zipWith_eq_zipWith_iff (· + ·) 0 ht hu hv).mp h
  refine List.ext_getElem (hu.trans hv.symm) (fun i hiu hiv => ?_)
  have hi := hget i (hu ▸ hiu)
  simp only [add_right_inj, List.getD_eq_getElem _ _ hiu,
    List.getD_eq_getElem _ _ hiv] at hi
  exact hi

/-- **When the combined tables are those of the data**, for collectors of the
same dimensions. -/
theorem join_eq_join_iff {a b : SktCollector} (h : a.SameDims b)
    (data : List (BitVec 32)) :
    a.toSktTables.join b.toSktTables
      = a.toSktTables.join (a.fresh.collect data).toSktTables
      ↔ a.ReadsAs b data := by
  obtain ⟨hpHll, hrAgms, hpAgms, hrCm, hpCm⟩ := h
  have hhll := zipWith_eq_zipWith_iff raise 0 a.length_bucketsHll
    (hpHll ▸ b.length_bucketsHll) (a.fresh.collect data).length_bucketsHll
  have hagms := zipWith_add_left_inj a.length_tableAgms
    (hpAgms ▸ hrAgms ▸ b.length_tableAgms)
      (a.fresh.collect data).length_tableAgms
  have hcm := zipWith_add_left_inj a.length_tableCm
    (hpCm ▸ hrCm ▸ b.length_tableCm) (a.fresh.collect data).length_tableCm
  simp only [← BitVec.toNat_inj, toNat_raise] at hhll
  rw [SktTables.ext_iff]
  exact ⟨fun h => ⟨hhll.mp h.1, hagms.mp h.2.1, hcm.mp h.2.2⟩,
    fun h => ⟨hhll.mpr h.1, hagms.mpr h.2, hcm.mpr h.3⟩⟩

/-- **When merging is all or nothing**, for the data of two collectors. The
right side is about the tables before the merge. -/
theorem mergeSound_iff_readsAs {D : List (BitVec 32)} (E : List (BitVec 32))
    (hthis : s this = (s this).fresh.collect D) :
    MergeSound s this other D E
      ↔ ¬ (s this).SameDims (s other) ∨ (s this).ReadsAs (s other) E := by
  by_cases hdims : (s this).SameDims (s other)
  · have hmerge := mergeInPlace_of_sameDims hdims
    have hboth : ((s this).fresh.collect (D ++ E)).toSktTables
        = (s this).toSktTables.join ((s this).fresh.collect E).toSktTables := by
      rw [fresh_collect_append, ← hthis]
    rw [or_iff_right (not_not_intro hdims), ← join_eq_join_iff hdims, ← hboth]
    constructor
    · rintro (⟨msg, hthrow⟩ | ⟨tables, hok, -, hresult⟩)
      · rw [hmerge] at hthrow
        cases hthrow
      · rw [hmerge] at hok
        cases hok
        rwa [Function.update_self] at hresult
    · intro hjoin
      refine Or.inr ⟨_, hmerge, fun i hi => Function.update_of_ne hi _ _, ?_⟩
      rw [Function.update_self]
      exact hjoin
  · obtain ⟨msg, hmsg⟩ := merge0_of_not_sameDims hdims
    have hthrow : mergeInPlace s this other
      = some (.error msg, tablesOf s) := by
      rw [mergeInPlace_eq_merge0, hmsg]
    exact ⟨fun _ => Or.inl hdims, fun _ => Or.inl ⟨msg, hthrow⟩⟩

end Outcome

/-! ## Two hash functions

A single item is enough to tell any two of the hash functions apart, in every
configuration: its top bit shows in its bucket, or in its rank where there are
no bucket bits. -/

/-- Bucket and rank tell the top bit of a hash word. -/
theorem msb_iff {W p : ℕ} (hp : p ≤ W) (hW : 0 < W) (h : BitVec W) :
    h.msb = true ↔ if p = 0 then Sketch.hllRank p h
      = 1 else 2 ^ (p - 1) ≤ Sketch.hllBucket p h := by
  rw [BitVec.msb_eq_decide, decide_eq_true_iff]
  split
  · next hzero =>
    subst hzero
    have hsize : 2 ^ (W - 1) ≤ h.toNat
      ↔ W - 1 < h.toNat.size := Nat.lt_size.symm
    unfold Sketch.hllRank leadingZeros
    rw [Nat.sub_zero, Nat.mod_eq_of_lt h.isLt, hsize]
    omega
  · next hpos =>
    have hpow : 2 ^ (p - 1) * 2 ^ (W - p) = 2 ^ (W - 1) := by
      rw [← pow_add]
      congr 1
      omega
    unfold Sketch.hllBucket
    rw [Nat.le_div_iff_mul_le (Nat.two_pow_pos _), hpow]

/-- The registers of a single item: one of them is its rank, the others are
zero. -/
theorem getD_collect_singleton {c : SktCollector} (hp : c.pHll ≤ 32)
    (x : BitVec 32) {i : ℕ} (hi : i < 2 ^ c.pHll) :
    ((c.fresh.collect [x]).bucketsHll.getD i 0).toNat
      = if Sketch.hllBucket c.pHll (hash c.dispatch x) = i
        then Sketch.hllRank c.pHll (hash c.dispatch x) else 0 := by
  have hrank : Sketch.hllRank c.pHll (hash c.dispatch x) < 2 ^ 32 := by
    have hle := Sketch.hllRank_le c.pHll (hash c.dispatch x)
    have hwidth := c.dispatch.width_le
    omega
  show ((hllUpdate c.pHll (hash c.dispatch x)
    (List.replicate (2 ^ c.pHll) 0)).getD i 0).toNat = _
  rw [hllUpdate_eq c.pHll (hp.trans c.dispatch.le_width) c.dispatch.width_pos,
    List.getD_eq_getElem?_getD, List.getElem?_modify,
      List.getElem?_replicate, if_pos hi]
  split
  · simpa using hrank
  · rfl

/-- The top bits of the hash words of three items, which differ between any two
of the functions. -/
def topBits : HashE → Bool × Bool × Bool
  | .ident => (false, false, false)
  | .sip => (false, true, true)
  | .murmur3_32 => (true, false, true)
  | .murmur3_64 => (true, true, true)
  | .murmur3_128 => (true, true, false)

/-- The hash words of three items, evaluated. -/
theorem topBits_eq (h : HashE) :
    ((hash h 1#32).msb, (hash h 2#32).msb, (hash h 4#32).msb) = topBits h := by
  cases h with
  | ident => rfl
  | sip =>
    show ((hashSip 1#32).msb, (hashSip 2#32).msb, (hashSip 4#32).msb) = _
    simp [hashSip, sipRound, rotl64, topBits, BitVec.msb_eq_decide]
  | murmur3_32 =>
    show ((hashMurmur3_32 1#32).msb, (hashMurmur3_32 2#32).msb,
      (hashMurmur3_32 4#32).msb) = _
    simp [hashMurmur3_32, topBits, BitVec.msb_eq_decide]
  | murmur3_64 =>
    show ((hashMurmur3_64 1#32).msb, (hashMurmur3_64 2#32).msb,
      (hashMurmur3_64 4#32).msb) = _
    simp [hashMurmur3_64, murmur3Words, fmix64, rotl64, topBits,
      BitVec.msb_eq_decide]
  | murmur3_128 =>
    show ((hashMurmur3_128 1#32).msb, (hashMurmur3_128 2#32).msb,
      (hashMurmur3_128 4#32).msb) = _
    simp [hashMurmur3_128, murmur3Words, fmix64, rotl64, topBits,
      BitVec.msb_eq_decide]

/-- **Some item tells two hash functions apart** by the top bit. -/
theorem exists_msb_ne {h h' : HashE} (hne : h ≠ h') :
    ∃ x, (hash h x).msb ≠ (hash h' x).msb := by
  by_contra hall
  simp only [not_exists, not_not] at hall
  have htop : topBits h = topBits h' := by
    rw [← topBits_eq, ← topBits_eq, hall, hall, hall]
  revert hne htop
  cases h <;> cases h' <;> decide

/-- **One item's registers tell two hash functions apart.** The other collector
is empty, so nothing hides the difference. -/
theorem not_readsAs_of_msb_ne {c d : SktCollector}
    (hdims : c.SameDims d) (hp : c.pHll ≤ 32) {x : BitVec 32}
    (hx : (hash c.dispatch x).msb ≠ (hash d.dispatch x).msb) :
    ¬ (c.fresh.collect []).ReadsAs (d.fresh.collect [x]) [x] := by
  refine fun hreads => hx ?_
  have hpd : d.pHll ≤ 32 := hdims.pHll ▸ hp
  -- the registers of `c` are zero, so those of both are the same
  have hregister : ∀ i < 2 ^ c.pHll,
      (if Sketch.hllBucket d.pHll (hash d.dispatch x) = i
        then Sketch.hllRank d.pHll (hash d.dispatch x) else 0)
      = if Sketch.hllBucket c.pHll (hash c.dispatch x) = i
        then Sketch.hllRank c.pHll (hash c.dispatch x) else 0 := by
    intro i hi
    have hzero : (c.fresh.collect []).bucketsHll.getD i 0 = 0 := by
      show (List.replicate (2 ^ c.pHll) (0 : BitVec 32)).getD i 0 = 0
      rw [List.getD_eq_getElem?_getD, List.getElem?_replicate, if_pos hi]
      rfl
    have h := hreads.hll i hi
    rw [hzero] at h
    rw [← getD_collect_singleton hpd x (hdims.pHll ▸ hi),
      ← getD_collect_singleton hp x hi]
    simpa using h
  have hbucket :=
    hregister _ (Sketch.hllBucket_lt c.pHll (hp.trans c.dispatch.le_width)
    (hash c.dispatch x))
  rw [if_pos rfl] at hbucket
  have hrank := Sketch.one_le_hllRank c.pHll (hash c.dispatch x)
  have hmsb := msb_iff (hp.trans c.dispatch.le_width)
    c.dispatch.width_pos (hash c.dispatch x)
  have hmsb' := msb_iff (hpd.trans d.dispatch.le_width)
    d.dispatch.width_pos (hash d.dispatch x)
  split at hbucket
  · next hsame =>
    rw [← hdims.pHll] at hmsb' hsame hbucket
    rw [hsame, hbucket, ← hmsb] at hmsb'
    exact Bool.eq_iff_iff.mpr hmsb'.symm
  · exact absurd hbucket (by omega)

/-! ## All or nothing -/

/-- Collecting keeps the dimensions. -/
theorem sameDims_collect {c d : SktCollector} (D E : List (BitVec 32)) :
    (c.fresh.collect D).SameDims (d.fresh.collect E) ↔ c.SameDims d :=
  ⟨fun h => ⟨h.1, h.2, h.3, h.4, h.5⟩, fun h => ⟨h.1, h.2, h.3, h.4, h.5⟩⟩

/-- With the same hash function a collector reads as what it holds. -/
theorem readsAs_of_dispatch {c d : SktCollector} (hdims : c.SameDims d)
    (hsame : c.dispatch = d.dispatch) (D E : List (BitVec 32)) :
    (c.fresh.collect D).ReadsAs (d.fresh.collect E) E := by
  have hfresh : d.fresh = c.fresh := by
    unfold fresh
    rw [hdims.pHll, hdims.rAgms, hdims.pAgms, hdims.rCm, hdims.pCm, hsame]
  rw [hfresh]
  exact ⟨fun _ _ => rfl, rfl, rfl⟩

/-- **Merging is all or nothing, except that the hash functions are not
compared.** It is so just when the dimensions differ, or `other` reads as the
sketch of its data under the hash function of `this`; and it is so for all data
of two collectors just when their dimensions differ or their hash functions are
the same.

The first part is about given data, for which the tables may happen to agree;
the second is about configurations. A collector merged into itself has one hash
function only, so there the second part asks for two collectors. -/
theorem merge_sound_iff {ι : Type} [DecidableEq ι] (this other : ι)
    (c d : SktCollector) :
    (∀ (s : ι → SktCollector) (D E : List (BitVec 32)),
      s this = c.fresh.collect D → s other = d.fresh.collect E →
        (MergeSound s this other D E ↔ ¬ c.SameDims d
          ∨ (s this).ReadsAs (s other) E))
    ∧ (this ≠ other → c.pHll ≤ 32 →
      ((∀ (s : ι → SktCollector) (D E : List (BitVec 32)),
        s this = c.fresh.collect D → s other = d.fresh.collect E →
          MergeSound s this other D E)
        ↔ ¬ c.SameDims d ∨ c.dispatch = d.dispatch)) := by
  have hdata : ∀ (s : ι → SktCollector) (D E : List (BitVec 32)),
      s this = c.fresh.collect D → s other = d.fresh.collect E →
        (MergeSound s this other D E ↔ ¬ c.SameDims d
          ∨ (s this).ReadsAs (s other) E) := by
    intro s D E hthis hother
    have hfresh : s this = (s this).fresh.collect D := by
      rw [hthis, fresh_collect]
    rw [mergeSound_iff_readsAs E hfresh, hthis, hother, sameDims_collect]
  refine ⟨hdata, fun hdistinct hp => ⟨fun hall => ?_, ?_⟩⟩
  · -- an item that tells the functions apart is merged into an empty collector
    by_contra hnot
    obtain ⟨hdims, hne⟩ := not_or.mp hnot
    obtain ⟨x, hx⟩ := exists_msb_ne hne
    have hthis : Function.update (fun _ => d.fresh.collect [x]) this
      (c.fresh.collect []) this
        = c.fresh.collect [] := Function.update_self _ _ _
    have hother : Function.update (fun _ => d.fresh.collect [x]) this
      (c.fresh.collect []) other
        = d.fresh.collect [x] := Function.update_of_ne hdistinct.symm _ _
    rcases (hdata _ [] [x] hthis hother).mp (hall _ [] [x] hthis hother)
      with hd | hreads
    · exact hdims hd
    · rw [hthis, hother] at hreads
      exact not_readsAs_of_msb_ne (not_not.mp hdims) hp hx hreads
  · rintro (hd | hsame) s D E hthis hother
    · exact (hdata s D E hthis hother).mpr (Or.inl hd)
    · by_cases hdims : c.SameDims d
      · refine (hdata s D E hthis hother).mpr (Or.inr ?_)
        rw [hthis, hother]
        exact readsAs_of_dispatch hdims hsame D E
      · exact (hdata s D E hthis hother).mpr (Or.inl hdims)

/-- Two collectors of one configuration. -/
theorem merge_sound_iff_instance :
    let c := new 4 1 4 1 4 .ident
    let s := fun b : Bool => c.fresh.collect (if b then [1] else [2])
    (MergeSound s false true [2] [1] ↔ ¬ c.SameDims c
      ∨ (s false).ReadsAs (s true) [1])
    ∧ ((∀ (s : Bool → SktCollector) (D E : List (BitVec 32)),
        s false = c.fresh.collect D → s true = c.fresh.collect E →
          MergeSound s false true D E)
        ↔ ¬ c.SameDims c ∨ c.dispatch = c.dispatch) := by
  intro c s
  exact ⟨(merge_sound_iff false true c c).1 s [2] [1] rfl rfl,
    (merge_sound_iff false true c c).2 (by decide) (by decide)⟩

/-- **An item collected with another hash function** is merged without a
complaint: the collectors agree in all that is checked, and the item is in
another bucket. -/
theorem not_mergeSound :
    let c := new 4 1 4 1 4 .ident
    let d := new 4 1 4 1 4 .murmur3_32
    let s := fun b : Bool => if b then d.collect [1] else c.collect []
    ¬ MergeSound s false true [] [1] := by
  intro c d s hsound
  have hthis : s false = (s false).fresh.collect [] := rfl
  rcases (mergeSound_iff_readsAs [1] hthis).mp hsound with hdims | hreads
  · exact hdims ⟨rfl, rfl, rfl, rfl, rfl⟩
  · have hmsb : (hash .murmur3_32 1#32).msb = true :=
      congrArg Prod.fst (topBits_eq .murmur3_32)
    refine @not_readsAs_of_msb_ne c d ⟨rfl, rfl, rfl, rfl, rfl⟩
      (by decide) 1 ?_ hreads
    show (hash .ident 1#32).msb ≠ (hash .murmur3_32 1#32).msb
    rw [hmsb]
    decide

end SktCollector

end Skt
