import Skt.Hardware.Record
import Skt.Hardware.Schedules
import Skt.Hardware.Statistics

/-!
# The transfer of the host

The host writes an array of items; the platform packs its bytes into beats and
marks in the last one how many there are. The kernel does not look at the marks:
its source map passes on the data and the `last` flag and drops the keep bits,
and `basic_sketch` counts `N0` items for every word. A record therefore
describes the items of the host if they fill their beats, and never otherwise.

The packing is the platform's, and only what the interface of the stream
promises is used of it: the bytes in their order, full beats but for the last,
and keep bits that mark the bytes there are. What stands behind the marked bytes
is zero in the model. It does not matter for the equivalence, since the count is
wrong already.
-/

namespace Skt.Hardware

open Streams LittleEndian

/-! ## Packing

From an array of items to the beats on the input stream. -/

/-- The bytes of an array of items, as they lie in the buffer of the host. -/
def hostBytes (items : List (BitVec 32)) : List Byte :=
  items.flatMap (fun x => leBytes 4 x.toNat)

/-- A beat with some bytes at its low end and zeros behind them. Its byte-keep
bits mark the bytes. -/
def Axis.ofBytes (w : ℕ) (bytes : List Byte) (last : Bool) : Axis w where
  data := BitVec.ofNat w (leNat bytes)
  keep := BitVec.ofNat (w / 8) (2 ^ bytes.length - 1)
  last := last

/-- The number of beats of `B` bytes for `n` bytes, the last of which may be
filled in part. -/
def beatCount (B n : ℕ) : ℕ := (n + B - 1) / B

/-- **The transfer of an array of items**, in beats of `N0` items; `last` is on
the final one. -/
def transfer (N0 : ℕ) (items : List (BitVec 32)) : List (Axis (N0 * 32)) :=
  let bytes := hostBytes items
  let count := beatCount (4 * N0) bytes.length
  (List.range count).map (fun b =>
    Axis.ofBytes (N0 * 32) ((bytes.drop (4 * N0 * b)).take (4 * N0))
      (decide (b + 1 = count)))

/-- The words of the transfer: what the kernel sees of it. -/
def transferred (N0 : ℕ) (items : List (BitVec 32)) : List (BitVec (N0 * 32)) :=
  (transfer N0 items).map Axis.data

section Packing

variable {N0 : ℕ} (items : List (BitVec 32))

@[simp] theorem length_hostBytes : (hostBytes items).length
    = 4 * items.length := by
  unfold hostBytes
  rw [length_flatMap_block _ _ (fun x _ => length_leBytes 4 x.toNat),
    Nat.mul_comm]

theorem length_transferred :
    (transferred N0 items).length = beatCount (4 * N0) (4 * items.length) := by
  unfold transferred transfer
  simp

/-- The transfer is a single job, ended by its last beat. -/
theorem map_flit_transfer :
    (transfer N0 items).map Axis.flit
      = [transferred N0 items].flatMap frame := by
  have hlen : (transferred N0 items).length
    = beatCount (4 * N0) (hostBytes items).length := by
    rw [length_transferred, length_hostBytes]
  rw [List.flatMap_singleton]
  refine List.ext_getElem? (fun b => ?_)
  rw [getElem?_frame, hlen]
  unfold transferred transfer
  simp only [List.getElem?_map]
  rcases Nat.lt_or_ge b
    (beatCount (4 * N0) (hostBytes items).length) with hb | hb
  · rw [List.getElem?_range hb]
    rfl
  · rw [List.getElem?_eq_none (by rwa [List.length_range])]
    rfl

/-- The beats of a transfer, all of them but for the last one full, have room
for its items and for fewer than `N0` more. -/
theorem beatCount_spec (hN0 : 0 < N0) (n : ℕ) :
    n ≤ beatCount (4 * N0) (4 * n) * N0
      ∧ beatCount (4 * N0) (4 * n) * N0 < n + N0 := by
  unfold beatCount
  set q := (4 * n + 4 * N0 - 1) / (4 * N0)
  have h₁ : q * (4 * N0) ≤ 4 * n + 4 * N0 - 1 := Nat.div_mul_le_self _ _
  have h₂ : 4 * n + 4 * N0 - 1 < q * (4 * N0) + 4 * N0 :=
    Nat.lt_div_mul_add (by omega)
  have hq : q * (4 * N0) = 4 * (q * N0) := by ring
  rw [hq] at h₁ h₂
  omega

/-- **An item of a beat** is the item of the array at its place, zero behind its
end. -/
theorem laneOf_ofBytes {b i : ℕ} (hi : i < N0) (last : Bool) :
    laneOf (Axis.ofBytes (N0 * 32)
        (((hostBytes items).drop (4 * N0 * b)).take (4 * N0)) last).data i
      = items.getD (b * N0 + i) 0 := by
  set bytes := ((hostBytes items).drop (4 * N0 * b)).take (4 * N0) with hbytes
  have hlen : bytes.length ≤ 4 * N0 := by
    rw [hbytes, List.length_take]
    exact Nat.min_le_left _ _
  have hlt : leNat bytes < 2 ^ (N0 * 32) := by
    refine lt_of_lt_of_le (leNat_lt bytes) ?_
    rw [show (256 : ℕ) = 2 ^ 8 by rfl, ← pow_mul]
    exact Nat.pow_le_pow_right (by decide) (by omega)
  -- the lane is a word of the bytes, and of all bytes
  have hword : wordAt 4 bytes i = wordAt 4 (hostBytes items) (b * N0 + i) := by
    unfold wordAt
    have hofs : 4 * N0 * b + 4 * i = 4 * (b * N0 + i) := by ring
    rw [hbytes, List.drop_take, List.take_take, List.drop_drop,
      min_eq_left (by omega), hofs]
  refine BitVec.eq_of_toNat_eq ?_
  show ((BitVec.ofNat (N0 * 32) (leNat bytes)).extractLsb'
    (32 * i) 32).toNat = _
  rw [BitVec.extractLsb'_toNat, Nat.shiftRight_eq_div_pow, BitVec.toNat_ofNat,
    Nat.mod_eq_of_lt hlt]
  have hslice := wordAt_eq 4 bytes i
  rw [show (256 : ℕ) = 2 ^ 8 by rfl, ← pow_mul, ← pow_mul, ← Nat.mul_assoc]
    at hslice
  refine hslice.symm.trans (hword.trans ?_)
  rw [List.getD_eq_getElem?_getD]
  cases hx : items[b * N0 + i]? with
  | some x => exact wordAt_flatMap_leBytes (n := 4) items hx
  | none =>
    have hnone := List.getElem?_eq_none_iff.mp hx
    unfold wordAt
    rw [List.drop_eq_nil_of_le (by rw [length_hostBytes]; omega)]
    rfl

/-- An array with zeros behind it, entry by entry, as far as the zeros go. -/
theorem getElem?_append_replicate_zero {n k : ℕ} (hn : items.length ≤ n) :
    (items ++ List.replicate (n - items.length) 0)[k]?
      = if k < n then some (items.getD k 0) else none := by
  rcases Nat.lt_or_ge k items.length with hk | hk
  · rw [List.getElem?_append_left hk, if_pos (by omega),
      List.getD_eq_getElem _ _ hk,
      List.getElem?_eq_getElem hk]
  · rw [List.getElem?_append_right hk, List.getElem?_replicate,
      List.getD_eq_default _ _ hk]
    exact if_congr (by omega) rfl rfl

/-- **The items of the transfer** are those of the array, with zeros behind them
up to the end of the last beat. -/
theorem itemsOf_transferred (hN0 : 0 < N0) :
    itemsOf (transferred N0 items) = items ++ List.replicate
      (beatCount (4 * N0) (4 * items.length) * N0 - items.length) 0 := by
  refine List.ext_getElem? (fun k => ?_)
  rw [getElem?_append_replicate_zero items (beatCount_spec hN0 items.length).1]
  unfold itemsOf
  rw [getElem?_flatMap_block hN0 _ _ (fun x _ => length_wordItems x)]
  rcases Nat.lt_or_ge k
    (beatCount (4 * N0) (4 * items.length) * N0) with hk | hk
  · have hb : k / N0 < beatCount (4 * N0) (hostBytes items).length := by
      rw [length_hostBytes]
      exact Nat.div_lt_of_lt_mul (by rwa [Nat.mul_comm])
    have hi : k % N0 < N0 := Nat.mod_lt k hN0
    unfold transferred transfer
    dsimp only
    rw [if_pos hk, List.map_map, List.getElem?_map,
      List.getElem?_range hb, Option.map_some,
      Option.bind_some, wordItems, List.getElem?_map,
        List.getElem?_range hi, Option.map_some]
    refine congrArg some ((laneOf_ofBytes items hi _).trans ?_)
    rw [Nat.div_add_mod']
  · have hb : beatCount (4 * N0) (4 * items.length) ≤ k / N0 :=
      (Nat.le_div_iff_mul_le hN0).mpr hk
    rw [if_neg (Nat.not_lt.mpr hk),
      List.getElem?_eq_none (by rwa [length_transferred]),
      Option.bind_none]

/-- An array that fills its beats is transferred as it is, with nothing behind
it. -/
theorem itemsOf_transferred_of_dvd (hN0 : 0 < N0) (h : N0 ∣ items.length) :
    itemsOf (transferred N0 items) = items := by
  obtain ⟨m, hm⟩ := h
  obtain ⟨h₁, h₂⟩ := beatCount_spec hN0 items.length
  have hcount : beatCount (4 * N0) (4 * items.length) * N0 ≤ items.length := by
    rw [hm, Nat.mul_comm N0] at h₂ ⊢
    rw [← Nat.succ_mul] at h₂
    exact Nat.mul_le_mul_right _
      (Nat.le_of_lt_succ (Nat.lt_of_mul_lt_mul_right h₂))
  rw [itemsOf_transferred items hN0, Nat.sub_eq_zero_of_le hcount]
  exact List.append_nil items

/-- Only such an array is transferred with its length. The lengths are compared
as the 32-bit counter of the record sees them, and the padding is too short to
wrap around it. -/
theorem dvd_of_length_itemsOf (hN0 : 0 < N0) (hlt : N0 < 2 ^ 32)
    (h : (itemsOf (transferred N0 items)).length % 2 ^ 32
      = items.length % 2 ^ 32) :
    N0 ∣ items.length := by
  obtain ⟨h₁, h₂⟩ := beatCount_spec hN0 items.length
  rw [length_itemsOf, length_transferred] at h
  have heq : beatCount (4 * N0) (4 * items.length) * N0
    = items.length := by omega
  rw [← heq]
  exact Nat.dvd_mul_left _ _

/-- A transfer of something has a beat, so that the kernel gets a job. -/
theorem transferred_ne_nil (hN0 : 0 < N0) (hitems : items ≠ []) :
    ∀ job ∈ [transferred N0 items], job ≠ [] := by
  have hpos := List.length_pos_iff.mpr hitems
  obtain ⟨h₁, -⟩ := beatCount_spec hN0 items.length
  rw [List.forall_mem_singleton, ← List.length_pos_iff, length_transferred]
  exact Nat.pos_of_mul_pos_right (lt_of_lt_of_le hpos h₁)

end Packing

/-! ## What a record says about the items

The condition is on the array alone; the statement is about every run that has
come to rest. -/

/-- **A structure that describes items**: their number, their least and their
greatest, their sum and sum of squares, and rows of counts of all of them. All
but the extremes are modulo the word they are kept in. -/
structure OutputT.DescribesItems {R C P : ℕ} (out : OutputT R (C * 2 ^ P))
    (items : List (BitVec 32)) : Prop where
  /-- The number of the items, in 32 bits. -/
  cnt : out.cnt = BitVec.ofNat 32 items.length
  /-- The extremes are those of the order, and so cannot be cut. -/
  min : IsLeast {x | x ∈ items} out.min
  max : IsGreatest {x | x ∈ items} out.max
  /-- The sums are modulo their registers. -/
  sum : out.sum = BitVec.ofNat 64 (items.map BitVec.toNat).sum
  sumq : out.sumqHi.toNat * 2 ^ 64 + out.sumq.toNat
    = (items.map (fun x => x.toNat ^ 2)).sum % 2 ^ 96
  /-- Every row of counts adds up to the number of the items. -/
  cm : ∀ j : Fin C,
    (∑ k : Fin (2 ^ P), (out.cm (finProdFinEquiv (j, k))).toNat) % 2 ^ 32
    = items.length % 2 ^ 32

/-- A count by its row and its key, at its place in the structure. -/
theorem OutputT.Describes.cm_pair {F : Type} {R C P : ℕ} {bits : F → BitVec 32}
    {out : OutputT R (C * 2 ^ P)} {r : JobResult F R C P}
    (h : out.Describes bits r) (j : Fin C)
    (k : Fin (2 ^ P)) :
    out.cm (finProdFinEquiv (j, k)) = r.counts j (BitVec.ofFin k) := by
  have hidx : (finProdFinEquiv (j, k)).val = j.val * 2 ^ P
    + (BitVec.ofFin k).toNat := by
    show k.val + 2 ^ P * j.val = j.val * 2 ^ P + k.val
    rw [Nat.add_comm, Nat.mul_comm]
  rw [← h.cm j (BitVec.ofFin k) (hidx ▸ (finProdFinEquiv (j, k)).isLt)]
  exact congrArg out.cm (Fin.ext hidx)

namespace Kernel

variable {cfg : Config} {fl : HllFloat cfg.hashBits cfg.pHll} {N : ℕ}

/-- **A run that describes items**: its output is a record that does, and the
ranks and the AGMS counters it has fed on are those of the items. -/
structure DescribesItems (s : Kernel cfg fl N)
    (items : List (BitVec 32)) : Prop where
  /-- The output is one record, and what the host reads from it describes the
  items. -/
  record : ∃ record, s.dst.written.map Axis.flit = frame record
    ∧ (OutputT.read cfg.rAgms (cfg.rCm * 2 ^ cfg.pCm)
      (bytesOf record)).DescribesItems items
  /-- The estimator was given the ranks of the items. -/
  ranks : (s.hll.counts 0).written
    = frame (tableList
      (hllTable cfg.hashBits cfg.pHll cfg.hash (items : List _)))
  /-- The sums were formed from the AGMS counters of the items. -/
  agms : ∀ j, (s.agms.counts j).written
    = frame (tableList
      (agmsTable cfg.hashBits cfg.pAgms cfg.hash j (items : List _)))

/-- The record of a single job, which is all there is on `dst` when the run has
come to rest. -/
theorem Sound.exists_record {job : List (BitVec (cfg.n0 * 32))}
    {s : Kernel cfg fl N} (h : s.Sound [job]) (hc : s.Complete [job]) :
    ∃ cycs, s.dst.written.map Axis.flit
      = frame ((resultOf cfg fl N job).words fl.bits cycs) := by
  obtain ⟨cycs, hcycs⟩ := h.compose.eq_words cfg.rCm_pos cfg.pCm_pos (by
    rw [List.length_map]
    exact hc.records)
  refine ⟨cycs 0, ?_⟩
  rw [h.dstMap, hc.dst, hcycs, List.map_map]
  exact (List.map_id' _).trans (List.append_nil _)

/-- **The record of a job describes its items**: those of its words, with
whatever padding there is among them. -/
theorem describesItems_words (fl : HllFloat cfg.hashBits cfg.pHll)
    {job : List (BitVec (cfg.n0 * 32))} (hitems : itemsOf job ≠ [])
    (cycs : BitVec 32) :
    (OutputT.read cfg.rAgms (cfg.rCm * 2 ^ cfg.pCm)
      (bytesOf
        ((resultOf cfg fl cfg.n0 job).words fl.bits cycs))).DescribesItems
      (itemsOf job) := by
  have hread := @read_words _ _ _ _ fl.bits cfg.pCm_pos
    (resultOf cfg fl cfg.n0 job) cycs
  have hbasic : (resultOf cfg fl cfg.n0 job).basic = statsOf (itemsOf job) :=
    jobStats_eq_statsOf (le_two_pow_clog2 cfg.n0) job
  refine ⟨?_, ?_, ?_, ?_, ?_, fun j => ?_⟩
  · rw [hread.cnt, hbasic]
    rfl
  · rw [hread.min, hbasic]
    exact isLeast_foldl_stdMin hitems
  · rw [hread.max, hbasic]
    exact isGreatest_foldl_stdMax hitems
  · rw [hread.sum, hbasic]
    rfl
  · rw [hread.sumq, hbasic]
    exact BitVec.toNat_ofNat _ _
  · have hcm : ∀ k : Fin (2 ^ cfg.pCm),
      ((OutputT.read cfg.rAgms (cfg.rCm * 2 ^ cfg.pCm)
        (bytesOf ((resultOf cfg fl cfg.n0 job).words fl.bits cycs))).cm
          (finProdFinEquiv (j, k))).toNat
        = Sketch.cm cfg.pCm cfg.hash (itemsOf job : List _) j k % 2 ^ 32 := by
      intro k
      rw [hread.cm_pair]
      show (cmTable cfg.hashBits cfg.pCm cfg.hash j (itemsOf job : List _)
        (BitVec.ofFin k)).toNat = _
      rw [cmTable_eq, BitVec.toNat_ofNat]
      rfl
    rw [Finset.sum_congr rfl (fun k _ => hcm k), ← Finset.sum_nat_mod,
      Fin.sum_univ_eq_sum_range
        (fun k => Sketch.cm cfg.pCm cfg.hash (itemsOf job : List _) j k),
      Sketch.sum_cm, Multiset.coe_card]

/-- In a run that has come to rest, describing some items needs the number of
the items of the transfer. The count of the record gives it away. -/
theorem Sound.dvd_of_describesItems {items : List (BitVec 32)}
    {s : Kernel cfg fl cfg.n0} (h : s.Sound [transferred cfg.n0 items])
    (hc : s.Complete [transferred cfg.n0 items])
    (hdesc : s.DescribesItems items) : cfg.n0 ∣ items.length := by
  obtain ⟨record, hrecord, hout⟩ := hdesc.record
  obtain ⟨cycs, hwords⟩ := h.exists_record hc
  have heq := congrArg (List.map Flit.val) (hrecord.symm.trans hwords)
  rw [map_val_frame, map_val_frame] at heq
  have hcnt := hout.cnt
  rw [heq, (read_words cfg.pCm_pos _ cycs).cnt] at hcnt
  have hstats : (resultOf cfg fl cfg.n0 (transferred cfg.n0 items)).basic
      = statsOf (itemsOf (transferred cfg.n0 items)) :=
    jobStats_eq_statsOf (le_two_pow_clog2 cfg.n0) _
  rw [hstats] at hcnt
  refine dvd_of_length_itemsOf items cfg.n0_pos cfg.n0_lt ?_
  have hNat := congrArg BitVec.toNat hcnt
  rwa [statsOf, BitVec.toNat_ofNat, BitVec.toNat_ofNat] at hNat

/-- An array that fills its beats is described, since its transfer has its items
and no others. -/
theorem Sound.describesItems_of_dvd {items : List (BitVec 32)}
    {s : Kernel cfg fl cfg.n0} (h : s.Sound [transferred cfg.n0 items])
    (hc : s.Complete [transferred cfg.n0 items]) (hitems : items ≠ [])
    (hdvd : cfg.n0 ∣ items.length) :
    s.DescribesItems items := by
  have hall := itemsOf_transferred_of_dvd items cfg.n0_pos hdvd
  obtain ⟨cycs, hwords⟩ := h.exists_record hc
  have hdesc := describesItems_words fl (by rwa [hall]) cycs
  rw [hall] at hdesc
  have hranks := hc.ranks
  rw [List.flatMap_singleton, ranksOf, hall] at hranks
  refine ⟨⟨_, hwords, hdesc⟩, hranks, fun j => ?_⟩
  have hagms := hc.agmsCounts j
  rwa [List.flatMap_singleton, agmsCounts, hall] at hagms

/-- **The record describes the items of the host if and only if they fill their
beats.** The kernel of `N0` lanes, on the transfer of an array: some run comes
to rest, and whichever does describes the items of the array exactly when their
number is a multiple of `N0`. -/
theorem describesItems_iff (fl : HllFloat cfg.hashBits cfg.pHll)
    {items : List (BitVec 32)} (hitems : items ≠ []) :
    let s := fun order => (start fl cfg.n0 (transfer cfg.n0 items)).after order
    (∃ order, (s order).Quiescent) ∧ ∀ order, (s order).Quiescent →
      ((s order).DescribesItems items ↔ cfg.n0 ∣ items.length) := by
  intro s
  have hjobs := transferred_ne_nil items cfg.n0_pos hitems
  have hinput : (transfer cfg.n0 items).map Axis.flit
      = [transferred cfg.n0 items].flatMap frame :=
    map_flit_transfer items
  obtain ⟨schedule, hq⟩ := exists_quiescent fl cfg.n0_pos le_rfl hjobs hinput
  refine ⟨⟨.calls schedule, hq⟩, fun order hq => ?_⟩
  have hs : (s order).Sound [transferred cfg.n0 items] :=
    sound_after cfg.n0_pos le_rfl hjobs hinput order
  have hc := hs.complete hjobs cfg.n0_pos le_rfl hq
  exact ⟨hs.dvd_of_describesItems hc, hs.describesItems_of_dvd hc hitems⟩

/-- The equivalence at an array of two beats, which its items fill. -/
theorem describesItems_iff_instance :
    let s := fun order => (start (HllFloat.single _ Config.shipped.pHll) 16
      (transfer 16 (List.replicate 32 7))).after order
    (∃ order, (s order).Quiescent) ∧ ∀ order, (s order).Quiescent →
      ((s order).DescribesItems (List.replicate 32 7)
        ↔ 16 ∣ (List.replicate 32 7).length) :=
  @describesItems_iff Config.shipped (HllFloat.single _ _)
    (List.replicate 32 7) (by decide)

/-- **A record counts the padding of its last beat**: a single item is counted
as sixteen. -/
theorem not_describesItems_one :
    let s := fun order => (start (HllFloat.single _ Config.shipped.pHll) 16
      (transfer 16 [5])).after order
    (∃ order, (s order).Quiescent)
      ∧ ∀ order, (s order).Quiescent → ¬ (s order).DescribesItems [5] := by
  intro s
  have hjobs : ∀ job ∈ [transferred 16 [5]], job ≠ [] :=
    transferred_ne_nil [5] (by decide) (by decide)
  have hinput : (transfer 16 [5]).map Axis.flit
    = [transferred 16 [5]].flatMap frame :=
    map_flit_transfer [5]
  obtain ⟨schedule, hq⟩ :=
    exists_quiescent (HllFloat.single _ Config.shipped.pHll)
    (by decide) le_rfl hjobs hinput
  refine ⟨⟨.calls schedule, hq⟩, fun order hq hdesc => ?_⟩
  have hs : (s order).Sound [transferred 16 [5]] :=
    sound_after (by decide) le_rfl hjobs hinput order
  have hdvd : 16 ∣ 1 := hs.dvd_of_describesItems
    (hs.complete hjobs (by decide) le_rfl hq) hdesc
  exact absurd hdvd (by decide)

end Kernel

end Skt.Hardware
