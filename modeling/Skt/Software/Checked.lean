import Skt.Software.Summary

/-!
# The collection loop with its accesses checked

`skt_collect_base` computes a bucket, shifts of the hash word and an argument
for `clz_nz` from the precisions it is given, and the language leaves it open
what happens when a shift amount reaches the width of the shifted type, when an
index is outside of its array, or when the leading zeros of zero are counted.
Here every such operation is partial, and the loop fails with the first one that
does.

`skt_bench` checks its arguments before it builds a collector. For the arguments
it accepts, the checked loop is the loop of `Skt.Software.Collector`, *as long
as there is at least one bit of HyperLogLog precision*. With none, the hash word
is shifted by its own width.

The message of the check for the precision says that it has to be lower than 16,
while 16 is accepted and is what the documentation uses. The lower end is not
checked at all.
-/

namespace Skt

open Bits Table

/-! ## Partial operations

They fail where the language does not define them, for the types the source has
at that place. -/

/-- `x << n`, whose amount is below the width of `x`. -/
def shiftLeft? {w : ℕ} (x : BitVec w) (n : ℕ) : Option (BitVec w) :=
  if n < w then some (x <<< n) else none

/-- `x >> n`, whose amount is below the width of `x`. -/
def shiftRight? {w : ℕ} (x : BitVec w) (n : ℕ) : Option (BitVec w) :=
  if n < w then some (x >>> n) else none

/-- `clz_nz(x)`, for an argument that is not zero, as its name asks for. -/
def clzNz? {W : ℕ} [ClzNz W] (x : BitVec W) : Option ℕ :=
  if x ≠ 0 then some (ClzNz.clzNz x) else none

/-- An update of the entry `i` of a table, which has it. -/
def modify? (t : List (BitVec 32)) (i : ℕ) (f : BitVec 32 → BitVec 32) :
    Option (List (BitVec 32)) :=
  if i < t.length then some (t.modify i f) else none

/-- A difference of two values of type `unsigned`, which wraps and is always
defined. -/
def unsignedSub (a b : ℕ) : ℕ := (a + 2 ^ 32 - b) % 2 ^ 32

/-! ## The loop -/

/-- What `skt_collect_base` computes ahead of its loop. The strides and masks
are `uint32_t` whatever the width of the hash word. -/
structure CollectConstants where
  /-- `rest_c` -/
  restC : ℕ
  /-- `arow_stride` -/
  arowStride : BitVec 32
  /-- `aofs_mask` -/
  aofsMask : BitVec 32
  /-- `abit_shift` -/
  abitShift : ℕ
  /-- `cofs_mask` -/
  cofsMask : BitVec 32
  /-- `crow_stride` -/
  crowStride : BitVec 32

/-- The constants, for hash words of `W` bits. The strides are shifts of a
32-bit one, so they have to be in range even if there is nothing to collect. -/
def collectConstants? (W hpVal apVal cpVal : ℕ) : Option CollectConstants := do
  let arowStride ← shiftLeft? 1#32 apVal
  let crowStride ← shiftLeft? 1#32 cpVal
  return { restC := unsignedSub W hpVal
           arowStride := arowStride
           aofsMask := arowStride - 1#32
           abitShift := unsignedSub apVal 1
           cofsMask := crowStride - 1#32
           crowStride := crowStride }

section CollectBase

variable {W : ℕ}

/-- The HyperLogLog update of one item: two shifts, a count and an access. -/
def hllUpdate? [ClzNz W] (k : CollectConstants) (hpVal : ℕ) (hashv : BitVec W)
    (buckets : List (BitVec 32)) : Option (List (BitVec 32)) := do
  let bucket ← shiftRight? hashv k.restC
  let filled ← shiftLeft? (hashv + 1#W) hpVal
  let clz ← clzNz? (filled - 1#W)
  let lzcnt := BitVec.ofNat 32 clz
  modify? buckets bucket.toNat
    (fun bucket => if bucket ≤ lzcnt then lzcnt + 1#32 else bucket)

/-- One turn of the AGMS loop, on `ahashv`, `agms_row_base` and the table. The
row's offset is cut off at 32 bits, the type of `arow_ofs`. -/
def agmsTurn? (k : CollectConstants) (s : BitVec W × ℕ × List (BitVec 32)) :
    Option (BitVec W × ℕ × List (BitVec 32)) := do
  let (ahashv, rowBase, table) := s
  let rowOfs := (ahashv &&& k.aofsMask.setWidth W).setWidth 32
  let ahashv ← shiftRight? ahashv k.abitShift
  let table ← modify? table (rowBase + rowOfs.toNat) (fun c =>
    (c.signExtend W + ((ahashv &&& 2#W) - 1#W)).setWidth 32)
  let ahashv ← shiftRight? ahashv 2
  return (ahashv, rowBase + k.arowStride.toNat, table)

/-- One turn of the Count-Min loop, on `chashv`, `cm_row_base` and the table. -/
def cmTurn? (k : CollectConstants) (cpVal : ℕ)
    (s : BitVec W × ℕ × List (BitVec 32)) :
    Option (BitVec W × ℕ × List (BitVec 32)) := do
  let (chashv, rowBase, table) := s
  let table ← modify? table (rowBase + (chashv &&& k.cofsMask.setWidth W).toNat)
    (fun c => c + 1#32)
  let chashv ← shiftRight? chashv cpVal
  return (chashv, rowBase + k.crowStride.toNat, table)

/-- One turn of the loop over the items, in the order of the source: the
registers first, then the two tables of counters. -/
def collectItem? [ClzNz W] (hash : BitVec 32 → BitVec W) (k : CollectConstants)
    (hpVal arVal crVal cpVal : ℕ) (t : SktTables) (x : BitVec 32) :
    Option SktTables := do
  let hashv := hash x
  let bucketsHll ← hllUpdate? k hpVal hashv t.bucketsHll
  let agms ← (List.range arVal).foldlM (fun s _ => agmsTurn? k s)
    (hashv, 0, t.tableAgms)
  let cm ← (List.range crVal).foldlM (fun s _ => cmTurn? k cpVal s)
    (hashv, 0, t.tableCm)
  return ⟨bucketsHll, agms.2.2, cm.2.2⟩

/-- `skt_collect_base`, with every operation checked. -/
def sktCollectBase? [ClzNz W] (hash : BitVec 32 → BitVec W)
    (data : List (BitVec 32))
    (t : SktTables) (hpVal arVal apVal crVal cpVal : ℕ) : Option SktTables := do
  let k ← collectConstants? W hpVal apVal cpVal
  data.foldlM (collectItem? hash k hpVal arVal crVal cpVal) t

end CollectBase

/-- `collect`, with every operation checked, at the collector's own
dimensions. -/
def SktCollector.collect? (c : SktCollector) (data : List (BitVec 32)) :
    Option SktTables :=
  sktCollectBase? (hash c.dispatch) data c.toSktTables c.pHll
    c.rAgms c.pAgms c.rCm c.pCm

/-- The range checks `skt_bench` makes of its arguments, with what it prints.
The last message names the AGMS buckets where the Count-Min buckets are checked,
as in the source. -/
def checkArguments (hpVal arVal apVal crVal cpVal : ℕ) : Except String Unit :=
  if hpVal > 16 then
    .error "HLL precision bits has to be lower than 16."
  else if arVal < 1 ∨ arVal > 8 then
    .error "AGMS num_rows out of valid range [1:8]."
  else if apVal < 4 ∨ apVal > 16 then
    .error "AGMS bucket_bits out of valid range [4:16]."
  else if crVal < 1 ∨ crVal > 8 then
    .error "CM num_rows out of valid range [1:8]."
  else if cpVal < 4 ∨ cpVal > 16 then
    .error "AGMSbucket_bits out of valid range [4:16]."
  else .ok ()

/-! ## The checks that pass

Each partial operation is its total counterpart where it is in range. The rest
of the section shows that it is, for the arguments the benchmark accepts. -/

/-- A shift below the width is the shift. -/
theorem shiftRight?_eq {w n : ℕ} (h : n < w) (x : BitVec w) :
    shiftRight? x n = some (x >>> n) :=
  if_pos h

/-- A shift below the width is the shift. -/
theorem shiftLeft?_eq {w n : ℕ} (h : n < w) (x : BitVec w) :
    shiftLeft? x n = some (x <<< n) :=
  if_pos h

/-- An update in the table is the update. -/
theorem modify?_eq {t : List (BitVec 32)} {i : ℕ} (h : i < t.length)
    (f : BitVec 32 → BitVec 32) :
    modify? t i f = some (t.modify i f) := if_pos h

/-- A difference that is not negative does not wrap. -/
theorem unsignedSub_eq {a b : ℕ} (hb : b ≤ a) (ha : a < 2 ^ 32) :
    unsignedSub a b = a - b := by
  unfold unsignedSub
  omega

/-- What the constants are, as numbers and as masks of a hash word. -/
structure CollectConstants.Are (k : CollectConstants)
    (W hpVal apVal cpVal : ℕ) : Prop where
  /-- The shift that leaves the bucket. -/
  restC : k.restC = W - hpVal
  /-- The entries of an AGMS row. -/
  arowStride : k.arowStride.toNat = 2 ^ apVal
  /-- The mask that leaves the key of an AGMS row. -/
  aofsMask : k.aofsMask.setWidth W = BitVec.ofNat W (2 ^ apVal - 1)
  abitShift : k.abitShift = apVal - 1
  /-- The mask that leaves the key of a Count-Min row. -/
  cofsMask : k.cofsMask.setWidth W = BitVec.ofNat W (2 ^ cpVal - 1)
  /-- The entries of a Count-Min row. -/
  crowStride : k.crowStride.toNat = 2 ^ cpVal

/-- A stride, as a word. -/
theorem toNat_stride {p : ℕ} (hp : p < 32) : (1#32 <<< p).toNat = 2 ^ p := by
  have hlt : 2 ^ p < 2 ^ 32 := Nat.pow_lt_pow_right (by decide) hp
  rw [BitVec.toNat_shiftLeft, Nat.shiftLeft_eq,
    show (1#32).toNat = 1 from rfl, Nat.one_mul,
    Nat.mod_eq_of_lt hlt]

/-- The mask below a stride, for the width of a hash word. -/
theorem setWidth_mask (W : ℕ) {p : ℕ} (hp : p < 32) :
    (1#32 <<< p - 1#32).setWidth W = BitVec.ofNat W (2 ^ p - 1) := by
  have hlt : 2 ^ p < 2 ^ 32 := Nat.pow_lt_pow_right (by decide) hp
  have hpos : 0 < 2 ^ p := Nat.two_pow_pos p
  have hmask : (1#32 <<< p - 1#32).toNat = 2 ^ p - 1 := by
    rw [BitVec.toNat_sub, toNat_stride hp, show (1#32).toNat = 1 from rfl]
    omega
  refine BitVec.eq_of_toNat_eq ?_
  rw [BitVec.toNat_setWidth, hmask, BitVec.toNat_ofNat]

/-- **The constants are what they should be**, in the range of the arguments. -/
theorem exists_collectConstants {W hpVal apVal cpVal : ℕ} (h128 : W ≤ 128)
    (hhp : hpVal ≤ W) (hap : 0 < apVal) (hap' : apVal < 32) (hcp : cpVal < 32) :
    ∃ k, collectConstants? W hpVal apVal cpVal = some k
      ∧ k.Are W hpVal apVal cpVal := by
  unfold collectConstants?
  rw [shiftLeft?_eq hap', shiftLeft?_eq hcp]
  refine ⟨_, rfl,
    ⟨unsignedSub_eq hhp (by omega), toNat_stride hap', setWidth_mask W hap',
    unsignedSub_eq hap (by omega), setWidth_mask W hcp, toNat_stride hcp⟩⟩

section Turns

variable {W hpVal arVal apVal crVal cpVal : ℕ} {k : CollectConstants}

/-- **With a bit of precision, the HyperLogLog update passes its checks**: the
bucket is in the array, and the ones shifted in below the hash word keep the
argument of `clz_nz` from being zero. -/
theorem hllUpdate?_eq [ClzNz W] (hk : k.Are W hpVal apVal cpVal)
    (hpos : 0 < hpVal) (hlt : hpVal < W) (hashv : BitVec W)
    {buckets : List (BitVec 32)} (hlength : buckets.length = 2 ^ hpVal) :
    hllUpdate? k hpVal hashv buckets
      = some (hllUpdate hpVal hashv buckets) := by
  have hbucket : (hashv >>> (W - hpVal)).toNat < buckets.length := by
    rw [hlength, BitVec.toNat_ushiftRight, Nat.shiftRight_eq_div_pow]
    exact Sketch.hllBucket_lt hpVal hlt.le hashv
  have hclz : clzNz? ((hashv + 1#W) <<< hpVal - 1#W)
      = some (ClzNz.clzNz ((hashv + 1#W) <<< hpVal - 1#W)) := 
      if_pos (fill_ne_zero hpos hlt.le hashv)
  unfold hllUpdate?
  rw [hk.restC, shiftRight?_eq (by omega), shiftLeft?_eq hlt]
  simp only [Option.bind_eq_bind, Option.bind_some, hclz]
  exact modify?_eq hbucket _

/-- **Without any, the hash word is shifted by its own width.** That is the
first operation of the update, so nothing of it is done. -/
theorem hllUpdate?_eq_none [ClzNz W] (hk : k.Are W 0 apVal cpVal)
    (hashv : BitVec W)
    (buckets : List (BitVec 32)) : hllUpdate? k 0 hashv buckets = none := by
  unfold hllUpdate? shiftRight?
  rw [hk.restC, Nat.sub_zero, if_neg (lt_irrefl W)]
  rfl

/-- A turn of the AGMS loop passes its checks: both shifts are below the width
and the entry lies in its row. -/
theorem agmsTurn?_eq (hk : k.Are W hpVal apVal cpVal) (h32 : 32 ≤ W)
    (hap : apVal < 32) {n : ℕ} (hn : n < arVal) (ahashv : BitVec W)
    {table : List (BitVec 32)} (hlength : table.length = 2 ^ apVal * arVal) :
    agmsTurn? k (ahashv, n * 2 ^ apVal, table)
      = some (agmsTurn apVal (ahashv, n * 2 ^ apVal, table)) := by
  have hslice : (ahashv &&& BitVec.ofNat W (2 ^ apVal - 1)).toNat
    < 2 ^ apVal := by
    rw [toNat_and_mask]
    exact slice_lt _ _ _
  have hofs : ((ahashv &&& k.aofsMask.setWidth W).setWidth 32).toNat
      = (ahashv &&& BitVec.ofNat W (2 ^ apVal - 1)).toNat := by
    have hlt : 2 ^ apVal < 2 ^ 32 := Nat.pow_lt_pow_right (by decide) hap
    rw [hk.aofsMask, BitVec.toNat_setWidth, Nat.mod_eq_of_lt (hslice.trans hlt)]
  have hentry : n * 2 ^ apVal
    + (ahashv &&& BitVec.ofNat W (2 ^ apVal - 1)).toNat
      < table.length := by
    rw [hlength]
    exact SktCollector.row_position_lt hn hslice
  unfold agmsTurn?
  simp only [hofs, hk.abitShift, hk.arowStride,
    shiftRight?_eq (show apVal - 1 < W by omega),
    shiftRight?_eq (show 2 < W by omega), Option.bind_eq_bind, Option.bind_some,
    modify?_eq hentry]
  rfl

/-- A turn of the Count-Min loop passes its checks. -/
theorem cmTurn?_eq (hk : k.Are W hpVal apVal cpVal) (h32 : 32 ≤ W)
    (hcp : cpVal < 32) {n : ℕ} (hn : n < crVal) (chashv : BitVec W)
    {table : List (BitVec 32)} (hlength : table.length = 2 ^ cpVal * crVal) :
    cmTurn? k cpVal (chashv, n * 2 ^ cpVal, table)
      = some (cmTurn cpVal (chashv, n * 2 ^ cpVal, table)) := by
  have hslice : (chashv &&& BitVec.ofNat W (2 ^ cpVal - 1)).toNat
    < 2 ^ cpVal := by
    rw [toNat_and_mask]
    exact slice_lt _ _ _
  have hentry : n * 2 ^ cpVal
    + (chashv &&& BitVec.ofNat W (2 ^ cpVal - 1)).toNat
      < table.length := by
    rw [hlength]
    exact SktCollector.row_position_lt hn hslice
  unfold cmTurn?
  simp only [hk.cofsMask, hk.crowStride,
    shiftRight?_eq (show cpVal < W by omega),
    Option.bind_eq_bind, Option.bind_some, modify?_eq hentry]
  rfl

/-- **An item passes its checks**, in tables of the lengths that were
allocated. -/
theorem collectItem?_eq [ClzNz W] (hash : BitVec 32 → BitVec W)
    (hk : k.Are W hpVal apVal cpVal) (h32 : 32 ≤ W) (hpos : 0 < hpVal)
    (hhp : hpVal < W) (hap : 0 < apVal) (hap' : apVal < 32) (hcp : cpVal < 32)
    {t : SktTables} (hhll : t.bucketsHll.length = 2 ^ hpVal)
    (hagms : t.tableAgms.length = 2 ^ apVal * arVal)
    (hcm : t.tableCm.length = 2 ^ cpVal * crVal) (x : BitVec 32) :
    collectItem? hash k hpVal arVal crVal cpVal t x
      = some (collectItem hash hpVal arVal apVal crVal cpVal t x) := by
  -- at every turn the loops stand at the row of their number
  have hagmsLoop : (List.range arVal).foldlM (fun s _ => agmsTurn? k s)
    (hash x, 0, t.tableAgms)
      = some ((agmsTurn apVal)^[arVal] (hash x, 0, t.tableAgms)) := by
    refine foldlM_range_eq_iterate (fun n hn => ?_)
    rw [agmsTurn_iterate apVal hap h32]
    exact agmsTurn?_eq hk h32 hap' hn _ (by rw [length_rowUpdates, hagms])
  have hcmLoop : (List.range crVal).foldlM (fun s _ => cmTurn? k cpVal s)
    (hash x, 0, t.tableCm)
      = some ((cmTurn cpVal)^[crVal] (hash x, 0, t.tableCm)) := by
    refine foldlM_range_eq_iterate (fun n hn => ?_)
    rw [cmTurn_iterate]
    exact cmTurn?_eq hk h32 hcp hn _ (by rw [length_rowUpdates, hcm])
  unfold collectItem?
  simp only [hllUpdate?_eq hk hpos hhp (hash x) hhll, hagmsLoop, hcmLoop,
    Option.bind_eq_bind,
    Option.bind_some]
  rfl

/-- Without a bit of precision, no item does. -/
theorem collectItem?_eq_none [ClzNz W] (hash : BitVec 32 → BitVec W)
    (hk : k.Are W 0 apVal cpVal) (t : SktTables) (x : BitVec 32) :
    collectItem? hash k 0 arVal crVal cpVal t x = none := by
  unfold collectItem?
  simp only [hllUpdate?_eq_none hk]
  rfl

/-- **All items pass their checks**, as an item leaves the tables as long as
they were. -/
theorem foldlM_collectItem?_eq [ClzNz W] (hash : BitVec 32 → BitVec W)
    (hk : k.Are W hpVal apVal cpVal) (h32 : 32 ≤ W) (hpos : 0 < hpVal)
    (hhp : hpVal < W) (hap : 0 < apVal) (hap' : apVal < 32) (hcp : cpVal < 32)
    (data : List (BitVec 32)) {t : SktTables}
    (hhll : t.bucketsHll.length = 2 ^ hpVal)
    (hagms : t.tableAgms.length = 2 ^ apVal * arVal)
    (hcm : t.tableCm.length = 2 ^ cpVal * crVal) :
    data.foldlM (collectItem? hash k hpVal arVal crVal cpVal) t
      = some (sktCollectBase hash data t hpVal arVal apVal crVal cpVal) := by
  induction data generalizing t with
  | nil => rfl
  | cons x data ih =>
    obtain ⟨h1, h2, h3⟩ :=
      length_collectItem hash hpVal arVal apVal crVal cpVal t x
    rw [List.foldlM_cons,
      collectItem?_eq hash hk h32 hpos hhp hap hap' hcp hhll hagms hcm]
    exact ih (h1.trans hhll) (h2.trans hagms) (h3.trans hcm)

end Turns

/-! ## The arguments of the benchmark -/

/-- What the range checks let through, as bounds. -/
theorem checkArguments_eq_ok {hpVal arVal apVal crVal cpVal : ℕ}
    (h : checkArguments hpVal arVal apVal crVal cpVal = .ok ()) :
    hpVal ≤ 16 ∧ (1 ≤ arVal ∧ arVal ≤ 8) ∧ (4 ≤ apVal ∧ apVal ≤ 16)
      ∧ (1 ≤ crVal ∧ crVal ≤ 8)
      ∧ 4 ≤ cpVal ∧ cpVal ≤ 16 := by
  unfold checkArguments at h
  split_ifs at h
  omega

namespace SktCollector

/-- **The collection loop is safe just when there is a bit of HyperLogLog
precision**, or nothing to collect; and then it is the loop without checks.

The hypothesis is what the benchmark checks, for any of the hash functions. -/
theorem collect_safe_iff {c : SktCollector}
    (hargs : checkArguments c.pHll c.rAgms c.pAgms c.rCm c.pCm = .ok ())
    (data : List (BitVec 32)) :
    ((c.collect? data).isSome ↔ 0 < c.pHll ∨ data = [])
    ∧ ∀ t, c.collect? data = some t → t = (c.collect data).toSktTables := by
  obtain ⟨hhp, -, ⟨hap, hap'⟩, -, hcp, hcp'⟩ := checkArguments_eq_ok hargs
  have h32 := c.dispatch.le_width
  obtain ⟨k, hk, hare⟩ := exists_collectConstants c.dispatch.width_le
    (show c.pHll ≤ c.dispatch.width by omega) (show 0 < c.pAgms by omega)
    (show c.pAgms < 32 by omega) (show c.pCm < 32 by omega)
  have hloop : c.collect? data = data.foldlM
      (collectItem? (hash c.dispatch) k c.pHll c.rAgms c.rCm c.pCm)
        c.toSktTables := by
    unfold collect? sktCollectBase?
    rw [hk]
    rfl
  rcases Nat.eq_zero_or_pos c.pHll with hzero | hpos
  · cases data with
    | nil =>
      rw [hloop]
      exact ⟨iff_of_true rfl (Or.inr rfl), fun t ht =>
        (Option.some.inj ht).symm⟩
    | cons x data =>
      -- the first item fails at its first shift
      have hnone : c.collect? (x :: data) = none := by
        rw [hzero] at hare hloop
        rw [hloop, List.foldlM_cons,
          collectItem?_eq_none (hash c.dispatch) hare]
        rfl
      rw [hnone]
      refine ⟨iff_of_false (by decide) ?_, fun t ht => by cases ht⟩
      rintro (hpos | hnil)
      · omega
      · cases hnil
  · have hsome := foldlM_collectItem?_eq (hash c.dispatch) hare h32 hpos
      (by omega) (by omega)
      (by omega) (by omega) data c.length_bucketsHll
        c.length_tableAgms c.length_tableCm
    rw [hloop, hsome]
    exact ⟨iff_of_true rfl (Or.inl hpos), fun t ht => (Option.some.inj ht).symm⟩

/-- The arguments of the widest tables. -/
theorem collect_safe_iff_instance :
    let c := new 16 8 16 8 16 .sip
    ((c.collect? [1, 2]).isSome ↔ 0 < c.pHll ∨ [1, 2] = ([] : List (BitVec 32)))
    ∧ ∀ t, c.collect? [1, 2] = some t → t = (c.collect [1, 2]).toSktTables := by
  intro c
  exact collect_safe_iff (show checkArguments 16 8 16 8 16
    = .ok () from rfl) [1, 2]

/-- **No bit of precision is accepted**, and the first item is shifted by its
width. -/
theorem not_collect_safe :
    checkArguments 0 1 4 1 4 = .ok ()
    ∧ ¬ ((new 0 1 4 1 4 .ident).collect? [1]).isSome := by
  decide

end SktCollector

end Skt
