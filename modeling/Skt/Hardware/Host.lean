import Skt.Software.FileClient
import Skt.Software.TextFiles
import Skt.Hardware.Agreement
import Skt.Hardware.Transfer

/-!
# The host program

`skt_stream` sends items to the kernel, those of a binary file or as many as it
is asked for, and reads back a record. It is the third way from a file to a
sketch, and the only one that goes through the hardware. For a file that fills
its beats the record holds what the software finds in it: the rows that
`sketch_fileclient` has too are the same in both, however many threads that
program is run with.

The two programs have different numbers of rows. A row is computed from its own
bits of the hash word, so that the first rows of the one are rows of the other;
this needs the keys to be equally wide, which they are. HyperLogLog is not
compared, since the kernel's hash words are cut.

Without a file the host counts up, and all that is in the record besides the
sketches is known in advance. What the platform does between the program and the
kernel is the transfer of the module before: the calls of the runtime are not
modelled, nor is a transfer that fails.
-/

namespace Skt.Hardware

open Streams LittleEndian SktCollector

/-- The items `data[0..n)` of the host: those of a mapped file, if one is named,
or else numbers that count up. There are none if the file is too short, and the
program ends there. -/
def hostItems (n : ℕ) (dataFile : Option (List Byte)) :
    Option (List (BitVec 32)) :=
  match dataFile with
  | some file => if file.length / 4 < n then none
    else some ((mappedItems file).take n)
  | none => some ((List.range n).map (BitVec.ofNat 32))

/-- The number of the mapped items: four bytes to an item, and a rest is
dropped. -/
theorem length_mappedItems (file : List Byte) :
    (mappedItems file).length = file.length / 4 := by
  unfold mappedItems decodeItems
  rw [List.length_map, LittleEndian.length_words]

/-- A file that is sent as a whole, the number of its items being asked for. -/
theorem hostItems_all (file : List Byte) :
    hostItems (file.length / 4) (some file) = some (mappedItems file) := by
  unfold hostItems
  dsimp only
  rw [if_neg (Nat.lt_irrefl _), ← length_mappedItems, List.take_length]

/-! ## What a record says about a collector

The record has sums where the collector has counters, so that the sums of the
collector's counters are compared. -/

/-- **A structure that holds what a collector holds**: the sums of squares of
the rows of its AGMS table, and its Count-Min table. -/
structure OutputT.Matches {R n : ℕ} (out : OutputT R n)
    (c : SktCollector) : Prop where
  agms : ∀ j, ((out.agms j).toNat : ℤ) = sumOfSquares c j
  cm : List.ofFn out.cm = c.tableCm

/-- An index in the first rows of a table, by its row and its key: the quotient
and the remainder. -/
theorem exists_row_key {p r i : ℕ} (hi : i < r * 2 ^ p) :
    ∃ j k, j < r ∧ k < 2 ^ p ∧ i = j * 2 ^ p + k :=
  ⟨i / 2 ^ p, i % 2 ^ p, Nat.div_lt_of_lt_mul (by rwa [Nat.mul_comm]),
    Nat.mod_lt i (Nat.two_pow_pos p), (Nat.div_add_mod' i (2 ^ p)).symm⟩

/-- The counts of a record, row after row, are those of the job. -/
theorem OutputT.Describes.ofFn_cm {F : Type} {R C P : ℕ} {bits : F → BitVec 32}
    {out : OutputT R (C * 2 ^ P)} {r : JobResult F R C P}
    (h : out.Describes bits r) :
    List.ofFn out.cm = r.countList := by
  refine List.ext_getElem (by rw [List.length_ofFn, r.length_countList])
    fun i hi hi' => ?_
  rw [List.length_ofFn] at hi
  obtain ⟨j, k, hj, hk, rfl⟩ := exists_row_key hi
  have hkey : (BitVec.ofNat P k).toNat = k := by
    rw [BitVec.toNat_ofNat, Nat.mod_eq_of_lt hk]
  have hcount := r.getElem?_countList ⟨j, hj⟩ hk
  have hread := h.cm ⟨j, hj⟩ (BitVec.ofNat P k) (by rwa [hkey])
  rw [List.getElem?_eq_getElem hi', Option.some_inj] at hcount
  rw [List.getElem_ofFn, hcount, ← hread]
  exact congrArg out.cm (Fin.ext (congrArg (j * 2 ^ P + ·) hkey.symm))

namespace Kernel

variable {cfg : Config} {fl : HllFloat cfg.hashBits cfg.pHll}

/-- **A run that reports a structure**: its output is a single packet that fills
an `output_t`. -/
def Reports {N : ℕ} (s : Kernel cfg fl N)
    (P : OutputT cfg.rAgms (cfg.rCm * 2 ^ cfg.pCm) → Prop) : Prop :=
  ∃ record, s.dst.written.map Axis.flit = frame record
    ∧ (bytesOf record).length = sizeofOutputT cfg.rAgms (cfg.rCm * 2 ^ cfg.pCm)
    ∧ P (OutputT.read cfg.rAgms (cfg.rCm * 2 ^ cfg.pCm) (bytesOf record))

/-- **What the host reads** when the kernel has come to rest: a structure that
describes the items in the beats, and holds what a collector with the rows of
the kernel does. -/
theorem Sound.reports {job : List (BitVec (cfg.n0 * 32))}
    {s : Kernel cfg fl cfg.n0} (h : s.Sound [job]) (hc : s.Complete [job])
    (hitems : itemsOf job ≠ []) (hlt : (itemsOf job).length < 2 ^ 31) {hp : ℕ}
    (hhp : hp ≤ 16) :
    s.Reports fun out => out.DescribesItems (itemsOf job)
      ∧ out.Matches (collectorOf cfg job hp) := by
  obtain ⟨cycs, hwords⟩ := h.exists_record hc
  have hread := @read_words _ _ _ _ fl.bits cfg.pCm_pos
    (resultOf cfg fl cfg.n0 job) cycs
  refine ⟨_, hwords, ?_, describesItems_words fl hitems cycs, fun j => ?_, ?_⟩
  · unfold bytesOf
    rw [length_flatMap_block _ _ (fun w _ => length_leBytes 8 w.toNat),
      Nat.mul_comm]
    exact length_words cfg.pCm_pos _ cycs
  · rw [hread.agms j]
    exact toNat_agms cfg job fl cfg.n0 (hhp.trans (by decide)) hlt j
  · rw [hread.ofFn_cm]
    exact countList_eq cfg job fl cfg.n0 (hhp.trans (by decide))

/-- A transfer that fills its beats is reported by every run that comes to rest,
and some run does. The precision of the collector does not matter, as its
registers are not compared. -/
theorem reports_transfer (fl : HllFloat cfg.hashBits cfg.pHll)
    {items : List (BitVec 32)} (hitems : items ≠ [])
    (hdvd : cfg.n0 ∣ items.length) (hlt : items.length < 2 ^ 31) {hp : ℕ}
    (hhp : hp ≤ 16) :
    let s := fun order => (start fl cfg.n0 (transfer cfg.n0 items)).after order
    (∃ order, (s order).Quiescent) ∧ ∀ order, (s order).Quiescent →
      (s order).Reports fun out => out.DescribesItems items ∧ out.Matches
        ((SktCollector.new hp cfg.rAgms cfg.pAgms cfg.rCm cfg.pCm
          .murmur3_128).collect items) := by
  intro s
  have hjobs := transferred_ne_nil items cfg.n0_pos hitems
  have hinput : (transfer cfg.n0 items).map Axis.flit
      = [transferred cfg.n0 items].flatMap frame :=
    map_flit_transfer items
  have hall := itemsOf_transferred_of_dvd items cfg.n0_pos hdvd
  obtain ⟨schedule, hq⟩ := exists_quiescent fl cfg.n0_pos le_rfl hjobs hinput
  refine ⟨⟨.calls schedule, hq⟩, fun order hq => ?_⟩
  have hs : (s order).Sound [transferred cfg.n0 items] :=
    sound_after cfg.n0_pos le_rfl hjobs hinput order
  have hreports :=
    hs.reports (hs.complete hjobs cfg.n0_pos le_rfl hq) (by rwa [hall])
    (by rwa [hall]) hhp
  unfold collectorOf at hreports
  rwa [hall] at hreports

/-! ## The rows of both

Any two collectors with the same hash function and the same widths. -/

/-- **The rows that two collectors share**: with the same items and the same
buckets, the rows of a table are the first ones of a table with more rows. -/
theorem shared_rows {W : ℕ} {hash : BitVec 32 → BitVec W}
    {hp hp' ar ar' ap cr cr' cp : ℕ} {t t' : SktTables}
    {D : Multiset (BitVec 32)} (h : t.Summarizes hash hp ar ap cr cp D)
    (h' : t'.Summarizes hash hp' ar' ap cr' cp D) (hagms : ar ≤ ar')
    (hcm : cr ≤ cr') :
    (∀ i < ar * 2 ^ ap, t.tableAgms[i]? = t'.tableAgms[i]?)
      ∧ ∀ i < cr * 2 ^ cp, t.tableCm[i]? = t'.tableCm[i]? := by
  refine ⟨fun i hi => ?_, fun i hi => ?_⟩
  · obtain ⟨j, k, hj, hk, rfl⟩ := exists_row_key hi
    rw [h.agms j k hj hk, h'.agms j k (hj.trans_le hagms) hk]
  · obtain ⟨j, k, hj, hk, rfl⟩ := exists_row_key hi
    rw [h.cm j k hj hk, h'.cm j k (hj.trans_le hcm) hk]

/-- The items that a collector has been given, in its tables, without a
merge. -/
theorem summarizes_new {hp ap : ℕ} (hhp : hp ≤ 16) (hap : 0 < ap) (ar cr cp : ℕ)
    (items : List (BitVec 32)) :
    ((SktCollector.new hp ar ap cr cp .murmur3_128).collect items).Summarizes
      hashMurmur3_128
      hp ar ap cr cp (items : Multiset (BitVec 32)) := by
  have h := (holds_new hp ar ap cr cp .murmur3_128).collect ⟨hhp, hap⟩ items
  rw [zero_add] at h
  exact h

/-- **The kernel and `sketch_fileclient` agree.** The host sends a file whose
items fill their beats. Then the file client comes through, with any number of
threads, and whenever the kernel comes to rest the record describes the items of
the file, its first counts are the Count-Min table of the file client, and its
first AGMS sums are those of the rows of its AGMS table. -/
theorem host_agrees_fileclient
    (fl : HllFloat Config.shipped.hashBits Config.shipped.pHll) {nthreads : ℕ}
    (hthreads : 0 < nthreads) {file : List Byte} (hpos : 4 ≤ file.length)
    (hdvd : 16 ∣ file.length / 4) (hlt : file.length / 4 < 2 ^ 31)
    (hfit : nthreads * (file.length / 4) < 2 ^ 64) :
    ∃ items c, hostItems (file.length / 4) (some file) = some items
      ∧ sketchFileclient nthreads (mappedItems file) = some c
      ∧ let s := fun order => (start fl 16 (transfer 16 items)).after order
        (∃ order, (s order).Quiescent) ∧ ∀ order, (s order).Quiescent →
          (s order).Reports fun out => out.DescribesItems items
            ∧ (List.ofFn out.cm).take (5 * 2 ^ 13) = c.tableCm
            ∧ ∀ j : Fin 5, ((out.agms (j.castLE (by decide))).toNat : ℤ)
              = ∑ k ∈ Finset.range (2 ^ 13),
                (c.tableAgms.getD (j * 2 ^ 13 + k) 0).toInt ^ 2 := by
  rw [← length_mappedItems] at hdvd hlt hfit
  obtain ⟨c, hc, htables⟩ := shardedAgrees_of_lt hthreads hfit
  have hne : mappedItems file ≠ [] := by
    rw [← List.length_pos_iff, length_mappedItems]
    exact Nat.div_pos hpos (by decide)
  refine ⟨mappedItems file, c, hostItems_all file, hc, ?_⟩
  have hle : 13 ≤ 16 := by decide
  have hap : 0 < 13 := by decide
  obtain ⟨hquiet, hreports⟩ := reports_transfer fl hne hdvd hlt hle
  refine ⟨hquiet, fun order hq => ?_⟩
  obtain ⟨record, hrecord, hlength, hdesc, hmatches⟩ := hreports order hq
  obtain ⟨hagms, hcm⟩ :=
    shared_rows (summarizes_new hle hap 5 5 13 (mappedItems file))
    (summarizes_new hle hap 6 6 13 (mappedItems file)) (by decide) (by decide)
  rw [← htables] at hagms hcm
  refine ⟨record, hrecord, hlength, hdesc, ?_, fun j => ?_⟩
  · have hlen : c.tableCm.length = 5 * 2 ^ 13 := by
      rw [htables, SktCollector.length_tableCm]
      exact Nat.mul_comm _ _
    rw [hmatches.cm]
    refine List.ext_getElem? fun i => ?_
    rw [List.getElem?_take]
    split
    · exact (hcm i ‹_›).symm
    · rw [List.getElem?_eq_none (hlen.trans_le (Nat.le_of_not_lt ‹_›))]
  · rw [hmatches.agms]
    refine Finset.sum_congr rfl fun k hk =>
      congrArg (fun v : BitVec 32 => v.toInt ^ 2) ?_
    have hrow : j.val * 2 ^ 13 + k < 5 * 2 ^ 13 := by
      have hkey := Finset.mem_range.mp hk
      have hj := j.isLt
      change k < 2 ^ 13 at hkey
      omega
    rw [List.getD_eq_getElem?_getD, List.getD_eq_getElem?_getD, hagms _ hrow]
    rfl

/-- A file of sixteen items, next to three threads. -/
theorem host_agrees_fileclient_instance :
    ∃ items c, hostItems 16 (some (List.replicate 64 5)) = some items
      ∧ sketchFileclient 3 (mappedItems (List.replicate 64 5)) = some c
      ∧ let s := fun order =>
        (start (HllFloat.single Config.shipped.hashBits Config.shipped.pHll)
          16 (transfer 16 items)).after order
        (∃ order, (s order).Quiescent) ∧ ∀ order, (s order).Quiescent →
          (s order).Reports fun out => out.DescribesItems items
            ∧ (List.ofFn out.cm).take (5 * 2 ^ 13) = c.tableCm
            ∧ ∀ j : Fin 5, ((out.agms (j.castLE (by decide))).toNat : ℤ)
              = ∑ k ∈ Finset.range (2 ^ 13),
                (c.tableAgms.getD (j * 2 ^ 13 + k) 0).toInt ^ 2 :=
  @host_agrees_fileclient (HllFloat.single _ _) 3 (by decide)
    (List.replicate 64 5) (by simp)
    (by simp) (by simp) (by simp)

/-! ## Counting up

The items are their own indices, and their sums have closed forms. -/

/-- Numbers below `2 ^ 32` are kept as they are by the assignment to an item. -/
theorem map_toNat_countUp {n : ℕ} (hn : n ≤ 2 ^ 32) :
    ((List.range n).map (BitVec.ofNat 32)).map BitVec.toNat = List.range n := by
  rw [List.map_map]
  refine (List.map_congr_left fun i hi => ?_).trans (List.map_id _)
  exact Nat.mod_eq_of_lt ((List.mem_range.mp hi).trans_le hn)

/-- The sum of the first squares, in the form that needs no division. -/
theorem six_mul_sum_range_sq (n : ℕ) :
    6 * ∑ i ∈ Finset.range n, i ^ 2 = (n - 1) * n * (2 * n - 1) := by
  induction n with
  | zero => rfl
  | succ n ih =>
    rw [Finset.sum_range_succ, Nat.mul_add, ih]
    cases n with
    | zero => rfl
    | succ n =>
      simp only [Nat.add_sub_cancel, show 2 * (n + 1) - 1 = 2 * n + 1 from rfl,
        show 2 * (n + 1 + 1) - 1 = 2 * n + 3 from rfl]
      ring

/-- **What describes numbers that count up** is known in advance, and nothing in
it wraps. -/
theorem describesItems_countUp {R C P n : ℕ}
    {out : OutputT R (C * 2 ^ P)} (hn : 0 < n) (hlt : n < 2 ^ 32)
    (h : out.DescribesItems ((List.range n).map (BitVec.ofNat 32))) :
    out.cnt.toNat = n ∧ out.min = 0 ∧ out.max.toNat = n - 1
      ∧ 2 * out.sum.toNat = n * (n - 1)
      ∧ 6 * (out.sumqHi.toNat * 2 ^ 64 + out.sumq.toNat)
        = (n - 1) * n * (2 * n - 1) := by
  have hmem : ∀ i < n, BitVec.ofNat 32 i ∈ (List.range n).map
    (BitVec.ofNat 32) := fun i hi =>
    List.mem_map_of_mem (List.mem_range.mpr hi)
  have htoNat := map_toNat_countUp hlt.le
  have hcnt := congrArg BitVec.toNat h.cnt
  rw [List.length_map, List.length_range, BitVec.toNat_ofNat,
    Nat.mod_eq_of_lt hlt] at hcnt
  refine ⟨hcnt, ?_, ?_, ?_, ?_⟩
  · have hle : out.min ≤ BitVec.ofNat 32 0 := h.min.2 (hmem 0 hn)
    exact BitVec.le_zero_iff.mp hle
  · obtain ⟨i, hi, hmax⟩ := List.mem_map.mp h.max.1
    have hle : BitVec.ofNat 32 (n - 1) ≤ out.max :=
      h.max.2 (hmem (n - 1) (by omega))
    have hi' := List.mem_range.mp hi
    rw [BitVec.le_def, ← hmax, BitVec.toNat_ofNat, BitVec.toNat_ofNat] at hle
    rw [← hmax, BitVec.toNat_ofNat]
    omega
  · have hsum : (List.range n).sum * 2 = n * (n - 1) := by
      rw [← List.map_id (List.range n)]
      exact Finset.sum_range_id_mul_two n
    have hbound : n * (n - 1) < 2 ^ 64 :=
      calc n * (n - 1) ≤ n * n := Nat.mul_le_mul_left n (Nat.sub_le n 1)
        _ < 2 ^ 32 * 2 ^ 32 := Nat.mul_lt_mul'' hlt hlt
        _ = 2 ^ 64 := by norm_num
    rw [h.sum, htoNat, BitVec.toNat_ofNat, Nat.mod_eq_of_lt (by omega),
      Nat.mul_comm]
    exact hsum
  · have hsq : 6 * ((List.range n).map fun i => i ^ 2).sum
      = (n - 1) * n * (2 * n - 1) :=
      six_mul_sum_range_sq n
    have hbound : (n - 1) * n * (2 * n - 1) < 2 ^ 97 :=
      calc (n - 1) * n * (2 * n - 1) ≤ n * n * (2 * n) :=
            Nat.mul_le_mul (Nat.mul_le_mul_right n (Nat.sub_le n 1))
              (Nat.sub_le _ 1)
        _ < 2 ^ 32 * 2 ^ 32 * (2 * 2 ^ 32) :=
            Nat.mul_lt_mul'' (Nat.mul_lt_mul'' hlt hlt)
              (Nat.mul_lt_mul_of_pos_left hlt two_pos)
        _ = 2 ^ 97 := by norm_num
    have hitems : ((List.range n).map (BitVec.ofNat 32)).map
      (fun x => x.toNat ^ 2)
        = (List.range n).map fun i => i ^ 2 := by
      rw [show (fun x : BitVec 32 => x.toNat ^ 2)
        = (fun i => i ^ 2) ∘ BitVec.toNat from rfl,
        ← List.map_map, htoNat]
    rw [h.sumq, hitems, Nat.mod_eq_of_lt (by omega)]
    exact hsq

/-- **What the host reads when it counts up.** Some run of the kernel comes to
rest, and whenever one does the record has the number of items asked for, the
least and the greatest of them, their sum and their sum of squares, none of them
cut off, and what a collector holds that counts up as well. -/
theorem host_counts_up (fl : HllFloat cfg.hashBits cfg.pHll)
    {n : ℕ} (hn : 0 < n) (hdvd : cfg.n0 ∣ n) (hlt : n < 2 ^ 31) {hp : ℕ}
    (hhp : hp ≤ 16) :
    ∃ items, hostItems n none = some items
      ∧ let s := fun order =>
        (start fl cfg.n0 (transfer cfg.n0 items)).after order
        (∃ order, (s order).Quiescent) ∧ ∀ order, (s order).Quiescent →
          (s order).Reports fun out =>
            (out.cnt.toNat = n ∧ out.min = 0 ∧ out.max.toNat = n - 1
              ∧ 2 * out.sum.toNat = n * (n - 1)
              ∧ 6 * (out.sumqHi.toNat * 2 ^ 64 + out.sumq.toNat)
                = (n - 1) * n * (2 * n - 1))
            ∧ out.Matches
              ((SktCollector.new hp cfg.rAgms cfg.pAgms cfg.rCm cfg.pCm
                .murmur3_128).collect
                items) := by
  set items := (List.range n).map (BitVec.ofNat 32) with hitems
  have hlength : items.length = n := by
    rw [hitems, List.length_map, List.length_range]
  have hne : items ≠ [] := by
    rw [← List.length_pos_iff, hlength]
    exact hn
  refine ⟨items, rfl, ?_⟩
  obtain ⟨hquiet, hreports⟩ := reports_transfer fl hne (hlength.symm ▸ hdvd)
    (hlength.trans_lt hlt) hhp
  refine ⟨hquiet, fun order hq => ?_⟩
  obtain ⟨record, hrecord, hsize, hdesc, hmatches⟩ := hreports order hq
  exact ⟨record, hrecord, hsize,
    describesItems_countUp hn (hlt.trans (by norm_num)) hdesc, hmatches⟩

/-- Counting up to thirty-two. -/
theorem host_counts_up_instance :
    ∃ items, hostItems 32 none = some items
      ∧ let s := fun order =>
        (start (HllFloat.single Config.shipped.hashBits Config.shipped.pHll)
          16 (transfer 16 items)).after order
        (∃ order, (s order).Quiescent) ∧ ∀ order, (s order).Quiescent →
          (s order).Reports fun out =>
            (out.cnt.toNat = 32 ∧ out.min = 0 ∧ out.max.toNat = 31
              ∧ 2 * out.sum.toNat = 32 * 31
              ∧ 6 * (out.sumqHi.toNat * 2 ^ 64 + out.sumq.toNat) = 31 * 32 * 63)
            ∧ out.Matches
              ((SktCollector.new 16 6 13 6 13 .murmur3_128).collect items) :=
  @host_counts_up Config.shipped (HllFloat.single _ _) 32 (by decide)
    (by decide) (by decide) 16
    le_rfl

end Kernel

end Skt.Hardware
