import Skt.Hardware.Streaming

/-!
# The pipeline funnel

`distr_funnel` takes words of `N` items from one stream and deals the items out
to `K` lanes, `K ≤ N`. With fewer lanes than items it buffers what it cannot
ship at once, and lets the items of the next job follow behind a rest of the
last one: which lane an item goes to depends on when the words arrive.

What does not depend on it is stated by `Distributed`: every lane carries one
job per job, the jobs of all lanes together carry its items, and each of them is
framed by its own `last`. What a lane carries is what it has been written and
what waits for it in the buffer; shipping moves the border between the two, and
only reading a word extends the whole.

No item is lost, none is duplicated, and none crosses over to another job. That
is all a sketch needs, since its tables do not depend on the order of the items
of a job nor on the lane that counts them.
-/

namespace Skt.Hardware

open Streams

/-- The item in lane `i` of a word: `x.val(32*i+31, 32*i)`. -/
def laneOf {N : ℕ} (x : BitVec (N * 32)) (i : ℕ) : BitVec 32 :=
  x.extractLsb' (32 * i) 32

/-- The items of a word, in the order of its lanes. -/
def wordItems {N : ℕ} (x : BitVec (N * 32)) : List (BitVec 32) :=
  (List.range N).map (laneOf x)

@[simp] theorem length_wordItems {N : ℕ} (x : BitVec (N * 32)) :
    (wordItems x).length = N := by
  unfold wordItems
  rw [List.length_map, List.length_range]

/-- The state of `distr_funnel`: `Buf` and `Cnt`. Of the buffer only the first
`N + K - 1` entries are used; the entries from `Cnt` on are what the last
loading has left there, and never shipped. -/
structure Funnel where
  /-- `Buf`: the items that wait, each with its flag. -/
  buf : ℕ → Flit (BitVec 32)
  /-- `Cnt`: how many of them there are. -/
  cnt : ℕ

namespace Funnel

/-- The state at power-up, with nothing buffered. -/
def init : Funnel := ⟨fun _ => ⟨false, 0⟩, 0⟩

variable (N : ℕ) {K : ℕ}

/-- The first half of a call: a full row is shipped, or the rest of a job, which
is less than a row and recognised by its first entry carrying `last`. The buffer
moves down by one row; its entries from `N - 1` on stay where they are, as in
the source. -/
def ship (s : Funnel) (dst : Fin K → Fifo (Flit (BitVec 32))) :
    Funnel × (Fin K → Fifo (Flit (BitVec 32))) :=
  let fullout := decide (K ≤ s.cnt)
  if fullout || (s.buf 0).last then
    (⟨fun i => if i < N - 1 then s.buf (i + K) else s.buf i,
        if fullout then s.cnt - K else 0⟩,
      fun i => if i.val < s.cnt then (dst i).write (s.buf i) else dst i)
  else (s, dst)

variable {N}

/-- The second half of a call: when less than a row is left, a word is read
behind what is buffered. Its last `K` items are marked with its `last`, so that
each lane gets one of them, and the rotation `(N+i-Cnt) % N` puts its first item
at `Cnt`. The fill count is a register of `clog2 (N + K)` bits. -/
def load (K : ℕ) (s : Funnel) (src : Fifo (Flit (BitVec (N * 32)))) :
    Funnel × Fifo (Flit (BitVec (N * 32))) :=
  if s.cnt < K then
    match src.readNb with
    | none => (s, src)
    | some (x, src) =>
      let xSplit : ℕ → Flit (BitVec 32) := fun i =>
        ⟨x.last && decide (N - K ≤ i), laneOf x.val i⟩
      let xAligned := fun i => xSplit ((N + i - s.cnt) % N)
      (⟨fun i => if i < N + K - 1 ∧ s.cnt ≤ i then xAligned
        (i % N) else s.buf i,
        (s.cnt + N) % 2 ^ clog2 (N + K)⟩, src)
  else (s, src)

/-- **`distr_funnel`**, in both its instances. With fewer lanes than items it
ships and then loads in one call, so that it can take a word in every call; with
as many lanes as items it is a `split` and uses no buffer. -/
def distrFunnel (s : Funnel) (src : Fifo (Flit (BitVec (N * 32))))
    (dst : Fin K → Fifo (Flit (BitVec 32))) :
    Funnel × Fifo (Flit (BitVec (N * 32)))
      × (Fin K → Fifo (Flit (BitVec 32))) :=
  if K < N then
    let (s, dst) := ship N s dst
    let (s, src) := load K s src
    (s, src, dst)
  else
    let (src, dst) := split (fun x i => ⟨x.last, laneOf x.val i⟩) src dst
    (s, src, dst)

end Funnel

/-! ## Positions modulo the number of lanes

Buffer entry `q` goes to lane `q % K`: a row at a time is shipped, and the rows
are as long as there are lanes. -/

section Positions

variable {K : ℕ}

/-- Within a row a lane has its own position, and beyond the end of a short row
it has none. -/
theorem filter_mod_range (i : Fin K) {n : ℕ} (hn : n ≤ K) :
    (List.range n).filter (fun q => q % K = i)
      = if i.val < n then [i.val] else [] := by
  induction n with
  | zero => rfl
  | succ n ih =>
    rw [List.range_succ, List.filter_append, ih (by omega),
      List.filter_singleton,
      Nat.mod_eq_of_lt hn]
    by_cases h : n = i.val
    · simp [h]
    · rw [decide_eq_false h]
      by_cases h' : i.val < n
      · rw [if_pos h', if_pos (by omega)]
        rfl
      · rw [if_neg h', if_neg (by omega)]
        rfl

/-- Of `K` positions in a row exactly one belongs to a lane, wherever the row
starts. Applied to the marked items it gives each lane one `last`. -/
theorem filter_mod_window (i : Fin K) (a : ℕ) :
    ∃ b, a ≤ b ∧ b < a + K
      ∧ ((List.range K).map (a + ·)).filter (fun q => q % K = i) = [b] := by
  induction a with
  | zero =>
    refine ⟨i, Nat.zero_le _, by omega, ?_⟩
    have hrow := filter_mod_range i le_rfl
    rw [if_pos i.isLt] at hrow
    simpa using hrow
  | succ a ih =>
    obtain ⟨b, hab, hb, hfilter⟩ := ih
    -- the window moves on: its first position leaves and one a lap later enters
    obtain ⟨n, rfl⟩ : ∃ n, K = n + 1 := ⟨K - 1, by omega⟩
    have hold : (List.range (n + 1)).map (a + ·)
      = a :: (List.range n).map (a + 1 + ·) := by
      rw [List.range_succ_eq_map, List.map_cons, List.map_map]
      exact congrArg₂ _ rfl (List.map_congr_left (fun q _ => by
        show a + (q + 1) = a + 1 + q
        omega))
    have hnew : (List.range (n + 1)).map (a + 1 + ·)
        = (List.range n).map (a + 1 + ·) ++ [a + (n + 1)] := by
      rw [List.range_succ, List.map_append, List.map_singleton]
      exact congrArg₂ _ rfl (congrArg (fun x => [x]) (by omega))
    rw [hold, List.filter_cons] at hfilter
    rw [hnew, List.filter_append, List.filter_singleton, Nat.add_mod_right]
    by_cases ha : a % (n + 1) = i.val
    · rw [decide_eq_true ha, if_pos rfl] at hfilter
      refine ⟨a + (n + 1), by omega, by omega, ?_⟩
      rw [(List.cons.inj hfilter).2, decide_eq_true ha]
      rfl
    · rw [decide_eq_false ha, if_neg Bool.false_ne_true] at hfilter
      have hne : b ≠ a := by
        rintro rfl
        have hmem : b ∈ ((List.range n).map (b + 1 + ·)).filter
          (fun q => q % (n + 1) = i) := by
          rw [hfilter]
          exact List.mem_singleton_self b
        obtain ⟨q, -, hq⟩ := List.mem_map.mp (List.mem_filter.mp hmem).1
        omega
      refine ⟨b, by omega, by omega, ?_⟩
      rw [hfilter, decide_eq_false ha]
      rfl

/-- **What is dealt out is what there was**: the lanes' shares of a list make up
the list. -/
theorem sum_filter_mod (hK : 0 < K) {α : Type*} (g : ℕ → α) (l : List ℕ) :
    ∑ i : Fin K, (((l.filter (fun q => q % K = i)).map g : List α) : Multiset α)
      = (l.map g : List α) := by
  induction l with
  | nil => simp
  | cons q l ih =>
    have hstep : ∀ i : Fin K,
      ((((q :: l).filter (fun q => q % K = i)).map g : List α) : Multiset α)
        = (if i = ⟨q % K, Nat.mod_lt q hK⟩ then {g q} else 0)
          + ((l.filter (fun q => q % K = i)).map g : List α) := by
      intro i
      by_cases h : q % K = i.val
      · rw [List.filter_cons_of_pos (by simp [h]),
          if_pos (Fin.ext h.symm), List.map_cons,
          ← Multiset.cons_coe, Multiset.singleton_add]
      · rw [List.filter_cons_of_neg (by simp [h]),
          if_neg (fun he => h (congrArg Fin.val he).symm), zero_add]
    simp only [hstep]
    rw [Finset.sum_add_distrib, ih, Finset.sum_ite_eq' Finset.univ]
    simp

end Positions

/-! ## What the lanes carry

The specification, without the buffer: it relates the words consumed to the
lists of flits that go down the lanes. -/

/-- **A distribution of words to lanes**: every lane carries a job for every
job, and together they carry its items, as a multiset. The open job is split up
in the same way, and in total there are `N` items to a word. -/
structure Distributed {N K : ℕ} (words : List (Flit (BitVec (N * 32))))
    (lanes : Fin K → List (Flit (BitVec 32))) : Prop where
  /-- Every lane carries as many complete jobs as the words. -/
  jobs : ∀ i, (jobsOf (lanes i)).length = (jobsOf words).length
  /-- A job of the words is shared out between the jobs of the lanes, as a
  multiset. -/
  items : ∀ t, ∑ i, ((jobsOf (lanes i)).getD t [] : Multiset (BitVec 32))
    = (((jobsOf words).getD t []).flatMap wordItems : List (BitVec 32))
  /-- So is the open job. -/
  part : ∑ i, (partOf (lanes i) : Multiset (BitVec 32))
    = ((partOf words).flatMap wordItems : List (BitVec 32))
  /-- No item is left out, and none is added. -/
  total : ∑ i, (lanes i).length = words.length * N

section Distributed

variable {N K : ℕ} {words : List (Flit (BitVec (N * 32)))}
  {lanes : Fin K → List (Flit (BitVec 32))}

/-- Nothing is distributed at the start. -/
theorem distributed_nil :
    Distributed (N := N) [] (fun _ : Fin K => []) := by
  refine ⟨fun _ => rfl, fun t => ?_, ?_, ?_⟩
  · simp
  · simp
  · simp

/-- The entries of a list with one more at its end. -/
theorem getD_concat {α : Type*} (l : List (List α)) (a : List α) (t : ℕ) :
    (l ++ [a]).getD t [] = if t = l.length then a else l.getD t [] := by
  rw [List.getD_eq_getElem?_getD, List.getD_eq_getElem?_getD]
  rcases Nat.lt_trichotomy t l.length with h | h | h
  · rw [List.getElem?_append_left h, if_neg (by omega)]
  · rw [h, if_pos rfl, List.getElem?_concat_length]
    rfl
  · rw [if_neg (by omega), List.getElem?_eq_none (by simp; omega),
      List.getElem?_eq_none (by omega)]

/-- **A word is distributed** when every lane gets a share that ends with the
flag of the word, and the shares are its items. The shares need not be equal: a
lane may get more of one word and less of another. -/
theorem Distributed.read (h : Distributed words lanes)
    (x : Flit (BitVec (N * 32))) (shares : Fin K → List (Flit (BitVec 32)))
    (hshare : ∀ i, ∃ zs z, shares i = zs ++ [z]
      ∧ (∀ y ∈ zs, y.last = false) ∧ z.last = x.last)
    (hitems : ∑ i, ((shares i).map Flit.val : Multiset (BitVec 32))
      = wordItems x.val) :
    Distributed (words ++ [x]) (fun i => lanes i ++ shares i) := by
  have hsum : ∑ i,
    ((partOf (lanes i) ++ (shares i).map Flit.val : List _) :
      Multiset (BitVec 32))
      = (((partOf words ++ [x.val]).flatMap wordItems : List _) :
        Multiset (BitVec 32)) := by
    simp only [← Multiset.coe_add]
    rw [Finset.sum_add_distrib, h.part, hitems, List.flatMap_append,
      List.flatMap_singleton,
      Multiset.coe_add]
  have htotal : ∑ i, (lanes i ++ shares i).length
    = (words ++ [x]).length * N := by
    have hcard := congrArg Multiset.card hitems
    rw [Multiset.card_sum] at hcard
    simp only [Multiset.coe_card, List.length_map, wordItems,
      List.length_range] at hcard
    simp only [List.length_append]
    rw [Finset.sum_add_distrib, h.total, hcard,
      List.length_singleton, Nat.succ_mul]
  cases hx : x.last with
  | true =>
    have hlane : ∀ i, deframe (lanes i ++ shares i)
        = (jobsOf (lanes i)
          ++ [partOf (lanes i) ++ (shares i).map Flit.val], []) := by
      intro i
      obtain ⟨zs, z, hzs, hfalse, hz⟩ := hshare i
      rw [hzs]
      exact deframe_append_of_last _ hfalse (hz.trans hx)
    have hlaneJobs : ∀ i, jobsOf (lanes i ++ shares i)
        = jobsOf (lanes i) ++ [partOf (lanes i) ++ (shares i).map Flit.val] :=
      fun i => congrArg Prod.fst (hlane i)
    have hlanePart : ∀ i, partOf (lanes i ++ shares i) = [] := fun i =>
      congrArg Prod.snd (hlane i)
    have hjobs : jobsOf (words ++ [x]) = jobsOf words
      ++ [partOf words ++ [x.val]] := by
      rw [jobsOf_concat, hx]
      rfl
    have hpart : partOf (words ++ [x]) = [] := by
      rw [partOf_concat, hx]
      rfl
    refine ⟨fun i => ?_, fun t => ?_, ?_, htotal⟩
    · rw [hlaneJobs, hjobs, List.length_append, List.length_append, h.jobs i]
      rfl
    · simp only [hlaneJobs, hjobs, getD_concat]
      by_cases ht : t = (jobsOf words).length
      · rw [if_pos ht, ← hsum]
        refine Finset.sum_congr rfl (fun i _ => ?_)
        rw [if_pos (ht.trans (h.jobs i).symm)]
      · rw [if_neg ht, ← h.items t]
        refine Finset.sum_congr rfl (fun i _ => ?_)
        rw [if_neg (fun he => ht (he.trans (h.jobs i)))]
    · simp only [hpart, hlanePart]
      simp
  | false =>
    have hlane : ∀ i, deframe (lanes i ++ shares i)
        = (jobsOf (lanes i), partOf (lanes i) ++ (shares i).map Flit.val) := by
      intro i
      obtain ⟨zs, z, hzs, hfalse, hz⟩ := hshare i
      refine deframe_append_of_not_last _ (fun y hy => ?_)
      rw [hzs] at hy
      rcases List.mem_append.mp hy with hy | hy
      · exact hfalse y hy
      · rw [List.mem_singleton.mp hy, hz, hx]
    have hjobs : jobsOf (words ++ [x]) = jobsOf words := by
      rw [jobsOf_concat, hx]
      rfl
    have hpart : partOf (words ++ [x]) = partOf words ++ [x.val] := by
      rw [partOf_concat, hx]
      rfl
    have hlaneJobs : ∀ i, jobsOf (lanes i ++ shares i)
      = jobsOf (lanes i) := fun i => by
      rw [jobsOf, hlane]
    have hlanePart : ∀ i, partOf (lanes i ++ shares i)
        = partOf (lanes i) ++ (shares i).map Flit.val := fun i =>
          congrArg Prod.snd (hlane i)
    refine ⟨fun i => ?_, fun t => ?_, ?_, htotal⟩
    · rw [hlaneJobs, hjobs, h.jobs i]
    · simp only [hlaneJobs, hjobs]
      exact h.items t
    · simp only [hpart, hlanePart]
      exact hsum

end Distributed

namespace Funnel

variable {N K : ℕ}

/-- What waits in the buffer for a lane: the entries at its positions, in
order. -/
def waiting (s : Funnel) (i : Fin K) : List (Flit (BitVec 32)) :=
  ((List.range s.cnt).filter (fun q => q % K = i)).map s.buf

/-- **The equation of the funnel.** What the lanes carry, written or waiting, is
a distribution of the words consumed; and after a complete job the last `K`
items in the buffer are marked, so that a rest of it is shipped without waiting
for another word. With as many lanes as items the buffer stays empty. -/
structure Funnelled (s : Funnel) (src : List (Flit (BitVec (N * 32))))
    (dst : Fin K → List (Flit (BitVec 32))) : Prop where
  /-- What the lanes have been written and what waits for them is a
  distribution. -/
  distributed : Distributed src (fun i => dst i ++ s.waiting i)
  /-- The items that wait fit into the buffer. -/
  cnt_lt : s.cnt < N + K
  /-- When the last word has ended a job, the last `K` items carry `last`, so
  that what waits can be recognised as the end of a job. -/
  marked : partOf src = [] → ∀ q, s.cnt ≤ q + K → q < s.cnt →
    (s.buf q).last = true
  /-- With as many lanes as items nothing ever waits. -/
  direct : K = N → s.cnt = 0

theorem funnelled_init (hK : 0 < K) :
    Funnelled init [] (fun _ : Fin K => []) (N := N) where
  distributed := distributed_nil
  cnt_lt := Nat.lt_add_left N hK
  marked _ q _ hq := absurd hq (Nat.not_lt_zero q)
  direct _ := rfl

/-- What waits for a lane in a buffer that is filled up further: what waited
there before, and its share of the new entries. -/
theorem waiting_add {s s' : Funnel} {n : ℕ} (i : Fin K)
    (hcnt : s'.cnt = s.cnt + n) (hbuf : ∀ q < s.cnt, s'.buf q = s.buf q) :
    s'.waiting i = s.waiting i
      ++ (((List.range n).map (s.cnt + ·)).filter
        (fun q => q % K = i)).map s'.buf := by
  unfold waiting
  rw [hcnt, List.range_add, List.filter_append, List.map_append]
  refine congrArg₂ _ (List.map_congr_left (fun q hq => ?_)) rfl
  exact hbuf q (List.mem_range.mp (List.mem_filter.mp hq).1)

/-- What waits for a lane in a full buffer: the entry of the first row, and what
waits in the buffer without that row. -/
theorem waiting_row {s s' : Funnel} (i : Fin K) (hfull : K ≤ s.cnt)
    (hcnt : s'.cnt = s.cnt - K)
    (hbuf : ∀ q < s'.cnt, s'.buf q = s.buf (q + K)) :
    s.waiting i = s.buf i :: s'.waiting i := by
  have hrow := filter_mod_range i le_rfl
  rw [if_pos i.isLt] at hrow
  have hrange : List.range s.cnt = List.range K
    ++ (List.range s'.cnt).map (K + ·) := by
    rw [← List.range_add, hcnt, Nat.add_sub_cancel' hfull]
  unfold waiting
  rw [hrange, List.filter_append, hrow, List.filter_map,
    List.map_append, List.map_map]
  refine congrArg (s.buf i :: ·) ?_
  have hmod : ((fun q => decide (q % K = i.val)) ∘ fun x => K + x)
      = fun q => decide (q % K = i.val) := by
    funext q
    show decide ((K + q) % K = i.val) = _
    rw [Nat.add_mod_left]
  rw [hmod]
  refine List.map_congr_left (fun q hq => ?_)
  show s.buf (K + q) = s'.buf q
  rw [hbuf q (List.mem_range.mp (List.mem_filter.mp hq).1), Nat.add_comm]

/-- What waits for a lane in a buffer without a full row: the entry at its own
position, if the rest reaches that far. -/
theorem waiting_of_lt {s : Funnel} (i : Fin K) (h : s.cnt < K) :
    s.waiting i = if i.val < s.cnt then [s.buf i] else [] := by
  unfold waiting
  rw [filter_mod_range i h.le]
  split <;> rfl

/-- **What shipping does**: a full row goes out, or the rest of a job does, or
nothing. The later proofs split into these three cases and never unfold
`ship`. -/
theorem ship_cases (s : Funnel) (dst : Fin K → Fifo (Flit (BitVec 32))) :
    (K ≤ s.cnt ∧ ship N s dst
      = (⟨fun i => if i < N - 1 then s.buf (i + K) else s.buf i, s.cnt - K⟩,
        fun i => (dst i).write (s.buf i)))
    ∨ (s.cnt < K ∧ (s.buf 0).last = true ∧ ship N s dst
      = (⟨fun i => if i < N - 1 then s.buf (i + K) else s.buf i, 0⟩,
        fun i => if i.val < s.cnt then (dst i).write (s.buf i) else dst i))
    ∨ (s.cnt < K ∧ (s.buf 0).last = false ∧ ship N s dst = (s, dst)) := by
  unfold ship
  by_cases hfull : K ≤ s.cnt
  · refine Or.inl ⟨hfull, ?_⟩
    simp only [hfull, decide_true, Bool.true_or, if_true]
    exact Prod.ext rfl (funext fun i => if_pos (lt_of_lt_of_le i.isLt hfull))
  · refine Or.inr ?_
    simp only [hfull, decide_false, Bool.false_or, Bool.false_eq_true, if_false]
    cases hlast : (s.buf 0).last with
    | true => exact Or.inl ⟨by omega, rfl, if_pos rfl⟩
    | false => exact Or.inr ⟨by omega, rfl, if_neg Bool.false_ne_true⟩

/-- **Shipping moves the border** between what is written and what waits: the
sum of the two is unchanged for every lane. -/
theorem ship_sound (hKN : K < N) {s : Funnel}
    {src : List (Flit (BitVec (N * 32)))}
    {dst : Fin K → Fifo (Flit (BitVec 32))}
    (h : Funnelled s src (fun i => (dst i).written)) :
    Funnelled (ship N s dst).1 src (fun i => ((ship N s dst).2 i).written) := by
  have hcnt := h.cnt_lt
  rcases ship_cases (N := N) s dst with ⟨hfull, he⟩ | ⟨hfew, -, he⟩ | ⟨-, -, he⟩
  · have hbuf : ∀ q < s.cnt - K, (if q < N - 1 then s.buf (q + K) else s.buf q)
        = s.buf (q + K) := fun q hq => if_pos (by omega)
    rw [he]
    refine ⟨?_, by show s.cnt - K < N + K; omega, fun hpart q hq hq' => ?_,
      fun he => absurd he hKN.ne⟩
    · convert h.distributed using 2 with i
      have hrow : s.waiting i = s.buf i
          :: waiting ⟨fun q => if q < N - 1 then s.buf (q + K)
            else s.buf q, s.cnt - K⟩ i :=
        waiting_row i hfull rfl hbuf
      rw [Fifo.written_write, List.append_assoc, hrow]
      rfl
    · have hq₁ : s.cnt - K ≤ q + K := hq
      have hq₂ : q < s.cnt - K := hq'
      show (if q < N - 1 then s.buf (q + K) else s.buf q).last = true
      rw [hbuf q hq₂]
      exact h.marked hpart (q + K) (by omega) (by omega)
  · -- the rest of a job goes out, one item a lane
    rw [he]
    refine ⟨?_, by
      show 0 < N + K; omega, fun _ q _ hq => absurd hq (Nat.not_lt_zero q),
      fun he => absurd he hKN.ne⟩
    convert h.distributed using 2 with i
    rw [waiting_of_lt i hfew]
    show (if i.val < s.cnt then (dst i).write (s.buf i)
      else dst i).written ++ [] = _
    rw [List.append_nil]
    split
    · rw [Fifo.written_write]
    · rw [List.append_nil]
  · rw [he]
    exact h

/-- Where the items of a word go in the buffer: the rotation of the source
undoes the offset at which they are stored. -/
theorem aligned_index {N K cnt r : ℕ} (hKN : K < N)
    (hcnt : cnt < K) (hr : r < N) :
    (N + (cnt + r) % N - cnt) % N = r := by
  rcases Nat.lt_or_ge (cnt + r) N with h | h
  · rw [Nat.mod_eq_of_lt h, show N + (cnt + r) - cnt
      = r + N by omega, Nat.add_mod_right,
      Nat.mod_eq_of_lt hr]
  · rw [Nat.mod_eq_sub_mod h, Nat.mod_eq_of_lt (by omega : cnt + r - N < N),
      show N + (cnt + r - N) - cnt = r by omega, Nat.mod_eq_of_lt hr]

/-- **What loading does**: a word is read behind what is buffered, or nothing
happens. The item `r` of the word is found at `cnt + r`, and what was buffered
before is untouched. -/
theorem load_cases (hKN : K < N) (s : Funnel)
    (src : Fifo (Flit (BitVec (N * 32)))) :
    (s.cnt < K → src.readNb = none) ∧ load K s src = (s, src)
    ∨ ∃ x src', s.cnt < K ∧ src.readNb = some (x, src')
      ∧ (load K s src).2 = src'
      ∧ (load K s src).1.cnt = s.cnt + N
      ∧ (∀ q < s.cnt, (load K s src).1.buf q = s.buf q)
      ∧ (∀ r < N, (load K s src).1.buf (s.cnt + r)
        = ⟨x.last && decide (N - K ≤ r), laneOf x.val r⟩) := by
  unfold load
  by_cases hcnt : s.cnt < K
  · rw [if_pos hcnt]
    cases hx : src.readNb with
    | none => exact Or.inl ⟨fun _ => rfl, rfl⟩
    | some p =>
      obtain ⟨x, src'⟩ := p
      refine Or.inr ⟨x, src', hcnt, rfl, rfl, ?_,
        fun q hq => ?_, fun r hr => ?_⟩
      · exact Nat.mod_eq_of_lt
          (lt_of_lt_of_le (by omega) (le_two_pow_clog2 (N + K)))
      · exact if_neg (by omega)
      · show (if _ then _ else _) = _
        rw [if_pos (by omega), aligned_index hKN hcnt hr]
  · rw [if_neg hcnt]
    exact Or.inl ⟨fun h => absurd h hcnt, rfl⟩

/-- **Loading distributes a word.** Its items go to the lanes in turn, and the
last `K` of them, one per lane, carry its `last`. -/
theorem load_sound (hK : 0 < K) (hKN : K < N) {s : Funnel}
    {src : Fifo (Flit (BitVec (N * 32)))}
    {dst : Fin K → List (Flit (BitVec 32))} (h : Funnelled s src.consumed dst) :
    Funnelled (load K s src).1 (load K s src).2.consumed dst := by
  rcases load_cases hKN s src
    with ⟨-, he⟩ | ⟨x, src', hcnt, hx, hsrc, hcnt', hlow, hhigh⟩
  · rw [he]
    exact h
  · set s' := (load K s src).1 with hs'
    rw [hsrc, Fifo.consumed_of_readNb hx]
    have hwaiting := fun i : Fin K => waiting_add i hcnt' hlow
    have hval : ∀ i : Fin K, ((((List.range N).map (s.cnt + ·)).filter
        (fun q => q % K = i)).map s'.buf).map Flit.val
        = (((List.range N).map (s.cnt + ·)).filter (fun q => q % K = i)).map
          (fun q => laneOf x.val (q - s.cnt)) := by
      intro i
      rw [List.map_map]
      refine List.map_congr_left (fun q hq => ?_)
      obtain ⟨r, hr, rfl⟩ := List.mem_map.mp (List.mem_filter.mp hq).1
      show (s'.buf (s.cnt + r)).val = _
      rw [hhigh r (List.mem_range.mp hr), Nat.add_sub_cancel_left]
    refine ⟨?_, by omega, fun hpart q hq hq' => ?_, fun he => absurd he hKN.ne⟩
    · have hread := h.distributed.read x
        (fun i => (((List.range N).map (s.cnt + ·)).filter
          (fun q => q % K = i)).map s'.buf) ?_ ?_
      · simpa only [hwaiting, List.append_assoc] using hread
      · -- the share of a lane ends among the last `K` items
        intro i
        have hsplit : (List.range N).map (s.cnt + ·)
          = (List.range (N - K)).map (s.cnt + ·)
            ++ (List.range K).map (s.cnt + (N - K) + ·) := by
          conv_lhs =>
            rw [← Nat.sub_add_cancel hKN.le, List.range_add, List.map_append,
            List.map_map]
          exact congrArg₂ _ rfl
            (List.map_congr_left (fun r _ => (Nat.add_assoc _ _ _).symm))
        obtain ⟨b, hb, hb', hone⟩ := filter_mod_window i (s.cnt + (N - K))
        refine ⟨(((List.range (N - K)).map (s.cnt + ·)).filter
          (fun q => q % K = i)).map s'.buf,
          s'.buf b, ?_, fun y hy => ?_, ?_⟩
        · rw [hsplit, List.filter_append, hone, List.map_append]
          rfl
        · obtain ⟨q, hq, rfl⟩ := List.mem_map.mp hy
          obtain ⟨r, hr, rfl⟩ := List.mem_map.mp (List.mem_filter.mp hq).1
          have hr' := List.mem_range.mp hr
          rw [hhigh r (by omega), decide_eq_false (by omega), Bool.and_false]
        · obtain ⟨r, rfl⟩ : ∃ r, b = s.cnt + r := ⟨b - s.cnt, by omega⟩
          rw [hhigh r (by omega), decide_eq_true (by omega), Bool.and_true]
      · simp only [hval]
        rw [sum_filter_mod hK, List.map_map]
        refine congrArg _ (List.map_congr_left (fun r _ => ?_))
        show laneOf x.val (s.cnt + r - s.cnt) = _
        rw [Nat.add_sub_cancel_left]
    · -- after a complete job the word read last was marked
      have hlast : x.last = true := by
        cases hx' : x.last with
        | true => rfl
        | false =>
          rw [partOf_concat, hx'] at hpart
          exact absurd (List.append_eq_nil_iff.mp hpart).2
            (List.cons_ne_nil _ _)
      obtain ⟨r, rfl⟩ : ∃ r, q = s.cnt + r := ⟨q - s.cnt, by omega⟩
      rw [hhigh r (by omega), hlast, decide_eq_true (by omega)]
      rfl

/-- With as many lanes as items a word is distributed at once, one item to a
lane, each with the flag of the word. -/
theorem split_distributed {words : List (Flit (BitVec (N * 32)))}
    {lanes : Fin N → List (Flit (BitVec 32))} (h : Distributed words lanes)
    (x : Flit (BitVec (N * 32))) :
    Distributed (words ++ [x])
      (fun i => lanes i ++ [⟨x.last, laneOf x.val i⟩]) := by
  refine h.read x (fun i => [⟨x.last, laneOf x.val i⟩])
    (fun i => ⟨[], _, rfl, fun y hy => absurd hy List.not_mem_nil, rfl⟩) ?_
  have hofFn : wordItems x.val
    = List.ofFn (fun i : Fin N => laneOf x.val i) := by
    unfold wordItems
    rw [List.ofFn_eq_map, ← List.map_coe_finRange_eq_range, List.map_map]
    rfl
  have hsum : ∀ l : List (Fin N),
      (l.map (fun i : Fin N => ({laneOf x.val i} : Multiset (BitVec 32)))).sum
        = (l.map (fun i : Fin N => laneOf x.val i) : List _) := by
    intro l
    induction l with
    | nil => rfl
    | cons i l ih => rw [List.map_cons, List.sum_cons, ih, List.map_cons]; rfl
  rw [hofFn, List.ofFn_eq_map, ← hsum, ← List.sum_ofFn, List.ofFn_eq_map]
  rfl

variable {s : Funnel} {src : Fifo (Flit (BitVec (N * 32)))}
  {dst : Fin K → Fifo (Flit (BitVec 32))}

/-- **Every call of the funnel keeps its equation**, whether it ships, loads,
does both or does neither. -/
theorem distrFunnel_sound (hK : 0 < K) (hKN : K ≤ N)
    (h : Funnelled s src.consumed (fun i => (dst i).written)) :
    Funnelled (distrFunnel s src dst).1 (distrFunnel s src dst).2.1.consumed
      (fun i => ((distrFunnel s src dst).2.2 i).written) := by
  unfold distrFunnel
  by_cases hlt : K < N
  · rw [if_pos hlt]
    exact load_sound hK hlt (ship_sound hlt h)
  · rw [if_neg hlt]
    obtain rfl : K = N := by omega
    have hcnt := h.direct rfl
    have hwaiting : ∀ i : Fin K, s.waiting i = [] := fun i => by
      unfold waiting
      rw [hcnt]
      rfl
    rcases split_cases (fun x (i : Fin K) =>
      (⟨x.last, laneOf x.val i⟩ : Flit (BitVec 32)))
      src dst with ⟨-, he⟩ | ⟨x, src', hx, he⟩
    · rw [he]
      exact h
    · rw [he]
      refine ⟨?_, h.cnt_lt, fun _ q _ hq =>
        absurd hq (by rw [hcnt]; exact Nat.not_lt_zero q),
        h.direct⟩
      have hdist := h.distributed
      simp only [hwaiting, List.append_nil] at hdist
      simp only [hwaiting, List.append_nil, Fifo.written_write,
        Fifo.consumed_of_readNb hx]
      exact split_distributed hdist x

variable (s src dst)

/-- A call of the funnel lets its streams grow, its input and every lane. -/
theorem distrFunnel_grows : Grows src (distrFunnel s src dst).2.1
    ∧ ∀ i, Grows (dst i) ((distrFunnel s src dst).2.2 i) := by
  unfold distrFunnel
  split
  · refine ⟨?_, fun i => ?_⟩
    · show Grows src (load K (ship N s dst).1 src).2
      unfold load
      split
      · split
        · exact Growing.refl _
        · next hx => exact Fifo.grows_of_readNb hx
      · exact Growing.refl _
    · show Grows (dst i) ((ship N s dst).2 i)
      rcases ship_cases (N := N) s dst with ⟨-, he⟩ | ⟨-, -, he⟩ | ⟨-, -, he⟩
      · rw [he]
        exact Fifo.grows_write _ _
      · rw [he]
        dsimp only
        split
        · exact Fifo.grows_write _ _
        · exact Growing.refl _
      · rw [he]
        exact Growing.refl _
  · exact split_grows _ src dst

/-- A call of the funnel writes at most one item to a lane, with or without a
buffer. The emulation loop relies on it. -/
theorem distrFunnel_write (i : Fin K) :
    (distrFunnel s src dst).2.2 i = dst i ∨ ∃ y, (distrFunnel s src dst).2.2 i
      = (dst i).write y := by
  unfold distrFunnel
  split
  · show (ship N s dst).2 i = dst i ∨ ∃ y, (ship N s dst).2 i = (dst i).write y
    rcases ship_cases (N := N) s dst with ⟨-, he⟩ | ⟨-, -, he⟩ | ⟨-, -, he⟩
    · exact Or.inr ⟨_, by rw [he]⟩
    · rw [he]
      dsimp only
      split
      · exact Or.inr ⟨_, rfl⟩
      · exact Or.inl rfl
    · exact Or.inl (by rw [he])
  · rcases split_cases (fun x (i : Fin K) =>
      (⟨x.last, laneOf x.val i⟩ : Flit (BitVec 32)))
      src dst with ⟨-, he⟩ | ⟨x, src', -, he⟩
    · exact Or.inl (by rw [he])
    · exact Or.inr ⟨_, by rw [he]⟩

@[simp] theorem written_distrFunnel :
    (distrFunnel s src dst).2.1.written = src.written := by
  unfold distrFunnel
  split
  · show (load K (ship N s dst).1 src).2.written = _
    unfold load
    split
    · split
      · rfl
      · next hx => exact Fifo.written_of_readNb hx
    · rfl
  · exact written_split _ src dst

@[simp] theorem consumed_distrFunnel (i : Fin K) :
    ((distrFunnel s src dst).2.2 i).consumed = (dst i).consumed := by
  unfold distrFunnel
  split
  · show ((ship N s dst).2 i).consumed = _
    rcases ship_cases (N := N) s dst with ⟨-, he⟩ | ⟨-, -, he⟩ | ⟨-, -, he⟩
    · rw [he]
      rfl
    · rw [he]
      dsimp only
      split <;> rfl
    · rw [he]
  · exact consumed_split _ src dst i

variable {s src dst}

/-- **An idle funnel** has nothing to read, and after a complete job nothing
waits in it: a rest of a job would have been shipped. In the middle of a job it
may keep items back. -/
theorem distrFunnel_idle (hK : 0 < K) (hKN : K ≤ N)
    (h : Funnelled s src.consumed (fun i => (dst i).written))
    (hsrc : (distrFunnel s src dst).2.1 = src)
    (hdst : (distrFunnel s src dst).2.2 = dst) :
    src.pending = []
      ∧ (partOf src.consumed = [] → ∀ i : Fin K, s.waiting i = []) := by
  have hempty : s.cnt = 0 → ∀ i : Fin K, s.waiting i = [] := fun hcnt i => by
    unfold waiting
    rw [hcnt]
    rfl
  unfold distrFunnel at hsrc hdst
  by_cases hlt : K < N
  · rw [if_pos hlt] at hsrc hdst
    -- nothing was shipped, and a word would have been loaded
    have hload : (ship N s dst).1.cnt < K → src.pending = [] := fun hcnt => by
      rcases load_cases hlt (ship N s dst).1 src
        with ⟨hnone, -⟩ | ⟨x, src', -, hx, hs, -⟩
      · exact Fifo.readNb_eq_none.mp (hnone hcnt)
      · exact absurd (hs.symm.trans hsrc) (Fifo.ne_of_readNb hx)
    have hdst' : (ship N s dst).2 = dst := hdst
    rcases ship_cases (N := N) s dst
      with ⟨-, he⟩ | ⟨hfew, -, he⟩ | ⟨hfew, hlast, he⟩
    · rw [he] at hdst'
      exact absurd (congrFun hdst' ⟨0, hK⟩) (Fifo.write_ne _ _)
    · have hcnt : s.cnt = 0 := by
        by_contra hne
        rw [he] at hdst'
        have h0 :
          (if 0 < s.cnt then (dst ⟨0, hK⟩).write (s.buf 0) else dst ⟨0, hK⟩)
            = dst ⟨0, hK⟩ := congrFun hdst' ⟨0, hK⟩
        rw [if_pos (Nat.pos_of_ne_zero hne)] at h0
        exact absurd h0 (Fifo.write_ne _ _)
      exact ⟨hload (by rw [he]; exact hK), fun _ => hempty hcnt⟩
    · refine ⟨hload (by rw [he]; exact hfew), fun hpart => hempty ?_⟩
      by_contra hne
      have hmarked := h.marked hpart 0 (by omega) (by omega)
      rw [hlast] at hmarked
      cases hmarked
  · rw [if_neg hlt] at hsrc
    exact ⟨split_idle hsrc, fun _ => hempty (h.direct (by omega))⟩

end Funnel

end Skt.Hardware
