import Skt.Lib.LittleEndian
import Skt.Lib.Runs
import Skt.Hardware.Compose

/-!
# The record and the host

The host reads a record as a `struct output_t`. Its layout is fixed by the
compiler of the host program, the order of the words by `compose`, the order of
the halves of a word by the byte order: this module says that they agree. For
every job the fields of the structure are the results the job's record was made
of, whatever the timing in which they arrived at `compose`.

The reader is modelled on bytes, since the structure overlays fields of four
bytes on words of eight; the byte order is that of the host of the repository,
the low byte first. Its offsets are those of a compiler that aligns every field
to its size. The first part is the codec of one record, and the second puts it
at the end of `compose`, which is run by ticks, arrivals and calls in any order.
-/

namespace Skt.Hardware

open Streams LittleEndian

/-! ## `output_t`

The structure, its layout, and what it is to describe a job. -/

/-- The bytes of a sequence of words, as they lie in the buffer of the host. -/
def bytesOf (ws : List (BitVec 64)) : List Byte :=
  ws.flatMap (fun w => leBytes 8 w.toNat)

/-- The field of `n` bytes at an offset: `n` bytes, the low one first. -/
def load (n : ℕ) (bs : List Byte) (ofs : ℕ) : BitVec (8 * n) :=
  BitVec.ofNat (8 * n) (leNat ((bs.drop ofs).take n))

/-- `output_t`, for `R` sums and `n` Count-Min counts. The float is read by its
bits. The upper part of the sum of squares is a field of its own, as in the
source. -/
structure OutputT (R n : ℕ) where
  agms : Fin R → BitVec 64
  cnt : BitVec 32
  /-- The upper 32 bits of the sum of squares, which has 96. -/
  sumqHi : BitVec 32
  min : BitVec 32
  max : BitVec 32
  sum : BitVec 64
  /-- The lower 64 bits of it. -/
  sumq : BitVec 64
  /-- The bits of the float. -/
  cardest : BitVec 32
  /-- The cycle count, of which nothing is said by what a structure
  describes. -/
  cycs : BitVec 32
  /-- The counts of all rows, one row after the other. -/
  cm : Fin n → BitVec 32

/-- `sizeof(output_t)`: the fields, and the padding to a multiple of eight
bytes, the alignment of its widest field. -/
def sizeofOutputT (R n : ℕ) : ℕ := (8 * R + 40 + 4 * n + 7) / 8 * 8

/-- **Reading a record through `output_t`**: every field at its offset. Behind
the sums there are no gaps, as the fields of eight bytes stand at multiples of
eight. -/
def OutputT.read (R n : ℕ) (bs : List Byte) : OutputT R n where
  agms j := load 8 bs (8 * j)
  cnt := load 4 bs (8 * R)
  sumqHi := load 4 bs (8 * R + 4)
  min := load 4 bs (8 * R + 8)
  max := load 4 bs (8 * R + 12)
  sum := load 8 bs (8 * R + 16)
  sumq := load 8 bs (8 * R + 24)
  cardest := load 4 bs (8 * R + 32)
  cycs := load 4 bs (8 * R + 36)
  cm i := load 4 bs (8 * R + 40 + 4 * i)

/-- **A structure that describes the results of a job.** All fields are
determined but the cycle count, which is the schedule's; the two parts of the
sum of squares are put together. -/
structure OutputT.Describes {F : Type} {R C P : ℕ} (bits : F → BitVec 32)
    (out : OutputT R (C * 2 ^ P)) (r : JobResult F R C P) : Prop where
  agms : ∀ j, out.agms j = r.agms j
  cnt : out.cnt = r.basic.cnt
  min : out.min = r.basic.min
  max : out.max = r.basic.max
  sum : out.sum = r.basic.sum
  /-- The sum of squares, put together from its two fields. -/
  sumq : out.sumqHi.toNat * 2 ^ 64 + out.sumq.toNat = r.basic.sumq.toNat
  cardest : out.cardest = bits r.cardest
  /-- The count of row `j` and key `k`, at its index in the array. -/
  cm : ∀ (j : Fin C) (k : BitVec P) (h : j.val * 2 ^ P + k.toNat < C * 2 ^ P),
    out.cm ⟨j.val * 2 ^ P + k.toNat, h⟩ = r.counts j k

/-! ## Words and halves

A record is a sequence of words to `compose` and a sequence of halves to the
host. -/

/-- The halves of words, the low one first, as the bytes come. -/
def halves (ws : List (BitVec 64)) : List (BitVec 32) :=
  ws.flatMap (fun w => [w.setWidth 32, w.extractLsb' 32 32])

/-- The bytes of words are the bytes of their halves, since a word is stored
with its lower half first. -/
theorem bytesOf_eq_halves (ws : List (BitVec 64)) :
    bytesOf ws = (halves ws).flatMap (fun w => leBytes 4 w.toNat) := by
  unfold bytesOf halves
  rw [List.flatMap_assoc]
  refine List.flatMap_congr (fun w _ => ?_)
  have hlo : (w.setWidth 32).toNat = w.toNat % 256 ^ 4 := by
    rw [BitVec.toNat_setWidth]
    rfl
  have hhi : (w.extractLsb' 32 32).toNat = w.toNat / 256 ^ 4 := by
    have hw := w.isLt
    rw [BitVec.extractLsb'_toNat, Nat.shiftRight_eq_div_pow,
      Nat.mod_eq_of_lt (by omega)]
    rfl
  rw [List.flatMap_cons, List.flatMap_singleton, hlo, hhi, leBytes_mod]
  exact leBytes_add 4 4 w.toNat

/-- Pairing halves and taking them apart again: what `compose` does to the
counts, the host undoes. -/
theorem halves_pairs {l : List (BitVec 32)} (h : l.length % 2 = 0) :
    halves (pairs l) = l := by
  induction l using pairs.induct with
  | case1 lo hi rest ih =>
    have hrest : rest.length % 2 = 0 := by
      rw [List.length_cons, List.length_cons] at h
      omega
    have hcons : halves ((hi ++ lo) :: pairs rest)
        = [(hi ++ lo).setWidth 32, (hi ++ lo).extractLsb' 32 32]
          ++ halves (pairs rest) :=
      List.flatMap_cons
    rw [pairs, hcons, ih hrest, BitVec.setWidth_append_eq_right,
      BitVec.extractLsb'_append_eq_left]
    rfl
  | case2 l hl =>
    cases l with
    | nil => rfl
    | cons lo rest =>
      cases rest with
      | nil => exact absurd h (by rw [List.length_singleton]; decide)
      | cons hi rest => exact absurd rfl (hl lo hi rest)

/-- The halves of a word, at twice its index and behind that. -/
theorem getElem?_halves {ws : List (BitVec 64)} {k : ℕ} {w : BitVec 64}
    (h : ws[k]? = some w) :
    (halves ws)[2 * k]? = some (w.setWidth 32)
      ∧ (halves ws)[2 * k + 1]? = some (w.extractLsb' 32 32) := by
  unfold halves
  have hblock := fun q => getElem?_flatMap_block (B := 2) (by decide)
    (fun w : BitVec 64 => [w.setWidth 32, w.extractLsb' 32 32])
      ws (fun _ _ => rfl) q
  constructor
  · rw [hblock, show 2 * k / 2 = k by omega, show 2 * k % 2 = 0 by omega, h]
    rfl
  · rw [hblock, show (2 * k + 1) / 2 = k by
      omega, show (2 * k + 1) % 2 = 1 by omega, h]
    rfl

/-- A field that is a word of the record, at eight times its index. -/
theorem load_word {ws : List (BitVec 64)} {k : ℕ} {w : BitVec 64}
    (h : ws[k]? = some w) :
    load 8 (bytesOf ws) (8 * k) = w := by
  have hw := wordAt_flatMap_leBytes (n := 8) ws h
  refine (congrArg (BitVec.ofNat 64) hw).trans ?_
  exact BitVec.ofNat_toNat 64 w

/-- A field that is half a word of the record, at four times the index of the
half. -/
theorem load_half {ws : List (BitVec 64)} {k : ℕ} {w : BitVec 32}
    (h : (halves ws)[k]? = some w) :
    load 4 (bytesOf ws) (4 * k) = w := by
  rw [bytesOf_eq_halves]
  have hw := wordAt_flatMap_leBytes (n := 4) (halves ws) h
  refine (congrArg (BitVec.ofNat 32) hw).trans ?_
  exact BitVec.ofNat_toNat 32 w

section Record

variable {F : Type} {R C P : ℕ} {bits : F → BitVec 32}

/-- A record has the size of an `output_t`, the padding included. -/
theorem length_words (hP : 0 < P) (r : JobResult F R C P) (cycs : BitVec 32) :
    8 * (r.words bits cycs).length = sizeofOutputT R (C * 2 ^ P) := by
  have heven := r.length_countList_even hP
  rw [JobResult.length_countList] at heven
  unfold JobResult.words BasicStats.words sizeofOutputT
  simp only [List.length_append, List.length_map,
    List.length_finRange, List.length_cons,
    List.length_nil, length_pairs, JobResult.length_countList]
  omega

/-- The words behind the AGMS sums, at their distance from there. -/
theorem getElem?_words_add (r : JobResult F R C P) (cycs : BitVec 32) (i : ℕ) :
    (r.words bits cycs)[R + i]?
      = (r.basic.words ++ (cycs ++ bits r.cardest)
        :: pairs r.countList)[i]? := by
  unfold JobResult.words
  rw [List.append_assoc, List.append_assoc,
    List.getElem?_append_right (by simp)]
  simp

/-- **The codec**: what the host reads from a record describes the results the
record was made of. -/
theorem read_words (hP : 0 < P) (r : JobResult F R C P) (cycs : BitVec 32) :
    (OutputT.read R (C * 2 ^ P)
      (bytesOf (r.words bits cycs))).Describes bits r := by
  have hword : ∀ i w,
    (r.basic.words ++ (cycs ++ bits r.cardest)
      :: pairs r.countList)[i]? = some w
      → (r.words bits cycs)[R + i]? = some w := fun i w h => by
        rw [getElem?_words_add, h]
  have h₀ := hword 0 _ rfl
  have h₁ := hword 1 _ rfl
  have h₂ := hword 2 _ rfl
  have h₃ := hword 3 _ rfl
  have h₄ := hword 4 _ rfl
  have hlo : ∀ i w, (r.words bits cycs)[R + i]? = some w →
      load 4 (bytesOf (r.words bits cycs)) (8 * R + 8 * i)
        = w.setWidth 32 := fun i w h => by
    rw [← load_half (getElem?_halves h).1]
    exact congrArg _ (by omega)
  have hhi : ∀ i w, (r.words bits cycs)[R + i]? = some w →
      load 4 (bytesOf (r.words bits cycs)) (8 * R + (8 * i + 4))
        = w.extractLsb' 32 32 :=
      fun i w h => by
    rw [← load_half (getElem?_halves h).2]
    exact congrArg _ (by omega)
  have hall : ∀ i w, (r.words bits cycs)[R + i]? = some w →
      load 8 (bytesOf (r.words bits cycs)) (8 * R + 8 * i)
        = w := fun i w h => by
    rw [← Nat.mul_add]
    exact load_word h
  refine ⟨fun j => ?_, ?_, ?_, ?_, ?_, ?_, ?_, fun j k h => ?_⟩
  · refine load_word ?_
    unfold JobResult.words
    rw [List.append_assoc, List.append_assoc,
      List.getElem?_append_left (by simp),
      List.getElem?_map, List.getElem?_eq_getElem (by simp)]
    simp
  · exact (hlo 0 _ h₀).trans BitVec.setWidth_append_eq_right
  · exact (hlo 1 _ h₁).trans BitVec.setWidth_append_eq_right
  · exact (hhi 1 _ h₁).trans BitVec.extractLsb'_append_eq_left
  · exact hall 2 _ h₂
  · -- the two parts of the sum of squares
    have hsumqHi :
      (OutputT.read R (C * 2 ^ P) (bytesOf (r.words bits cycs))).sumqHi
        = r.basic.sumq.extractLsb' 64 32 :=
      (hhi 0 _ h₀).trans BitVec.extractLsb'_append_eq_left
    have hsumq : (OutputT.read R (C * 2 ^ P) (bytesOf (r.words bits cycs))).sumq
        = r.basic.sumq.extractLsb' 0 64 := hall 3 _ h₃
    have hlt := r.basic.sumq.isLt
    rw [hsumqHi, hsumq, BitVec.extractLsb'_toNat, BitVec.extractLsb'_toNat,
      Nat.shiftRight_eq_div_pow, Nat.shiftRight_zero,
        Nat.mod_eq_of_lt (b := 2 ^ 32) (by omega)]
    exact Nat.div_add_mod' _ _
  · exact (hlo 4 _ h₄).trans BitVec.setWidth_append_eq_right
  · have hcount : (halves (r.words bits cycs))[2 * R + 10
      + (j.val * 2 ^ P + k.toNat)]?
        = some (r.counts j k) := by
      have hsplit : halves (r.words bits cycs)
          = halves ((List.finRange R).map r.agms ++ r.basic.words
            ++ [cycs ++ bits r.cardest])
            ++ r.countList := by
        rw [← halves_pairs (r.length_countList_even hP)]
        exact List.flatMap_append
      have hlen : (halves ((List.finRange R).map r.agms ++ r.basic.words
          ++ [cycs ++ bits r.cardest])).length = 2 * R + 10 := by
        unfold halves
        rw [length_flatMap_block (B := 2) _ _ (fun _ _ => rfl)]
        simp only [List.length_append, List.length_map,
          List.length_finRange, BasicStats.words,
          List.length_cons, List.length_nil]
        omega
      rw [hsplit, List.getElem?_append_right (by omega), hlen,
        Nat.add_sub_cancel_left,
        r.getElem?_countList j k.isLt, BitVec.ofNat_toNat, BitVec.setWidth_eq]
    rw [← load_half hcount]
    exact congrArg (load 4 (bytesOf (r.words bits cycs))) (by dsimp only; omega)

end Record

/-! ## Runs of `compose`

Here `compose` stands alone, and its inputs are filled from outside: the order
of arrival is arbitrary, and results of later jobs may come before those of
earlier ones on another input. -/

/-- What can happen at `compose`: a tick, the arrival of a result on one of the
inputs, a call. -/
inductive ComposeEvent (R : ℕ) where
  /-- A tick is written, for whatever job. -/
  | tick
  /-- The next result arrives on an input. -/
  | arrive (i : ComposePort R)
  /-- `compose` is called. -/
  | call

/-- `compose` between its streams. Nothing is taken from `dst`, so that it shows
all that has been written. -/
structure ComposeRun (F : Type) (R : ℕ) where
  state : Compose
  io : ComposePorts F R

namespace ComposeRun

variable {F : Type} {R C P : ℕ}

/-- The start of a run: nothing has arrived. -/
def init : ComposeRun F R :=
  ⟨Compose.init,
    ⟨Fifo.new, Fifo.new, Fifo.new, fun _ => Fifo.new, Fifo.new, Fifo.new⟩⟩

/-- One event. What arrives on an input is the next of what the jobs put
there. -/
def step (bits : F → BitVec 32) (results : List (JobResult F R C P))
    (r : ComposeRun F R) :
    ComposeEvent R → ComposeRun F R
  | .tick => { r with io := { r.io with tickSrc := r.io.tickSrc.write true } }
  | .arrive (.agms j) => { r with io := { r.io with
      agmsSums := Function.update r.io.agmsSums j
        ((r.io.agmsSums j).arrive (results.map (fun x => x.agms j))) } }
  | .arrive .basic => { r with io := { r.io with
      dstBasic := r.io.dstBasic.arrive
        (results.flatMap (fun x => frame x.basic.words)) } }
  | .arrive .cardest => { r with io := { r.io with
      cardest := r.io.cardest.arrive (results.map (fun x => x.cardest)) } }
  | .arrive .cm => { r with io := { r.io with
      cmCounts := r.io.cmCounts.arrive
        (results.flatMap (fun x => frame x.countList)) } }
  | .call =>
    let p := Compose.compose bits r.state r.io
    ⟨p.1, p.2⟩

/-- Whether all results have arrived, on all inputs. -/
def Arrived (results : List (JobResult F R C P)) (r : ComposeRun F R) : Prop :=
  (∀ j, (r.io.agmsSums j).written = results.map (fun x => x.agms j))
    ∧ r.io.dstBasic.written = results.flatMap (fun x => frame x.basic.words)
    ∧ r.io.cardest.written = results.map (fun x => x.cardest)
    ∧ r.io.cmCounts.written = results.flatMap (fun x => frame x.countList)

/-- **The invariant of a run**: the inputs carry the beginning of the results,
the equation of `compose` holds, and the output has no open record exactly when
`compose` is in its initial state. -/
structure Sound (bits : F → BitVec 32) (results : List (JobResult F R C P))
    (r : ComposeRun F R) :
    Prop where
  /-- The inputs carry the beginning of the results, in the order of the
  jobs. -/
  agms : ∀ j, (r.io.agmsSums j).written <+: results.map (fun x => x.agms j)
  basic : r.io.dstBasic.written <+: results.flatMap
    (fun x => frame x.basic.words)
  cardest : r.io.cardest.written <+: results.map (fun x => x.cardest)
  cm : r.io.cmCounts.written <+: results.flatMap (fun x => frame x.countList)
  /-- The equation of `compose`. -/
  composed : Composed bits results r.state
    (fun i => (r.io.port bits i).consumed) r.io.dst.written
  /-- It is in its initial state exactly between two records. -/
  resting : partOf r.io.dst.written = [] ↔ r.state.view = (0, none)

theorem sound_init (bits : F → BitVec 32) (results : List (JobResult F R C P)) :
    (init : ComposeRun F R).Sound bits results where
  agms _ := List.nil_prefix
  basic := List.nil_prefix
  cardest := List.nil_prefix
  cm := List.nil_prefix
  composed := by
    have h := composed_init bits results
    have hnil : (fun i => ((init : ComposeRun F R).io.port bits i).consumed)
      = fun _ => [] :=
      funext fun i => by cases i <;> rfl
    rw [hnil]
    exact h
  resting := ⟨fun _ => rfl, fun _ => rfl⟩

end ComposeRun

/-- A turn of the sequencer is at rest after a whole number of records: the word
with `last` and the return to the initial state come together. -/
theorem compose_resting {R : ℕ} (hR : 0 < R) {view : ℕ × Option (BitVec 32)}
    {dst : List (Flit (BitVec 64))} (h : partOf dst = [] ↔ view = (0, none))
    (x : Flit (BitVec 64)) (cycs : BitVec 32) :
    partOf (dst ++ ((composeSequencer R).out view x).map (· cycs)) = []
      ↔ (composeSequencer R).next view x = (0, none) := by
  obtain ⟨idx, lo⟩ := view
  unfold composeSequencer
  dsimp only
  by_cases h₁ : idx ≤ R
  · rw [if_pos h₁, List.map_singleton, partOf_concat]
    refine iff_of_false (by simp) (fun hnext => ?_)
    have hidx := congrArg Prod.fst hnext
    dsimp only at hidx
    split at hidx
    · exact absurd hidx (Nat.succ_ne_zero _)
    · rw [if_pos (show idx = R by omega)] at hidx
      dsimp only at hidx
      split at hidx <;> omega
  · rw [if_neg h₁, if_neg (show ¬ idx < R by omega),
      if_neg (show ¬ idx = R by omega)]
    by_cases h₂ : idx = R + 1
    · rw [if_pos h₂, if_pos h₂, List.map_singleton, partOf_concat]
      exact iff_of_false (by simp)
        (fun hnext => absurd (congrArg Prod.fst hnext) (Nat.succ_ne_zero _))
    · rw [if_neg h₂, if_neg h₂]
      cases lo with
      | none =>
        rw [List.map_nil, List.append_nil, h]
        refine iff_of_false (fun hview => ?_) (fun hnext => ?_)
        · have hidx := congrArg Prod.fst hview
          dsimp only at hidx
          omega
        · exact absurd (congrArg Prod.snd hnext) (by simp)
      | some lo =>
        rw [List.map_singleton, partOf_concat]
        cases hlast : x.last with
        | true => exact iff_of_true rfl rfl
        | false =>
          refine iff_of_false (by simp) (fun hnext => ?_)
          have hidx := congrArg Prod.fst hnext
          dsimp only at hidx
          rw [if_neg Bool.false_ne_true] at hidx
          omega

namespace ComposeRun

variable {F : Type} {R C P : ℕ} {bits : F → BitVec 32}
    {results : List (JobResult F R C P)}
  {r : ComposeRun F R}

/-- **Every event keeps the invariant**, be it an arrival, a tick or a call. A
tick changes nothing the invariant looks at. -/
theorem Sound.step (hR : 0 < R) (hC : 0 < C) (hP : 0 < P)
    (h : r.Sound bits results)
    (e : ComposeEvent R) : (r.step bits results e).Sound bits results := by
  cases e with
  | tick => exact ⟨h.agms, h.basic, h.cardest, h.cm,
      h.composed.congr ⟨fun _ => rfl, rfl, rfl, rfl⟩ rfl, h.resting⟩
  | arrive i =>
    cases i with
    | agms j =>
      refine ⟨fun k => ?_, h.basic, h.cardest, h.cm,
        h.composed.congr ⟨fun k => ?_, rfl, rfl, rfl⟩ rfl, h.resting⟩
      · show (Function.update r.io.agmsSums j _ k).written <+: _
        by_cases hk : k = j
        · rw [hk, Function.update_self]
          exact Fifo.written_arrive (h.agms j)
        · rw [Function.update_of_ne hk]
          exact h.agms k
      · show (Function.update r.io.agmsSums j _ k).consumed
          = (r.io.agmsSums k).consumed
        by_cases hk : k = j
        · rw [hk, Function.update_self, Fifo.consumed_arrive]
        · rw [Function.update_of_ne hk]
    | basic =>
      exact ⟨h.agms, Fifo.written_arrive h.basic, h.cardest, h.cm,
        h.composed.congr ⟨fun _ => rfl, Fifo.consumed_arrive _ _, rfl,
          rfl⟩ rfl, h.resting⟩
    | cardest =>
      exact ⟨h.agms, h.basic, Fifo.written_arrive h.cardest, h.cm,
        h.composed.congr ⟨fun _ => rfl, rfl, Fifo.consumed_arrive _ _,
          rfl⟩ rfl, h.resting⟩
    | cm =>
      exact ⟨h.agms, h.basic, h.cardest, Fifo.written_arrive h.cm,
        h.composed.congr ⟨fun _ => rfl, rfl, rfl,
          Fifo.consumed_arrive _ _⟩ rfl, h.resting⟩
  | call =>
    have hin := Compose.compose_sameInputs bits r.state r.io
    refine ⟨fun j => ?_, ?_, ?_, ?_, compose_sound hC hP
      (ComposePorts.port_isPrefix h.agms h.basic h.cardest h.cm) h.composed, ?_⟩
    · exact (hin.agmsSums j).symm ▸ h.agms j
    · exact hin.dstBasic.symm ▸ h.basic
    · exact hin.cardest.symm ▸ h.cardest
    · exact hin.cmCounts.symm ▸ h.cm
    · obtain ⟨hview, -, hdst⟩ := Compose.tick_eq bits r.state r.io
      have hrest := h.resting
      rw [← hview, ← hdst] at hrest
      show partOf (Compose.stage bits (Compose.tick r.state r.io).1
        (Compose.tick r.state r.io).2).2.dst.written = []
        ↔ (Compose.stage bits (Compose.tick r.state r.io).1
          (Compose.tick r.state r.io).2).1.view = (0, none)
      rcases Compose.stage_cases bits (Compose.tick r.state r.io).1
        (Compose.tick r.state r.io).2
        with ⟨-, he⟩ | ⟨x, src, -, hnext, -, hdst'⟩
      · rw [he]
        exact hrest
      · rw [hnext, hdst']
        exact compose_resting hR hrest x _

/-- What can happen in the streams, in terms of the results and the ticks: each
of them is written once and read once. -/
def bound (results : List (JobResult F R C P)) (ticks : ℕ) : ℕ :=
  2 * ticks + (R * (2 * results.length)
    + (2 * (results.flatMap (fun x => frame x.basic.words)).length
      + (2 * results.length
    + (2 * (results.flatMap (fun x => frame x.countList)).length
    + 2 * (results.length * recordLength R C P)))))

/-- The size of the streams is bounded, so that only so many calls change
them. -/
theorem Sound.size_le (hC : 0 < C) (hP : 0 < P) (h : r.Sound bits results) :
    Growing.size r.io.streams ≤ bound results r.io.tickSrc.written.length := by
  have hagms : Growing.size r.io.agmsSums ≤ R * (2 * results.length) :=
    size_family_le (fun j => Fifo.size_le (by simpa using (h.agms j).length_le))
  have hcardest : Growing.size r.io.cardest ≤ 2 * results.length :=
    Fifo.size_le (by simpa using h.cardest.length_le)
  exact Nat.add_le_add (Fifo.size_le le_rfl)
    (Nat.add_le_add hagms (Nat.add_le_add
    (Fifo.size_le h.basic.length_le) (Nat.add_le_add hcardest (Nat.add_le_add
    (Fifo.size_le h.cm.length_le)
      (Fifo.size_le (h.composed.length_le hC hP))))))

/-- **After more calls than there is to do, all records are written**, once all
results have arrived. -/
theorem Sound.completes (hR : 0 < R) (hC : 0 < C) (hP : 0 < P)
    (h : r.Sound bits results) (harr : r.Arrived results) {m : ℕ}
    (hm : bound results r.io.tickSrc.written.length < m) :
    ((List.replicate m ComposeEvent.call).foldl
      (ComposeRun.step bits results) r).io.dst.written.length
      = results.length * recordLength R C P := by
  -- while `compose` is called, nothing arrives
  have hI : ∀ (r' : ComposeRun F R) (_ : Unit),
      r'.Sound bits results ∧ r'.Arrived results
        ∧ r'.io.tickSrc.written = r.io.tickSrc.written →
      (r'.step bits results .call).Sound bits results
        ∧ (r'.step bits results .call).Arrived results
        ∧ (r'.step bits results .call).io.tickSrc.written
          = r.io.tickSrc.written := by
    rintro r' - ⟨hs, ha, ht⟩
    have hin := Compose.compose_sameInputs bits r'.state r'.io
    refine ⟨hs.step hR hC hP .call, ⟨fun j => ?_, ?_, ?_, ?_⟩, ?_⟩
    · exact (hin.agmsSums j).trans (ha.1 j)
    · exact hin.dstBasic.trans ha.2.1
    · exact hin.cardest.trans ha.2.2.1
    · exact hin.cmCounts.trans ha.2.2.2
    · exact hin.tickSrc.trans ht
  have hgrows : ∀ (r : ComposeRun F R) (_ : Unit),
      Grows r.io.streams (r.step bits results .call).io.streams :=
    fun r _ => Compose.compose_grows bits r.state r.io
  have hmoves : (List.replicate m ComposeEvent.call : List (ComposeEvent R))
      = (List.replicate m ()).map (fun _ => .call) := by
    rw [List.map_replicate]
  rw [hmoves, List.foldl_map]
  refine done_of_length (fun r : ComposeRun F R => r.io.streams)
    (fun r _ => r.step bits results .call)
    (fun r' => r'.Sound bits results ∧ r'.Arrived results
      ∧ r'.io.tickSrc.written = r.io.tickSrc.written)
    (fun r => r.io.dst.written.length = results.length
      * recordLength R C P) hI hgrows
    (fun r' _ hr hidle => ?_) (fun r' u hr hd => ?_)
      (fun r' hr => ?_) ⟨h, harr, rfl⟩
    (by rw [List.length_replicate]; exact hm)
  · obtain ⟨-, hrecords⟩ := compose_through hC hP
      (ComposePorts.port_eq hr.2.1.1 hr.2.1.2.1 hr.2.1.2.2.1 hr.2.1.2.2.2)
        hr.1.composed hidle
    rw [hrecords.length_eq, length_flatMap_block _ _
      (fun x _ => length_record x)]
  · have hge := (hgrows r' u).2.2.2.2.2.2.length_le
    exact le_antisymm ((hI r' u hr).1.composed.length_le hC hP) (hd ▸ hge)
  · rw [← hr.2.2]
    exact hr.1.size_le hC hP

/-- **The record codec.** Whatever the order in which results and ticks arrive
and `compose` is called: every complete record of the output has the size of an
`output_t` and describes, read through it, the results of its job; after every
record `compose` is back in its initial state; and once all results have
arrived, enough calls write one record for each job and nothing else. -/
theorem compose_codec (hR : 0 < R) (hC : 0 < C) (hP : 0 < P)
    (bits : F → BitVec 32) (results : List (JobResult F R C P))
    (schedule : List (ComposeEvent R)) :
    let r := schedule.foldl (ComposeRun.step bits results) init
    (∀ (t : ℕ) (record : List (BitVec 64)),
      (jobsOf r.io.dst.written)[t]? = some record →
      ∃ result, results[t]? = some result
        ∧ 8 * record.length = sizeofOutputT R (C * 2 ^ P)
        ∧ (OutputT.read R (C * 2 ^ P) (bytesOf record)).Describes bits result)
    ∧ (partOf r.io.dst.written = [] → r.state.idx = 0 ∧ r.state.loVld = false)
    ∧ (r.Arrived results → ∃ n, ∀ m, n < m →
      let r' := (List.replicate m ComposeEvent.call).foldl
        (ComposeRun.step bits results) r
      (jobsOf r'.io.dst.written).length = results.length
        ∧ partOf r'.io.dst.written = []) := by
  intro r
  have hstep := fun (r : ComposeRun F R) e (h : r.Sound bits results) =>
    h.step hR hC hP e
  have hsound : r.Sound bits results :=
    Runs.foldl_invariant (ComposeRun.step bits results) hstep schedule
      (sound_init bits results)
  refine ⟨fun t record ht => ?_, fun hrest => ?_, fun harr => ?_⟩
  · obtain ⟨result, cycs, hresult, rfl⟩ := hsound.composed.record hC hP ht
    exact ⟨result, hresult, length_words hP result cycs,
      read_words hP result cycs⟩
  · have hview := hsound.resting.mp hrest
    have hlo := congrArg Prod.snd hview
    refine ⟨congrArg Prod.fst hview, ?_⟩
    cases hvld : r.state.loVld with
    | false => rfl
    | true =>
      rw [Compose.view, hvld] at hlo
      cases hlo
  · refine ⟨bound results r.io.tickSrc.written.length, fun m hm => ?_⟩
    have hsound' := Runs.foldl_invariant (ComposeRun.step bits results) hstep
      (List.replicate m .call) hsound
    exact hsound'.composed.complete hC hP (hsound.completes hR hC hP harr hm)

/-- The codec at work: a job whose results arrive in no particular order, and a
record that can be read once all of them have been asked for. -/
theorem compose_codec_instance :
    let results : List (JobResult (BitVec 32) 1 1 1) :=
      [⟨fun _ => 7, ⟨2, 3, 5, 8, 2 ^ 64 + 34⟩, 9, fun _ k => k.setWidth 32⟩]
    let schedule : List (ComposeEvent 1) :=
      [.tick, .arrive .cm, .call, .arrive (.agms 0), .arrive .basic,
        .call, .call, .arrive .cm,
        .arrive .basic, .arrive .basic, .arrive .basic, .call, .call,
          .call, .arrive .cardest,
        .call, .call, .call]
    let r := schedule.foldl (ComposeRun.step id results) init
    (∀ (t : ℕ) (record : List (BitVec 64)),
      (jobsOf r.io.dst.written)[t]? = some record →
      ∃ result, results[t]? = some result
        ∧ 8 * record.length = sizeofOutputT 1 (1 * 2 ^ 1)
        ∧ (OutputT.read 1 (1 * 2 ^ 1) (bytesOf record)).Describes id result)
    ∧ (partOf r.io.dst.written = [] → r.state.idx = 0 ∧ r.state.loVld = false)
    ∧ (r.Arrived results → ∃ n, ∀ m, n < m →
      let r' := (List.replicate m ComposeEvent.call).foldl
        (ComposeRun.step id results) r
      (jobsOf r'.io.dst.written).length = results.length
        ∧ partOf r'.io.dst.written = []) :=
  compose_codec (by decide) (by decide) (by decide) id _ _

end ComposeRun

end Skt.Hardware
