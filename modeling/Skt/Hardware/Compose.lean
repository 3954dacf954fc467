import Skt.Hardware.BasicSketch
import Skt.Hardware.Rows

/-!
# The result record

`compose` puts the results of a job into one record of 64-bit words: the sums of
the AGMS rows, the dump of the basic sketch, the cardinality estimate together
with the cycle count, and the Count-Min counts in pairs. The results come in on
streams of their own that fill at any time, even several jobs ahead.

`compose` waits for one of them at a time. That makes it a sequencer: the order
in which it reads is a script, fixed by the results, and what it writes is a
function of what the streams carry and of the cycle counts it puts in. The cycle
counts are the one thing that depends on the schedule, and so the records are
compared up to them: `upToCycs` erases the half word they stand in, and nothing
else.

The number of AGMS rows, the number of Count-Min rows and the width of their
keys are parameters, as is the type of the estimate, of which only the 32 bits
are looked at.
-/

namespace Skt.Hardware

open Streams

/-! ## `compose`

One call does two things that have nothing to do with each other: it counts
cycles, and it writes a word of the record if the one it waits for is there. -/

/-- The state of `compose`: the cycle count `cc`, the stage `idx`, and the
register `lo` that holds the first half of a pair of counts until the second
arrives. -/
structure Compose where
  /-- The cycle count, of 32 bits: it wraps. -/
  cc : BitVec 32
  /-- The stage, the index of the input it waits for: the rows of the AGMS
  sketch first, and one each for the other three. -/
  idx : ℕ
  /-- `lo.vld`: whether a count is held back until its pair is complete. -/
  loVld : Bool
  /-- `lo.val`: that count. -/
  loVal : BitVec 32

/-- The streams of `compose`. The type `F` is that of the estimate, `float` in
the source. -/
structure ComposePorts (F : Type) (R : ℕ) where
  /-- A tick for every job, written when its first word is split. -/
  tickSrc : Fifo Bool
  /-- The dumps of the basic sketch, four words each. -/
  dstBasic : Fifo (Flit (BitVec 64))
  /-- The cardinality estimates, one for each job. -/
  cardest : Fifo F
  /-- The sums of squares of each AGMS row, one for each job. -/
  agmsSums : Fin R → Fifo (BitVec 64)
  /-- The Count-Min counts, all rows of a job as one. -/
  cmCounts : Fifo (Flit (BitVec 32))
  /-- The records. -/
  dst : Fifo (Flit (BitVec 64))

/-- The inputs of `compose` that end up in the record, which is all of them but
the ticks. -/
inductive ComposePort (R : ℕ) where
  | agms (j : Fin R)
  | basic
  | cardest
  | cm
  deriving DecidableEq

namespace Compose

variable {F : Type} {R : ℕ}

/-- The state at power-up. -/
def init : Compose := ⟨0, 0, false, 0⟩

/-- The first part of a call: the cycle count, started over by a tick. The count
is incremented in every call, in the one that reads a tick as well. -/
def tick (s : Compose) (io : ComposePorts F R) : Compose × ComposePorts F R :=
  match io.tickSrc.readNb with
  | none => ({ s with cc := s.cc + 1 }, io)
  | some (_, src) => ({ s with cc := 0 + 1 }, { io with tickSrc := src })

/-- `idx++`, in a register of `clog2` of the number of stages, three more than
there are rows. -/
def next (R idx : ℕ) : ℕ := (idx + 1) % 2 ^ clog2 (R + 3)

/-- The second part of a call: a word of the record, if the input of the stage
has one. The basic sketch and the counts have a stage that lasts until their
`last` flag; of two counts only the second makes a word, with the first in its
lower half. The `last` of the final count is the `last` of the record and starts
the stages over. -/
def stage (bits : F → BitVec 32) (s : Compose) (io : ComposePorts F R) :
    Compose × ComposePorts F R :=
  if h : s.idx < R then
    match (io.agmsSums ⟨s.idx, h⟩).readNb with
    | none => (s, io)
    | some (odat, src) =>
      ({ s with idx := next R s.idx },
        { io with
          agmsSums := Function.update io.agmsSums ⟨s.idx, h⟩ src
          dst := io.dst.write ⟨false, odat⟩ })
  else if s.idx = R then
    match io.dstBasic.readNb with
    | none => (s, io)
    | some (x, src) =>
      ({ s with idx := if x.last then next R s.idx else s.idx },
        { io with dstBasic := src, dst := io.dst.write ⟨false, x.val⟩ })
  else if s.idx = R + 1 then
    match io.cardest.readNb with
    | none => (s, io)
    | some (x, src) =>
      ({ s with idx := next R s.idx },
        { io with cardest := src, dst := io.dst.write ⟨false, s.cc ++ bits x⟩ })
  else
    match io.cmCounts.readNb with
    | none => (s, io)
    | some (x, src) =>
      if !s.loVld then ({ s with loVld := true, loVal := x.val },
        { io with cmCounts := src })
      else
        ({ s with loVld := false, idx := if x.last then 0 else s.idx },
          { io with cmCounts := src, dst :=
            io.dst.write ⟨x.last, x.val ++ s.loVal⟩ })

/-- `compose`: the cycle count first, so that the word which holds it is written
with the count of the same call. -/
def compose (bits : F → BitVec 32) (s : Compose) (io : ComposePorts F R) :
    Compose × ComposePorts F R :=
  let (s, io) := tick s io
  stage bits s io

end Compose

/-! ## `compose` as a sequencer

The inputs are brought to one type, and the stage and the half word to one
state. -/

/-- An input of `compose`, its elements brought to the width of the output.
Flags are put on the streams that have none; `compose` does not look at them
there. -/
def ComposePorts.port {F : Type} {R : ℕ} (bits : F → BitVec 32)
    (io : ComposePorts F R) :
    ComposePort R → Fifo (Flit (BitVec 64))
  | .agms j => (io.agmsSums j).map (Flit.mk false)
  | .basic => io.dstBasic
  | .cardest => io.cardest.map (fun x => ⟨false, (bits x).setWidth 64⟩)
  | .cm => io.cmCounts.map (Flit.map (BitVec.setWidth 64))

/-- Nothing has been put into the inputs of `compose`. -/
structure ComposePorts.SameInputs {F : Type} {R : ℕ}
    (io io' : ComposePorts F R) : Prop where
  tickSrc : io'.tickSrc.written = io.tickSrc.written
  agmsSums : ∀ j, (io'.agmsSums j).written = (io.agmsSums j).written
  dstBasic : io'.dstBasic.written = io.dstBasic.written
  cardest : io'.cardest.written = io.cardest.written
  cmCounts : io'.cmCounts.written = io.cmCounts.written

/-- Nothing has been taken from the inputs of the record. A tick that is read
does not count. -/
structure ComposePorts.SameReads {F : Type} {R : ℕ}
    (io io' : ComposePorts F R) : Prop where
  agmsSums : ∀ j, (io'.agmsSums j).consumed = (io.agmsSums j).consumed
  dstBasic : io'.dstBasic.consumed = io.dstBasic.consumed
  cardest : io'.cardest.consumed = io.cardest.consumed
  cmCounts : io'.cmCounts.consumed = io.cmCounts.consumed

/-- The same, at the width of the output, for all inputs in one. -/
theorem ComposePorts.SameReads.port {F : Type} {R : ℕ}
    {io io' : ComposePorts F R} (h : io.SameReads io') (bits : F → BitVec 32) :
    (fun i => (io'.port bits i).consumed) = fun i =>
      (io.port bits i).consumed := by
  funext i
  cases i with
  | agms j => exact congrArg (List.map _) (h.agmsSums j)
  | basic => exact h.dstBasic
  | cardest => exact congrArg (List.map _) h.cardest
  | cm => exact congrArg (List.map _) h.cmCounts

/-- All streams of `compose`, for the order in which they grow. -/
def ComposePorts.streams {F : Type} {R : ℕ} (io : ComposePorts F R) :
    Fifo Bool × (Fin R → Fifo (BitVec 64)) × Fifo (Flit (BitVec 64)) × Fifo F
      × Fifo (Flit (BitVec 32)) × Fifo (Flit (BitVec 64)) :=
  (io.tickSrc, io.agmsSums, io.dstBasic, io.cardest, io.cmCounts, io.dst)

/-- The streams are all there is: two states of them that agree stream by stream
are the same. -/
theorem ComposePorts.eq_of_streams {F : Type} {R : ℕ}
    {io io' : ComposePorts F R}
    (h : io.streams = io'.streams) : io = io' := by
  cases io
  cases io'
  cases h
  rfl

/-- **What `compose` does to its stage and its half word.** The output of a turn
is a function of the cycle count, which is not known to the script: it is put in
when the word is written. -/
def composeSequencer (R : ℕ) : Sequencer (ComposePort R) (Flit (BitVec 64))
    (BitVec 32 → Flit (BitVec 64)) (ℕ × Option (BitVec 32)) where
  select s :=
    if h : s.1 < R then .agms ⟨s.1, h⟩
    else if s.1 = R then .basic
    else if s.1 = R + 1 then .cardest
    else .cm
  next s x :=
    if s.1 < R then (s.1 + 1, s.2)
    else if s.1 = R then (if x.last then s.1 + 1 else s.1, s.2)
    else if s.1 = R + 1 then (s.1 + 1, s.2)
    else match s.2 with
      | none => (s.1, some (x.val.setWidth 32))
      | some _ => (if x.last then 0 else s.1, none)
  out s x :=
    if s.1 ≤ R then [fun _ => ⟨false, x.val⟩]
    else if s.1 = R + 1 then [fun cc => ⟨false, cc ++ x.val.setWidth 32⟩]
    else match s.2 with
      | none => []
      | some lo => [fun _ => ⟨x.last, x.val.setWidth 32 ++ lo⟩]

/-- The stage and the half word, if there is one: what the sequencer sees of the
state. -/
def Compose.view (s : Compose) : ℕ × Option (BitVec 32) :=
  (s.idx, if s.loVld then some s.loVal else none)

namespace Compose

variable {F : Type} {R : ℕ} (bits : F → BitVec 32)

/-- The stages fit the register: `idx++` does not wrap before the last stage,
and behind it the index is set to `0`. -/
theorem next_eq {idx : ℕ} (h : idx < R + 2) : next R idx = idx + 1 :=
  Nat.mod_eq_of_lt (lt_of_lt_of_le (by omega) (le_two_pow_clog2 (R + 3)))

variable {bits} in
/-- One input moves and the others do not, which makes an update of the family
of inputs. -/
theorem port_eq_update {io io' : ComposePorts F R} {i : ComposePort R}
    {src : Fifo (Flit (BitVec 64))} (hi : io'.port bits i = src)
    (h : ∀ k, k ≠ i → io'.port bits k = io.port bits k) :
    io'.port bits = Function.update (io.port bits) i src := by
  funext k
  by_cases hk : k = i
  · rw [hk, Function.update_self, hi]
  · rw [Function.update_of_ne hk, h k hk]

/-- **A call of `compose` is a turn of its sequencer**, or idle when the input
it waits for is empty. Everything later is said of the sequencer. -/
theorem stage_cases (s : Compose) (io : ComposePorts F R) :
    ((io.port bits ((composeSequencer R).select s.view)).readNb = none
      ∧ stage bits s io = (s, io))
    ∨ ∃ x src, (io.port bits ((composeSequencer R).select s.view)).readNb
      = some (x, src)
      ∧ (stage bits s io).1.view = (composeSequencer R).next s.view x
      ∧ (stage bits s io).2.port bits
        = Function.update (io.port bits)
          ((composeSequencer R).select s.view) src
      ∧ (stage bits s io).2.dst.written
        = io.dst.written ++ ((composeSequencer R).out s.view x).map
          (· s.cc) := by
  unfold stage composeSequencer
  dsimp only [view]
  by_cases h₁ : s.idx < R
  · -- a sum
    simp only [dif_pos h₁, if_pos h₁, if_pos h₁.le,
      ComposePorts.port, Fifo.readNb_map]
    cases hx : (io.agmsSums ⟨s.idx, h₁⟩).readNb with
    | none => exact Or.inl ⟨rfl, rfl⟩
    | some p =>
      refine Or.inr ⟨_, _, rfl, Prod.ext (next_eq (by omega)) rfl, ?_,
        Fifo.written_write _ _⟩
      refine port_eq_update ?_ ?_
      · show (Function.update io.agmsSums _ p.2 _).map _ = _
        rw [Function.update_self]
      · intro k hk
        cases k with
        | agms j =>
          show (Function.update io.agmsSums _ p.2 j).map _ = _
          rw [Function.update_of_ne
            (fun hj => hk (congrArg ComposePort.agms hj))]
          rfl
        | _ => rfl
  · by_cases h₂ : s.idx = R
    · -- a word of the basic sketch
      simp only [dif_neg h₁, if_neg h₁, if_pos h₂,
        if_pos h₂.le, ComposePorts.port]
      cases hx : io.dstBasic.readNb with
      | none => exact Or.inl ⟨rfl, rfl⟩
      | some p =>
        refine Or.inr ⟨_, _, rfl, Prod.ext ?_ rfl, port_eq_update rfl ?_,
          Fifo.written_write _ _⟩
        · show (if p.1.last then next R s.idx else s.idx)
            = if p.1.last then s.idx + 1 else s.idx
          rw [next_eq (by omega)]
        · intro k hk
          cases k <;> first | rfl | exact absurd rfl hk
    · by_cases h₃ : s.idx = R + 1
      · -- the estimate
        have h₄ : ¬ s.idx ≤ R := by omega
        simp only [dif_neg h₁, if_neg h₁, if_neg h₂, if_pos h₃,
          if_neg h₄, ComposePorts.port,
          Fifo.readNb_map]
        cases hx : io.cardest.readNb with
        | none => exact Or.inl ⟨rfl, rfl⟩
        | some p =>
          refine Or.inr ⟨_, _, rfl, Prod.ext (next_eq (by omega)) rfl,
            port_eq_update rfl ?_, ?_⟩
          · intro k hk
            cases k <;> first | rfl | exact absurd rfl hk
          · show (io.dst.write _).written = _
            rw [Fifo.written_write,
              BitVec.setWidth_setWidth_of_le _ (by decide),
              BitVec.setWidth_eq]
            rfl
      · -- a count
        have h₄ : ¬ s.idx ≤ R := by omega
        simp only [dif_neg h₁, if_neg h₁, if_neg h₂, if_neg h₃,
          if_neg h₄, ComposePorts.port,
          Fifo.readNb_map]
        cases hx : io.cmCounts.readNb with
        | none => exact Or.inl ⟨rfl, rfl⟩
        | some p =>
          have hval : (p.1.map (BitVec.setWidth 64)).val.setWidth 32
            = p.1.val := by
            rw [Flit.val_map, BitVec.setWidth_setWidth_of_le _ (by decide),
              BitVec.setWidth_eq]
          refine Or.inr ⟨_, _, rfl, ?_⟩
          rw [hval]
          cases hlo : s.loVld with
          | false =>
            refine ⟨rfl, port_eq_update rfl ?_, (List.append_nil _).symm⟩
            intro k hk
            cases k <;> first | rfl | exact absurd rfl hk
          | true =>
            refine ⟨rfl, port_eq_update rfl ?_, Fifo.written_write _ _⟩
            intro k hk
            cases k <;> first | rfl | exact absurd rfl hk

/-- A word of the record puts nothing into the inputs. -/
theorem stage_sameInputs (s : Compose) (io : ComposePorts F R) :
    io.SameInputs (stage bits s io).2 := by
  unfold stage
  split
  · next h =>
    split
    · exact ⟨rfl, fun _ => rfl, rfl, rfl, rfl⟩
    · next hx =>
      refine ⟨rfl, fun j => ?_, rfl, rfl, rfl⟩
      dsimp only
      rw [Function.update_apply]
      split
      · next hj => rw [hj, Fifo.written_of_readNb hx]
      · rfl
  · split
    · split
      · exact ⟨rfl, fun _ => rfl, rfl, rfl, rfl⟩
      · next hx =>
          exact ⟨rfl, fun _ => rfl, Fifo.written_of_readNb hx, rfl, rfl⟩
    · split
      · split
        · exact ⟨rfl, fun _ => rfl, rfl, rfl, rfl⟩
        · next hx =>
            exact ⟨rfl, fun _ => rfl, rfl, Fifo.written_of_readNb hx, rfl⟩
      · split
        · exact ⟨rfl, fun _ => rfl, rfl, rfl, rfl⟩
        · next hx => split
            <;> exact ⟨rfl, fun _ => rfl, rfl, rfl, Fifo.written_of_readNb hx⟩

/-- A call of `compose` puts nothing into its inputs, neither of the record nor
of the ticks. -/
theorem compose_sameInputs (s : Compose) (io : ComposePorts F R) :
    io.SameInputs (compose bits s io).2 := by
  have htick : io.SameInputs (tick s io).2 := by
    unfold tick
    split
    · exact ⟨rfl, fun _ => rfl, rfl, rfl, rfl⟩
    · next hx => exact ⟨Fifo.written_of_readNb hx, fun _ => rfl, rfl, rfl, rfl⟩
  have hstage := stage_sameInputs bits (tick s io).1 (tick s io).2
  exact ⟨hstage.tickSrc.trans htick.tickSrc,
    fun j => (hstage.agmsSums j).trans (htick.agmsSums j),
      hstage.dstBasic.trans htick.dstBasic,
    hstage.cardest.trans htick.cardest, hstage.cmCounts.trans htick.cmCounts⟩

/-- The cycle count lets the streams grow: it reads a tick or nothing. -/
theorem tick_grows (s : Compose) (io : ComposePorts F R) :
    Grows io.streams (tick s io).2.streams := by
  unfold tick
  cases hx : io.tickSrc.readNb with
  | none => exact Growing.refl _
  | some p => exact ⟨Fifo.grows_of_readNb hx, Growing.refl _⟩

/-- A word of the record lets the streams grow. -/
theorem stage_grows (s : Compose) (io : ComposePorts F R) :
    Grows io.streams (stage bits s io).2.streams := by
  have hrefl := fun {α : Type} (s : Fifo α) => Growing.refl s
  unfold stage
  split
  · split
    · exact Growing.refl _
    · next hx =>
      exact ⟨hrefl _, grows_update (Fifo.grows_of_readNb hx),
        hrefl _, hrefl _, hrefl _,
        Fifo.grows_write _ _⟩
  · split
    · split
      · exact Growing.refl _
      · next hx =>
        exact ⟨hrefl _, Growing.refl _, Fifo.grows_of_readNb hx,
          hrefl _, hrefl _,
          Fifo.grows_write _ _⟩
    · split
      · split
        · exact Growing.refl _
        · next hx =>
          exact ⟨hrefl _, Growing.refl _, hrefl _,
            Fifo.grows_of_readNb hx, hrefl _,
            Fifo.grows_write _ _⟩
      · split
        · exact Growing.refl _
        · next hx =>
          split
          · exact ⟨hrefl _, Growing.refl _, hrefl _, hrefl _,
              Fifo.grows_of_readNb hx, hrefl _⟩
          · exact ⟨hrefl _, Growing.refl _, hrefl _, hrefl _,
              Fifo.grows_of_readNb hx,
              Fifo.grows_write _ _⟩

/-- A call of `compose` lets its streams grow: what it has read stays read, and
what it has written stays written. -/
theorem compose_grows (s : Compose) (io : ComposePorts F R) :
    Grows io.streams (compose bits s io).2.streams :=
  Growing.trans (tick_grows s io) (stage_grows bits _ _)

/-- A call of `compose` takes nothing from its output. -/
theorem consumed_compose (s : Compose) (io : ComposePorts F R) :
    (compose bits s io).2.dst.consumed = io.dst.consumed := by
  have htick : (tick s io).2.dst = io.dst := by
    unfold tick
    split <;> rfl
  rw [← htick]
  show (stage bits (tick s io).1 (tick s io).2).2.dst.consumed = _
  unfold stage
  split
  · split <;> rfl
  · split
    · split <;> rfl
    · split
      · split <;> rfl
      · split
        · rfl
        · split <;> rfl

/-- **An idle `compose`** has no tick to read, and nothing on the input it waits
for. The other inputs may hold results of later stages and later jobs. -/
theorem compose_idle {s : Compose} {io : ComposePorts F R}
    (h : (compose bits s io).2.streams = io.streams) :
    io.tickSrc.pending = []
      ∧ (io.port bits ((composeSequencer R).select s.view)).pending = [] := by
  -- neither part of the call changes a stream
  have htick : (tick s io).2.streams = io.streams := by
    refine Growing.eq_of_size (tick_grows s io) ?_
    rw [← h]
    exact Growing.size_le (stage_grows bits _ _)
  have hview : (tick s io).1.view = s.view := by
    unfold tick
    split <;> rfl
  have hio : (tick s io).2 = io := ComposePorts.eq_of_streams htick
  constructor
  · cases hx : io.tickSrc.readNb with
    | none => exact Fifo.readNb_eq_none.mp hx
    | some p =>
      refine absurd ?_ (Fifo.ne_of_readNb hx)
      unfold tick at htick
      rw [hx] at htick
      exact congrArg Prod.fst htick
  · have hstage : (stage bits (tick s io).1 (tick s io).2).2.streams
      = io.streams := h
    rw [hio] at hstage
    rcases stage_cases bits (tick s io).1 io
      with ⟨hx, -⟩ | ⟨x, src, hx, -, hport, -⟩
    · rw [hview] at hx
      exact Fifo.readNb_eq_none.mp hx
    · refine absurd ?_ (Fifo.ne_of_readNb hx)
      rw [ComposePorts.eq_of_streams hstage] at hport
      have hself :=
        congrFun hport ((composeSequencer R).select (tick s io).1.view)
      rw [Function.update_self] at hself
      exact hself.symm

/-- The cycle count does not concern the inputs of the record, nor its
output. -/
theorem tick_eq (s : Compose) (io : ComposePorts F R) :
    (tick s io).1.view = s.view ∧ (tick s io).2.port bits = io.port bits
      ∧ (tick s io).2.dst = io.dst := by
  unfold tick
  cases io.tickSrc.readNb
    <;> exact ⟨rfl, funext (fun i => by cases i <;> rfl), rfl⟩

end Compose

/-! ## The results of a job

What is put in and what comes out, as lists. -/

/-- **The results of a job**, as they arrive at `compose`: `R` sums, the
accumulators of the basic sketch, the estimate, and `C` rows of counts. -/
structure JobResult (F : Type) (R C P : ℕ) where
  /-- The sums of squares of the AGMS rows. -/
  agms : Fin R → BitVec 64
  /-- The statistics of the items, as they are dumped in four words. -/
  basic : BasicStats
  cardest : F
  /-- The counters of the Count-Min rows, by key. -/
  counts : Fin C → BitVec P → BitVec 32

/-- The number of words of a record: the sums, four words of the basic sketch,
the word with the estimate, and a word for two counts. -/
def recordLength (R C P : ℕ) : ℕ := R + 5 + C * 2 ^ P / 2

/-- The word with the cycle count is one of them, the one at `R + 4`. -/
theorem lt_recordLength (R C P : ℕ) : R + 4 < recordLength R C P :=
  Nat.lt_add_right _ (Nat.lt_succ_self _)

theorem recordLength_pos (R C P : ℕ) : 0 < recordLength R C P :=
  Nat.zero_lt_of_lt (lt_recordLength R C P)

/-- Two halves to a word, the low one first, as `(x.val, lo.val)` puts them. -/
def pairs : List (BitVec 32) → List (BitVec 64)
  | lo :: hi :: rest => (hi ++ lo) :: pairs rest
  | _ => []

namespace JobResult

variable {F : Type} {R C P : ℕ} (bits : F → BitVec 32) (r : JobResult F R C P)

/-- The counts, row after row, as `Concat` sends them. -/
def countList : List (BitVec 32) :=
  (List.finRange C).flatMap (fun j => tableList (r.counts j))

/-- What a job puts on the inputs of `compose`. The basic sketch and the counts
are framed, the others are single elements. -/
def feed : ComposePort R → List (Flit (BitVec 64))
  | .agms j => [⟨false, r.agms j⟩]
  | .basic => frame r.basic.words
  | .cardest => [⟨false, (bits r.cardest).setWidth 64⟩]
  | .cm => (frame r.countList).map (Flit.map (BitVec.setWidth 64))

/-- The inputs in the order in which `compose` goes through them, stage by
stage. -/
def inputs (R : ℕ) : List (ComposePort R) :=
  (List.finRange R).map ComposePort.agms ++ [.basic, .cardest, .cm]

/-- What `compose` reads for a job: every input in turn, and all it carries for
the job. -/
def script : List (ComposePort R × Flit (BitVec 64)) :=
  (inputs R).flatMap (fun i => (r.feed bits i).map (Prod.mk i))

/-- **The words of a record**, for the cycle count it is given. This is the
format of the output, without the machine that writes it. -/
def words (cycs : BitVec 32) : List (BitVec 64) :=
  (List.finRange R).map r.agms ++ r.basic.words ++ [cycs ++ bits r.cardest]
    ++ pairs r.countList

/-- What `compose` writes for a job, each word a function of the cycle count at
the time it is written. -/
def record : List (BitVec 32 → Flit (BitVec 64)) :=
  (List.finRange R).map (fun j _ => ⟨false, r.agms j⟩)
    ++ r.basic.words.map (fun w _ => ⟨false, w⟩)
    ++ [fun cycs => ⟨false, cycs ++ bits r.cardest⟩]
      ++ (frame (pairs r.countList)).map (fun w _ => w)

/-- Every input is gone through, so that none of them is left with results. -/
theorem mem_inputs (i : ComposePort R) : i ∈ inputs R := by
  cases i <;> simp [inputs]

/-- Every input is gone through once, so that a job finds its own results
there. -/
theorem nodup_inputs : (inputs R).Nodup := by
  refine List.nodup_append.mpr ⟨?_, by simp, ?_⟩
  · exact (List.nodup_finRange R).map (fun j k h => ComposePort.agms.inj h)
  · intro i hi k hk
    obtain ⟨j, -, rfl⟩ := List.mem_map.mp hi
    rintro rfl
    simp at hk

/-- The script addresses to every input what the jobs put on it, and in that
order. So the reader never has to look for the results of a job. -/
theorem addressed_script (results : List (JobResult F R C P))
    (i : ComposePort R) :
    Sequencer.addressed i (results.flatMap (script bits))
      = results.flatMap (feed bits · i) := by
  rw [Sequencer.addressed_flatMap]
  exact List.flatMap_congr (fun r _ =>
    Sequencer.addressed_feed i (r.feed bits) nodup_inputs (mem_inputs i))

/-- Every row has its counts. -/
@[simp] theorem length_countList : r.countList.length = C * 2 ^ P := by
  unfold countList
  rw [length_flatMap_block _ _ (fun j _ => length_tableList _),
    List.length_finRange]

/-- A count is named by its row and its key, which make its index. -/
theorem getElem?_countList (j : Fin C) {k : ℕ} (hk : k < 2 ^ P) :
    r.countList[j * 2 ^ P + k]? = some (r.counts j (BitVec.ofNat P k)) := by
  unfold countList
  rw [getElem?_flatMap_block (Nat.two_pow_pos P) _ _
    (fun j _ => length_tableList _), Nat.mul_comm,
    Nat.mul_add_div (Nat.two_pow_pos P), Nat.div_eq_of_lt hk, Nat.mul_add_mod,
      Nat.mod_eq_of_lt hk,
    Nat.add_zero, List.getElem?_eq_getElem (by simp),
      List.getElem_finRange, Option.bind_some,
    getElem?_tableList _ hk]
  rfl

end JobResult

/-- What the jobs put on an input, at the width of the output: on the stream of
an AGMS row, a sum per job. -/
theorem feed_agms {F : Type} {R C P : ℕ} (bits : F → BitVec 32)
    (results : List (JobResult F R C P)) (j : Fin R) :
    results.flatMap (JobResult.feed bits · (.agms j))
      = (results.map (fun x => x.agms j)).map (Flit.mk false) := by
  rw [List.map_map, List.map_eq_flatMap]
  rfl

theorem feed_cardest {F : Type} {R C P : ℕ} (bits : F → BitVec 32)
    (results : List (JobResult F R C P)) :
    results.flatMap (JobResult.feed bits · .cardest)
      = (results.map (fun x => x.cardest)).map
        (fun x => ⟨false, (bits x).setWidth 64⟩) := by
  rw [List.map_map, List.map_eq_flatMap]
  rfl

theorem feed_cm {F : Type} {R C P : ℕ} (bits : F → BitVec 32)
    (results : List (JobResult F R C P)) :
    results.flatMap (JobResult.feed bits · .cm)
      = (results.flatMap (fun x => frame x.countList)).map
        (Flit.map (BitVec.setWidth 64)) := by
  rw [List.map_flatMap]
  rfl

section Port

variable {F : Type} {R C P : ℕ} {bits : F → BitVec 32}
    {results : List (JobResult F R C P)}
  {io : ComposePorts F R}

/-- Inputs that carry the beginning of the results, each at its own width, carry
it at the width of the output. -/
theorem ComposePorts.port_isPrefix
    (hagms : ∀ j, (io.agmsSums j).written <+: results.map (fun x => x.agms j))
    (hbasic : io.dstBasic.written <+: results.flatMap
      (fun x => frame x.basic.words))
    (hcardest : io.cardest.written <+: results.map (fun x => x.cardest))
    (hcm : io.cmCounts.written <+: results.flatMap (fun x => frame x.countList))
    (i : ComposePort R) :
    (io.port bits i).written <+: results.flatMap (JobResult.feed bits · i) := by
  cases i with
  | agms j =>
    rw [feed_agms, ComposePorts.port, Fifo.written_map]
    exact (hagms j).map _
  | basic => exact hbasic
  | cardest =>
    rw [feed_cardest, ComposePorts.port, Fifo.written_map]
    exact hcardest.map _
  | cm =>
    rw [feed_cm, ComposePorts.port, Fifo.written_map]
    exact hcm.map _

/-- Inputs that carry all results. The timing of their arrival is gone from
here. -/
theorem ComposePorts.port_eq
    (hagms : ∀ j, (io.agmsSums j).written = results.map (fun x => x.agms j))
    (hbasic : io.dstBasic.written = results.flatMap
      (fun x => frame x.basic.words))
    (hcardest : io.cardest.written = results.map (fun x => x.cardest))
    (hcm : io.cmCounts.written = results.flatMap (fun x => frame x.countList))
    (i : ComposePort R) :
    (io.port bits i).written = results.flatMap (JobResult.feed bits · i) := by
  cases i with
  | agms j => rw [feed_agms, ComposePorts.port, Fifo.written_map, hagms j]
  | basic => exact hbasic
  | cardest => rw [feed_cardest, ComposePorts.port, Fifo.written_map, hcardest]
  | cm => rw [feed_cm, ComposePorts.port, Fifo.written_map, hcm]

end Port

/-- Pairing halves the length; an odd count at the end would be lost. -/
@[simp] theorem length_pairs (l : List (BitVec 32)) :
    (pairs l).length = l.length / 2 := by
  induction l using pairs.induct with
  | case1 lo hi rest ih =>
    rw [pairs, List.length_cons, ih, List.length_cons, List.length_cons]
    omega
  | case2 l h =>
    match l, h with
    | [], _ => rfl
    | [_], _ => simp [pairs]
    | lo :: hi :: rest, h => exact absurd rfl (h lo hi rest)

namespace JobResult

variable {F : Type} {R C P : ℕ}

/-- There is a whole number of pairs of counts, as soon as the keys have a bit.
The pairs do not respect the rows, only the total matters. -/
theorem length_countList_even (hP : 0 < P) (r : JobResult F R C P) :
    r.countList.length % 2 = 0 := by
  obtain ⟨p, rfl⟩ : ∃ p, P = p + 1 := ⟨P - 1, by omega⟩
  rw [length_countList, pow_succ, ← Nat.mul_assoc, Nat.mul_mod_left]

/-- There are counts. -/
theorem countList_ne_nil (hC : 0 < C) (r : JobResult F R C P) :
    r.countList ≠ [] := by
  rw [← List.length_pos_iff, length_countList]
  exact Nat.mul_pos hC (Nat.two_pow_pos P)

/-- There are pairs of counts. -/
theorem pairs_ne_nil (hC : 0 < C) (hP : 0 < P) (r : JobResult F R C P) :
    pairs r.countList ≠ [] := by
  have hpos := List.length_pos_iff.mpr (r.countList_ne_nil hC)
  have heven := r.length_countList_even hP
  rw [← List.length_pos_iff, length_pairs]
  omega

end JobResult

section Passes

variable {R : ℕ}

/-- Reading two counts makes a word. The first is held back, and the second may
be the last of the record. -/
theorem compose_pair (lo hi : BitVec 32) (last : Bool) :
    (composeSequencer R).Passes (R + 2, none)
      ([⟨false, lo⟩, ⟨last, hi⟩].map (fun x : Flit (BitVec 32) =>
        (ComposePort.cm, x.map (BitVec.setWidth 64))))
      (if last then 0 else R + 2, none) [fun _ => ⟨last, hi ++ lo⟩] := by
  have hlo : (composeSequencer R).Passes (R + 2, none)
      [(.cm, (⟨false, lo⟩ : Flit (BitVec 32)).map (BitVec.setWidth 64))]
        (R + 2, some lo) [] := by
    refine Sequencer.Passes.single ?_ ?_ ?_ <;> simp [composeSequencer]
  have hhi : (composeSequencer R).Passes (R + 2, some lo)
      [(.cm, (⟨last, hi⟩ : Flit (BitVec 32)).map (BitVec.setWidth 64))]
      (if last then 0 else R + 2, none) [fun _ => ⟨last, hi ++ lo⟩] := by
    cases last <;> refine Sequencer.Passes.single ?_ ?_ ?_
      <;> simp [composeSequencer]
  exact hlo.append hhi

/-- **Reading the counts pairs them**, across rows, and ends the record with the
last of them. -/
theorem compose_counts {counts : List (BitVec 32)} (hne : counts ≠ [])
    (heven : counts.length % 2 = 0) :
    (composeSequencer R).Passes (R + 2, none)
      ((frame counts).map
        (fun x => (ComposePort.cm, x.map (BitVec.setWidth 64)))) (0, none)
      ((frame (pairs counts)).map (fun w _ => w)) := by
  induction counts using pairs.induct with
  | case1 lo hi rest ih =>
    by_cases hrest : rest = []
    · subst hrest
      exact compose_pair lo hi true
    · have heven' : rest.length % 2 = 0 := by
        rw [List.length_cons, List.length_cons] at heven
        omega
      have hpairs : pairs rest ≠ [] := by
        have hpos := List.length_pos_iff.mpr hrest
        rw [← List.length_pos_iff, length_pairs]
        omega
      have hframe : frame (lo :: hi :: rest)
        = [⟨false, lo⟩, ⟨false, hi⟩] ++ frame rest :=
        frame_append [lo, hi] hrest
      rw [pairs, hframe, show (hi ++ lo) :: pairs rest
        = [hi ++ lo] ++ pairs rest from rfl,
        frame_append _ hpairs, List.map_append, List.map_append]
      exact (compose_pair lo hi false).append (ih hrest heven')
  | case2 l h =>
    match l, h with
    | [], _ => exact absurd rfl hne
    | [_], _ => exact absurd heven (by rw [List.length_singleton]; decide)
    | lo :: hi :: rest, h => exact absurd rfl (h lo hi rest)

/-- Reading the sums from row `j` on, by induction on how many of them are
left. -/
theorem compose_sums (agms : Fin R → BitVec 64) {j : ℕ} (hj : j ≤ R) :
    (composeSequencer R).Passes (j, none)
      (((List.finRange R).drop j).map
        (fun j => (ComposePort.agms j, ⟨false, agms j⟩))) (R, none)
      (((List.finRange R).drop j).map (fun j _ => ⟨false, agms j⟩)) := by
  by_cases hlt : j < R
  · have hdrop : (List.finRange R).drop j = ⟨j, hlt⟩
      :: (List.finRange R).drop (j + 1) := by
      rw [List.drop_eq_getElem_cons (by rw [List.length_finRange]; exact hlt)]
      simp
    have hfirst : (composeSequencer R).Passes (j, none)
        [(ComposePort.agms ⟨j, hlt⟩, ⟨false, agms ⟨j, hlt⟩⟩)] (j + 1, none)
        [fun _ => ⟨false, agms ⟨j, hlt⟩⟩] := by
      refine Sequencer.Passes.single ?_ ?_ ?_
        <;> simp [composeSequencer, hlt, hlt.le]
    rw [hdrop, List.map_cons, List.map_cons]
    exact hfirst.append (compose_sums agms hlt)
  · obtain rfl : j = R := by omega
    rw [List.drop_eq_nil_of_le (by rw [List.length_finRange])]
    exact Sequencer.passes_nil _ _
termination_by R - j

/-- Reading the dump of the basic sketch: the stage lasts for its four words. -/
theorem compose_basic (s : BasicStats) :
    (composeSequencer R).Passes (R, none)
      ((frame s.words).map (Prod.mk ComposePort.basic)) (R + 1, none)
      (s.words.map (fun w _ => ⟨false, w⟩)) := by
  have hword : ∀ (last : Bool) (w : BitVec 64),
    (composeSequencer R).Passes (R, none)
      [(ComposePort.basic, ⟨last, w⟩)] (if last then R + 1 else R, none)
      [fun _ => ⟨false, w⟩] := by
    intro last w
    refine Sequencer.Passes.single ?_ ?_ ?_ <;> simp [composeSequencer]
  exact (hword false (s.word 0)).append ((hword false (s.word 1)).append
    ((hword false (s.word 2)).append (hword true (s.word 3))))

/-- Reading the estimate, which is completed by the cycle count. -/
theorem compose_cardest (w : BitVec 32) :
    (composeSequencer R).Passes (R + 1, none)
      [(.cardest, ⟨false, w.setWidth 64⟩)] (R + 2, none)
      [fun cycs => ⟨false, cycs ++ w⟩] := by
  refine Sequencer.Passes.single ?_ ?_ ?_ <;> simp [composeSequencer]

end Passes

section Record

variable {F : Type} {R C P : ℕ} (bits : F → BitVec 32)

/-- **`compose` reads the results of a job, writes their record and is back in
its initial state.** -/
theorem compose_record (hC : 0 < C) (hP : 0 < P) (r : JobResult F R C P) :
    (composeSequencer R).Passes (0, none) (r.script bits) (0, none)
      (r.record bits) := by
  have hscript : r.script bits
      = (List.finRange R).map (fun j => (ComposePort.agms j, ⟨false, r.agms j⟩))
        ++ (frame r.basic.words).map (Prod.mk ComposePort.basic)
        ++ [(.cardest, ⟨false, (bits r.cardest).setWidth 64⟩)]
        ++ (frame r.countList).map
          (fun x => (ComposePort.cm, x.map (BitVec.setWidth 64))) := by
    unfold JobResult.script JobResult.inputs
    rw [List.flatMap_append, List.flatMap_map,
      List.map_eq_flatMap, List.append_assoc,
      List.append_assoc]
    refine congrArg₂ _ rfl ?_
    show (frame r.basic.words).map (Prod.mk ComposePort.basic)
      ++ ([(.cardest, ⟨false, (bits r.cardest).setWidth 64⟩)]
        ++ (((frame r.countList).map (Flit.map (BitVec.setWidth 64))).map
          (Prod.mk .cm) ++ [])) = _
    rw [List.append_nil, List.map_map]
    rfl
  rw [hscript]
  exact (((compose_sums r.agms (Nat.zero_le R)).append
    (compose_basic r.basic)).append
    (compose_cardest (bits r.cardest))).append
      (compose_counts (r.countList_ne_nil hC) (r.length_countList_even hP))

/-- Job after job: between two records `compose` is in its initial state. -/
theorem compose_records (hC : 0 < C) (hP : 0 < P)
    (results : List (JobResult F R C P)) :
    (composeSequencer R).Passes (0, none)
      (results.flatMap (JobResult.script bits)) (0, none)
      (results.flatMap (JobResult.record bits)) :=
  Sequencer.passes_flatMap (fun r _ => compose_record bits hC hP r)

variable {bits}

/-- **What `compose` writes for a job is its record**, with the cycle count put
in, framed by the `last` of its final word. -/
theorem map_record (hC : 0 < C) (hP : 0 < P) (r : JobResult F R C P)
    (cycs : BitVec 32) :
    (r.record bits).map (· cycs) = frame (r.words bits cycs) := by
  unfold JobResult.record JobResult.words
  rw [frame_append _ (r.pairs_ne_nil hC hP)]
  simp only [List.map_append, List.map_map, List.map_singleton]
  exact congrArg _ (List.map_id _)

/-- The length of what is written for a job does not depend on the cycle
counts. -/
theorem length_record (r : JobResult F R C P) :
    (r.record bits).length = recordLength R C P := by
  unfold JobResult.record recordLength BasicStats.words
  simp only [List.length_append, List.length_map,
    List.length_finRange, List.length_cons,
    List.length_nil, length_frame, length_pairs, JobResult.length_countList]

/-- The length of a record on the output. -/
theorem length_frame_words (hC : 0 < C) (hP : 0 < P) (r : JobResult F R C P)
    (cycs : BitVec 32) :
    (frame (r.words bits cycs)).length = recordLength R C P := by
  rw [← map_record hC hP, List.length_map, length_record]

/-- An entry inside a list, and the others: exchanging the one leaves these. -/
theorem getElem?_append_cons {α : Type*} (l l' : List α) (x y : α) (m : ℕ) :
    (l ++ x :: l')[m]? = if m = l.length then some x
      else (l ++ y :: l')[m]? := by
  rcases Nat.lt_trichotomy m l.length with h | rfl | h
  · rw [if_neg h.ne, List.getElem?_append_left h, List.getElem?_append_left h]
  · rw [if_pos rfl, List.getElem?_append_right le_rfl, Nat.sub_self]
    rfl
  · obtain ⟨d, rfl⟩ : ∃ d, m = l.length + (d + 1) :=
      ⟨m - l.length - 1, by omega⟩
    rw [if_neg h.ne', List.getElem?_append_right (by omega),
      List.getElem?_append_right (by omega),
      Nat.add_sub_cancel_left]
    rfl

/-- **The word with the cycle count**, and where it is. All other words are
those of a record with no cycle count. -/
theorem getElem?_words (hC : 0 < C) (hP : 0 < P)
    (r : JobResult F R C P) (cycs : BitVec 32)
    (m : ℕ) : (frame (r.words bits cycs))[m]?
      = if m = R + 4 then some ⟨false, cycs ++ bits r.cardest⟩
        else (frame (r.words bits 0))[m]? := by
  have hwords : ∀ c, frame (r.words bits c)
      = ((List.finRange R).map r.agms ++ r.basic.words).map (Flit.mk false)
        ++ ⟨false, c ++ bits r.cardest⟩ :: frame (pairs r.countList) := by
    intro c
    unfold JobResult.words
    rw [frame_append _ (r.pairs_ne_nil hC hP),
      List.map_append, List.append_assoc]
    rfl
  have hlen : (((List.finRange R).map r.agms ++ r.basic.words).map
    (Flit.mk false)).length
      = R + 4 := by
    rw [List.length_map, List.length_append, List.length_map,
      List.length_finRange]
    rfl
  rw [hwords, hwords, getElem?_append_cons _ _ _
    ⟨false, (0 : BitVec 32) ++ bits r.cardest⟩, hlen]

/-! ## The equation of `compose` -/

variable (bits) in
/-- **The equation of `compose`**: it has come some way down the script of its
jobs, and has written what that leads to, for some cycle counts. -/
def Composed (results : List (JobResult F R C P)) (s : Compose)
    (taken : ComposePort R → List (Flit (BitVec 64)))
    (dst : List (Flit (BitVec 64))) : Prop :=
  ∃ k given, (composeSequencer R).After (0, none)
    (results.flatMap (JobResult.script bits)) k
      taken s.view given
    ∧ List.Forall₂ (fun w g => ∃ cycs, w = g cycs) dst given

variable (bits) in
theorem composed_init (results : List (JobResult F R C P)) :
    Composed bits results Compose.init (fun _ => []) [] :=
  ⟨0, [], Sequencer.after_zero _ _ _, List.Forall₂.nil⟩

variable {results : List (JobResult F R C P)} {s : Compose}
    {io : ComposePorts F R}

/-- The equation does not see what arrives at the inputs, nor that ticks are
read. -/
theorem Composed.congr
    (h : Composed bits results s
      (fun i => (io.port bits i).consumed) io.dst.written)
    {io' : ComposePorts F R} (hio : io.SameReads io')
    (hdst : io'.dst.written = io.dst.written) :
    Composed bits results s
      (fun i => (io'.port bits i).consumed) io'.dst.written := by
  rw [hio.port bits, hdst]
  exact h

/-- **Every call of `compose` keeps its equation**, as long as its inputs carry
the results of the jobs. -/
theorem compose_sound (hC : 0 < C) (hP : 0 < P)
    (hio : ∀ i, (io.port bits i).written <+: results.flatMap
      (JobResult.feed bits · i))
    (h : Composed bits results s
      (fun i => (io.port bits i).consumed) io.dst.written) :
    Composed bits results (Compose.compose bits s io).1
      (fun i => ((Compose.compose bits s io).2.port bits i).consumed)
      (Compose.compose bits s io).2.dst.written := by
  obtain ⟨hview, hport, hdst⟩ := Compose.tick_eq bits s io
  show Composed bits results
    (Compose.stage bits (Compose.tick s io).1 (Compose.tick s io).2).1
    (fun i => ((Compose.stage bits (Compose.tick s io).1
      (Compose.tick s io).2).2.port bits i).consumed)
    (Compose.stage bits (Compose.tick s io).1
      (Compose.tick s io).2).2.dst.written
  rw [← hport] at h hio
  rw [← hdst] at h
  unfold Composed at h
  rw [← hview] at h
  set s' := (Compose.tick s io).1
  set io' := (Compose.tick s io).2
  obtain ⟨k, given, hafter, hgiven⟩ := h
  rcases Compose.stage_cases bits s' io'
    with ⟨-, he⟩ | ⟨x, src, hx, hnext, hport', hdst'⟩
  · rw [he]
    exact ⟨k, given, hafter, hgiven⟩
  · have hfollows := (compose_records bits hC hP results).follows
    set i := (composeSequencer R).select s'.view
    refine ⟨k + 1, given ++ (composeSequencer R).out s'.view x, ?_, ?_⟩
    · rw [hnext]
      refine hafter.read hfollows ?_ ?_ (fun j hj => ?_)
      · rw [JobResult.addressed_script]
        exact Fifo.getElem?_of_readNb hx (hio i)
      · show ((Compose.stage bits s' io').2.port bits i).consumed = _
        rw [hport', Function.update_self, Fifo.consumed_of_readNb hx]
      · show ((Compose.stage bits s' io').2.port bits j).consumed = _
        rw [hport', Function.update_of_ne hj]
    · rw [hdst']
      refine List.rel_append hgiven ?_
      rw [List.forall₂_map_left_iff, List.forall₂_same]
      exact fun g _ => ⟨s'.cc, rfl⟩

/-- **An idle `compose` has written all records**, when its inputs have carried
all results. -/
theorem compose_through (hC : 0 < C) (hP : 0 < P)
    (hio : ∀ i, (io.port bits i).written = results.flatMap
      (JobResult.feed bits · i))
    (h : Composed bits results s
      (fun i => (io.port bits i).consumed) io.dst.written)
    (hidle : (Compose.compose bits s io).2.streams = io.streams) :
    s.view = (0, none)
      ∧ List.Forall₂ (fun w g => ∃ cycs, w = g cycs) io.dst.written
        (results.flatMap (JobResult.record bits)) := by
  obtain ⟨k, given, hafter, hgiven⟩ := h
  have hall := compose_records bits hC hP results
  obtain ⟨-, hstate, hrecords⟩ := hafter.through hall.follows (by
    rw [JobResult.addressed_script, ← hio,
      Fifo.consumed_eq_written (Compose.compose_idle bits
      hidle).2])
  rw [hall.state] at hstate
  rw [hrecords, hall.given] at hgiven
  exact ⟨hstate, hgiven⟩

/-- **A word `compose` has written** is a word of a record, for some cycle
count. -/
theorem Composed.getElem? {taken : ComposePort R → List (Flit (BitVec 64))}
    {dst : List (Flit (BitVec 64))} (h : Composed bits results s taken dst)
    (hC : 0 < C) (hP : 0 < P) {k : ℕ} {w : Flit (BitVec 64)}
    (hk : dst[k]? = some w) :
    ∃ r cycs, results[k / recordLength R C P]? = some r
      ∧ (frame (r.words bits cycs))[k % recordLength R C P]? = some w := by
  obtain ⟨n, given, hafter, hgiven⟩ := h
  obtain ⟨hlt, rfl⟩ := List.getElem?_eq_some_iff.mp hk
  have hlt' : k < given.length := hgiven.length_eq ▸ hlt
  obtain ⟨cycs, hcycs⟩ := hgiven.get hlt hlt'
  have hprefix := hafter.given_isPrefix
  rw [(compose_records bits hC hP results).given] at hprefix
  have hget := getElem?_of_isPrefix hprefix (List.getElem?_eq_getElem hlt')
  rw [getElem?_flatMap_block (recordLength_pos R C P) _ _
    (fun r _ => (length_record r : (r.record bits).length = _))] at hget
  obtain ⟨r, hr, hrecord⟩ := Option.bind_eq_some_iff.mp hget
  refine ⟨r, cycs, hr, ?_⟩
  rw [← map_record hC hP, List.getElem?_map, hrecord]
  exact congrArg some hcycs.symm

end Record

/-! ## Records up to their cycle counts

The cycle counts are quantified away: what remains is a function of the
results. -/

/-- A word without its upper half, where the cycle count stands in the word of
the estimate. -/
def eraseCycs (w : Flit (BitVec 64)) : Flit (BitVec 64) :=
  ⟨w.last, (w.val.setWidth 32).setWidth 64⟩

/-- **An output up to the cycle counts**: of every record, the word that holds
the cycle count loses it. -/
def upToCycs (R C P : ℕ) (dst : List (Flit (BitVec 64))) :
    List (Flit (BitVec 64)) :=
  dst.mapIdx (fun k w => if k % recordLength R C P
    = R + 4 then eraseCycs w else w)

section UpToCycs

variable {F : Type} {R C P : ℕ} {bits : F → BitVec 32}
    {results : List (JobResult F R C P)}
  {s : Compose} {taken : ComposePort R → List (Flit (BitVec 64))}
  {dst : List (Flit (BitVec 64))}

/-- More of an output is more of it up to the cycle counts, since a word is
erased by its position. -/
theorem upToCycs_mono {dst' : List (Flit (BitVec 64))} (h : dst' <+: dst) :
    upToCycs R C P dst' <+: upToCycs R C P dst := by
  obtain ⟨rest, rfl⟩ := h
  unfold upToCycs
  rw [List.mapIdx_append]
  exact List.prefix_append _ _

/-- Erasing the cycle count of a record leaves it with none, and every other
word as it was. -/
theorem erase_words (hC : 0 < C) (hP : 0 < P) (r : JobResult F R C P)
    {cycs : BitVec 32} {m : ℕ} {w : Flit (BitVec 64)}
    (h : (frame (r.words bits cycs))[m]? = some w) :
    (frame (r.words bits 0))[m]?
      = some (if m = R + 4 then eraseCycs w else w) := by
  rw [getElem?_words hC hP] at h
  by_cases hm : m = R + 4
  · rw [if_pos hm, Option.some.injEq] at h
    rw [getElem?_words hC hP, if_pos hm, if_pos hm, ← h, eraseCycs]
    refine congrArg (fun v => some (⟨false, v⟩ : Flit (BitVec 64))) ?_
    rw [BitVec.setWidth_append_eq_right]
    refine BitVec.eq_of_toNat_eq ?_
    have hbits := (bits r.cardest).isLt
    rw [BitVec.toNat_setWidth, BitVec.toNat_append, Nat.mod_eq_of_lt (by omega)]
    simp
  · rw [if_neg hm] at h
    rw [if_neg hm, h]

/-- **Up to the cycle counts, the output is the beginning of the records.** This
is what two schedules have in common. -/
theorem Composed.upToCycs_isPrefix
    (h : Composed bits results s taken dst) (hC : 0 < C) (hP : 0 < P) :
    upToCycs R C P dst
      <+: results.flatMap (fun r => frame (r.words bits 0)) := by
  refine prefix_of_getElem? (fun k w hk => ?_)
  rw [upToCycs, List.getElem?_mapIdx] at hk
  obtain ⟨w', hw', rfl⟩ := Option.map_eq_some_iff.mp hk
  obtain ⟨r, cycs, hr, hword⟩ := h.getElem? hC hP hw'
  rw [getElem?_flatMap_block (recordLength_pos R C P) _ _
    (fun r _ => length_frame_words hC hP r 0), hr]
  exact erase_words hC hP r hword

/-- **The cycle counts of an output make it the beginning of the records**: they
are read off the words that have been written. -/
theorem Composed.exists_cycs (h : Composed bits results s taken dst)
    (hC : 0 < C) (hP : 0 < P) :
    ∃ cycs : ℕ → BitVec 32,
      dst <+: results.zipIdx.flatMap
      (fun p => frame (p.1.words bits (cycs p.2))) := by
  set L := recordLength R C P with hL
  -- the upper half of the word of a record that holds the cycle count
  set cycs : ℕ → BitVec 32 := fun t =>
    dst[t * L + (R + 4)]?.elim 0 (fun w => w.val.extractLsb' 32 32) with hcycs
  refine ⟨cycs, prefix_of_getElem? (fun k w hk => ?_)⟩
  obtain ⟨r, c, hr, hword⟩ := h.getElem? hC hP hk
  rw [getElem?_flatMap_block (recordLength_pos R C P) _ _
    (fun p _ => length_frame_words hC hP p.1 (cycs p.2)),
      List.getElem?_zipIdx, hr]
  show (frame (r.words bits (cycs (0 + k / L))))[k % L]? = some w
  rw [getElem?_words hC hP] at hword ⊢
  by_cases hm : k % L = R + 4
  · rw [if_pos hm, Option.some.injEq] at hword
    have hkt : (0 + k / L) * L + (R + 4) = k := by
      rw [Nat.zero_add, ← hm, Nat.div_add_mod']
    have hself : cycs (0 + k / L) = c := by
      rw [hcycs]
      dsimp only
      rw [hkt, hk, ← hword]
      exact BitVec.extractLsb'_append_eq_left
    rw [if_pos hm, hself, ← hword]
  · rw [if_neg hm] at hword
    rw [if_neg hm, hword]

/-- Records are not empty, so that each of them is a job of the output. -/
theorem words_map_ne_nil (hC : 0 < C) (hP : 0 < P) (cycs : ℕ → BitVec 32) :
    ∀ job ∈ results.zipIdx.map (fun p => p.1.words bits (cycs p.2)),
      job ≠ [] := by
  intro job hjob
  obtain ⟨p, -, rfl⟩ := List.mem_map.mp hjob
  rw [← List.length_pos_iff, ← length_frame, length_frame_words hC hP]
  exact recordLength_pos R C P

/-- **A complete record of the output** is the record of its job, for some cycle
count. -/
theorem Composed.record (h : Composed bits results s taken dst) (hC : 0 < C)
    (hP : 0 < P) {t : ℕ} {record : List (BitVec 64)}
    (ht : (jobsOf dst)[t]? = some record) :
    ∃ r cycs, results[t]? = some r ∧ record = r.words bits cycs := by
  obtain ⟨cycs, hcycs⟩ := h.exists_cycs hC hP
  have hget := getElem?_of_isPrefix (jobsOf_isPrefix hcycs) ht
  rw [← List.flatMap_map (fun p : JobResult F R C P × ℕ =>
    p.1.words bits (cycs p.2)),
    jobsOf_flatMap_frame (words_map_ne_nil hC hP cycs), List.getElem?_map,
    List.getElem?_zipIdx] at hget
  obtain ⟨p, hp, rfl⟩ := Option.map_eq_some_iff.mp hget
  obtain ⟨r, hr, rfl⟩ := Option.map_eq_some_iff.mp hp
  exact ⟨r, _, hr, rfl⟩

/-- The output has no more than the records, which bounds how often `compose`
can write. -/
theorem Composed.length_le (h : Composed bits results s taken dst)
    (hC : 0 < C) (hP : 0 < P) :
    dst.length ≤ results.length * recordLength R C P := by
  obtain ⟨cycs, hcycs⟩ := h.exists_cycs hC hP
  have hle := hcycs.length_le
  rwa [length_flatMap_block _ _
    (fun p _ => length_frame_words hC hP p.1 (cycs p.2)),
    List.length_zipIdx] at hle

/-- **An output of full length is a record per job**, for some cycle counts. -/
theorem Composed.eq_words (h : Composed bits results s taken dst)
    (hC : 0 < C) (hP : 0 < P)
    (hlen : dst.length = results.length * recordLength R C P) :
    ∃ cycs : ℕ → BitVec 32,
      dst = (results.zipIdx.map
        (fun p => p.1.words bits (cycs p.2))).flatMap frame := by
  obtain ⟨cycs, hcycs⟩ := h.exists_cycs hC hP
  refine ⟨cycs, ?_⟩
  rw [List.flatMap_map]
  refine hcycs.eq_of_length ?_
  rw [length_flatMap_block _ _
    (fun p _ => length_frame_words hC hP p.1 (cycs p.2)),
    List.length_zipIdx, hlen]

/-- It has as many records as jobs, of the length of a record, and nothing
behind the last of them. -/
theorem Composed.exists_records (h : Composed bits results s taken dst)
    (hC : 0 < C) (hP : 0 < P)
    (hlen : dst.length = results.length * recordLength R C P) :
    ∃ records : List (List (BitVec 64)), dst = records.flatMap frame
      ∧ (∀ record ∈ records, record.length = recordLength R C P)
      ∧ records.length = results.length := by
  obtain ⟨cycs, hcycs⟩ := h.eq_words hC hP hlen
  refine ⟨_, hcycs, fun record hrecord => ?_,
    by rw [List.length_map, List.length_zipIdx]⟩
  obtain ⟨p, -, rfl⟩ := List.mem_map.mp hrecord
  rw [← length_frame, length_frame_words hC hP]

/-- Its jobs are the records: it is framed as the jobs were. -/
theorem Composed.complete (h : Composed bits results s taken dst)
    (hC : 0 < C) (hP : 0 < P)
    (hlen : dst.length = results.length * recordLength R C P) :
    (jobsOf dst).length = results.length ∧ partOf dst = [] := by
  obtain ⟨cycs, hcycs⟩ := h.eq_words hC hP hlen
  rw [hcycs, jobsOf_flatMap_frame (words_map_ne_nil hC hP cycs),
    partOf_flatMap_frame (words_map_ne_nil hC hP cycs),
      List.length_map, List.length_zipIdx]
  exact ⟨rfl, rfl⟩

/-- **Up to the cycle counts, an output of full length is all records.** It is
the same for all schedules that come this far. -/
theorem Composed.upToCycs_eq (h : Composed bits results s taken dst)
    (hC : 0 < C) (hP : 0 < P)
    (hlen : dst.length = results.length * recordLength R C P) :
    upToCycs R C P dst = results.flatMap (fun r => frame (r.words bits 0)) := by
  refine (h.upToCycs_isPrefix hC hP).eq_of_length ?_
  rw [length_flatMap_block _ _
    (fun r _ => length_frame_words hC hP r 0), upToCycs,
    List.length_mapIdx, hlen]

end UpToCycs

end Skt.Hardware
