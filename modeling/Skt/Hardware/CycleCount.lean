import Skt.Hardware.Record

/-!
# The cycle count of a record

The record of a job carries, next to its cardinality estimate, the count of a
register of `compose` that every tick sets back. A tick is written when the
first word of a job enters the kernel; the estimate of the job before may then
still be on its way. What the record gets is the number of calls since the last
tick that was taken, whichever job it belongs to.

A run is observed here call by call: when its ticks were taken, and when and
with which count its cardinality words were written. The observation changes
nothing of the run. The count of a record is that of its own job just when no
later tick has been taken by then, up to a multiple of `2 ^ 32` calls.

The runs are those in which the tick of a job comes before its results, as the
tick split sees to. Every other order of arrivals is allowed, in particular the
one in which the next job enters early.
-/

namespace Skt.Hardware

open Streams

variable {F : Type} {R C P : ℕ}

/-! ## One call

A call of `compose` does two things, and the count and the estimate meet in the
second of them. -/

namespace Compose

/-- The count is one more than before, or one if a tick is taken; a tick is
taken in every call that finds one. -/
theorem tick_cc (s : Compose) (io : ComposePorts F R) :
    (io.tickSrc.pending = [] ∧ (tick s io).1.cc = s.cc + 1
        ∧ (tick s io).2.tickSrc.consumed = io.tickSrc.consumed)
      ∨ ((tick s io).1.cc = 1
        ∧ (tick s io).2.tickSrc.consumed.length
          = io.tickSrc.consumed.length + 1) := by
  unfold tick
  cases h : io.tickSrc.readNb with
  | none => exact Or.inl ⟨Fifo.readNb_eq_none.mp h, rfl, rfl⟩
  | some p =>
    refine Or.inr ⟨BitVec.zero_add 1, ?_⟩
    show p.2.consumed.length = _
    rw [Fifo.consumed_of_readNb h, List.length_append]
    rfl

/-- The first part of a call leaves the estimates and the output. -/
theorem tick_cardest (s : Compose) (io : ComposePorts F R) :
    (tick s io).2.cardest = io.cardest ∧ (tick s io).2.dst = io.dst := by
  unfold tick
  cases io.tickSrc.readNb <;> exact ⟨rfl, rfl⟩

/-- The second part of a call leaves the count and the ticks. -/
theorem stage_cc (bits : F → BitVec 32) (s : Compose) (io : ComposePorts F R) :
    (stage bits s io).1.cc = s.cc ∧ (stage bits s io).2.tickSrc
      = io.tickSrc := by
  unfold stage
  split
  · split <;> exact ⟨rfl, rfl⟩
  · split
    · split <;> exact ⟨rfl, rfl⟩
    · split
      · split <;> exact ⟨rfl, rfl⟩
      · split
        · exact ⟨rfl, rfl⟩
        · split <;> exact ⟨rfl, rfl⟩

/-- **An estimate that is taken is written with the count**, in the upper half
of its word. -/
theorem stage_cardest (bits : F → BitVec 32) (s : Compose)
    (io : ComposePorts F R) :
    (stage bits s io).2.cardest.consumed = io.cardest.consumed
      ∨ ∃ x, (stage bits s io).2.cardest.consumed = io.cardest.consumed ++ [x]
        ∧ (stage bits s io).2.dst.written = io.dst.written
          ++ [⟨false, s.cc ++ bits x⟩] := by
  unfold stage
  split
  · split <;> exact Or.inl rfl
  · split
    · split <;> exact Or.inl rfl
    · split
      · split
        · exact Or.inl rfl
        · next x src h =>
          exact Or.inr ⟨x, Fifo.consumed_of_readNb h, Fifo.written_write _ _⟩
      · split
        · exact Or.inl rfl
        · split <;> exact Or.inl rfl

end Compose

/-! ## Runs with a clock

The events are those of `compose` between its streams. What is added is a record
of when things happened, in numbers of calls. -/

/-- **Each job's tick precedes its results**: what arrives for a job finds the
tick of the job written. -/
def ComposeRun.TickFirst (r : ComposeRun F R) : ComposeEvent R → Prop
  | .arrive (.agms j) => (r.io.agmsSums j).written.length
    < r.io.tickSrc.written.length
  | .arrive .basic => (jobsOf r.io.dstBasic.written).length
    < r.io.tickSrc.written.length
  | .arrive .cardest => r.io.cardest.written.length
    < r.io.tickSrc.written.length
  | .arrive .cm => (jobsOf r.io.cmCounts.written).length
    < r.io.tickSrc.written.length
  | .tick => True
  | .call => True

/-- Whether it does can be computed. -/
instance (r : ComposeRun F R) (e : ComposeEvent R) :
    Decidable (r.TickFirst e) :=
  match e with
  | .arrive (.agms j) =>
    inferInstanceAs
      (Decidable ((r.io.agmsSums j).written.length
        < r.io.tickSrc.written.length))
  | .arrive .basic =>
    inferInstanceAs
      (Decidable ((jobsOf r.io.dstBasic.written).length
        < r.io.tickSrc.written.length))
  | .arrive .cardest =>
    inferInstanceAs
      (Decidable (r.io.cardest.written.length < r.io.tickSrc.written.length))
  | .arrive .cm =>
    inferInstanceAs
      (Decidable ((jobsOf r.io.cmCounts.written).length
        < r.io.tickSrc.written.length))
  | .tick => isTrue trivial
  | .call => isTrue trivial

/-- A cardinality word as it is written: when, after how many ticks, and with
which count. -/
structure Emission where
  /-- The number of the call that writes it. -/
  call : ℕ
  /-- The number of ticks taken up to this call. -/
  ticks : ℕ
  /-- The cycle count in the word. -/
  cycs : BitVec 32
  deriving DecidableEq

/-- A run of `compose` and what is observed of it. The call number is not
bounded, as the register is. -/
structure CycleRun (F : Type) (R : ℕ) where
  run : ComposeRun F R
  /-- The number of calls. -/
  calls : ℕ
  /-- The numbers of the calls that took a tick. -/
  tickedAt : List ℕ
  /-- The cardinality words, one for each record begun so far. -/
  emitted : List Emission

/-- The upper half of the word written last, where the count is found. -/
def cycleField (dst : List (Flit (BitVec 64))) : BitVec 32 :=
  (dst.getLast?.map fun w => w.val.extractLsb' 32 32).getD 0

namespace CycleRun

/-- The start of a run, with nothing observed. -/
def init : CycleRun F R := ⟨ComposeRun.init, 0, [], []⟩

/-- One event of the run, observed: a call may take a tick, and it may write a
cardinality word. Both are seen by what it has consumed. -/
def step (bits : F → BitVec 32) (results : List (JobResult F R C P))
    (t : CycleRun F R)
    (e : ComposeEvent R) : CycleRun F R :=
  let run := t.run.step bits results e
  match e with
  | .call =>
    let call := t.calls + 1
    let tickedAt :=
      if t.run.io.tickSrc.consumed.length
        < run.io.tickSrc.consumed.length then t.tickedAt ++ [call]
      else t.tickedAt
    let emitted :=
      if t.run.io.cardest.consumed.length < run.io.cardest.consumed.length then
        t.emitted ++ [⟨call, tickedAt.length, cycleField run.io.dst.written⟩]
      else t.emitted
    ⟨run, call, tickedAt, emitted⟩
  | _ => { t with run := run }

/-- **The states of the runs in which each job's tick precedes its results.** -/
inductive Reached (bits : F → BitVec 32) (results : List (JobResult F R C P)) :
    CycleRun F R → Prop
  | init : Reached bits results init
  /-- An event in which no result comes before the tick of its job. -/
  | next {t : CycleRun F R} {e : ComposeEvent R} (ht : Reached bits results t)
      (he : t.run.TickFirst e) : Reached bits results (t.step bits results e)

/-- Ticks come first all along a schedule, as a test that can be computed. -/
def TicksFirst (bits : F → BitVec 32) (results : List (JobResult F R C P)) :
    CycleRun F R → List (ComposeEvent R) → Bool
  | _, [] => true
  | t, e :: schedule =>
    decide (t.run.TickFirst e) && TicksFirst bits results
      (t.step bits results e) schedule

/-- Then every state along it is reached, which is how a concrete run is shown
to be one of those spoken of. -/
theorem Reached.foldl {bits : F → BitVec 32}
    {results : List (JobResult F R C P)} {t : CycleRun F R}
    (ht : Reached bits results t) {schedule : List (ComposeEvent R)}
    (h : TicksFirst bits results t schedule = true) :
    Reached bits results (schedule.foldl (CycleRun.step bits results) t) := by
  induction schedule generalizing t with
  | nil => exact ht
  | cons e schedule ih =>
    rw [TicksFirst, Bool.and_eq_true] at h
    exact ih (ht.next (of_decide_eq_true h.1)) h.2

/-- **The cycle count of every record is that of its job**: the calls from the
one that took the job's tick to the one that writes the word, both included. The
`k`-th tick belongs to the `k`-th job, and so does the `k`-th cardinality
word. -/
def Timed (t : CycleRun F R) : Prop :=
  ∀ (k : ℕ) (w : Emission), t.emitted[k]? = some w →
    ∃ a, t.tickedAt[k]? = some a ∧ a ≤ w.call ∧ w.cycs
      = BitVec.ofNat 32 (w.call - a + 1)

/-- **The last tick is the job's own** when its cardinality word is written, or
was taken a multiple of `2 ^ 32` calls after it. -/
def LastTickOwn (t : CycleRun F R) : Prop :=
  ∀ (k : ℕ) (w : Emission), t.emitted[k]? = some w →
    ∃ a b, t.tickedAt[k]? = some a ∧ t.tickedAt[w.ticks - 1]? = some b
      ∧ a ≡ b [MOD 2 ^ 32]

/-! ## What is counted

The invariant relates the register to the observation: it counts from the last
tick that was taken. -/

/-- **A cardinality word counts from the last tick**, and its job's tick was
taken by then. -/
structure Counts (tickedAt : List ℕ) (k : ℕ) (w : Emission)
    (a b : ℕ) : Prop where
  /-- The tick of the word's own job was taken in call `a`. -/
  own : tickedAt[k]? = some a
  /-- The last tick that was taken when the word was written, in call `b`. -/
  last : tickedAt[w.ticks - 1]? = some b
  /-- Both were taken by then. -/
  own_le : a ≤ w.call
  last_le : b ≤ w.call
  /-- The count in the word is of the calls since the last tick. -/
  cycs : w.cycs = BitVec.ofNat 32 (w.call - b + 1)

/-- Later ticks do not matter to a word that has been written. -/
theorem Counts.mono {tickedAt tickedAt' : List ℕ} {k a b : ℕ} {w : Emission}
    (h : Counts tickedAt k w a b) (hle : tickedAt <+: tickedAt') :
    Counts tickedAt' k w a b where
  own := getElem?_of_isPrefix hle h.own
  last := getElem?_of_isPrefix hle h.last
  own_le := h.own_le
  last_le := h.last_le
  cycs := h.cycs

/-- **A word that is written now counts from the last tick**, if the count does
and its job's tick has been taken. -/
theorem exists_counts {tickedAt : List ℕ} {k calls : ℕ} {cc : BitVec 32}
    (hk : k < tickedAt.length) (hpast : ∀ a ∈ tickedAt, a ≤ calls)
    (hcount : ∀ b, tickedAt.getLast? = some b →
      cc = BitVec.ofNat 32 (calls - b + 1)) :
    ∃ a b, Counts tickedAt k ⟨calls, tickedAt.length, cc⟩ a b := by
  have hlt : tickedAt.length - 1 < tickedAt.length := by omega
  have hlast : tickedAt.getLast? = some tickedAt[tickedAt.length - 1] := by
    rw [List.getLast?_eq_getElem?, List.getElem?_eq_getElem hlt]
  exact ⟨_, _, List.getElem?_eq_getElem hk, List.getElem?_eq_getElem hlt,
    hpast _ (List.getElem_mem hk), hpast _ (List.getElem_mem hlt),
      hcount _ hlast⟩

/-- **The invariant of a run.** -/
structure Counted (t : CycleRun F R) : Prop where
  /-- Every tick that was taken has been noted. -/
  ticked : t.tickedAt.length = t.run.io.tickSrc.consumed.length
  /-- So has every cardinality word. -/
  emitted : t.emitted.length = t.run.io.cardest.consumed.length
  /-- No estimate is ahead of its tick. -/
  first : t.run.io.cardest.written.length ≤ t.run.io.tickSrc.written.length
  /-- No cardinality word is ahead of a tick that was taken. -/
  behind : t.emitted.length ≤ t.tickedAt.length
  /-- No tick was taken in a call to come. -/
  past : ∀ a ∈ t.tickedAt, a ≤ t.calls
  /-- The register counts the calls since the last tick. Before the first one
  nothing is said of it. -/
  count : ∀ b, t.tickedAt.getLast? = some b →
    t.run.state.cc = BitVec.ofNat 32 (t.calls - b + 1)
  /-- Every word that was written counts from the last tick at that time. -/
  counts : ∀ (k : ℕ) (w : Emission), t.emitted[k]? = some w →
    ∃ a b, Counts t.tickedAt k w a b

/-- It holds at the start. -/
theorem counted_init : (init : CycleRun F R).Counted where
  ticked := rfl
  emitted := rfl
  first := le_refl _
  behind := le_refl _
  past a ha := absurd ha List.not_mem_nil
  count b hb := by cases hb
  counts k w hw := by cases hw

variable {bits : F → BitVec 32} {results : List (JobResult F R C P)}
    {t : CycleRun F R}

variable (bits results) in
/-- The ticks after a call: none waiting and none taken, or one taken. At most
one tick is taken in a call, so that ticks can pile up. -/
theorem call_ticks (t : CycleRun F R) :
    let t' := t.step bits results .call
    t'.run.io.tickSrc.written = t.run.io.tickSrc.written
      ∧ ((t.run.io.tickSrc.pending = [] ∧ t'.tickedAt = t.tickedAt
            ∧ t'.run.io.tickSrc.consumed = t.run.io.tickSrc.consumed
            ∧ t'.run.state.cc = t.run.state.cc + 1)
          ∨ (t'.tickedAt = t.tickedAt ++ [t.calls + 1]
            ∧ t'.run.io.tickSrc.consumed.length
              = t.run.io.tickSrc.consumed.length + 1
            ∧ t'.run.state.cc = 1)) := by
  intro t'
  have hstage := Compose.stage_cc bits (Compose.tick t.run.state t.run.io).1
    (Compose.tick t.run.state t.run.io).2
  have hsrc : t'.run.io.tickSrc
    = (Compose.tick t.run.state t.run.io).2.tickSrc := hstage.2
  have hcc : t'.run.state.cc = (Compose.tick t.run.state t.run.io).1.cc :=
    hstage.1
  have hticked : t'.tickedAt
      = if t.run.io.tickSrc.consumed.length < t'.run.io.tickSrc.consumed.length
        then t.tickedAt ++ [t.calls + 1] else t.tickedAt := rfl
  refine ⟨(Compose.compose_sameInputs bits t.run.state t.run.io).tickSrc, ?_⟩
  rcases Compose.tick_cc t.run.state t.run.io
    with ⟨hempty, hone, hconsumed⟩ | ⟨hone, hconsumed⟩
  · refine Or.inl ⟨hempty, ?_, hsrc ▸ hconsumed, hcc.trans hone⟩
    rw [hticked, hsrc, hconsumed, if_neg (lt_irrefl _)]
  · refine Or.inr ⟨?_, hsrc ▸ hconsumed, hcc.trans hone⟩
    rw [hticked, hsrc, hconsumed, if_pos (Nat.lt_succ_self _)]

variable (bits results) in
/-- The cardinality words after a call: one with the count of the call, if an
estimate is taken. -/
theorem call_emitted (t : CycleRun F R) :
    let t' := t.step bits results .call
    t'.run.io.cardest.written = t.run.io.cardest.written
      ∧ ((t'.emitted = t.emitted
            ∧ t'.run.io.cardest.consumed = t.run.io.cardest.consumed)
          ∨ (t'.emitted
              = t.emitted
                ++ [⟨t.calls + 1, t'.tickedAt.length, t'.run.state.cc⟩]
            ∧ t'.run.io.cardest.consumed.length
              = t.run.io.cardest.consumed.length + 1)) := by
  intro t'
  have hcardest := (Compose.tick_cardest t.run.state t.run.io).1
  have hcc : t'.run.state.cc = (Compose.tick t.run.state t.run.io).1.cc :=
    (Compose.stage_cc bits _ _).1
  have hemitted : t'.emitted
      = if t.run.io.cardest.consumed.length < t'.run.io.cardest.consumed.length
        then t.emitted
          ++ [⟨t.calls + 1, t'.tickedAt.length,
            cycleField t'.run.io.dst.written⟩]
        else t.emitted := rfl
  refine ⟨(Compose.compose_sameInputs bits t.run.state t.run.io).cardest, ?_⟩
  rcases Compose.stage_cardest bits (Compose.tick t.run.state t.run.io).1
    (Compose.tick t.run.state t.run.io).2 with hsame | ⟨x, hmore, hdst⟩
  · have hconsumed : t'.run.io.cardest.consumed
      = t.run.io.cardest.consumed := by
      rw [← hcardest]
      exact hsame
    refine Or.inl ⟨?_, hconsumed⟩
    rw [hemitted, hconsumed, if_neg (lt_irrefl _)]
  · have hconsumed : t'.run.io.cardest.consumed.length
      = t.run.io.cardest.consumed.length + 1 := by
      rw [← hcardest]
      exact (congrArg List.length hmore).trans List.length_append
    have hfield : cycleField t'.run.io.dst.written = t'.run.state.cc := by
      have hdst' : t'.run.io.dst.written = _ := hdst
      rw [cycleField, hdst', List.getLast?_concat,
        Option.map_some, Option.getD_some,
        BitVec.extractLsb'_append_eq_left, hcc]
    refine Or.inr ⟨?_, hconsumed⟩
    rw [hemitted, hconsumed, if_pos (Nat.lt_succ_self _), hfield]

variable (bits results) in
/-- A call keeps the ticks taken so far, and may add one. -/
theorem isPrefix_call (t : CycleRun F R) :
    t.tickedAt <+: (t.step bits results .call).tickedAt := by
  rcases (call_ticks bits results t).2 with ⟨-, hsame, -, -⟩ | ⟨hmore, -, -⟩
  · rw [hsame]
  · rw [hmore]
    exact List.prefix_append _ _

variable (bits results) in
/-- **The clock after a call**: the ticks taken are those noted, none of them
later than the call, and the count is that of the calls since the last one. -/
theorem Counted.clock (h : t.Counted) :
    let t' := t.step bits results .call
    t'.tickedAt.length = t'.run.io.tickSrc.consumed.length
      ∧ (∀ a ∈ t'.tickedAt, a ≤ t'.calls)
      ∧ ∀ b, t'.tickedAt.getLast? = some b →
        t'.run.state.cc = BitVec.ofNat 32 (t'.calls - b + 1) := by
  intro t'
  have hcalls : t'.calls = t.calls + 1 := rfl
  have hpast : ∀ a ∈ t.tickedAt, a ≤ t'.calls := fun a ha =>
    (h.past a ha).trans (Nat.le_succ _)
  rcases (call_ticks bits results t).2
    with ⟨-, hsame, hconsumed, hcc⟩ | ⟨hmore, hconsumed, hcc⟩
  · refine ⟨?_, fun a ha => hpast a (hsame ▸ ha), fun b hb => ?_⟩
    · rw [hsame, hconsumed, h.ticked]
    · rw [hsame] at hb
      have hle := h.past b (List.mem_of_getLast? hb)
      rw [hcc, h.count b hb, hcalls, show t.calls + 1 - b + 1
        = t.calls - b + 1 + 1 by omega]
      exact (BitVec.ofNat_add (t.calls - b + 1) 1).symm
  · -- the tick is that of this call
    refine ⟨?_, fun a ha => ?_, fun b hb => ?_⟩
    · rw [hmore, hconsumed, List.length_append, h.ticked]
      rfl
    · rw [hmore] at ha
      rcases List.mem_append.mp ha with ha | ha
      · exact hpast a ha
      · rw [List.mem_singleton.mp ha]
        exact hcalls.ge
    · rw [hmore, List.getLast?_concat] at hb
      cases hb
      rw [hcc, hcalls, Nat.sub_self]
      rfl

variable (bits results) in
/-- **An estimate that is taken finds its job's tick among the ones taken**: it
was written before the estimate, and a call takes a tick as long as one is
waiting. -/
theorem Counted.taken (h : t.Counted)
    (hcard : (t.step bits results .call).run.io.cardest.consumed.length
      = t.run.io.cardest.consumed.length + 1) :
    t.emitted.length < (t.step bits results .call).tickedAt.length := by
  rcases (call_ticks bits results t).2
    with ⟨hempty, hsame, -, -⟩ | ⟨hmore, -, -⟩
  · have htaken := congrArg List.length (Fifo.consumed_eq_written hempty)
    have hle :=
      (t.step bits results .call).run.io.cardest.consumed_isPrefix.length_le
    have hfirst := h.first
    have hticked := h.ticked
    have hemitted := h.emitted
    rw [(call_emitted bits results t).1, hcard] at hle
    rw [hsame]
    omega
  · rw [hmore, List.length_append]
    exact Nat.lt_succ_of_le h.behind

/-- **A call keeps the invariant.** A word that is written finds its job's tick
and the last tick among those taken. -/
theorem Counted.call (h : t.Counted) : (t.step bits results .call).Counted := by
  have hmono := isPrefix_call bits results t
  obtain ⟨hticked, hpast, hcount⟩ := h.clock bits results
  obtain ⟨hcardw, hemits⟩ := call_emitted bits results t
  have htickw := (call_ticks bits results t).1
  have htaken := h.taken bits results
  set t' := t.step bits results .call
  have hold : ∀ (k : ℕ) (w : Emission), t.emitted[k]? = some w →
      ∃ a b, Counts t'.tickedAt k w a b := by
    intro k w hw
    obtain ⟨a, b, hab⟩ := h.counts k w hw
    exact ⟨a, b, hab.mono hmono⟩
  have hfirst : t'.run.io.cardest.written.length
    ≤ t'.run.io.tickSrc.written.length := by
    rw [hcardw, htickw]
    exact h.first
  rcases hemits with ⟨hsame, hconsumed⟩ | ⟨hmore, hconsumed⟩
  · refine ⟨hticked, ?_, hfirst, ?_, hpast, hcount, fun k w hw =>
      hold k w (hsame ▸ hw)⟩
    · rw [hsame, hconsumed, h.emitted]
    · rw [hsame]
      exact h.behind.trans hmono.length_le
  · have hlen : t'.emitted.length = t.emitted.length + 1 := by
      rw [hmore, List.length_append]
      rfl
    refine ⟨hticked, by
      rw [hlen, hconsumed, h.emitted], hfirst, ?_, hpast, hcount, ?_⟩
    · rw [hlen]
      exact htaken hconsumed
    · intro k w hw
      rw [hmore] at hw
      rcases Nat.lt_or_ge k t.emitted.length with hk | hk
      · rw [List.getElem?_append_left hk] at hw
        exact hold k w hw
      · -- the word written by this call
        have hk' : k = t.emitted.length := by
          have hlt := (List.getElem?_eq_some_iff.mp hw).1
          rw [List.length_append, List.length_singleton] at hlt
          omega
        rw [hk', List.getElem?_append_right (le_refl _), Nat.sub_self,
          List.getElem?_cons_zero] at hw
        cases hw
        rw [hk']
        exact exists_counts (htaken hconsumed) hpast hcount

/-- What arrives at the inputs of the record, or at the ticks, keeps it. -/
theorem Counted.arrive (h : t.Counted) {run : ComposeRun F R}
    (hstate : run.state = t.run.state)
    (htick : run.io.tickSrc.consumed = t.run.io.tickSrc.consumed)
    (hcard : run.io.cardest.consumed = t.run.io.cardest.consumed)
    (hfirst : run.io.cardest.written.length ≤ run.io.tickSrc.written.length) :
    ({ t with run := run } : CycleRun F R).Counted where
  ticked := h.ticked.trans (congrArg List.length htick).symm
  emitted := h.emitted.trans (congrArg List.length hcard).symm
  first := hfirst
  behind := h.behind
  past := h.past
  count b hb := (congrArg Compose.cc hstate).trans (h.count b hb)
  counts := h.counts

/-- **Every event keeps the invariant**, as long as ticks come first. -/
theorem Counted.step (h : t.Counted) {e : ComposeEvent R}
    (he : t.run.TickFirst e) :
    (t.step bits results e).Counted := by
  cases e with
  | call => exact h.call
  | tick =>
    refine h.arrive rfl rfl rfl (h.first.trans ?_)
    show _ ≤ (t.run.io.tickSrc.write true).written.length
    rw [Fifo.written_write, List.length_append]
    exact Nat.le_add_right _ _
  | arrive i =>
    cases i with
    | agms j => exact h.arrive rfl rfl rfl h.first
    | basic => exact h.arrive rfl rfl rfl h.first
    | cm => exact h.arrive rfl rfl rfl h.first
    | cardest =>
      refine h.arrive rfl rfl (Fifo.consumed_arrive _ _) ?_
      have hlt : t.run.io.cardest.written.length
        < t.run.io.tickSrc.written.length := he
      show (t.run.io.cardest.arrive _).written.length ≤ _
      unfold Fifo.arrive
      split
      · exact hlt.le
      · rw [Fifo.written_write, List.length_append]
        exact hlt

/-- The invariant of every run, by induction on how its state is reached. -/
theorem Reached.counted (ht : Reached bits results t) : t.Counted := by
  induction ht with
  | init => exact counted_init
  | next _ he ih => exact ih.step he

/-! ## Whose count it is

The counts of two ticks are compared at one call. -/

/-- Two counts of one call agree when they start a multiple of `2 ^ 32` calls
apart. -/
theorem ofNat_count_eq_iff {a b n : ℕ} (ha : a ≤ n) (hb : b ≤ n) :
    BitVec.ofNat 32 (n - b + 1) = BitVec.ofNat 32 (n - a + 1)
      ↔ a ≡ b [MOD 2 ^ 32] := by
  rw [← BitVec.toNat_inj, BitVec.toNat_ofNat, BitVec.toNat_ofNat, Nat.ModEq]
  omega

/-- **The cycle count of a record belongs to its job just when no later tick was
taken before it was written**: in every run in which each job's tick precedes
its results, the counts are those of the jobs exactly if the last tick taken is
the job's own at every cardinality word, up to a multiple of `2 ^ 32` calls. -/
theorem timed_iff (bits : F → BitVec 32) (results : List (JobResult F R C P))
    (t : CycleRun F R)
    (ht : Reached bits results t) : t.Timed ↔ t.LastTickOwn := by
  have hcounted := ht.counted
  refine forall_congr' fun k => forall_congr' fun w =>
    imp_congr_right fun hw => ?_
  obtain ⟨a, b, hab⟩ := hcounted.counts k w hw
  constructor
  · rintro ⟨a', ha', hle, hcycs⟩
    obtain rfl : a = a' := Option.some.inj (hab.own.symm.trans ha')
    refine ⟨a, b, hab.own, hab.last, ?_⟩
    rw [hab.cycs] at hcycs
    exact (ofNat_count_eq_iff hle hab.last_le).mp hcycs
  · rintro ⟨a', b', ha', hb', hmod⟩
    obtain rfl : a = a' := Option.some.inj (hab.own.symm.trans ha')
    obtain rfl : b = b' := Option.some.inj (hab.last.symm.trans hb')
    refine ⟨a, hab.own, hab.own_le, ?_⟩
    rw [hab.cycs]
    exact (ofNat_count_eq_iff hab.own_le hab.last_le).mpr hmod

/-- Two jobs, of one AGMS row and a Count-Min row of two buckets: small enough
to be run. -/
def twoJobs : List (JobResult (BitVec 32) 1 1 1) :=
  [⟨fun _ => 7, ⟨2, 3, 5, 8, 34⟩, 9, fun _ k => k.setWidth 32⟩,
    ⟨fun _ => 1, ⟨1, 4, 4, 4, 16⟩, 1, fun _ k => k.setWidth 32⟩]

/-- The results of the first job arrive up to its estimate, and five calls write
what precedes the estimate in the record; the first call takes the job's
tick. -/
def upToEstimate : List (ComposeEvent 1) :=
  [.tick, .arrive (.agms 0), .arrive .basic, .arrive .basic,
    .arrive .basic, .arrive .basic,
    .arrive .cardest, .call, .call, .call, .call, .call]

/-- A record whose estimate is written before the next job's tick, so that both
sides of the equivalence hold. -/
theorem timed_iff_instance :
    let t := (upToEstimate ++ [ComposeEvent.call]).foldl (step id twoJobs) init
    t.Timed ↔ t.LastTickOwn :=
  timed_iff id twoJobs _ (Reached.init.foldl (by decide))

/-- **The next job enters before the estimate is written**: the sixth call takes
its tick and writes the first job's estimate with a count of one call instead of
six. -/
theorem not_timed :
    let t := (upToEstimate ++ [ComposeEvent.tick, .call]).foldl
      (step id twoJobs) init
    Reached id twoJobs t ∧ t.tickedAt = [1, 6] ∧ t.emitted
      = [⟨6, 2, 1#32⟩] ∧ ¬ t.Timed := by
  intro t
  have hticked : t.tickedAt = [1, 6] := by decide
  have hemitted : t.emitted = [⟨6, 2, 1#32⟩] := by decide
  refine ⟨Reached.init.foldl (by decide), hticked, hemitted, fun h => ?_⟩
  obtain ⟨a, ha, -, hcycs⟩ := h 0 ⟨6, 2, 1#32⟩ (by rw [hemitted]; rfl)
  rw [hticked] at ha
  cases ha
  exact absurd hcycs (by decide)

end CycleRun

end Skt.Hardware
