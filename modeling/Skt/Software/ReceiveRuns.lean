import Skt.Software.Receive
import Skt.Lib.Tables

/-!
# Receive loops in which a call fails

The receive loop of `Skt.Software.Receive` turn by turn, under any sequence of
outcomes that `recv` can have, for ever if it is not left. The loop does not
look at the sign of the result: a `-1` is added to the bytes carried over as the
largest `size_t`. With one to three bytes carried the sum wraps, and the last of
these bytes is lost. With none it does not wrap, the job gets `2 ^ 62 - 1` items
and the carried word is read from far outside the buffer.

So the data that is received stays intact in a run exactly if no call fails in
it before the loop is left. The clients' loops test the result of `write` for
its sign, one of them without a consequence; this loop does not test it.
-/

namespace Skt

open LittleEndian

/-! ## Turn by turn -/

/-- The loop between two turns, with what it has pushed and received so far. The
last three fields record the history and are not variables of the source. -/
structure ReceiverRun where
  /-- The variables of the loop. -/
  locals : Receiver
  /-- The jobs that were pushed. -/
  pushed : List Job
  /-- All bytes that were received. -/
  received : List Byte
  /-- Whether the loop has been left. -/
  left : Bool

/-- The loop before its first turn; the carried word is not initialised. -/
def ReceiverRun.start (cy : BitVec 32) : ReceiverRun := ⟨⟨0, cy⟩, [], [], false⟩

/-- One turn of the loop, on the buffer popped and the outcome of `recv`. Behind
the turn that leaves the loop nothing happens any more. -/
def receiveStep (s : ReceiverRun) (call : List Byte × Recv) :
    Option ReceiverRun :=
  if s.left then some s
  else match call.2 with
    | .closed => do
      let _ ← writeAt call.1 0 (leBytes 4 s.locals.cy.toNat)
      some { s with left := true }
    | .data chunk => do
      let (locals, job) ← receiveTurn s.locals call.1 chunk chunk.length
      some ⟨locals, s.pushed ++ [job], s.received ++ chunk, false⟩
    | .failed => do
      -- `-1` as a `size_t`
      let (locals, job) ← receiveTurn s.locals call.1 [] (2 ^ 64 - 1)
      some ⟨locals, s.pushed ++ [job], s.received, false⟩

/-- The loop after `n` turns, unless one of them leaves its buffer. The outcomes
are an infinite sequence, of which a run that ends uses a beginning. -/
def runAfter (calls : ℕ → List Byte × Recv) (cy : BitVec 32) :
    ℕ → Option ReceiverRun
  | 0 => some (.start cy)
  | n + 1 => do
    let s ← runAfter calls cy n
    receiveStep s (calls n)

/-- A loop that was left stays so, whatever the outcomes behind it. -/
theorem foldlM_receiveStep_left {s : ReceiverRun} (h : s.left = true)
    (trace : List (List Byte × Recv)) :
    trace.foldlM receiveStep s = some s := by
  induction trace with
  | nil => rfl
  | cons call trace ih =>
    rw [List.foldlM_cons, receiveStep, if_pos h, Option.bind_eq_bind,
      Option.bind_some, ih]

/-- **The turns make up the loop.** What is stated turn by turn is thus about
the loop that `Skt.Software.Receive` defines as a whole. -/
theorem receiveLoop_eq_foldlM (s : Receiver) (pushed : List Job)
    (received : List Byte) (trace : List (List Byte × Recv)) :
    (trace.foldlM receiveStep ⟨s, pushed, received, false⟩).map
      (fun r => (r.locals, r.pushed))
      = (receiveLoop s trace).map (fun p => (p.1, pushed ++ p.2)) := by
  induction trace generalizing s pushed received with
  | nil => simp [receiveLoop]
  | cons call trace ih =>
    obtain ⟨buf, outcome⟩ := call
    rw [List.foldlM_cons]
    cases outcome with
    | closed =>
      simp only [receiveStep, receiveLoop, Bool.false_eq_true, if_false]
      cases writeAt buf 0 (leBytes 4 s.cy.toNat) with
      | none => rfl
      | some _ =>
        simp only [Option.bind_eq_bind, Option.bind_some]
        rw [foldlM_receiveStep_left rfl]
        simp
    | data chunk =>
      simp only [receiveStep, receiveLoop, Bool.false_eq_true, if_false]
      cases receiveTurn s buf chunk chunk.length with
      | none => rfl
      | some p =>
        simp only [Option.bind_eq_bind, Option.bind_some, ih]
        cases receiveLoop p.1 trace <;> simp
    | failed =>
      simp only [receiveStep, receiveLoop, Bool.false_eq_true, if_false]
      cases receiveTurn s buf [] (2 ^ 64 - 1) with
      | none => rfl
      | some p =>
        simp only [Option.bind_eq_bind, Option.bind_some, ih]
        cases receiveLoop p.1 trace <;> simp

/-! ## What a call may do, and what must hold

The first of these is what the system promises of `recv`, the others are what a
reader of the jobs relies on. -/

/-- **The outcomes `recv` can have in a run**: the buffers have their size, and
what is stored is between one byte and as many as were asked for. The condition
applies to the turns that are made, as the room asked for is known only
there. -/
structure Allowed (calls : ℕ → List Byte × Recv) (cy : BitVec 32) : Prop where
  /-- The buffer has room for a job. -/
  buffer : ∀ n, (calls n).1.length = 4 * jobSize
  /-- A `recv` returns at least one byte and no more than it was asked for. That
  it may also fail is what the results are about. -/
  data : ∀ n s chunk, runAfter calls cy n = some s → s.left = false →
    (calls n).2 = .data chunk → 1 ≤ chunk.length ∧ chunk.length
      ≤ 4 * jobSize - s.locals.cnt

/-- **The data received is intact**: no job is larger than its buffer, the words
pushed are words received, and the bytes carried are the ones left over. -/
structure ReceiverRun.Intact (s : ReceiverRun) : Prop where
  /-- No job is larger than its buffer. -/
  size : ∀ job ∈ s.pushed, job.cnt ≤ jobSize
  /-- The jobs are the beginning of the items received. -/
  words : s.pushed.flatMap Job.items <+: decodeItems s.received
  /-- What is carried over are the bytes that do not fill an item. -/
  carried : s.locals.cnt = s.received.length % 4
  /-- And they are the last ones received. -/
  bytes : (leBytes 4 s.locals.cy.toNat).take s.locals.cnt
    = s.received.drop (4 * (s.received.length / 4))

/-- **A run keeps the data intact**: it never leaves a buffer, the data is
intact after every turn, and calls that fail for good end the loop. -/
structure ReceiveIntact (calls : ℕ → List Byte × Recv)
    (cy : BitVec 32) : Prop where
  /-- The loop is intact after any number of turns. -/
  intact : ∀ n, ∃ s, runAfter calls cy n = some s ∧ s.Intact
  /-- And it is left when `recv` only fails. -/
  ends : (∃ N, ∀ n, N ≤ n → (calls n).2 = .failed) →
    ∃ n s, runAfter calls cy n = some s ∧ s.left = true

/-- No call fails while the loop runs. A failure behind the turn that leaves the
loop does not count, since there is no call. -/
def NoFailure (calls : ℕ → List Byte × Recv) (cy : BitVec 32) : Prop :=
  ∀ n s, runAfter calls cy n = some s → s.left = false → (calls n).2 ≠ .failed

/-! ## A turn that fails

The two cases differ in whether the sum of the carried bytes and the largest
`size_t` wraps. -/

/-- A turn that stores nothing, whatever `recv` returns: the carried word is
written to the buffer, and what the count says is carried is read from it. -/
theorem receiveTurn_nil_eq {s : Receiver} {buf : List Byte}
    (hbuf : buf.length = 4 * jobSize)
    (hcnt : s.cnt < 4) (n : ℕ) : ∃ buf' : List Byte, buf'.length = 4 * jobSize
      ∧ ∀ cnt, (s.cnt + n) % 2 ^ 64 = cnt → receiveTurn s buf [] n
        = (if cnt % 4 ≠ 0 then readWord buf' (cnt / 4) else some s.cy).map
            fun cy => (⟨cnt % 4, cy⟩, ⟨cnt / 4, buf'⟩) := by
  have hjob : 4 * jobSize = 262144 := by decide
  have hcy : (leBytes 4 s.cy.toNat).length = 4 := length_leBytes 4 _
  have hwrite := writeAt_carried hbuf s.cy
  have hlen : (leBytes 4 s.cy.toNat ++ buf.drop 4).length = 4 * jobSize := by
    rw [List.length_append, List.length_drop]
    omega
  refine ⟨_, hlen, fun cnt hcnt' => ?_⟩
  have hnone : writeAt (leBytes 4 s.cy.toNat ++ buf.drop 4) s.cnt []
      = some (leBytes 4 s.cy.toNat ++ buf.drop 4) := by
    unfold writeAt
    rw [if_pos (by rw [List.length_nil]; omega), List.append_nil,
      List.length_nil, Nat.add_zero,
      List.take_append_drop]
  unfold receiveTurn
  simp only [hwrite, hnone, hcnt', Option.bind_eq_bind, Option.bind_some]
  by_cases hz : cnt % 4 ≠ 0
  · rw [if_pos hz, if_pos hz]
    cases readWord (leBytes 4 s.cy.toNat ++ buf.drop 4) (cnt / 4) with
    | none => rfl
    | some cy => rfl
  · rw [if_neg hz, if_neg hz, Option.map_some]

/-- **With nothing carried over** the turn leaves its buffer: the count of items
is `2 ^ 62 - 1`, and the word behind them is read. -/
theorem receiveTurn_failed_zero {s : Receiver} {buf : List Byte}
    (hbuf : buf.length = 4 * jobSize) (hcnt : s.cnt = 0) :
    receiveTurn s buf [] (2 ^ 64 - 1) = none := by
  obtain ⟨buf', hlen, hturn⟩ := receiveTurn_nil_eq hbuf
    (show s.cnt < 4 by omega) (2 ^ 64 - 1)
  have hjob : 4 * jobSize = 262144 := by decide
  have hwrap : (s.cnt + (2 ^ 64 - 1)) % 2 ^ 64 = 2 ^ 64 - 1 := by omega
  have hmod : (2 ^ 64 - 1) % 4 ≠ 0 := by omega
  have hread : readWord buf' ((2 ^ 64 - 1) / 4) = none := by
    unfold readWord
    rw [if_neg (by omega)]
  rw [hturn _ hwrap, if_pos hmod, hread, Option.map_none]

/-- **With some bytes carried over** it loses the last of them. The job pushed
is empty, so the loss shows in a later one. -/
theorem receiveTurn_failed_carry {s : Receiver} {buf : List Byte}
    (hbuf : buf.length = 4 * jobSize) (hpos : 0 < s.cnt) (hcnt : s.cnt < 4) :
    ∃ s' job, receiveTurn s buf [] (2 ^ 64 - 1) = some (s', job)
      ∧ s'.cnt = s.cnt - 1
      ∧ job.cnt = 0 := by
  obtain ⟨buf', hlen, hturn⟩ := receiveTurn_nil_eq hbuf hcnt (2 ^ 64 - 1)
  have hjob : 4 * jobSize = 262144 := by decide
  have hwrap : (s.cnt + (2 ^ 64 - 1)) % 2 ^ 64 = s.cnt - 1 := by omega
  have hdiv : (s.cnt - 1) / 4 = 0 := by omega
  have hmod : (s.cnt - 1) % 4 = s.cnt - 1 := by omega
  have hread : readWord buf' 0 = some (BitVec.ofNat 32 (wordAt 4 buf' 0)) := by
    unfold readWord
    rw [if_pos (by omega)]
  rw [hturn _ hwrap, hdiv, hmod, hread]
  split
  · exact ⟨_, _, rfl, rfl, rfl⟩
  · exact ⟨_, _, rfl, rfl, rfl⟩

/-! ## Runs without a failure -/

/-- What holds between two turns while nothing fails: the words pushed are all
whole words received, and the bytes left over are carried. It is stronger than
intactness in that nothing is missing. -/
structure ReceiverRun.Whole (s : ReceiverRun) : Prop where
  size : ∀ job ∈ s.pushed, job.cnt ≤ jobSize
  /-- The jobs are all items received, none of which is held back. -/
  words : s.pushed.flatMap Job.items = decodeItems s.received
  carried : s.locals.cnt = s.received.length % 4
  bytes : (leBytes 4 s.locals.cy.toNat).take s.locals.cnt
    = s.received.drop (4 * (s.received.length / 4))

/-- Then the data is intact. -/
theorem ReceiverRun.Whole.intact {s : ReceiverRun} (h : s.Whole) : s.Intact :=
  ⟨h.size, h.words ▸ List.prefix_rfl, h.carried, h.bytes⟩

/-- **A turn that receives** keeps it, by the step lemma of the loop. -/
theorem ReceiverRun.Whole.data {s : ReceiverRun} (h : s.Whole)
    (hleft : s.left = false) {buf chunk : List Byte}
    (hbuf : buf.length = 4 * jobSize)
    (hreq : chunk.length ≤ 4 * jobSize - s.locals.cnt) :
    ∃ s', receiveStep s (buf, .data chunk) = some s' ∧ s'.Whole := by
  obtain ⟨a, r, hlen, hrec, hr, hrlen, hold⟩ := exists_whole_words s.received
  obtain ⟨locals, job, hturn, hitems, hsize, hbytes, hcnt⟩ :=
    receiveTurn_data hbuf
    (h.bytes.trans hr) (h.carried.trans hrlen.symm)
    (by rw [hrlen]; exact Nat.mod_lt _ (by decide)) hreq
  have hassoc : s.received ++ chunk = a ++ (r ++ chunk) := by
    rw [← List.append_assoc, ← hrec]
  refine ⟨⟨locals, s.pushed ++ [job], s.received ++ chunk, false⟩, ?_,
    ?_, ?_, ?_, ?_⟩
  · rw [receiveStep, hleft]
    simp only [Bool.false_eq_true, if_false, hturn,
      Option.bind_eq_bind, Option.bind_some]
  · intro j hj
    rcases List.mem_append.mp hj with hj | hj
    · exact h.size j hj
    · rw [List.mem_singleton.mp hj]
      exact hsize
  · -- the whole words received before, and those of this turn
    rw [List.flatMap_append, h.words, List.flatMap_singleton,
      hitems, hold, hassoc,
      decodeItems_append hlen]
  · show locals.cnt = (s.received ++ chunk).length % 4
    have hsum : (a ++ (r ++ chunk)).length = a.length + (r ++ chunk).length :=
      List.length_append
    rw [hcnt, hassoc, hsum]
    omega
  · show (leBytes 4 locals.cy.toNat).take locals.cnt
      = (s.received ++ chunk).drop (4 * ((s.received ++ chunk).length / 4))
    rw [hbytes, hassoc, drop_whole_words hlen]

/-- **Any turn that does not fail** keeps it, one that finds the stream closed
included. -/
theorem ReceiverRun.Whole.step {s : ReceiverRun} (h : s.Whole)
    {call : List Byte × Recv} (hbuf : call.1.length = 4 * jobSize)
    (hdata : s.left = false → ∀ chunk, call.2 = .data chunk →
      1 ≤ chunk.length ∧ chunk.length ≤ 4 * jobSize - s.locals.cnt)
    (hfail : s.left = false → call.2 ≠ .failed) :
    ∃ s', receiveStep s call = some s' ∧ s'.Whole := by
  obtain ⟨buf, outcome⟩ := call
  cases hleft : s.left with
  | true => exact ⟨s, if_pos hleft, h⟩
  | false =>
    cases outcome with
    | closed =>
      have hwrite : writeAt buf 0 (leBytes 4 s.locals.cy.toNat) = _ :=
        writeAt_carried hbuf s.locals.cy
      refine ⟨{ s with left := true }, ?_, h.size, h.words, h.carried, h.bytes⟩
      rw [receiveStep, hleft]
      simp only [Bool.false_eq_true, if_false, hwrite,
        Option.bind_eq_bind, Option.bind_some]
    | data chunk => exact h.data hleft hbuf (hdata hleft chunk rfl).2
    | failed => exact absurd rfl (hfail hleft)

/-- It holds before the first turn, when nothing has been received. -/
theorem ReceiverRun.Whole.start (cy : BitVec 32) :
    (ReceiverRun.start cy).Whole where
  size _ hjob := absurd hjob List.not_mem_nil
  words := by simp [ReceiverRun.start, decodeItems, LittleEndian.words]
  carried := rfl
  bytes := by simp [ReceiverRun.start]

/-- **A run in which nothing fails** stays inside its buffers and loses
nothing. -/
theorem runAfter_whole {calls : ℕ → List Byte × Recv} {cy : BitVec 32}
    (h : Allowed calls cy)
    (hfail : NoFailure calls cy) :
    ∀ n, ∃ s, runAfter calls cy n = some s ∧ s.Whole := by
  intro n
  induction n with
  | zero => exact ⟨.start cy, rfl, .start cy⟩
  | succ n ih =>
    obtain ⟨s, hrun, hs⟩ := ih
    obtain ⟨s', hstep, hs'⟩ := hs.step (h.buffer n)
      (fun hleft chunk hdata => h.data n s chunk hrun hleft hdata)
        (hfail n s hrun)
    refine ⟨s', ?_, hs'⟩
    rw [runAfter, hrun, Option.bind_eq_bind, Option.bind_some, hstep]

/-! ## Exactly these

For the converse one failing call is enough: there is no later turn that could
repair what it does. -/

/-- A call that fails while the loop runs leaves the buffer or breaks the
carry. -/
theorem not_intact_of_failed {calls : ℕ → List Byte × Recv} {cy : BitVec 32}
    (h : Allowed calls cy) {n : ℕ} {s : ReceiverRun}
    (hrun : runAfter calls cy n = some s) (hleft : s.left = false)
    (hfail : (calls n).2 = .failed) (hs : s.Intact) :
    ¬ ∃ s', runAfter calls cy (n + 1) = some s' ∧ s'.Intact := by
  rintro ⟨s', hrun', hs'⟩
  rw [runAfter, hrun, Option.bind_eq_bind, Option.bind_some, receiveStep,
    hleft, hfail] at hrun'
  simp only [Bool.false_eq_true, if_false] at hrun'
  have hlt : s.locals.cnt < 4 := by
    rw [hs.carried]
    exact Nat.mod_lt _ (by decide)
  rcases Nat.eq_zero_or_pos s.locals.cnt with hzero | hpos
  · rw [receiveTurn_failed_zero (h.buffer n) hzero] at hrun'
    cases hrun'
  · obtain ⟨locals, job, hturn, hcnt, -⟩ :=
      receiveTurn_failed_carry (h.buffer n) hpos hlt
    rw [hturn] at hrun'
    cases hrun'
    have hcarried : locals.cnt = s.received.length % 4 := hs'.carried
    rw [← hs.carried, hcnt] at hcarried
    omega

/-- **A failing `recv` leaves the data intact just when it does not happen**: in
every run of the loop, the data received is intact throughout exactly if no call
fails before the loop is left.

The runs are all sequences of outcomes, finite or infinite, and `Allowed` is
only what the call itself guarantees. -/
theorem receive_intact_iff {calls : ℕ → List Byte × Recv} {cy : BitVec 32}
    (h : Allowed calls cy) : ReceiveIntact calls cy ↔ NoFailure calls cy := by
  constructor
  · intro hintact n s hrun hleft hfail
    obtain ⟨s₁, hrun₁, hs₁⟩ := hintact.intact n
    rw [hrun] at hrun₁
    cases hrun₁
    exact not_intact_of_failed h hrun hleft hfail hs₁ (hintact.intact (n + 1))
  · intro hno
    refine ⟨fun n => ?_, fun ⟨N, hN⟩ => ?_⟩
    · obtain ⟨s, hrun, hs⟩ := runAfter_whole h hno n
      exact ⟨s, hrun, hs.intact⟩
    · obtain ⟨s, hrun, -⟩ := runAfter_whole h hno N
      refine ⟨N, s, hrun, ?_⟩
      by_contra hleft
      exact hno N s hrun (Bool.eq_false_iff.mpr hleft) (hN N (le_refl N))

/-- Five bytes are received, then the connection is closed. -/
theorem receive_intact_iff_instance :
    ReceiveIntact
        (fun n =>
          (staleBuffer, if n = 0 then .data [1#8, 2#8, 3#8, 4#8, 5#8]
            else .closed)) 7#32
      ↔ NoFailure
        (fun n =>
          (staleBuffer, if n = 0 then .data [1#8, 2#8, 3#8, 4#8, 5#8]
            else .closed)) 7#32 := by
  refine receive_intact_iff ⟨fun _ => List.length_replicate,
    fun n s chunk hrun _ hdata => ?_⟩
  cases n with
  | zero =>
    cases hrun
    cases hdata
    exact ⟨by decide, by decide⟩
  | succ n => cases hdata

/-- **A connection that fails at once**: every outcome is one the call can have,
and the first turn reads from outside its buffer. -/
theorem not_receiveIntact :
    Allowed (fun _ => (staleBuffer, .failed)) 7#32
      ∧ ¬ ReceiveIntact (fun _ => (staleBuffer, .failed)) 7#32 := by
  have hallowed : Allowed (fun _ => (staleBuffer, .failed)) 7#32 :=
    ⟨fun _ => List.length_replicate, fun _ _ _ _ _ hdata => by cases hdata⟩
  refine ⟨hallowed, fun h => ?_⟩
  exact not_intact_of_failed hallowed (n := 0) rfl rfl rfl
    (ReceiverRun.Whole.start 7#32).intact
    (h.intact 1)

end Skt
