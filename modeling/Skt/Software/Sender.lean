import Skt.Lib.LittleEndian
import Skt.Lib.Runs

/-!
# The sending loops of the clients

Both TCP clients push a buffer through `write`, which takes as many bytes as it
likes, or fails and takes none. The loops keep an unsigned offset and add the
signed result to it.

The file client returns when the result is negative. The other client only
reports it and adds it like any other: the offset goes back by one byte, which
is sent twice, or from zero to the largest `size_t`, which ends the repetition
with nothing sent.

As long as no `write` fails the offset is the number of bytes taken, and what is
taken is the buffer over and over. The receiver at the other end can then rely
on the stream it decodes.
-/

namespace Skt

open LittleEndian Runs

/-- A buffer in memory: its length is a `size_t`, so an offset into it is one,
too. -/
structure SendBuffer where
  bytes : List Byte
  /-- A buffer in memory has a length that fits `size_t`. -/
  length_lt : bytes.length < 2 ^ 64

/-- What one call of `write` does: it takes some bytes and returns how many, or
takes none and returns `-1`. -/
inductive Write where
  | sent (n : ℕ)
  | failed

/-! ## The two loops

A run is a sequence of writes with their outcomes, and the tests of the loops
are made in front of each. -/

/-- The locals of `call_from_thread`, and what has become of its writes. The
last two fields are what can be seen from outside. -/
structure Client where
  /-- The repetitions to go, the current one included. -/
  rounds : ℕ
  /-- `cnt` -/
  cnt : ℕ
  /-- The bytes the socket has taken. -/
  accepted : List Byte
  /-- Whether `Write error.` has been printed. -/
  reported : Bool

/-- The loop tests before a write: the inner loop is left where it is done, and
the next repetition begun. No write follows when there is none. -/
def Client.test (len : ℕ) : ℕ → ℕ → Option (ℕ × ℕ)
  | 0, _ => none
  | rounds + 1, cnt => if cnt < len then some (rounds + 1, cnt)
    else test len rounds 0

/-- `call_from_thread` before its first write, with all repetitions to go. -/
def Client.start (repetitions : ℕ) : Client := ⟨repetitions, 0, [], false⟩

/-- **One write of `call_from_thread`**, of between one byte and as many as were
asked for, or failed. The offset is a `size_t`, to which the result is added
modulo `2 ^ 64` in either case. -/
def Client.write (buf : SendBuffer) (s : Client) (w : Write) : Option Client :=
  let len := buf.bytes.length
  match Client.test len s.rounds s.cnt with
  | none => none
  | some (rounds, cnt) =>
    match w with
    | .sent n =>
      if 1 ≤ n ∧ n ≤ len - cnt then
        some ⟨rounds, (cnt + n) % 2 ^ 64,
          s.accepted ++ (buf.bytes.drop cnt).take n, s.reported⟩
      else none
    -- `-1` as a `size_t`
    | .failed => some ⟨rounds, (cnt + (2 ^ 64 - 1)) % 2 ^ 64, s.accepted, true⟩

/-- The locals of a worker of the file client, which sends its buffer once. -/
structure FileSender where
  /-- `ocnt` -/
  ocnt : ℕ
  /-- The bytes the socket has taken. -/
  accepted : List Byte
  /-- Whether it has returned after `Write error.` -/
  returned : Bool

/-- The worker before its first write. -/
def FileSender.start : FileSender := ⟨0, [], false⟩

/-- **One write of the file client.** A failed one makes the worker return
without sending the rest. -/
def FileSender.write (buf : SendBuffer) (s : FileSender) (w : Write) :
    Option FileSender :=
  let olen := buf.bytes.length
  if s.returned = false ∧ s.ocnt < olen then
    match w with
    | .sent n =>
      if 1 ≤ n ∧ n ≤ olen - s.ocnt then
        some ⟨(s.ocnt + n) % 2 ^ 64,
          s.accepted ++ (buf.bytes.drop s.ocnt).take n, false⟩
      else none
    | .failed => some ⟨s.ocnt, s.accepted, true⟩
  else none

/-! ## What the receiver may rely on

The receiver cannot see where a write ended. What it can rely on is that it gets
a beginning of the right bytes, and all of them if nobody complained. -/

/-- **The stream is intact**: of `total` the socket has taken a prefix, the
offset is inside the buffer, and all is taken when the loop is done and no error
was reported. -/
structure StreamIntact (total : List Byte) (len offset : ℕ)
    (accepted : List Byte)
    (done reported : Prop) : Prop where
  /-- What was accepted is the beginning of what is to be sent. -/
  sent : accepted <+: total
  /-- The offset never points behind the end of it. -/
  offset_le : offset ≤ len
  /-- A loop that has ended without reporting an error has sent everything. -/
  whole : done → ¬ reported → accepted = total

/-- The stream of `call_from_thread`: the buffer once for every repetition. -/
def Client.Intact (buf : SendBuffer) (repetitions : ℕ) (s : Client) : Prop :=
  StreamIntact (List.replicate repetitions buf.bytes).flatten
    buf.bytes.length s.cnt s.accepted
    (Client.test buf.bytes.length s.rounds s.cnt = none) (s.reported = true)

/-- The stream of the file client: the buffer. It is done when the offset has
reached the length of the buffer. -/
def FileSender.Intact (buf : SendBuffer) (s : FileSender) : Prop :=
  StreamIntact buf.bytes buf.bytes.length s.ocnt s.accepted
    (¬ s.ocnt < buf.bytes.length)
    (s.returned = true)

/-! ## The file client

The invariant is an equation between what was taken and the offset. -/

/-- A write of a part of what is left takes the next bytes. -/
theorem take_append_drop_take {bytes : List Byte} {k n : ℕ} :
    bytes.take k ++ (bytes.drop k).take n
      = bytes.take (k + n) := List.take_add.symm

/-- **In every run** the file client has sent the bytes below its offset. A
failed write changes neither. -/
theorem FileSender.accepted_eq {buf : SendBuffer} {s : FileSender}
    (hs : Reachable (FileSender.write buf) FileSender.start s) :
    s.accepted = buf.bytes.take s.ocnt ∧ s.ocnt ≤ buf.bytes.length := by
  refine hs.invariant (I := fun s : FileSender =>
    s.accepted = buf.bytes.take s.ocnt
    ∧ s.ocnt ≤ buf.bytes.length) ⟨rfl, Nat.zero_le _⟩ fun s w s' hi h => ?_
  obtain ⟨hacc, hle⟩ := hi
  unfold FileSender.write at h
  cases w with
  | failed =>
    simp only [Option.ite_none_right_eq_some, Option.some.injEq] at h
    obtain ⟨-, rfl⟩ := h
    exact ⟨hacc, hle⟩
  | sent n =>
    simp only [Option.ite_none_right_eq_some, Option.some.injEq] at h
    obtain ⟨-, ⟨hpos, hn⟩, rfl⟩ := h
    have hlen := buf.length_lt
    have hcnt : (s.ocnt + n) % 2 ^ 64 = s.ocnt + n :=
      Nat.mod_eq_of_lt (by omega)
    refine ⟨?_, ?_⟩
    · show s.accepted ++ _ = buf.bytes.take ((s.ocnt + n) % 2 ^ 64)
      rw [hcnt, hacc, take_append_drop_take]
    · show (s.ocnt + n) % 2 ^ 64 ≤ _
      omega

/-- **The file client never corrupts the stream**, whatever fails and when. -/
theorem FileSender.intact {buf : SendBuffer} {s : FileSender}
    (hs : Reachable (FileSender.write buf) FileSender.start s) :
    s.Intact buf := by
  obtain ⟨hacc, hle⟩ := FileSender.accepted_eq hs
  refine ⟨?_, hle, fun hdone _ => ?_⟩
  · rw [hacc]
    exact List.take_prefix _ _
  · rw [hacc, List.take_of_length_le (by omega)]

/-! ## The other client

Here the invariant is about what is still to be sent, as the offset starts anew
with every repetition. -/

/-- What is still to be sent: the rest of the buffer and the repetitions behind
it. -/
def Client.rest (bytes : List Byte) : ℕ → ℕ → List Byte
  | 0, _ => []
  | rounds + 1, cnt => bytes.drop cnt ++ (List.replicate rounds bytes).flatten

/-- The loop tests skip nothing that is still to be sent. -/
theorem Client.rest_of_test {bytes : List Byte} {rounds cnt rounds' cnt' : ℕ}
    (h : Client.test bytes.length rounds cnt = some (rounds', cnt')) :
    Client.rest bytes rounds cnt = Client.rest bytes rounds' cnt'
      ∧ cnt' < bytes.length
      ∧ 0 < rounds' := by
  induction rounds generalizing cnt with
  | zero => cases h
  | succ rounds ih =>
    unfold Client.test at h
    split at h
    · next hlt =>
      cases h
      exact ⟨rfl, hlt, Nat.succ_pos rounds⟩
    · next hge =>
      obtain ⟨hrest, hlt, hpos⟩ := ih h
      refine ⟨?_, hlt, hpos⟩
      rw [← hrest, Client.rest, List.drop_eq_nil_of_le (by omega),
        List.nil_append]
      cases rounds with
      | zero => rfl
      | succ rounds =>
        rw [Client.rest, List.drop_zero, List.replicate_succ, List.flatten_cons]

/-- When the loops are done, nothing is. -/
theorem Client.rest_of_done {bytes : List Byte} {rounds cnt : ℕ}
    (h : Client.test bytes.length rounds cnt = none) :
    Client.rest bytes rounds cnt = [] := by
  induction rounds generalizing cnt with
  | zero => rfl
  | succ rounds ih =>
    unfold Client.test at h
    split at h
    · cases h
    · next hge =>
      rw [Client.rest, List.drop_eq_nil_of_le (by omega), List.nil_append]
      cases rounds with
      | zero => rfl
      | succ rounds =>
        have hrest := ih h
        rwa [Client.rest, List.drop_zero] at hrest

/-- **In every run without a failed write** what was taken and what is still to
be sent make up the whole stream. -/
theorem Client.accepted_append_rest {buf : SendBuffer}
    {repetitions : ℕ} {s : Client}
    (hs : Reachable (fun s n => Client.write buf s (.sent n))
      (Client.start repetitions) s) :
    s.accepted ++ Client.rest buf.bytes s.rounds s.cnt
        = (List.replicate repetitions buf.bytes).flatten
      ∧ s.cnt ≤ buf.bytes.length := by
  refine hs.invariant (I := fun s : Client =>
    s.accepted ++ Client.rest buf.bytes s.rounds s.cnt
      = (List.replicate repetitions buf.bytes).flatten
        ∧ s.cnt ≤ buf.bytes.length)
    ⟨?_, Nat.zero_le _⟩ fun s n s' hi h => ?_
  · cases repetitions with
    | zero => rfl
    | succ k => rfl
  · obtain ⟨htotal, -⟩ := hi
    simp only [Client.write] at h
    split at h
    · cases h
    · next rounds cnt htest =>
      simp only [Option.ite_none_right_eq_some, Option.some.injEq] at h
      obtain ⟨⟨hpos, hn⟩, rfl⟩ := h
      obtain ⟨hrest, hlt, hrounds⟩ := Client.rest_of_test htest
      have hlen := buf.length_lt
      have hcnt : (cnt + n) % 2 ^ 64 = cnt + n := Nat.mod_eq_of_lt (by omega)
      refine ⟨?_, ?_⟩
      · obtain ⟨k, rfl⟩ : ∃ k, rounds = k + 1 := ⟨rounds - 1, by omega⟩
        show (s.accepted ++ (buf.bytes.drop cnt).take n)
          ++ Client.rest buf.bytes (k + 1) ((cnt + n) % 2 ^ 64) = _
        rw [hcnt, ← htotal, hrest, Client.rest, Client.rest, List.append_assoc,
          ← List.append_assoc ((buf.bytes.drop cnt).take n), ← List.drop_drop,
          List.take_append_drop]
      · show (cnt + n) % 2 ^ 64 ≤ _
        omega

/-- **Without a failed write** the client does not corrupt the stream either. -/
theorem Client.intact {buf : SendBuffer} {repetitions : ℕ} {s : Client}
    (hs : Reachable (fun s n => Client.write buf s (.sent n))
      (Client.start repetitions) s) :
    s.Intact buf repetitions := by
  obtain ⟨htotal, hle⟩ := Client.accepted_append_rest hs
  refine ⟨⟨_, htotal⟩, hle, fun hdone _ => ?_⟩
  rw [← htotal, Client.rest_of_done hdone, List.append_nil]

/-- **A failed write is counted**: the offset goes back by one byte, or from
zero to the largest `size_t`. The error is reported and nothing else is done
about it. -/
theorem Client.write_failed {buf : SendBuffer} {s : Client} {rounds cnt : ℕ}
    (htest : Client.test buf.bytes.length s.rounds s.cnt = some (rounds, cnt)) :
    s.write buf .failed
      = some ⟨rounds, if cnt = 0 then 2 ^ 64 - 1 else cnt - 1,
        s.accepted, true⟩ := by
  have hlt := (Client.rest_of_test htest).2.1
  have hlen := buf.length_lt
  have hcnt : (cnt + (2 ^ 64 - 1)) % 2 ^ 64 = if cnt
    = 0 then 2 ^ 64 - 1 else cnt - 1 := by
    split
    · next h =>
      rw [h]
      rfl
    · next h =>
      rw [show cnt + (2 ^ 64 - 1) = cnt - 1 + 2 ^ 64 by
        omega, Nat.add_mod_right]
      exact Nat.mod_eq_of_lt (by omega)
  unfold Client.write
  simp only [htest, hcnt]

/-! ## Both -/

/-- **The sending loops never corrupt the stream**: that of the file client in
every run, that of the other client in every run in which no `write` fails.

The condition is on the run, and it is the same for every number of repetitions.
What a failed write does to the stream is shown below. -/
theorem sending_intact (buf : SendBuffer) :
    (∀ s, Reachable (FileSender.write buf) FileSender.start s → s.Intact buf)
      ∧ ∀ repetitions s,
        Reachable (fun s n => Client.write buf s (.sent n))
        (Client.start repetitions) s →
          s.Intact buf repetitions :=
  ⟨fun _ hs => FileSender.intact hs, fun _ _ hs => Client.intact hs⟩

/-- Four bytes, to be sent once. -/
def fourBytes : SendBuffer := ⟨[1#8, 2#8, 3#8, 4#8], by decide⟩

/-- Two writes of the file client, the second of which fails. -/
theorem sending_intact_instance :
    FileSender.Intact fourBytes ⟨1, [1#8], true⟩
      ∧ Client.Intact fourBytes 1 ⟨1, 1, [1#8], false⟩ := by
  refine ⟨(sending_intact fourBytes).1 _ ?_,
    (sending_intact fourBytes).2 1 _ ?_⟩
  · exact .next (a := .failed) (.next (a := .sent 1) .init rfl) rfl
  · exact .next (a := 1) .init rfl

/-- **A failed write corrupts the stream**: after one byte it makes the client
send that byte again, and at once it puts the offset beyond the buffer. -/
theorem not_client_intact :
    (Reachable (Client.write fourBytes) (Client.start 1)
      ⟨1, 1, [1#8, 1#8], true⟩
        ∧ ¬ Client.Intact fourBytes 1 ⟨1, 1, [1#8, 1#8], true⟩)
      ∧ (Reachable (Client.write fourBytes) (Client.start 1)
        ⟨1, 2 ^ 64 - 1, [], true⟩
        ∧ ¬ Client.Intact fourBytes 1 ⟨1, 2 ^ 64 - 1, [], true⟩) := by
  refine ⟨⟨?_, fun h => absurd h.sent (by decide)⟩, ⟨?_, fun h => ?_⟩⟩
  · have h₁ : Reachable (Client.write fourBytes) (Client.start 1)
      ⟨1, 1, [1#8], false⟩ :=
      .next (a := .sent 1) .init rfl
    have h₂ : Reachable (Client.write fourBytes) (Client.start 1)
      ⟨1, 0, [1#8], true⟩ :=
      .next (a := .failed) h₁ rfl
    exact .next (a := .sent 1) h₂ rfl
  · exact .next (a := .failed) .init rfl
  · have hle : (2 ^ 64 - 1 : ℕ) ≤ 4 := StreamIntact.offset_le h
    omega

end Skt
