import Skt.Lib.LittleEndian

/-!
# The receive loop of the sketch server

A receiver of `sketch_tcp_server` pops a job buffer, copies the carried word
into its start, receives behind the bytes carried over, pushes what now makes up
whole words and carries the rest into the next turn. Buffers are recycled: what
a popped buffer holds is arbitrary.

Every access to `job->buf` is checked against its size: the loop is undefined
where one would leave the buffer. The host is little-endian, so the word `cy`
occupies the first four bytes of the buffer least significant byte first.

A socket may hand out the stream in pieces of any size, `MSG_WAITALL`
notwithstanding. The invariant of the loop is that the bytes carried over are
those the stream has behind its last whole word so far. They are in the low
bytes of `cy`, and what the buffer held behind them is copied along with them
and never read.
-/

namespace Skt

open LittleEndian

/-- `JOB_SIZE`, the number of items in a buffer. -/
def jobSize : ℕ := 2 ^ 16

/-- `Job`: the number of items and the bytes of the buffer. The items are its
first bytes, and the rest of the buffer is of no meaning. -/
structure Job where
  /-- `cnt` -/
  cnt : ℕ
  /-- `buf` -/
  buf : List Byte

/-- The words of a byte string as 32-bit items. Bytes behind the last whole word
are dropped. -/
def decodeItems (bs : List Byte) : List (BitVec 32) :=
  (words 4 bs).map (BitVec.ofNat 32)

/-- `buf[0..cnt)`: the items a job stands for, as a slave reads them. -/
def Job.items (job : Job) : List (BitVec 32) :=
  (List.range job.cnt).map (fun i => BitVec.ofNat 32 (wordAt 4 job.buf i))

/-! ## Memory accesses

Both accesses fail outside of the buffer, where the language leaves open what
they do. -/

/-- Writing `bs` at offset `ofs` of a buffer, which has room for it. -/
def writeAt (buf : List Byte) (ofs : ℕ) (bs : List Byte) : Option (List Byte) :=
  if ofs + bs.length ≤ buf.length then
    some (buf.take ofs ++ bs ++ buf.drop (ofs + bs.length))
  else none

/-- Reading `buf[i]`, a word that lies in the buffer. -/
def readWord (buf : List Byte) (i : ℕ) : Option (BitVec 32) :=
  if 4 * i + 4 ≤ buf.length then some
    (BitVec.ofNat 32 (wordAt 4 buf i)) else none

/-! ## The loop -/

/-- What one call of `recv` does: it stores bytes and returns how many, or
returns `0`, or returns `-1`. -/
inductive Recv where
  /-- Some bytes have been received. -/
  | data (chunk : List Byte)
  /-- The other side has closed the connection: `recv` returns zero. -/
  | closed
  /-- `recv` returns minus one. -/
  | failed

/-- The locals of the receiver that live across turns. The word is not
initialised in the source, so its first value is arbitrary. -/
structure Receiver where
  /-- `cnt`: the bytes carried over -/
  cnt : ℕ
  /-- `cy`: the word they are carried in -/
  cy : BitVec 32

/-- A turn that does not leave the loop, on the popped buffer: `recv` stores
`chunk` and returns `n`, read as a `size_t`.

The word `cy` is read from the buffer at the end only when bytes are left over,
as in the source. Otherwise the last word read would be behind the items, and
possibly behind the buffer. -/
def receiveTurn (s : Receiver) (buf chunk : List Byte) (n : ℕ) :
    Option (Receiver × Job) := do
  let buf ← writeAt buf 0 (leBytes 4 s.cy.toNat)
  let buf ← writeAt buf s.cnt chunk
  let cnt := (s.cnt + n) % 2 ^ 64
  let items := cnt / 4
  let cnt := cnt % 4
  let cy ← if cnt ≠ 0 then readWord buf items else some s.cy
  some (⟨cnt, cy⟩, ⟨items, buf⟩)

/-- **The receive loop** over the buffers popped and the outcomes of `recv`, up
to the final state and the jobs pushed.

The carried word is written into the buffer of the last turn, too, before the
call that finds the stream closed. -/
def receiveLoop : Receiver → List (List Byte × Recv) → Option
    (Receiver × List Job)
  | s, [] => some (s, [])
  | s, (buf, .closed) :: _ => do
    let _ ← writeAt buf 0 (leBytes 4 s.cy.toNat)
    some (s, [])
  | s, (buf, .data chunk) :: rest => do
    let (s, job) ← receiveTurn s buf chunk chunk.length
    let (s, jobs) ← receiveLoop s rest
    some (s, job :: jobs)
  | s, (buf, .failed) :: rest => do
    -- `-1` as a `size_t`
    let (s, job) ← receiveTurn s buf [] (2 ^ 64 - 1)
    let (s, jobs) ← receiveLoop s rest
    some (s, job :: jobs)

/-- **A chopping of a byte stream**, from a turn that carries `cnt` bytes: each
call stores between one byte and as many as were asked for, and the last call
returns `0`.

The room asked for depends on the bytes carried, which in turn depend on the
calls before, so the relation follows the number carried along. -/
inductive Chopped : ℕ → List (List Byte × Recv) → List Byte → Prop where
  | closed {cnt : ℕ} {buf : List Byte} (hbuf : buf.length = 4 * jobSize) :
      Chopped cnt [(buf, .closed)] []
  | data {cnt : ℕ} {buf chunk bytes : List Byte}
    {rest : List (List Byte × Recv)}
      (hbuf : buf.length = 4 * jobSize) (hpos : 1 ≤ chunk.length)
      (hreq : chunk.length ≤ 4 * jobSize - cnt)
      (hrest : Chopped ((cnt + chunk.length) % 4) rest bytes) :
      Chopped cnt ((buf, .data chunk) :: rest) (chunk ++ bytes)

/-! ## One turn

The buffer is described as some bytes of the stream followed by stale ones. -/

/-- The carried word fits into every buffer. -/
theorem writeAt_carried {buf : List Byte} (hbuf : buf.length = 4 * jobSize)
    (cy : BitVec 32) :
    writeAt buf 0 (leBytes 4 cy.toNat)
      = some (leBytes 4 cy.toNat ++ buf.drop 4) := by
  have hjob : 4 * jobSize = 262144 := by decide
  have hcy : (leBytes 4 cy.toNat).length = 4 := length_leBytes 4 _
  unfold writeAt
  rw [if_pos (by omega), hcy]
  rfl

/-- Decoding a job's items only looks at its whole words, and none of the stale
bytes belongs to one. -/
theorem items_eq_decodeItems {cnt : ℕ} {bs stale : List Byte}
    (hcnt : cnt = bs.length / 4) :
    (Job.mk cnt (bs ++ stale)).items = decodeItems bs := by
  unfold Job.items decodeItems words
  rw [List.map_map, hcnt]
  refine List.map_congr_left (fun i hi => ?_)
  have h := mul_add_le_of_lt_div (List.mem_range.mp hi)
  exact congrArg (BitVec.ofNat 32) (wordAt_append_left h)

/-- A word read past `bs` starts with what is left of `bs` there. So the bytes
to be carried are the low ones of the word that is read. -/
theorem take_leBytes_wordAt {bs stale : List Byte} {i : ℕ}
    (hi : 4 * i ≤ bs.length) (hlt : bs.length < 4 * i + 4)
    (hlen : 4 * i + 4 ≤ (bs ++ stale).length) :
    (leBytes 4 (BitVec.ofNat 32 (wordAt 4 (bs ++ stale) i)).toNat).take
      (bs.length - 4 * i)
      = bs.drop (4 * i) := by
  set w := ((bs ++ stale).drop (4 * i)).take 4 with hw
  have hwlen : w.length = 4 := by
    rw [hw, List.length_take, List.length_drop]
    omega
  have hval : (BitVec.ofNat 32 (wordAt 4 (bs ++ stale) i)).toNat = leNat w := by
    have h := leNat_lt w
    rw [hwlen] at h
    rw [BitVec.toNat_ofNat]
    exact Nat.mod_eq_of_lt h
  have hback : leBytes 4 (leNat w) = w := by
    have := leBytes_leNat w
    rwa [hwlen] at this
  rw [hval, hback, hw, List.take_take, min_eq_left (by omega),
    List.drop_append_of_le_length hi,
      List.take_append_of_le_length (by rw [List.length_drop])]
  rw [List.take_of_length_le (by rw [List.length_drop])]

/-- **One turn that receives.** With the bytes `r` carried over, the buffer
starts with `r` and the chunk; the job pushed has their whole words, and the
rest is what is carried on. This is the step lemma of the loop. -/
theorem receiveTurn_data {s : Receiver} {buf chunk r : List Byte}
    (hbuf : buf.length = 4 * jobSize)
    (hr : (leBytes 4 s.cy.toNat).take s.cnt = r) (hcnt : s.cnt = r.length)
    (hr4 : r.length < 4) (hreq : chunk.length ≤ 4 * jobSize - s.cnt) :
    ∃ s' job, receiveTurn s buf chunk chunk.length = some (s', job)
      ∧ job.items = decodeItems (r ++ chunk)
      ∧ job.cnt ≤ jobSize
      ∧ (leBytes 4 s'.cy.toNat).take s'.cnt = (r ++ chunk).drop
        (4 * ((r ++ chunk).length / 4))
      ∧ s'.cnt = (r ++ chunk).length % 4 := by
  have hjob : 4 * jobSize = 262144 := by decide
  have hlen : (r ++ chunk).length = s.cnt + chunk.length := by
    rw [List.length_append, hcnt]
  -- the carried word, then the chunk on top of it from offset `cnt` on
  have hcy : (leBytes 4 s.cy.toNat).length = 4 := length_leBytes 4 _
  have hw1 := writeAt_carried hbuf s.cy
  set buf₁ := leBytes 4 s.cy.toNat ++ buf.drop 4 with hbuf₁
  have hlen₁ : buf₁.length = 4 * jobSize := by
    rw [hbuf₁, List.length_append, hcy, List.length_drop]
    omega
  set stale := buf₁.drop (s.cnt + chunk.length) with hstale
  have hw2 : writeAt buf₁ s.cnt chunk = some (r ++ chunk ++ stale) := by
    unfold writeAt
    rw [if_pos (by omega), hbuf₁, List.take_append_of_le_length (by omega), hr]
  have htotal : (r ++ chunk ++ stale).length = 4 * jobSize := by
    rw [List.length_append, hlen, hstale, List.length_drop]
    omega
  have hmod : (s.cnt + chunk.length) % 2 ^ 64 = (r ++ chunk).length := by
    rw [hlen]
    exact Nat.mod_eq_of_lt (by omega)
  have hitems : (r ++ chunk).length / 4 ≤ jobSize := by
    rw [hlen]
    omega
  unfold receiveTurn
  simp only [hw1, hw2, hmod, Option.bind_eq_bind, Option.bind_some]
  by_cases hz : (r ++ chunk).length % 4 = 0
  · rw [if_neg (not_not.mpr hz)]
    refine ⟨_, _, rfl, items_eq_decodeItems rfl, hitems, ?_, rfl⟩
    rw [hz, List.take_zero, List.drop_eq_nil_of_le (by omega)]
  · have hread : readWord (r ++ chunk ++ stale) ((r ++ chunk).length / 4)
        = some (BitVec.ofNat 32
          (wordAt 4 (r ++ chunk ++ stale) ((r ++ chunk).length / 4))) := by
      unfold readWord
      rw [if_pos (by omega)]
    rw [if_pos hz, hread]
    refine ⟨_, _, rfl, items_eq_decodeItems rfl, hitems, ?_, rfl⟩
    have h : (leBytes 4 (BitVec.ofNat 32
          (wordAt 4 (r ++ chunk ++ stale)
            ((r ++ chunk).length / 4))).toNat).take
            ((r ++ chunk).length - 4 * ((r ++ chunk).length / 4))
        = (r ++ chunk).drop (4 * ((r ++ chunk).length / 4)) :=
      take_leBytes_wordAt (by omega) (by omega) (by omega)
    rwa [show (r ++ chunk).length - 4 * ((r ++ chunk).length / 4)
      = (r ++ chunk).length % 4 by omega] at h

/-! ## The whole loop -/

/-- Decoding in two steps, the first of whole words. -/
theorem decodeItems_append {a b : List Byte} (ha : 4 ∣ a.length) :
    decodeItems (a ++ b) = decodeItems a ++ decodeItems b := by
  unfold decodeItems
  rw [words_append (by decide) ha, List.map_append]

/-- Decoding does not look past the last whole word. -/
theorem decodeItems_take (bs : List Byte) :
    decodeItems (bs.take (4 * (bs.length / 4))) = decodeItems bs := by
  unfold decodeItems
  rw [words_take_whole (by decide) (by omega) (by omega)]

/-- Whole words in front do not change what is left over. -/
theorem drop_whole_words {a b : List Byte} (ha : 4 ∣ a.length) :
    (a ++ b).drop (4 * ((a ++ b).length / 4))
      = b.drop (4 * (b.length / 4)) := by
  have hlen : 4 * ((a ++ b).length / 4) = a.length + 4 * (b.length / 4) := by
    rw [List.length_append]
    omega
  rw [hlen, List.drop_length_add_append]

/-- **A byte string is its whole words and what is left over**, and only the
words are decoded. A turn splits what it has in this way. -/
theorem exists_whole_words (bs : List Byte) : ∃ a r :
    List Byte, 4 ∣ a.length ∧ bs = a ++ r
    ∧ bs.drop (4 * (bs.length / 4)) = r ∧ r.length = bs.length % 4
    ∧ decodeItems bs = decodeItems a := by
  refine ⟨bs.take (4 * (bs.length / 4)), _, ?_,
    (List.take_append_drop _ bs).symm, rfl, ?_,
    (decodeItems_take bs).symm⟩
  · rw [List.length_take, min_eq_left (by omega)]
    exact Dvd.intro _ rfl
  · rw [List.length_drop]
    omega

/-- **The loop from any turn on**: with the bytes `r` carried over, the jobs
pushed decode `r` followed by what is still received. The induction is on the
chopping. -/
theorem receiveLoop_from {cnt : ℕ} {trace : List (List Byte × Recv)}
    {bytes : List Byte} (h : Chopped cnt trace bytes) {s : Receiver}
    {r : List Byte} (hs : s.cnt = cnt)
    (hr : (leBytes 4 s.cy.toNat).take s.cnt = r) (hcnt : s.cnt = r.length)
    (hr4 : r.length < 4) :
    ∃ s' jobs, receiveLoop s trace = some (s', jobs)
      ∧ jobs.flatMap Job.items = decodeItems (r ++ bytes)
      ∧ (∀ job ∈ jobs, job.cnt ≤ jobSize)
      ∧ s'.cnt = (r ++ bytes).length % 4 := by
  induction h generalizing s r with
  | @closed cnt buf hbuf =>
    refine ⟨s, [], ?_, ?_, by simp, ?_⟩
    · rw [receiveLoop, writeAt_carried hbuf]
      rfl
    · rw [List.append_nil, ← decodeItems_take,
        Nat.div_eq_of_lt hr4, Nat.mul_zero,
        List.take_zero]
      rfl
    · rw [List.append_nil, Nat.mod_eq_of_lt hr4, hcnt]
  | @data cnt buf chunk bytes rest hbuf hpos hreq hrest ih =>
    subst hs
    obtain ⟨s₁, job, hturn, hitems, hsize, hr₁, hcnt₁⟩ :=
      receiveTurn_data hbuf hr hcnt hr4 hreq
    have hlen : (r ++ chunk).length = s.cnt + chunk.length := by
      rw [List.length_append, hcnt]
    -- the whole words of this turn, then the rest with what follows
    obtain ⟨a, r₁, ha, hsplit, hrest₁, hrlen, hdec₁⟩ :=
      exists_whole_words (r ++ chunk)
    have hassoc : r ++ (chunk ++ bytes) = a ++ (r₁ ++ bytes) := by
      rw [← List.append_assoc, hsplit, List.append_assoc]
    obtain ⟨s', jobs, hloop, hdec, hall, hfin⟩ :=
      ih (s := s₁) (r := r₁) (by rw [hcnt₁, hlen])
      (hr₁.trans hrest₁) (hcnt₁.trans hrlen.symm)
      (by rw [hrlen]; exact Nat.mod_lt _ (by decide))
    refine ⟨s', job :: jobs, ?_, ?_, ?_, ?_⟩
    · rw [receiveLoop, hturn]
      simp only [Option.bind_eq_bind, Option.bind_some]
      rw [hloop]
      rfl
    · rw [List.flatMap_cons, hitems, hdec, hdec₁, hassoc, decodeItems_append ha]
    · intro j hj
      rcases List.mem_cons.mp hj with rfl | hj
      · exact hsize
      · exact hall j hj
    · have hsum : (a ++ (r₁ ++ bytes)).length = a.length
        + (r₁ ++ bytes).length :=
        List.length_append
      rw [hfin, hassoc, hsum]
      omega

/-- **Byte-stream reassembly.** For every byte stream, every chopping of it,
every content of the recycled buffers and every initial carry word, the loop
stays inside its buffers, the jobs pushed decode the whole words of the stream,
none of them is larger than `JOB_SIZE`, and the loop ends with the odd bytes
counted. Any two choppings decode the same.

A failed call is not a chopping. What it does is the subject of
`Skt.Software.ReceiveRuns`. -/
theorem receiveLoop_reassembles {stream : List Byte}
    {trace : List (List Byte × Recv)} (h : Chopped 0 trace stream)
    (cy : BitVec 32) :
    (∃ s jobs, receiveLoop ⟨0, cy⟩ trace = some (s, jobs)
      ∧ jobs.flatMap Job.items
        = (List.range (stream.length / 4)).map
          (fun i => BitVec.ofNat 32 (wordAt 4 stream i))
      ∧ (∀ job ∈ jobs, job.cnt ≤ jobSize)
      ∧ s.cnt = stream.length % 4)
    ∧ ∀ trace' cy', Chopped 0 trace' stream →
        (receiveLoop ⟨0, cy'⟩ trace').map (fun p => p.2.flatMap Job.items)
          = (receiveLoop ⟨0, cy⟩ trace).map
            (fun p => p.2.flatMap Job.items) := by
  have hrun : ∀ {trace} (cy : BitVec 32), Chopped 0 trace stream →
      ∃ s jobs, receiveLoop ⟨0, cy⟩ trace = some (s, jobs)
        ∧ jobs.flatMap Job.items = decodeItems stream
        ∧ (∀ job ∈ jobs, job.cnt ≤ jobSize) ∧ s.cnt = stream.length % 4 := by
    intro trace cy h
    exact receiveLoop_from h (r := []) rfl rfl rfl (by decide)
  obtain ⟨s, jobs, hloop, hdec, hsize, hcnt⟩ := hrun cy h
  refine ⟨⟨s, jobs, hloop, ?_, hsize, hcnt⟩, fun trace' cy' h' => ?_⟩
  · rw [hdec, decodeItems, words, List.map_map]
    rfl
  · obtain ⟨s', jobs', hloop', hdec', -, -⟩ := hrun cy' h'
    rw [hloop, hloop', Option.map_some, Option.map_some, hdec, hdec']

/-- A recycled buffer whose bytes are all `0xFF`. -/
def staleBuffer : List Byte := List.replicate (4 * jobSize) 0xFF#8

/-- Five bytes received as three and two: one whole word and one odd byte. -/
theorem receiveLoop_reassembles_instance :
    (∃ s jobs, receiveLoop ⟨0, 7#32⟩ [(staleBuffer, .data [1#8, 2#8, 3#8]),
          (staleBuffer, .data [4#8, 5#8]), (staleBuffer, .closed)]
            = some (s, jobs)
      ∧ jobs.flatMap Job.items = (List.range (5 / 4)).map
          (fun i => BitVec.ofNat 32 (wordAt 4 [1#8, 2#8, 3#8, 4#8, 5#8] i))
      ∧ (∀ job ∈ jobs, job.cnt ≤ jobSize)
      ∧ s.cnt = 5 % 4)
    ∧ ∀ trace' cy', Chopped 0 trace' [1#8, 2#8, 3#8, 4#8, 5#8] →
        (receiveLoop ⟨0, cy'⟩ trace').map (fun p => p.2.flatMap Job.items)
          = (receiveLoop ⟨0, 7#32⟩ [(staleBuffer, .data [1#8, 2#8, 3#8]),
              (staleBuffer, .data [4#8, 5#8]), (staleBuffer, .closed)]).map
            (fun p => p.2.flatMap Job.items) :=
  have hbuf : staleBuffer.length = 4 * jobSize := List.length_replicate
  have h : Chopped 0 [(staleBuffer, .data [1#8, 2#8, 3#8]),
    (staleBuffer, .data [4#8, 5#8]),
      (staleBuffer, .closed)] ([1#8, 2#8, 3#8] ++ ([4#8, 5#8] ++ [])) :=
    .data hbuf (by decide) (by decide)
      (.data hbuf (by decide) (by decide) (.closed hbuf))
  receiveLoop_reassembles h 7#32

end Skt
