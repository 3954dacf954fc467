import Skt.Software.SketchServer
import Skt.Software.Sender
import Skt.Software.TextFiles

/-!
# From the clients to the sketch

What `sketch_tcp_server` ends with, for what its clients send. Every connection
carries a byte stream, which the network cuts up as it likes. The receiver puts
the items together again and hands them to its slaves in jobs, and the
collectors are merged. So the sketch is the one that a single thread collects
from all the items sent, however the clients share them, whoever accepts whom
and whatever the schedulers do on either side.

`sketch_tcp_fileclient` sends the items of a file in as many slices as it has
connections. `sketch_tcp_client` sends a block of its own making, some number of
times over each.

The results are put together from those of the other modules: the reading of a
text, the slices of a vector, the sending loop, the receive loop and the server.
What holds them together is that a multiset of items determines a collector.
-/

namespace Skt

open Runs SktCollector Monitor LittleEndian

/-! ## The receiving side -/

/-- What a receiver gets of a byte stream: the buffers it pops, with anything in
them, what `recv` does on them, and what `cy` holds before it is set. No call
fails. -/
structure Reception (stream : List Byte) where
  /-- What each `recv` found in the buffer, and what it returned. -/
  calls : List (List Byte × Recv)
  /-- The carried bytes at the start, which are not initialized. -/
  cy : BitVec 32
  /-- The calls bring the stream in pieces, and then its end. -/
  chopped : Chopped 0 calls stream

/-- The jobs that a receiver hands to its slaves. The loop is never undefined on
a reception, so the default is not used. -/
def Reception.jobs {stream : List Byte} (r : Reception stream) :
    List (List (BitVec 32)) :=
  ((receiveLoop ⟨0, r.cy⟩ r.calls).map fun run => run.2.map Job.items).getD []

/-- **The jobs make up the stream**, up to the bytes that are no item any more.
Their number is what the receiver reports as remaining. -/
theorem Reception.flatten_jobs {stream : List Byte} (r : Reception stream) :
    (∃ last jobs, receiveLoop ⟨0, r.cy⟩ r.calls = some (last, jobs)
        ∧ r.jobs = jobs.map Job.items ∧ last.cnt = stream.length % 4)
      ∧ r.jobs.flatten = decodeItems stream := by
  obtain ⟨last, jobs, hloop, hitems, -, hlast⟩ :=
    receiveLoop_from r.chopped (s := ⟨0, r.cy⟩)
      (r := []) rfl rfl rfl (by decide)
  have hjobs : r.jobs = jobs.map Job.items := by
    unfold Reception.jobs
    rw [hloop]
    rfl
  refine ⟨⟨last, jobs, hloop, hjobs, hlast⟩, ?_⟩
  rw [hjobs, ← List.flatMap_def]
  exact hitems

/-- What the slaves of all connections get is what the streams stand for. -/
theorem flatten_receptions {T : ℕ} {streams : Fin T → List Byte}
    (receptions : ∀ k, Reception (streams k)) :
    (List.ofFn fun k => (receptions k).jobs).flatten.flatten
      = (List.ofFn fun k => decodeItems (streams k)).flatten := by
  rw [List.flatten_flatten, List.map_ofFn]
  congr 2
  funext k
  exact (receptions k).flatten_jobs.2

/-- Collecting does not depend on the order of the items. -/
theorem freshCollector_collect_perm (h : HashE) {xs ys : List (BitVec 32)}
    (hperm : xs.Perm ys) :
    (freshCollector h).collect xs = (freshCollector h).collect ys := by
  obtain ⟨hcfg, hholds⟩ := freshCollector_holds h xs
  obtain ⟨hcfg', hholds'⟩ := freshCollector_holds h ys
  rw [Multiset.coe_eq_coe.mpr hperm] at hholds
  exact hholds.eq hholds' (hcfg.trans hcfg'.symm)

/-- **What the server makes of byte streams**: when its main thread comes
through, the merged collector is that of all the items, and `itemCount` is their
number. -/
theorem sketchServer_receptions {T m : ℕ} (hT : 0 < T) (hm : 0 < m) (h : HashE)
    (pool : Fin T → Buffer m → List (BitVec 32)) {streams : Fin T → List Byte}
    (receptions : ∀ k, Reception (streams k))
    {s : State (ServerThread T m) (Fin T × JobQueue) (SketchServer T m)}
    (hs : Reachable (sketchServer fun k => (receptions k).jobs).implStep
      (State.init (SketchServer.init h pool)) s)
    {master : SktCollector} (hmaster : s.prog.main = .done master) :
    master = (freshCollector h).collect
      (List.ofFn fun k => decodeItems (streams k)).flatten
      ∧ s.prog.itemCount
        = BitVec.ofNat 64
          (List.ofFn fun k => decodeItems (streams k)).flatten.length := by
  have himpl := (sketchServer fun k => (receptions k).jobs).reachable_prog hs
  have hprog := SketchServer.sound_of_reachable himpl
  obtain ⟨hcompact, hcount⟩ := hprog.result hT hm fun k => hprog.finished (by
    rw [hmaster]
    exact k.isLt)
  rw [flatten_receptions] at hcompact hcount
  exact ⟨Option.some.inj
    ((hprog.master master hmaster).symm.trans hcompact), hcount⟩

/-- The items `0` and `1` on one stream, which arrives in two pieces. The second
item is cut after its first byte, on buffers full of old data and with an
arbitrary word to carry bytes in. -/
def receptionOfTwo : Reception (encodeItems [0#32, 1#32]) where
  calls := [(staleBuffer, .data [0#8, 0#8, 0#8, 0#8, 1#8]),
    (staleBuffer, .data [0#8, 0#8, 0#8]), (staleBuffer, .closed)]
  cy := 7#32
  chopped :=
    have hbuf : staleBuffer.length = 4 * jobSize := List.length_replicate
    show Chopped 0 _ ([0#8, 0#8, 0#8, 0#8, 1#8] ++ ([0#8, 0#8, 0#8] ++ [])) from
      .data hbuf (by decide) (by decide)
        (.data hbuf (by decide) (by decide) (.closed hbuf))

/-- A turn that receives puts its job in front of those of the later turns. -/
theorem receiveLoop_data {s s₁ s' : Receiver}
    {buf chunk : List Byte} {job : Job} {rest : List (List Byte × Recv)}
    {jobs : List Job}
    (hturn : receiveTurn s buf chunk chunk.length = some (s₁, job))
    (hrest : receiveLoop s₁ rest = some (s', jobs)) :
    receiveLoop s ((buf, .data chunk) :: rest) = some (s', job :: jobs) := by
  rw [receiveLoop, hturn]
  simp only [Option.bind_eq_bind, Option.bind_some]
  rw [hrest]
  rfl

/-- The cut item is put together again: each item is a job of its own. -/
theorem jobs_receptionOfTwo : receptionOfTwo.jobs = [[0#32], [1#32]] := by
  have hbuf : staleBuffer.length = 4 * jobSize := List.length_replicate
  have hroom : [0#8, 0#8, 0#8, 0#8, 1#8].length ≤ 4 * jobSize - 0 := by decide
  obtain ⟨s₁, job₁, hturn₁, hitems₁, -, hcarry, hcnt⟩ :=
    receiveTurn_data (s := ⟨0, 7#32⟩) (r := []) hbuf rfl rfl (by decide) hroom
  have hroom₁ : [0#8, 0#8, 0#8].length ≤ 4 * jobSize - s₁.cnt := by
    rw [hcnt]
    decide
  obtain ⟨s₂, job₂, hturn₂, hitems₂, -⟩ :=
    receiveTurn_data (r := [1#8]) hbuf hcarry hcnt (by decide) hroom₁
  have hclosed : receiveLoop s₂ [(staleBuffer, .closed)] = some (s₂, []) := by
    rw [receiveLoop, writeAt_carried hbuf]
    rfl
  have hloop : receiveLoop ⟨0, receptionOfTwo.cy⟩ receptionOfTwo.calls
    = some (s₂, [job₁, job₂]) :=
    receiveLoop_data hturn₁ (receiveLoop_data hturn₂ hclosed)
  unfold Reception.jobs
  rw [hloop, Option.map_some, Option.getD_some, List.map_cons,
    List.map_singleton, hitems₁, hitems₂]
  rfl

/-! ## The file client

Its vector is split as the file of `sketch_fileclient` is, with the same
products, so the slices are those of `Skt.Software.FileClient`. -/

/-- `obuf[0..olen)` of worker `i`, where it is inside of the vector. The pointer
arithmetic is in items, the length in bytes. -/
def workerBytes (nthreads : ℕ) (ibuf : List (BitVec 32)) (i : ℕ) :
    Option (List Byte) :=
  let isize := ibuf.length
  let obuf := 4 * shardStart nthreads isize i
  let olen := shardSize nthreads isize i * 4 % 2 ^ 64
  if obuf + olen ≤ (encodeItems ibuf).length then
    some (((encodeItems ibuf).drop obuf).take olen)
  else none

/-- Where no product wraps, a worker has the bytes of its slice. -/
theorem workerBytes_eq {n : ℕ} {ibuf : List (BitVec 32)}
    (h : n * ibuf.length < 2 ^ 64) (hlen : ibuf.length < 2 ^ 62) {i : ℕ}
    (hi : i < n) :
    workerBytes n ibuf i = some (encodeItems (shard n ibuf i)) := by
  have h1 := div_mono n ibuf.length i
  have h2 : (i + 1) * ibuf.length / n ≤ ibuf.length :=
    div_le_isize (Nat.zero_lt_of_lt hi) hi
  have hsize : shardSize n ibuf.length i * 4 % 2 ^ 64
      = 4 * ((i + 1) * ibuf.length / n - i * ibuf.length / n) := by
    have hle : (i + 1) * ibuf.length / n - i * ibuf.length / n ≤ ibuf.length :=
      (Nat.sub_le _ _).trans h2
    rw [shardSize_of_lt h hi (hlen.trans (by decide)),
      Nat.mod_eq_of_lt (by omega), Nat.mul_comm]
  unfold workerBytes
  dsimp only
  rw [hsize, shardStart_of_lt h hi.le, length_encodeItems,
    if_pos (by omega), drop_encodeItems,
    take_encodeItems]
  rfl

/-- The slices make up the file, in their order. -/
theorem flatten_ofFn_shards {n : ℕ} (hn : 0 < n) (ibuf : List (BitVec 32)) :
    (List.ofFn fun i : Fin n => shard n ibuf i).flatten = ibuf := by
  have hrange : (List.ofFn fun i : Fin n => shard n ibuf i)
      = (List.range n).map (shard n ibuf) := by
    rw [List.ofFn_eq_map, ← List.map_coe_finRange_eq_range, List.map_map]
    rfl
  rw [hrange, flatten_shards, Nat.mul_div_cancel_left _ hn, List.take_length]

/-- **A worker of the file client** when it has returned: what it had to send,
and how it went. It has stopped because a write failed or because all is
sent. -/
structure Worker (nthreads : ℕ) (ibuf : List (BitVec 32)) (i : ℕ) where
  /-- The bytes the worker has to send. -/
  buffer : SendBuffer
  /-- They are those of its slice, where it lies inside of the vector. -/
  buffer_eq : workerBytes nthreads ibuf i = some buffer.bytes
  /-- The state its loop has ended in. -/
  sender : FileSender
  /-- Some writes have led there. -/
  sent : Reachable (FileSender.write buffer) FileSender.start sender
  /-- It has ended, by an error or at the end of the buffer. -/
  stopped : sender.returned = true ∨ ¬ sender.ocnt < buffer.bytes.length

namespace Worker

variable {n : ℕ} {ibuf : List (BitVec 32)}

/-- **What a worker has sent** is the beginning of its slice, and all of it
unless a write has failed. An item that was cut by a failure is not decoded at
the other end. -/
theorem accepted_eq (hfit : n * ibuf.length < 2 ^ 64)
    (hlen : ibuf.length < 2 ^ 62) {i : ℕ} (hi : i < n) (w : Worker n ibuf i) :
    decodeItems w.sender.accepted = (shard n ibuf i).take (w.sender.ocnt / 4)
      ∧ (w.sender.returned = false → decodeItems w.sender.accepted
        = shard n ibuf i) := by
  obtain ⟨hacc, hle⟩ := FileSender.accepted_eq w.sent
  have hbytes : encodeItems (shard n ibuf i) = w.buffer.bytes :=
    Option.some.inj ((workerBytes_eq hfit hlen hi).symm.trans w.buffer_eq)
  have hlength : w.buffer.bytes.length = 4 * (shard n ibuf i).length := by
    rw [← hbytes, length_encodeItems]
  refine ⟨?_, fun hreturned => ?_⟩
  · rw [hacc, ← hbytes]
    exact decodeItems_take_encodeItems _ (by omega)
  · have hall : ¬ w.sender.ocnt < w.buffer.bytes.length :=
      w.stopped.resolve_left (by
      rw [hreturned]
      exact Bool.false_ne_true)
    rw [hacc, List.take_of_length_le (by omega), ← hbytes,
      decodeItems_encodeItems]

end Worker

/-- Sharing out over the connections does not depend on who accepts whom. -/
theorem flatten_accepted_perm {n : ℕ} (accept : Equiv.Perm (Fin n))
    (f : Fin n → List (BitVec 32)) :
    (List.ofFn fun k => f (accept k)).flatten.Perm (List.ofFn f).flatten :=
  (Equiv.Perm.ofFn_comp_perm accept f).flatten

/-- **When no write has failed**, the merged collector is that of the whole
vector, and `itemCount` is its length. -/
theorem served_all {n m : ℕ} (hn : 0 < n) (hm : 0 < m) {ibuf : List (BitVec 32)}
    (hfit : n * ibuf.length < 2 ^ 64) (hlen : ibuf.length < 2 ^ 62) (h : HashE)
    (pool : Fin n → Buffer m → List (BitVec 32))
    (workers : ∀ i : Fin n, Worker n ibuf i)
    (hall : ∀ i, (workers i).sender.returned = false)
    (accept : Equiv.Perm (Fin n))
    (receptions : ∀ k, Reception (workers (accept k)).sender.accepted)
    {s : State (ServerThread n m) (Fin n × JobQueue) (SketchServer n m)}
    (hs : Reachable (sketchServer fun k => (receptions k).jobs).implStep
      (State.init (SketchServer.init h pool)) s)
    {master : SktCollector} (hmaster : s.prog.main = .done master) :
    master = (freshCollector h).collect ibuf
      ∧ s.prog.itemCount = BitVec.ofNat 64 ibuf.length := by
  obtain ⟨hresult, hcount⟩ :=
    sketchServer_receptions hn hm h pool receptions hs hmaster
  have hitems : (fun k => decodeItems (workers (accept k)).sender.accepted)
      = fun k => shard n ibuf (accept k) := funext fun k =>
    ((workers (accept k)).accepted_eq hfit hlen (accept k).isLt).2 (hall _)
  have hshards := flatten_accepted_perm accept fun i => shard n ibuf i
  rw [flatten_ofFn_shards hn] at hshards
  rw [hresult, hcount, hitems, hshards.length_eq]
  exact ⟨freshCollector_collect_perm h hshards, rfl⟩

/-- **From a file to the sketch.** The file client has sent a vector over `n`
connections, the server has accepted them in some order, the network has cut the
streams up in some way, and the server has run in some way until its main thread
is through. Then the merged collector is that of the items sent, which are the
beginnings of the slices; and unless a write has failed, it is that of the whole
vector, and `itemCount` is its length.

The two bounds are those under which the slices are slices: the last product is
a `size_t`, and so is the number of bytes. -/
theorem fileClient_served {n m : ℕ} (hn : 0 < n) (hm : 0 < m)
    {ibuf : List (BitVec 32)} (hfit : n * ibuf.length < 2 ^ 64)
    (hlen : ibuf.length < 2 ^ 62) (h : HashE)
    (pool : Fin n → Buffer m → List (BitVec 32))
    (workers : ∀ i : Fin n, Worker n ibuf i) (accept : Equiv.Perm (Fin n))
    (receptions : ∀ k, Reception (workers (accept k)).sender.accepted)
    {s : State (ServerThread n m) (Fin n × JobQueue) (SketchServer n m)}
    (hs : Reachable (sketchServer fun k => (receptions k).jobs).implStep
      (State.init (SketchServer.init h pool)) s)
    {master : SktCollector} (hmaster : s.prog.main = .done master) :
    master = (freshCollector h).collect (List.ofFn fun i : Fin n =>
        (shard n ibuf i).take ((workers i).sender.ocnt / 4)).flatten
      ∧ ((∀ i, (workers i).sender.returned = false) →
        master = (freshCollector h).collect ibuf
          ∧ s.prog.itemCount = BitVec.ofNat 64 ibuf.length) := by
  refine ⟨?_, fun hall => served_all hn hm hfit hlen h pool workers hall
    accept receptions hs
    hmaster⟩
  have hresult := (sketchServer_receptions hn hm h pool receptions hs hmaster).1
  have hitems : (fun k => decodeItems (workers (accept k)).sender.accepted)
      = fun k => (shard n ibuf (accept k)).take
        ((workers (accept k)).sender.ocnt / 4) :=
    funext fun k =>
      ((workers (accept k)).accepted_eq hfit hlen (accept k).isLt).1
  rw [hresult, hitems]
  exact freshCollector_collect_perm h
    (flatten_accepted_perm accept fun i =>
      (shard n ibuf i).take ((workers i).sender.ocnt / 4))

/-- The worker that sends the items `0` and `1` over one connection, in a write
of three bytes and one of five. -/
def workerOfTwo (i : Fin 1) : Worker 1 [0#32, 1#32] i where
  buffer := ⟨encodeItems [0#32, 1#32], by decide⟩
  buffer_eq := by
    have hshard : shard 1 [0#32, 1#32] i = [0#32, 1#32] := by
      rw [Subsingleton.elim i 0]
      rfl
    rw [workerBytes_eq (by decide) (by decide) i.isLt, hshard]
  sender := ⟨8, encodeItems [0#32, 1#32], false⟩
  sent := .next (a := .sent 5) (.next (a := .sent 3) .init rfl) rfl
  stopped := Or.inr (by decide)

/-- Two items over one connection to two slaves. -/
theorem fileClient_served_instance :
    ∃ s : State (ServerThread 1 2) (Fin 1 × JobQueue) (SketchServer 1 2),
      s.prog.main = .done ((freshCollector .murmur3_128).collect [0#32, 1#32])
        ∧ s.prog.itemCount = 2#64 := by
  obtain ⟨s, hs, ⟨master, hmaster⟩, -⟩ := twoJobsServerRun_reachable
  rw [← jobs_receptionOfTwo] at hs
  obtain ⟨-, hserved⟩ := fileClient_served (by decide) (by decide)
    (by decide) (by decide)
    .murmur3_128 _ workerOfTwo (Equiv.refl _)
      (fun _ => receptionOfTwo) hs hmaster
  obtain ⟨rfl, hcount⟩ := hserved fun _ => rfl
  exact ⟨s, hmaster, hcount⟩

/-- `fillRandomDataLocal`, with its counters of 32 bits. It is called with a
repetition of one. -/
def fillRandomDataLocal (block : List (BitVec 32))
    (sizeInTuples repet : ℕ) : List (BitVec 32) :=
  (List.range (sizeInTuples % 2 ^ 32 / repet)).foldl (fun block i =>
    (List.range repet).foldl (fun block j =>
      block.set ((i * repet + j) % 2 ^ 32) (BitVec.ofNat 32 i)) block) block

/-- Writing the entries of a block one after the other. -/
theorem foldl_set_range (f : ℕ → BitVec 32) (k : ℕ) (block : List (BitVec 32))
    (hk : k ≤ block.length) :
    (List.range k).foldl (fun block i => block.set i (f i)) block
      = (List.range k).map f ++ block.drop k := by
  induction k with
  | zero => rfl
  | succ k ih =>
    have hlt : k < block.length := hk
    have hlen : ((List.range k).map f).length = k := by
      rw [List.length_map, List.length_range]
    rw [List.range_succ, List.foldl_append, ih hlt.le,
      List.foldl_cons, List.foldl_nil,
      List.set_append, if_neg (by omega), hlen, Nat.sub_self,
        List.drop_eq_getElem_cons hlt,
      List.set_cons_zero, List.map_append, List.append_assoc]
    rfl

/-- **The block counts up from zero**, as far as the low 32 bits of its size
go. -/
theorem fillRandomDataLocal_one {block : List (BitVec 32)} {sizeInTuples : ℕ}
    (hblock : sizeInTuples ≤ block.length) :
    (fillRandomDataLocal block sizeInTuples 1).take (sizeInTuples % 2 ^ 32)
      = (List.range (sizeInTuples % 2 ^ 32)).map (BitVec.ofNat 32) := by
  set k := sizeInTuples % 2 ^ 32 with hk
  have hlt : k < 2 ^ 32 := Nat.mod_lt _ (by decide)
  have hbody : fillRandomDataLocal block sizeInTuples 1
      = (List.range k).foldl
        (fun block i => block.set i (BitVec.ofNat 32 i)) block := by
    unfold fillRandomDataLocal
    rw [← hk, Nat.div_one]
    refine List.foldl_ext _ _ _ fun block i hi => ?_
    have hi' := List.mem_range.mp hi
    show block.set ((i * 1 + 0) % 2 ^ 32) _ = _
    rw [Nat.mul_one, Nat.add_zero, Nat.mod_eq_of_lt (hi'.trans hlt)]
  rw [hbody, foldl_set_range _ _ _ ((Nat.mod_le _ _).trans hblock)]
  exact List.take_left' (by rw [List.length_map, List.length_range])

/-- **From the load generator to the sketch.** Every thread of
`sketch_tcp_client` has sent the block as often as it is asked to, without a
failed write. Then the merged collector is that of the block as many times as
there are repetitions over all connections, and its HyperLogLog registers are
those of the block alone. The block counts up to the low 32 bits of the items
asked for.

Without a repetition nothing is sent, and the registers are empty; so there has
to be one. -/
theorem tcpClient_served {n m : ℕ} (hn : 0 < n) (hm : 0 < m)
    {dataBuffer : List (BitVec 32)} {sizePerConn : ℕ}
    (hsize : sizePerConn ≤ dataBuffer.length) {buffer : SendBuffer}
    (hbuffer : buffer.bytes
      = (encodeItems (fillRandomDataLocal dataBuffer sizePerConn 1)).take
      (4 * (sizePerConn % 2 ^ 32))) (h : HashE)
        (pool : Fin n → Buffer m → List (BitVec 32))
    {repetitions : ℕ} (hpos : 0 < repetitions)
    (clients : Fin n → Client)
    (hsent : ∀ i, Reachable (fun s k => Client.write buffer s (.sent k))
      (Client.start repetitions) (clients i))
    (hdone : ∀ i, Client.test buffer.bytes.length (clients i).rounds
      (clients i).cnt = none)
    (receptions : ∀ k, Reception (clients k).accepted)
    {s : State (ServerThread n m) (Fin n × JobQueue) (SketchServer n m)}
    (hs : Reachable (sketchServer fun k => (receptions k).jobs).implStep
      (State.init (SketchServer.init h pool)) s)
    {master : SktCollector} (hmaster : s.prog.main = .done master) :
    master = (freshCollector h).collect (List.replicate (n * repetitions)
        ((List.range (sizePerConn % 2 ^ 32)).map (BitVec.ofNat 32))).flatten
      ∧ s.prog.itemCount
        = BitVec.ofNat 64 (n * repetitions * (sizePerConn % 2 ^ 32))
      ∧ master.bucketsHll = ((freshCollector h).collect
        ((List.range (sizePerConn % 2 ^ 32)).map
          (BitVec.ofNat 32))).bucketsHll := by
  rw [take_encodeItems, fillRandomDataLocal_one hsize] at hbuffer
  set block := (List.range (sizePerConn % 2 ^ 32)).map
    (BitVec.ofNat 32) with hblock
  have hlength : block.length = sizePerConn % 2 ^ 32 := by
    rw [hblock, List.length_map, List.length_range]
  obtain ⟨hresult, hcount⟩ :=
    sketchServer_receptions hn hm h pool receptions hs hmaster
  have hitems : (fun k => decodeItems (clients k).accepted)
      = fun _ : Fin n => (List.replicate repetitions block).flatten := by
    funext k
    have haccepted := (Client.accepted_append_rest (hsent k)).1
    rw [Client.rest_of_done (hdone k), List.append_nil, hbuffer] at haccepted
    rw [haccepted, ← encodeItems_flatten_replicate, decodeItems_encodeItems]
  have hblocks : (List.ofFn fun _ : Fin n =>
    (List.replicate repetitions block).flatten).flatten
      = (List.replicate (n * repetitions) block).flatten := by
    rw [List.ofFn_const, ← List.map_replicate, ← List.flatten_flatten,
      List.flatten_replicate_replicate]
  rw [hitems, hblocks] at hresult hcount
  refine ⟨hresult, ?_, ?_⟩
  · rw [hcount, List.length_flatten, List.map_replicate, List.sum_replicate,
      smul_eq_mul, hlength]
  · have hmem : ∀ x : BitVec 32,
        x ∈ ((List.replicate (n * repetitions) block).flatten :
          Multiset (BitVec 32))
          ↔ x ∈ (block : Multiset (BitVec 32)) := by
      intro x
      have hne : n * repetitions ≠ 0 := (Nat.mul_pos hn hpos).ne'
      simp [hne]
    obtain ⟨-, hholds⟩ := freshCollector_holds h
      (List.replicate (n * repetitions) block).flatten
    obtain ⟨-, hholds'⟩ := freshCollector_holds h block
    rw [hresult]
    refine List.ext_getElem? fun b => ?_
    rcases Nat.lt_or_ge b (2 ^ 13) with hb | hb
    · rw [hholds.hll b hb, hholds'.hll b hb]
      exact congrArg (fun r => some (BitVec.ofNat 32 r))
        (Sketch.hll_eq_of_mem_iff _ _ hmem b)
    · rw [List.getElem?_eq_none
        ((SktCollector.length_bucketsHll _).trans_le hb),
        List.getElem?_eq_none ((SktCollector.length_bucketsHll _).trans_le hb)]

/-- A block of two items, sent once over one connection to two slaves, in a
write of three bytes and one of five. -/
theorem tcpClient_served_instance :
    ∃ s : State (ServerThread 1 2) (Fin 1 × JobQueue) (SketchServer 1 2),
      s.prog.main = .done ((freshCollector .murmur3_128).collect [0#32, 1#32])
        ∧ s.prog.itemCount = 2#64 := by
  obtain ⟨s, hs, ⟨master, hmaster⟩, -⟩ := twoJobsServerRun_reachable
  rw [← jobs_receptionOfTwo] at hs
  have hsize : 2 ≤ [7#32, 9#32].length := le_rfl
  have hbuffer : (⟨encodeItems [0#32, 1#32], by decide⟩ : SendBuffer).bytes
      = (encodeItems (fillRandomDataLocal [7#32, 9#32] 2 1)).take
        (4 * (2 % 2 ^ 32)) := by decide
  obtain ⟨hresult, hcount, -⟩ := tcpClient_served (by decide)
    (by decide) hsize hbuffer
    .murmur3_128 _ Nat.one_pos
      (fun _ => ⟨1, 8, encodeItems [0#32, 1#32], false⟩)
    (fun _ => .next (a := 5) (.next (a := 3) .init rfl) rfl) (fun _ => rfl)
    (fun _ => receptionOfTwo) hs hmaster
  subst hresult
  exact ⟨s, hmaster, hcount⟩

end Skt
