import Skt.Lib.Runs
import Skt.Hardware.Streaming

/-!
# Collecting statistics over a key/value stream

`Collect` updates a table in a pipelined memory until a `last` flag tells it to
dump the table, which clears it on the way. A read of the memory takes so long
that it may miss the writes of up to three preceding calls; the pipeline
registers `z`, `zz` and `zzz` hold these writes and override what is read. The
pragma `dependence variable=Mem inter false` hands this over to the code: the
compiler need not wait for a write before it starts the next read.

The model keeps the memory as it was one, two and three writes ago, and every
call chooses how many writes its read misses. With the forwarding invariant the
choice is of no consequence, and `Collect` is a table. That is `currVal_eq`, and
it is the only place where the registers are looked at: from there on the
equation of `Collect` speaks of one memory.

A `Collect` is used with maxima for HyperLogLog, with signed counts for AGMS and
with counts for Count-Min; here the update is any function `f`, and the dump of
a job is its left fold, key by key.
-/

namespace Skt.Hardware

open Streams Runs

/-- The versions of the memory a read may return, from the current one on: a
read misses at most three writes. -/
instance neZero_versions : NeZero (4 : ℕ) := ⟨four_ne_zero⟩

/-- The rows of the HyperLogLog sketch, of which there is one. -/
instance neZero_hllRows : NeZero (1 : ℕ) := ⟨one_ne_zero⟩

/-- The state of a `Collect`. `mem d` is the memory without its last `d` writes,
so that `mem 0` is `Mem` and the others are what a read in flight may still
see. -/
structure Collect (w : ℕ) (V : Type*) where
  /-- Whether the table is being dumped; otherwise elements are consumed. -/
  dump : Bool
  /-- The key dumped next. It wraps to zero with the last one. -/
  dumpPtr : BitVec w
  /-- The versions of the memory, the current one first. A read returns an entry
  of any of them. -/
  mem : Fin 4 → BitVec w → V
  /-- The key and the value of the last write, and of the two before it
  below. -/
  zKey : BitVec w
  zzKey : BitVec w
  zzzKey : BitVec w
  zVal : V
  zzVal : V
  zzzVal : V

variable {w : ℕ} {V I : Type*} [Zero V]

namespace Collect

/-- The state at power-up: an empty table, consuming. -/
def init : Collect w V where
  dump := false
  dumpPtr := 0
  mem := fun _ _ => 0
  zKey := 0
  zzKey := 0
  zzzKey := 0
  zVal := 0
  zzVal := 0
  zzzVal := 0

omit [Zero V] in
/-- `curr_val`: what the memory returns, overridden by the registers. The most
recent one comes last and wins, as in the source. -/
def currVal (s : Collect w V) (missed : Fin 4) (madr : BitVec w) : V :=
  let curr := s.mem missed madr
  let curr := if madr = s.zzzKey then s.zzzVal else curr
  let curr := if madr = s.zzKey then s.zzVal else curr
  if madr = s.zKey then s.zVal else curr

omit [Zero V] in
/-- The end of a call: the registers move on and `Mem[key]` is written, in every
call. The older versions of the memory move on with them. -/
def store (s : Collect w V) (key : BitVec w) (val : V) : Collect w V :=
  { s with
    zzzKey := s.zzKey
    zzzVal := s.zzVal
    zzKey := s.zKey
    zzVal := s.zVal
    zKey := key
    zVal := val
    mem := fun d => match d with
      | 0 => Function.update (s.mem 0) key val
      | 1 => s.mem 0
      | 2 => s.mem 1
      | 3 => s.mem 2 }

/-- `collect`: one call, whose read of the memory misses the last `missed`
writes. A call that finds nothing to do repeats the last write, with the key and
value of `z`; the element with `last` is still consumed, and turns to
dumping. -/
def collect (f : V → I → V) (missed : Fin 4) (s : Collect w V)
    (src : Fifo (Flit (BitVec w × I))) (dst : Fifo (Flit V)) :
    Collect w V × Fifo (Flit (BitVec w × I)) × Fifo (Flit V) :=
  if s.dump then
    let last := decide (s.dumpPtr = BitVec.allOnes w)
    let curr := s.currVal missed s.dumpPtr
    ({ s.store s.dumpPtr 0 with dump := !last, dumpPtr := s.dumpPtr + 1 },
      src, dst.write ⟨last, curr⟩)
  else
    match src.readNb with
    | some (x, src) =>
      let curr := s.currVal missed x.val.1
      ({ s.store x.val.1 (f curr x.val.2) with dump := x.last }, src, dst)
    | none => (s.store s.zKey s.zVal, src, dst)

/-! ## Forwarding

The three registers are exactly the three writes the memory may miss. -/

omit [Zero V] in
/-- **The forwarding invariant**: the registers hold the last three writes, each
version of the memory being the next older one with the register's write. -/
structure Forwarding (s : Collect w V) : Prop where
  /-- The last write makes the current memory of the one before. -/
  z : s.mem 0 = Function.update (s.mem 1) s.zKey s.zVal
  zz : s.mem 1 = Function.update (s.mem 2) s.zzKey s.zzVal
  zzz : s.mem 2 = Function.update (s.mem 3) s.zzzKey s.zzzVal

theorem forwarding_init : (init : Collect w V).Forwarding :=
  ⟨(Function.update_eq_self _ _).symm, (Function.update_eq_self _ _).symm,
    (Function.update_eq_self _ _).symm⟩

omit [Zero V]

variable {s : Collect w V}

/-- **A read sees every write**, whatever the memory misses: the stale memory
overridden by `zzz`, then `zz`, then `z` is the memory. The registers are
applied in the order of the writes, so that a key written twice has the later
value. -/
theorem currVal_eq (h : s.Forwarding) (missed : Fin 4) (madr : BitVec w) :
    s.currVal missed madr = s.mem 0 madr := by
  have h₀ : s.mem 0 madr = if madr = s.zKey then s.zVal else s.mem 1 madr := by
    rw [h.z, Function.update_apply]
  have h₁ : s.mem 1 madr = if madr = s.zzKey then s.zzVal
    else s.mem 2 madr := by
    rw [h.zz, Function.update_apply]
  have h₂ : s.mem 2 madr = if madr = s.zzzKey then s.zzzVal
    else s.mem 3 madr := by
    rw [h.zzz, Function.update_apply]
  unfold currVal
  dsimp only
  by_cases hz : madr = s.zKey
  · rw [h₀, if_pos hz, if_pos hz]
  · rw [if_neg hz] at h₀ ⊢
    by_cases hzz : madr = s.zzKey
    · rw [h₀, h₁, if_pos hzz, if_pos hzz]
    · rw [if_neg hzz] at h₁ ⊢
      by_cases hzzz : madr = s.zzzKey
      · rw [h₀, h₁, h₂, if_pos hzzz, if_pos hzzz]
      · -- none of the last three writes was to this address
        rw [if_neg hzzz] at h₂ ⊢
        match missed with
        | 0 => rfl
        | 1 => exact h₀.symm
        | 2 => rw [h₀, h₁]
        | 3 => rw [h₀, h₁, h₂]

/-- Repeating the last write changes nothing: the table is the same after a call
without input. -/
theorem mem_store_repeat (h : s.Forwarding) :
    (s.store s.zKey s.zVal).mem 0 = s.mem 0 := by
  show Function.update (s.mem 0) s.zKey s.zVal = s.mem 0
  rw [h.z, Function.update_idem]

end Collect

/-! ## The table

What `Collect` computes, without its pipeline. -/

/-- **What the table holds for a key**: the left fold of `f` over the values
with that key, in order of arrival. -/
def keyFold (f : V → I → V) (job : List (BitVec w × I)) (k : BitVec w) : V :=
  ((job.filter (fun e => e.1 = k)).map Prod.snd).foldl f 0

/-- **The dump of a job**: one value per key, in the order of the keys. Keys
that do not occur have a zero. -/
def dumped (f : V → I → V) (job : List (BitVec w × I)) : List V :=
  (List.range (2 ^ w)).map (fun k => keyFold f job (BitVec.ofNat w k))

@[simp] theorem keyFold_nil (f : V → I → V) (k : BitVec w) :
    keyFold f [] k = 0 := rfl

/-- One more element updates the value of its key and no other one. -/
theorem keyFold_concat (f : V → I → V) (job : List (BitVec w × I))
    (e : BitVec w × I) :
    keyFold f (job ++ [e])
      = Function.update (keyFold f job) e.1 (f (keyFold f job e.1) e.2) := by
  funext k
  unfold keyFold
  rw [List.filter_append, List.map_append, List.foldl_append,
    Function.update_apply]
  by_cases h : k = e.1
  · rw [if_pos h, h, List.filter_singleton, decide_eq_true rfl]
    rfl
  · rw [if_neg h, List.filter_singleton, decide_eq_false (fun he => h he.symm)]
    rfl

@[simp] theorem length_dumped (f : V → I → V) (job : List (BitVec w × I)) :
    (dumped f job).length = 2 ^ w := by
  unfold dumped
  rw [List.length_map, List.length_range]

/-- The entry of a dump at a key, which carries `last` at the greatest key. -/
theorem getElem?_frame_dumped (f : V → I → V)
    (job : List (BitVec w × I)) (k : BitVec w) :
    (frame (dumped f job))[k.toNat]?
      = some ⟨decide (k = BitVec.allOnes w), keyFold f job k⟩ := by
  have hlast : decide (k.toNat + 1 = 2 ^ w)
    = decide (k = BitVec.allOnes w) := by
    refine decide_eq_decide.mpr ?_
    rw [← BitVec.toNat_inj, BitVec.toNat_allOnes]
    have := k.isLt
    omega
  rw [getElem?_frame, length_dumped, dumped, List.getElem?_map,
    List.getElem?_range k.isLt, hlast, Option.map_some,
      Option.map_some, BitVec.ofNat_toNat,
    BitVec.setWidth_eq]

namespace Collect

/-- **The equation of `Collect`.** While it consumes, the memory is the table of
the open job, and a dump has been written for every job before. While it dumps,
the dump of the job just completed is written up to `dump_ptr`, and the memory
is clear up to there. -/
structure Collected (f : V → I → V) (s : Collect w V)
    (src : List (Flit (BitVec w × I)))
    (dst : List (Flit V)) : Prop where
  forwarding : s.Forwarding
  /-- While elements are consumed, the memory is the table of the open job, and
  all complete jobs have been dumped. -/
  consuming : s.dump = false → s.dumpPtr = 0 ∧ s.mem 0 = keyFold f (partOf src)
    ∧ dst = (jobsOf src).flatMap (fun job => frame (dumped f job))
  /-- While a job is dumped, there is no open job. The memory has been cleared
  for the keys that are written, and still holds the values of the others. -/
  dumping : s.dump = true → partOf src = [] ∧ ∃ jobs job,
    jobsOf src = jobs ++ [job]
    ∧ (∀ k, s.mem 0 k = if k.toNat < s.dumpPtr.toNat then 0
      else keyFold f job k)
    ∧ dst = jobs.flatMap (fun job => frame (dumped f job))
      ++ (frame (dumped f job)).take s.dumpPtr.toNat

theorem collected_init (f : V → I → V) :
    Collected f (init : Collect w V) [] [] where
  forwarding := forwarding_init
  consuming _ := ⟨rfl, rfl, rfl⟩
  dumping h := absurd h Bool.false_ne_true

section Collect

variable {f : V → I → V} {s : Collect w V}

/-- Reading an element updates the table; `last` turns to dumping, with the
whole dump still to write. -/
theorem Collected.consume {src : List (Flit (BitVec w × I))}
    {dst : List (Flit V)} (h : Collected f s src dst) (hdump : s.dump = false)
    (missed : Fin 4) (x : Flit (BitVec w × I)) :
    Collected f { s.store x.val.1 (f (s.currVal missed x.val.1) x.val.2)
      with dump := x.last }
      (src ++ [x]) dst := by
  obtain ⟨hptr, hmem, hdst⟩ := h.consuming hdump
  have hmem' : Function.update (s.mem 0) x.val.1
    (f (s.currVal missed x.val.1) x.val.2)
      = keyFold f (partOf src ++ [x.val]) := by
    rw [currVal_eq h.forwarding, hmem, keyFold_concat]
  refine ⟨⟨rfl, h.forwarding.z, h.forwarding.zz⟩,
    fun hlast => ?_, fun hlast => ?_⟩
  · have hlast' : x.last = false := hlast
    refine ⟨hptr, ?_, ?_⟩
    · rw [partOf_concat, hlast']
      exact hmem'
    · rw [jobsOf_concat, hlast']
      exact hdst
  · have hlast' : x.last = true := hlast
    have hptr0 : s.dumpPtr.toNat = 0 := by
      rw [hptr]
      rfl
    refine ⟨by
      rw [partOf_concat, hlast']; rfl, jobsOf src,
        partOf src ++ [x.val], ?_, ?_, ?_⟩
    · rw [jobsOf_concat, hlast']
      rfl
    · intro k
      show Function.update (s.mem 0) x.val.1 _ k = if k.toNat
        < s.dumpPtr.toNat then 0 else _
      rw [hmem', hptr0]
      rfl
    · show dst = _ ++ (frame _).take s.dumpPtr.toNat
      rw [hptr0, List.take_zero, List.append_nil, hdst]

/-- **One turn of a dump** writes the next entry and clears it. The last turn
leaves an empty table, which is the table of the next job. -/
theorem Collected.dump_turn {src : List (Flit (BitVec w × I))}
    {dst : List (Flit V)} (h : Collected f s src dst) (hdump : s.dump = true)
    (missed : Fin 4) :
    Collected f { s.store s.dumpPtr 0 with
        dump := !decide (s.dumpPtr = BitVec.allOnes w), dumpPtr :=
          s.dumpPtr + 1 }
      src (dst
        ++ [⟨decide (s.dumpPtr = BitVec.allOnes w),
          s.currVal missed s.dumpPtr⟩]) := by
  obtain ⟨hpart, jobs, job, hjobs, hmem, hdst⟩ := h.dumping hdump
  have hcurr : s.currVal missed s.dumpPtr = keyFold f job s.dumpPtr := by
    rw [currVal_eq h.forwarding, hmem, if_neg (Nat.lt_irrefl _)]
  have hdst' : dst
    ++ [⟨decide (s.dumpPtr = BitVec.allOnes w), s.currVal missed s.dumpPtr⟩]
      = jobs.flatMap (fun job => frame (dumped f job))
        ++ (frame (dumped f job)).take (s.dumpPtr.toNat + 1) := by
    rw [List.take_add_one, getElem?_frame_dumped, hcurr,
      hdst, List.append_assoc]
    rfl
  have hmem' : ∀ k, Function.update (s.mem 0) s.dumpPtr 0 k
      = if k.toNat < s.dumpPtr.toNat + 1 then 0 else keyFold f job k := by
    intro k
    rw [Function.update_apply, hmem]
    by_cases hk : k = s.dumpPtr
    · rw [if_pos hk, hk, if_pos (Nat.lt_succ_self _)]
    · have hne : k.toNat ≠ s.dumpPtr.toNat := fun he =>
        hk (BitVec.toNat_inj.mp he)
      rw [if_neg hk]
      by_cases hlt : k.toNat < s.dumpPtr.toNat
      · rw [if_pos hlt, if_pos (by omega)]
      · rw [if_neg hlt, if_neg (by omega)]
  have hptr := s.dumpPtr.isLt
  refine ⟨⟨rfl, h.forwarding.z, h.forwarding.zz⟩,
    fun hlast => ?_, fun hlast => ?_⟩
  · -- the last entry
    have hend : s.dumpPtr = BitVec.allOnes w := by simpa using hlast
    have hfull : s.dumpPtr.toNat + 1 = 2 ^ w := by
      rw [hend, BitVec.toNat_allOnes]
      exact Nat.sub_add_cancel Nat.one_le_two_pow
    refine ⟨?_, ?_, ?_⟩
    · show s.dumpPtr + 1 = 0
      refine BitVec.eq_of_toNat_eq ?_
      rw [BitVec.toNat_add]
      show (s.dumpPtr.toNat + 1 % 2 ^ w) % 2 ^ w = 0 % 2 ^ w
      rw [Nat.add_mod_mod, hfull, Nat.mod_self, Nat.zero_mod]
    · funext k
      show Function.update (s.mem 0) s.dumpPtr 0 k = _
      rw [hmem', hpart, if_pos (by rw [hfull]; exact k.isLt)]
      rfl
    · rw [hdst', hfull, List.take_of_length_le (by simp), hjobs,
        List.flatMap_append,
        List.flatMap_singleton]
  · have hmore : s.dumpPtr ≠ BitVec.allOnes w := by simpa using hlast
    have hnext : (s.dumpPtr + 1).toNat = s.dumpPtr.toNat + 1 := by
      have hne : s.dumpPtr.toNat ≠ 2 ^ w - 1 := fun he =>
        hmore (BitVec.eq_of_toNat_eq (by rw [he, BitVec.toNat_allOnes]))
      have hw : 1 % 2 ^ w = 1 := Nat.mod_eq_of_lt (by omega)
      rw [BitVec.toNat_add]
      show (s.dumpPtr.toNat + 1 % 2 ^ w) % 2 ^ w = _
      rw [hw]
      exact Nat.mod_eq_of_lt (by omega)
    refine ⟨hpart, jobs, job, hjobs, fun k => ?_, ?_⟩
    · show Function.update (s.mem 0) s.dumpPtr 0 k = if k.toNat
        < (s.dumpPtr + 1).toNat then 0 else _
      rw [hnext]
      exact hmem' k
    · show _ = _ ++ (frame _).take (s.dumpPtr + 1).toNat
      rw [hnext]
      exact hdst'

/-- **Every call keeps the equation**, whatever its read misses. The call may
dump, consume, or find nothing. -/
theorem collect_sound {src : Fifo (Flit (BitVec w × I))} {dst : Fifo (Flit V)}
    (h : Collected f s src.consumed dst.written) (missed : Fin 4) :
    Collected f (collect f missed s src dst).1
      (collect f missed s src dst).2.1.consumed
      (collect f missed s src dst).2.2.written := by
  unfold collect
  cases hdump : s.dump with
  | true =>
    rw [if_pos rfl]
    dsimp only
    rw [Fifo.written_write]
    exact h.dump_turn hdump missed
  | false =>
    rw [if_neg Bool.false_ne_true]
    cases hx : src.readNb with
    | some p =>
      obtain ⟨x, src'⟩ := p
      dsimp only
      rw [Fifo.consumed_of_readNb hx]
      exact h.consume hdump missed x
    | none =>
      obtain ⟨hptr, hmem, hdst⟩ := h.consuming hdump
      refine ⟨⟨rfl, h.forwarding.z, h.forwarding.zz⟩, fun _ =>
        ⟨hptr, ?_, hdst⟩, fun hd => ?_⟩
      · exact (mem_store_repeat h.forwarding).trans hmem
      · exact absurd (hdump.symm.trans hd) Bool.false_ne_true

variable (f s) (missed : Fin 4) (src : Fifo (Flit (BitVec w × I)))
    (dst : Fifo (Flit V))

@[simp] theorem written_collect :
    (collect f missed s src dst).2.1.written = src.written := by
  unfold collect
  split
  · rfl
  · split
    · next hx => exact Fifo.written_of_readNb hx
    · rfl

@[simp] theorem consumed_collect : (collect f missed s src dst).2.2.consumed
    = dst.consumed := by
  unfold collect
  split
  · rfl
  · split <;> rfl

/-- A call of `collect` lets its streams grow. -/
theorem collect_grows : Grows src (collect f missed s src dst).2.1
    ∧ Grows dst (collect f missed s src dst).2.2 := by
  unfold collect
  split
  · exact ⟨Growing.refl _, Fifo.grows_write _ _⟩
  · split
    · next hx => exact ⟨Fifo.grows_of_readNb hx, Growing.refl _⟩
    · exact ⟨Growing.refl _, Growing.refl _⟩

/-- **No input is consumed while dumping**: the elements of the next job wait in
the stream. -/
theorem collect_src_of_dump (h : s.dump = true) :
    (collect f missed s src dst).2.1 = src := by
  unfold collect
  rw [if_pos h]

/-- **An idle `Collect`** is not dumping, since a dump writes in every call, and
it has nothing to read. -/
theorem collect_idle (hsrc : (collect f missed s src dst).2.1 = src)
    (hdst : (collect f missed s src dst).2.2 = dst) :
    s.dump = false ∧ src.pending = [] := by
  unfold collect at hsrc hdst
  cases hdump : s.dump with
  | true =>
    rw [if_pos hdump] at hdst
    exact absurd hdst (Fifo.write_ne _ _)
  | false =>
    rw [if_neg (by simp [hdump])] at hsrc
    refine ⟨rfl, ?_⟩
    cases hx : src.readNb with
    | none => exact Fifo.readNb_eq_none.mp hx
    | some p =>
      rw [hx] at hsrc
      exact absurd hsrc (Fifo.ne_of_readNb hx)

/-- A `Collect` that is not dumping and has nothing to read stays so, whatever
its read misses. -/
theorem dump_collect (hdump : s.dump = false) (hsrc : src.pending = []) :
    (collect f missed s src dst).1.dump = false := by
  unfold collect
  rw [if_neg (by simp [hdump]), Fifo.readNb_eq_none.mpr hsrc]
  exact hdump

end Collect

/-- What a `Collect` has written is the beginning of the dumps of its jobs, in
the middle of a dump as well. -/
theorem Collected.isPrefix {f : V → I → V} {s : Collect w V}
    {src : List (Flit (BitVec w × I))} {dst : List (Flit V)}
    (h : Collected f s src dst) :
    dst <+: (jobsOf src).flatMap (fun job => frame (dumped f job)) := by
  cases hdump : s.dump with
  | false => rw [(h.consuming hdump).2.2]
  | true =>
    obtain ⟨-, jobs, job, hjobs, -, hdst⟩ := h.dumping hdump
    rw [hdst, hjobs, List.flatMap_append, List.flatMap_singleton]
    exact (List.prefix_append_right_inj _).mpr (List.take_prefix _ _)

end Collect

/-! ## Runs

A `Collect` on its own, between two streams, with elements that arrive whenever
they do. In the kernel it stands in a network, and only its equation is used
there. -/

/-- What can happen around a `Collect`: the next element arrives, or `collect`
is called, with a read that misses some writes. -/
inductive CollectEvent where
  | arrive
  /-- A call, with the number of writes its read of the memory misses. -/
  | call (missed : Fin 4)

/-- A `Collect` between its streams, and the elements still to arrive. Nothing
is taken from `dst`, so that it shows everything written. -/
structure CollectRun (w : ℕ) (V I : Type*) where
  state : Collect w V
  src : Fifo (Flit (BitVec w × I))
  dst : Fifo (Flit V)
  /-- The elements that have not arrived yet. -/
  arriving : List (Flit (BitVec w × I))

namespace CollectRun

/-- The start, with all jobs still to arrive, each framed by its `last`. -/
def start (V : Type*) [Zero V] (jobs : List (List (BitVec w × I))) :
    CollectRun w V I :=
  ⟨Collect.init, Fifo.new, Fifo.new, jobs.flatMap frame⟩

/-- One event. An arrival puts the next element into the input stream, and a
call is a call of `collect` with the streams as they are. -/
def step (f : V → I → V) (r : CollectRun w V I) :
    CollectEvent → CollectRun w V I
  | .arrive =>
    match r.arriving with
    | [] => r
    | x :: rest => { r with src := r.src.write x, arriving := rest }
  | .call missed =>
    let p := Collect.collect f missed r.state r.src r.dst
    ⟨p.1, p.2.1, p.2.2, r.arriving⟩

/-- **The invariant of a run**: the equation of `Collect`, and nothing is lost
on the way in. -/
structure Sound (f : V → I → V) (jobs : List (List (BitVec w × I)))
    (r : CollectRun w V I) :
    Prop where
  collected : Collect.Collected f r.state r.src.consumed r.dst.written
  /-- What has arrived and what is still to arrive are all elements of the
  jobs. -/
  arrived : r.src.written ++ r.arriving = jobs.flatMap frame

theorem sound_start (f : V → I → V) (jobs : List (List (BitVec w × I))) :
    (start V jobs).Sound f jobs :=
  ⟨Collect.collected_init f, rfl⟩

variable {f : V → I → V} {jobs : List (List (BitVec w × I))}
    {r : CollectRun w V I}

/-- Every event keeps the invariant: an arrival moves an element, a call keeps
the equation. -/
theorem Sound.step (h : r.Sound f jobs) (e : CollectEvent) :
    (r.step f e).Sound f jobs := by
  cases e with
  | arrive =>
    unfold CollectRun.step
    cases harr : r.arriving with
    | nil => simpa only [harr] using h
    | cons x rest =>
      refine ⟨h.collected, ?_⟩
      show (r.src.write x).written ++ rest = _
      rw [Fifo.written_write, List.append_assoc, List.singleton_append, ← harr]
      exact h.arrived
  | call missed =>
    refine ⟨Collect.collect_sound h.collected missed, ?_⟩
    show (Collect.collect f missed r.state r.src r.dst).2.1.written
      ++ r.arriving = _
    rw [Collect.written_collect]
    exact h.arrived

/-- The jobs consumed are the first of all jobs: what arrives is consumed in
order. -/
theorem Sound.jobs_isPrefix (h : r.Sound f jobs)
    (hjobs : ∀ job ∈ jobs, job ≠ []) :
    jobsOf r.src.consumed <+: jobs := by
  have hall : r.src.consumed <+: jobs.flatMap frame :=
    h.arrived ▸ r.src.consumed_isPrefix.trans (List.prefix_append _ _)
  have hjobsOf := jobsOf_isPrefix hall
  rwa [jobsOf_flatMap_frame hjobs] at hjobsOf

/-- What is written is the beginning of the dumps of all jobs, at any point of
the run. -/
theorem Sound.written_isPrefix (h : r.Sound f jobs)
    (hjobs : ∀ job ∈ jobs, job ≠ []) :
    r.dst.written <+: jobs.flatMap (fun job => frame (dumped f job)) :=
  h.collected.isPrefix.trans (flatMap_isPrefix (h.jobs_isPrefix hjobs) _)

/-- **An idle `Collect` has dumped every job**, when everything has arrived and
the input is empty. -/
theorem Sound.written_eq (h : r.Sound f jobs) (hjobs : ∀ job ∈ jobs, job ≠ [])
    (harr : r.arriving = []) (hdump : r.state.dump = false)
    (hsrc : r.src.pending = []) :
    r.dst.written = jobs.flatMap (fun job => frame (dumped f job)) := by
  have hconsumed : r.src.consumed = jobs.flatMap frame := by
    rw [Fifo.consumed_eq_written hsrc, ← h.arrived, harr, List.append_nil]
  rw [(h.collected.consuming hdump).2.2, hconsumed, jobsOf_flatMap_frame hjobs]

/-- Events let the output grow: nothing written is changed later. -/
theorem dst_grows (f : V → I → V) (r : CollectRun w V I) (e : CollectEvent) :
    Grows r.dst (r.step f e).dst := by
  cases e with
  | arrive =>
    unfold CollectRun.step
    cases r.arriving <;> exact Growing.refl _
  | call missed => exact (Collect.collect_grows f r.state missed r.src r.dst).2

/-- Everything arrives, after as many arrivals as there are elements. -/
theorem arriving_foldl (f : V → I → V) (r : CollectRun w V I) :
    ((List.replicate r.arriving.length CollectEvent.arrive).foldl
      (CollectRun.step f) r).arriving
      = [] := by
  obtain ⟨state, src, dst, arriving⟩ := r
  induction arriving generalizing src with
  | nil => rfl
  | cons x rest ih => exact ih (src.write x)

/-- **After enough calls every job is dumped**: a call that changes no stream
means that there is nothing left to do, and the streams only grow so far. -/
theorem Sound.completes (h : r.Sound f jobs) (hjobs : ∀ job ∈ jobs, job ≠ [])
    (harr : r.arriving = []) {calls : List (Fin 4)}
    (hcalls : 2 * (jobs.flatMap frame).length
      + 2 * (jobs.flatMap (fun job => frame (dumped f job))).length
        < calls.length) :
    ((calls.map CollectEvent.call).foldl (CollectRun.step f) r).dst.written
      = jobs.flatMap (fun job => frame (dumped f job)) := by
  rw [List.foldl_map]
  refine done_of_length (fun r : CollectRun w V I => (r.src, r.dst))
    (fun r missed => r.step f (.call missed))
      (fun r => r.Sound f jobs ∧ r.arriving = [])
    (fun r => r.dst.written = jobs.flatMap (fun job => frame (dumped f job)))
      ?_ ?_ ?_ ?_ ?_
    ⟨h, harr⟩ hcalls
  · exact fun r missed hr => ⟨hr.1.step _, hr.2⟩
  · exact fun r missed => Collect.collect_grows f r.state missed r.src r.dst
  · intro r missed hr hsame
    have hidle := Collect.collect_idle f r.state missed r.src r.dst
      (congrArg Prod.fst hsame) (congrArg Prod.snd hsame)
    exact hr.1.written_eq hjobs hr.2 hidle.1 hidle.2
  · intro r missed hr hall
    refine ((hr.1.step (.call missed)).written_isPrefix
      hjobs).eq_of_length_le ?_
    rw [← hall]
    exact (dst_grows f r (.call missed)).2.length_le
  · intro r hr
    exact Nat.add_le_add
      (Fifo.size_le (hr.1.arrived ▸ (List.prefix_append _ _).length_le))
      (Fifo.size_le (hr.1.written_isPrefix hjobs).length_le)

/-- **`Collect` is a table.** For every key width, every update function, every
sequence of jobs, every interleaving of arrivals and calls and every choice of
the writes a read misses: `Collect` emits for its jobs, one after the other, one
element per key in the order of the keys, with the left fold over the values of
that key from zero, and `last` on the final one; whatever has happened, enough
further calls complete the output; nothing is read while dumping; and between
jobs the memory reads zero everywhere. -/
theorem collect_is_table (f : V → I → V) {jobs : List (List (BitVec w × I))}
    (hjobs : ∀ job ∈ jobs, job ≠ []) (schedule : List CollectEvent) :
    let r := schedule.foldl (CollectRun.step f) (start V jobs)
    r.dst.written <+: jobs.flatMap (fun job => frame (dumped f job))
    ∧ (∃ n, ∀ calls : List (Fin 4), n < calls.length →
        ((List.replicate r.arriving.length CollectEvent.arrive
          ++ calls.map CollectEvent.call).foldl
            (CollectRun.step f) r).dst.written
          = jobs.flatMap (fun job => frame (dumped f job)))
    ∧ (r.state.dump = true → ∀ missed, (r.step f (.call missed)).src = r.src)
    ∧ (r.state.dump = false → partOf r.src.consumed = [] →
        ∀ missed k, r.state.currVal missed k = 0) := by
  intro r
  have hsound : r.Sound f jobs :=
    foldl_invariant _ (fun _ e hr => hr.step e) schedule (sound_start f jobs)
  refine ⟨hsound.written_isPrefix hjobs, ⟨2 * (jobs.flatMap frame).length
      + 2 * (jobs.flatMap (fun job => frame (dumped f job))).length,
        fun calls hcalls => ?_⟩,
    fun hdump missed => ?_, fun hdump hpart missed k => ?_⟩
  · have harrived := foldl_invariant (CollectRun.step f)
      (fun _ e hr => hr.step e)
      (List.replicate r.arriving.length CollectEvent.arrive) hsound
    rw [List.foldl_append]
    exact harrived.completes hjobs (arriving_foldl f r) hcalls
  · exact Collect.collect_src_of_dump f r.state missed r.src r.dst hdump
  · rw [Collect.currVal_eq hsound.collected.forwarding,
      (hsound.collected.consuming hdump).2.1, hpart]
    rfl

/-- Two jobs that count their keys: hits on one key in a row, a call without
input, and reads that miss three writes. -/
theorem collect_is_table_instance :
    let f : ℕ → ℕ → ℕ := fun a b => a + b
    let jobs : List (List (BitVec 1 × ℕ)) :=
      [[(1, 1), (1, 1), (0, 1)], [(1, 1)]]
    let schedule : List CollectEvent :=
      [.arrive, .arrive, .call 3, .call 3, .call 2, .arrive, .call 1]
    let r := schedule.foldl (CollectRun.step f) (start ℕ jobs)
    r.dst.written <+: jobs.flatMap (fun job => frame (dumped f job))
    ∧ (∃ n, ∀ calls : List (Fin 4), n < calls.length →
        ((List.replicate r.arriving.length CollectEvent.arrive
          ++ calls.map CollectEvent.call).foldl
            (CollectRun.step f) r).dst.written
          = jobs.flatMap (fun job => frame (dumped f job)))
    ∧ (r.state.dump = true → ∀ missed, (r.step f (.call missed)).src = r.src)
    ∧ (r.state.dump = false → partOf r.src.consumed = [] →
        ∀ missed k, r.state.currVal missed k = 0) :=
  collect_is_table _ (by decide) _

end CollectRun

end Skt.Hardware
