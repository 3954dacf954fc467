import Skt.Lib.Runs

/-!
# First-in first-out streams with their history

A stream is what has been taken from it, followed by what is waiting in it.
Keeping the taken part makes the history of a stream a value: `written` only
ever grows at its end by a write, `consumed` only by a read, and neither moves
under the other operation. A process between streams can then be described by an
equation between what it has consumed and what it has written, and such an
equation is not disturbed by what the neighbours do.

The second half of the module is about termination. Histories only grow, so a
network whose histories are bounded cannot go on for ever. `Growing` says this
for any type built from streams, `done_of_length` and `done_of_rounds` turn it
into bounds on schedules, and `exists_not_outgrown` into the existence of a
schedule after which nothing happens any more.
-/

namespace Streams

open Runs

/-- **A stream**: the elements taken from it and the elements waiting in it.

A reader sees only the waiting ones. The taken ones are there for the
statements: they are the part of the history that the reader has already acted
on. -/
@[ext] structure Fifo (α : Type*) where
  /-- What has been read from the stream. It is kept, so that equations can be
  stated about it. -/
  consumed : List α
  /-- What has been written and not read. -/
  pending : List α

namespace Fifo

variable {α : Type*}

/-- A new stream, with nothing put in and nothing taken. -/
def new : Fifo α := ⟨[], []⟩

/-- Everything ever put into the stream, in the order in which it was put in. -/
def written (s : Fifo α) : List α := s.consumed ++ s.pending

/-- Putting an element into the stream. There is always room: a bound on the
number of waiting elements would only take schedules away. -/
def write (s : Fifo α) (y : α) : Fifo α := ⟨s.consumed, s.pending ++ [y]⟩

/-- Taking the first waiting element, if there is one. This is the non-blocking
read, which tells the caller when there is nothing. -/
def readNb (s : Fifo α) : Option (α × Fifo α) :=
  match s.pending with
  | [] => none
  | x :: rest => some (x, ⟨s.consumed ++ [x], rest⟩)

/-- Taking the first waiting element of a stream that is not empty. This is the
blocking read at a moment when it does not block, and the proof `h` says that it
does not. -/
def read (s : Fifo α) (h : s.pending ≠ []) : α × Fifo α :=
  (s.pending.head h, ⟨s.consumed ++ [s.pending.head h], s.pending.tail⟩)

@[simp] theorem consumed_new : (new : Fifo α).consumed = [] := rfl

@[simp] theorem pending_new : (new : Fifo α).pending = [] := rfl

@[simp] theorem written_new : (new : Fifo α).written = [] := rfl

@[simp] theorem written_write (s : Fifo α) (y : α) :
    (s.write y).written = s.written ++ [y] :=
  (List.append_assoc _ _ _).symm

@[simp] theorem consumed_write (s : Fifo α) (y : α) :
    (s.write y).consumed = s.consumed := rfl

/-- A write changes the stream, so a call that leaves all streams as they are
has written nothing. -/
theorem write_ne (s : Fifo α) (y : α) : s.write y ≠ s := by
  intro h
  have hlen := congrArg (fun t : Fifo α => t.written.length) h
  simp at hlen

/-- What is taken was put in before, and in the same order. -/
theorem consumed_isPrefix (s : Fifo α) : s.consumed <+: s.written :=
  List.prefix_append _ _

/-- Everything has been taken from an empty stream. At rest this turns what a
process has consumed into what its neighbour has produced. -/
theorem consumed_eq_written {s : Fifo α} (h : s.pending = []) :
    s.consumed = s.written := by
  rw [written, h, List.append_nil]

/-- There is nothing to take from an empty stream, and only from an empty
one. -/
theorem readNb_eq_none {s : Fifo α} : s.readNb = none ↔ s.pending = [] := by
  unfold readNb
  cases s.pending <;> simp

/-- **Taking an element** moves it from the waiting to the taken ones.

Both sides are given: what the stream was and what it becomes, so a proof about
a call that reads takes the stream apart once and never unfolds the read. -/
theorem readNb_eq_some {s s' : Fifo α} {x : α} :
    s.readNb = some (x, s') ↔ ∃ rest, s.pending = x :: rest
      ∧ s' = ⟨s.consumed ++ [x], rest⟩ := by
  unfold readNb
  cases s.pending with
  | nil => simp
  | cons y rest =>
    simp only [Option.some.injEq, Prod.mk.injEq, List.cons.injEq]
    constructor
    · rintro ⟨rfl, rfl⟩
      exact ⟨rest, ⟨rfl, rfl⟩, rfl⟩
    · rintro ⟨_, ⟨rfl, rfl⟩, rfl⟩
      exact ⟨rfl, rfl⟩

/-- A stream that is not empty can be read, and then both reads agree. -/
theorem readNb_eq_read {s : Fifo α} (h : s.pending ≠ []) :
    s.readNb = some (s.read h) := by
  refine readNb_eq_some.mpr ⟨s.pending.tail, ?_, rfl⟩
  exact (List.cons_head_tail h).symm

section Read

variable {s s' : Fifo α} {x : α} (h : s.readNb = some (x, s'))
include h

/-- A read takes the element it returns and puts it at the end of the history of
the reader. -/
theorem consumed_of_readNb : s'.consumed = s.consumed ++ [x] := by
  obtain ⟨rest, -, rfl⟩ := readNb_eq_some.mp h
  rfl

/-- A read puts nothing in: the history of the writer is the same before and
after. -/
theorem written_of_readNb : s'.written = s.written := by
  obtain ⟨rest, hrest, rfl⟩ := readNb_eq_some.mp h
  unfold written
  rw [hrest]
  simp

/-- A read changes the stream, so a call that leaves all streams as they are has
read nothing. -/
theorem ne_of_readNb : s' ≠ s := by
  intro he
  have hlen := congrArg (fun t : Fifo α => t.consumed.length) he
  simp only [consumed_of_readNb h] at hlen
  simp at hlen

/-- **What is read next is what was put in next**: in a longer history with the
same beginning, the element sits right behind the ones taken before. -/
theorem getElem?_of_readNb {l : List α} (hl : s.written <+: l) :
    l[s.consumed.length]? = some x := by
  have hprefix : s.consumed ++ [x] <+: l := by
    have hread := s'.consumed_isPrefix
    rw [consumed_of_readNb h, written_of_readNb h] at hread
    exact hread.trans hl
  obtain ⟨rest, rfl⟩ := hprefix
  simp

end Read

/-- Dropping what is waiting, as when the stream goes out of scope and a new one
takes its place. What was taken stays part of the history, what was waiting
leaves it. -/
def discard (s : Fifo α) : Fifo α := ⟨s.consumed, []⟩

/-- Nothing is lost with an empty stream. A stream that is local to a function
body is harmless exactly when the function leaves it empty. -/
theorem discard_of_pending {s : Fifo α} (h : s.pending = []) :
    s.discard = s := by
  cases s
  cases h
  rfl

/-! ## Streams seen through a function -/

section Map

variable {β : Type*} (f : α → β)

/-- A stream whose elements are read through a function, such as a field of a
record that travels whole. -/
def map (s : Fifo α) : Fifo β := ⟨s.consumed.map f, s.pending.map f⟩

@[simp] theorem consumed_map (s : Fifo α) :
    (s.map f).consumed = s.consumed.map f := rfl

@[simp] theorem pending_map (s : Fifo α) :
    (s.map f).pending = s.pending.map f := rfl

@[simp] theorem written_map (s : Fifo α) :
    (s.map f).written = s.written.map f :=
  (@List.map_append _ _ f s.consumed s.pending).symm

/-- Reading through a function: the element is the image of the one underneath,
and the two streams stay in step. -/
theorem readNb_map (s : Fifo α) :
    (s.map f).readNb = s.readNb.map (fun p => (f p.1, p.2.map f)) := by
  unfold readNb
  rw [pending_map]
  cases s.pending with
  | nil => rfl
  | cons x rest =>
    show some (f x, (⟨s.consumed.map f ++ [f x], rest.map f⟩ : Fifo β))
      = some (f x, ⟨(s.consumed ++ [x]).map f, rest.map f⟩)
    rw [List.map_append, List.map_singleton]

end Map

/-! ## Streams filled from an input -/

/-- The next element of an input arrives, if there is one left.

The input is a list that is given as a whole, and the length of the history says
how much of it has arrived. An environment that feeds a network at its own pace
is one more actor that calls this. -/
def arrive (input : List α) (s : Fifo α) : Fifo α :=
  match input[s.written.length]? with
  | none => s
  | some x => s.write x

/-- **A stream filled from an input** has its beginning, however often and
whenever something arrives. -/
theorem written_arrive {input : List α} {s : Fifo α} (h : s.written <+: input) :
    (s.arrive input).written <+: input := by
  unfold arrive
  cases hx : input[s.written.length]? with
  | none => exact h
  | some x =>
    obtain ⟨rest, rfl⟩ := h
    rw [List.getElem?_append_right le_rfl, Nat.sub_self] at hx
    cases rest with
    | nil => cases hx
    | cons y rest =>
      obtain rfl := Option.some.inj hx
      rw [written_write]
      exact ⟨rest, by simp⟩

@[simp] theorem consumed_arrive (input : List α) (s : Fifo α) :
    (s.arrive input).consumed = s.consumed := by
  unfold arrive
  split <;> rfl

end Fifo

/-! ## Growth

The streams of a network are families and tuples of streams. What holds of all
of them is stated once, for a type whose values grow and have a size. -/

/-- **A type whose values grow**, with a size that tells whether they did.

Growth is an order up to equality of sizes: what grows and keeps its size has
not changed at all. This is what lets a bound on sizes end a run. -/
class Growing (τ : Type*) where
  /-- `s'` has everything that `s` has, and possibly more. -/
  Grows : τ → τ → Prop
  /-- How far a value has grown. -/
  size : τ → ℕ
  refl : ∀ s, Grows s s
  trans : ∀ {s s' s''}, Grows s s' → Grows s' s'' → Grows s s''
  size_le : ∀ {s s'}, Grows s s' → size s ≤ size s'
  /-- Growth without growth in size is none. -/
  eq_of_size : ∀ {s s'}, Grows s s' → size s' ≤ size s → s' = s

export Growing (Grows)

/-- A stream grows by what is put in and by what is taken; its size counts
both. -/
instance {α : Type*} : Growing (Fifo α) where
  Grows s s' := s.consumed <+: s'.consumed ∧ s.written <+: s'.written
  size s := s.consumed.length + s.written.length
  refl _ := ⟨List.prefix_rfl, List.prefix_rfl⟩
  trans h h' := ⟨h.1.trans h'.1, h.2.trans h'.2⟩
  size_le h := Nat.add_le_add h.1.length_le h.2.length_le
  eq_of_size {s s'} h hsize := by
    have h₁ := h.1.length_le
    have h₂ := h.2.length_le
    have hc : s.consumed = s'.consumed := h.1.eq_of_length (by omega)
    have hw : s.written = s'.written := h.2.eq_of_length (by omega)
    unfold Fifo.written at hw
    rw [hc] at hw
    exact Fifo.ext hc.symm (List.append_cancel_left hw).symm

/-- A family grows in its members. -/
instance {ι τ : Type*} [Fintype ι] [Growing τ] : Growing (ι → τ) where
  Grows s s' := ∀ i, Grows (s i) (s' i)
  size s := ∑ i, Growing.size (s i)
  refl s i := Growing.refl (s i)
  trans h h' i := Growing.trans (h i) (h' i)
  size_le h := Finset.sum_le_sum (fun i _ => Growing.size_le (h i))
  eq_of_size {s s'} h hsize := by
    have heq :=
      le_antisymm (Finset.sum_le_sum (fun i _ => Growing.size_le (h i))) hsize
    rw [Finset.sum_eq_sum_iff_of_le (fun i _ => Growing.size_le (h i))] at heq
    exact funext fun i => Growing.eq_of_size (h i)
      (heq i (Finset.mem_univ i)).ge

/-- A pair grows in its components. -/
instance {τ τ' : Type*} [Growing τ] [Growing τ'] : Growing (τ × τ') where
  Grows s s' := Grows s.1 s'.1 ∧ Grows s.2 s'.2
  size s := Growing.size s.1 + Growing.size s.2
  refl s := ⟨Growing.refl s.1, Growing.refl s.2⟩
  trans h h' := ⟨Growing.trans h.1 h'.1, Growing.trans h.2 h'.2⟩
  size_le h := Nat.add_le_add (Growing.size_le h.1) (Growing.size_le h.2)
  eq_of_size {s s'} h hsize := by
    have h₁ := Growing.size_le h.1
    have h₂ := Growing.size_le h.2
    exact Prod.ext (Growing.eq_of_size h.1 (by omega))
      (Growing.eq_of_size h.2 (by omega))

/-- One member of a family grows and the others stay, so the family grows. -/
theorem grows_update {ι τ : Type*} [Fintype ι] [DecidableEq ι]
    [Growing τ] {s : ι → τ} {i : ι}
    {t : τ} (h : Grows (s i) t) : Grows s (Function.update s i t) := by
  intro j
  by_cases hj : j = i
  · rw [hj, Function.update_self]
    exact h
  · rw [Function.update_of_ne hj]
    exact Growing.refl _

/-- A family is as large as its members allow: `m` members of size at most `b`
have at most `m * b` together. -/
theorem size_family_le {τ : Type*} [Growing τ] {m b : ℕ} {s : Fin m → τ}
    (h : ∀ i, Growing.size (s i) ≤ b) : Growing.size s ≤ m * b := by
  show ∑ i, Growing.size (s i) ≤ m * b
  simpa using Finset.sum_le_card_nsmul Finset.univ
    (fun i => Growing.size (s i)) b (fun i _ => h i)

/-- **A system that is never idle before it is done gets done**, when its
streams can only grow so far: after more moves than that it is.

Here every move counts, as in a system of which each call either reads or writes
unless everything is finished. `I` is the invariant the idleness is proved
under, and `done` has to be kept by later moves. -/
theorem done_of_length {σ τ α : Type*} [Growing τ]
    (streams : σ → τ) (step : σ → α → σ) (I done : σ → Prop) {n : ℕ}
    (hI : ∀ s a, I s → I (step s a))
    (hgrows : ∀ s a, Grows (streams s) (streams (step s a)))
    (hidle : ∀ s a, I s → streams (step s a) = streams s → done s)
    (hdone : ∀ s a, I s → done s → done (step s a))
    (hbound : ∀ s, I s → Growing.size (streams s) ≤ n) {s : σ} (hs : I s)
    {moves : List α}
    (hmoves : n < moves.length) : done (moves.foldl step s) := by
  have hstays : ∀ (moves : List α) (s : σ), I s → done s →
    done (moves.foldl step s) :=
    fun moves _ hs hd => (foldl_invariant step (I := fun s => I s ∧ done s)
      (fun s a h => ⟨hI s a h.1, hdone s a h.1 h.2⟩) moves ⟨hs, hd⟩).2
  -- every move before the end is growth
  have hprogress : ∀ (moves : List α) (s : σ), I s → done (moves.foldl step s)
      ∨ Growing.size (streams s) + moves.length
        ≤ Growing.size (streams (moves.foldl step s)) := by
    intro moves
    induction moves with
    | nil => exact fun s _ => Or.inr le_rfl
    | cons a moves ih =>
      intro s hs
      rcases ih _ (hI s a hs) with hd | hle
      · exact Or.inl hd
      · by_cases hsize : Growing.size (streams s) + 1
          ≤ Growing.size (streams (step s a))
        · refine Or.inr (le_trans ?_ hle)
          rw [List.length_cons]
          omega
        · have hsame := Growing.eq_of_size (hgrows s a) (Nat.le_of_not_lt hsize)
          exact Or.inl (hstays (a :: moves) s hs (hidle s a hs hsame))
  have hinv : I (moves.foldl step s) := foldl_invariant step hI moves hs
  rcases hprogress moves s hs with hd | hle
  · exact hd
  · have := hbound _ hinv
    omega

/-- Streams that grow with every call grow with a list of calls, in whatever
order the calls are made. -/
theorem grows_foldl {σ τ α : Type*} [Growing τ]
    (streams : σ → τ) (step : σ → α → σ)
    (hgrows : ∀ s a, Grows (streams s) (streams (step s a))) (calls : List α)
    (s : σ) :
    Grows (streams s) (streams (calls.foldl step s)) :=
  foldl_invariant step (I := fun t => Grows (streams s) (streams t))
    (fun t a h => Growing.trans h (hgrows t a)) calls (Growing.refl _)

/-- **A round that changes no stream leaves every task of it idle.**

A task whose call changed nothing is idle afterwards, and it stays so while the
streams stay as they are. So after a round without a change all the tasks that
had their turn in it are idle at once. -/
theorem idle_of_round {σ τ α κ : Type*} [Growing τ]
    (streams : σ → τ) (step : σ → α → σ) (task : α → κ) (Idle : κ → σ → Prop)
    (hgrows : ∀ s a, Grows (streams s) (streams (step s a)))
    (hidle : ∀ s a, streams (step s a) = streams s → Idle (task a) (step s a))
    (hkeep : ∀ s a k, Idle k s → streams (step s a) = streams s →
      Idle k (step s a)) {s : σ}
    {round : List α} (hsame : streams (round.foldl step s) = streams s) :
    ∀ k, Idle k s
      ∨ (∃ a ∈ round, task a = k) → Idle k (round.foldl step s) := by
  induction round generalizing s with
  | nil =>
    rintro k (hk | ⟨a, ha, -⟩)
    · exact hk
    · exact absurd ha List.not_mem_nil
  | cons a round ih =>
    -- the first call changes nothing, as what follows would not undo it
    have hfirst : streams (step s a) = streams s := by
      refine Growing.eq_of_size (hgrows s a) ?_
      calc Growing.size (streams (step s a))
          ≤ Growing.size (streams ((a :: round).foldl step s)) :=
            Growing.size_le (grows_foldl streams step hgrows round _)
        _ = Growing.size (streams s) := by rw [hsame]
    rintro k hk
    refine ih (hsame.trans hfirst.symm) k ?_
    rcases hk with hk | ⟨b, hb, hbk⟩
    · exact Or.inl (hkeep s a k hk hfirst)
    · rcases List.mem_cons.mp hb with rfl | hb
      · exact Or.inl (hbk ▸ hidle s b hfirst)
      · exact Or.inr ⟨b, hb, hbk⟩

/-- **A system that is done whenever all its tasks are idle gets done** after
enough rounds, when its streams can only grow so far: a round is any list of
calls in which every task has its turn.

Rounds are what fairness comes to in a finite schedule. Within one the tasks may
come in any order and any number of times, so the result covers a simulator that
calls the tasks one after the other as well as hardware in which they run at
their own speeds. -/
theorem done_of_rounds {σ τ α κ : Type*} [Growing τ]
    (streams : σ → τ) (step : σ → α → σ) (task : α → κ) (Idle : κ → σ → Prop)
    (I : σ → Prop) (done : τ → Prop) {n : ℕ} (hI : ∀ s a, I s → I (step s a))
    (hgrows : ∀ s a, Grows (streams s) (streams (step s a)))
    (hidle : ∀ s a, streams (step s a) = streams s → Idle (task a) (step s a))
    (hkeep : ∀ s a k, Idle k s → streams (step s a) = streams s →
      Idle k (step s a))
    (hdone : ∀ s, I s → (∀ k, Idle k s) → done (streams s))
    (hstays : ∀ s a, I s → done (streams s) → done (streams (step s a)))
    (hbound : ∀ s, I s → Growing.size (streams s) ≤ n) {s : σ} (hs : I s)
    {rounds : List (List α)}
    (hrounds : ∀ round ∈ rounds, ∀ k, ∃ a ∈ round, task a = k)
    (hlength : n < rounds.length) :
    done (streams (rounds.flatten.foldl step s)) := by
  have hIrun : ∀ (round : List α) (s : σ), I s → I (round.foldl step s) :=
    fun round _ hs => foldl_invariant step hI round hs
  have hstaysRun : ∀ (round : List α) (s : σ), I s → done (streams s) →
      done (streams (round.foldl step s)) := fun round _ hs hd =>
    (foldl_invariant step (I := fun s => I s ∧ done (streams s))
      (fun s a h => ⟨hI s a h.1, hstays s a h.1 h.2⟩) round ⟨hs, hd⟩).2
  -- a round is a move of a system with moves that have every task in them
  have hall : n
    < (rounds.attachWith (fun round => ∀ k, ∃ a ∈ round, task a = k)
      hrounds).length := by
    rwa [List.length_attachWith]
  have hmoves := done_of_length streams
    (fun s (round : {round : List α // ∀ k, ∃ a ∈ round, task a = k}) =>
      round.1.foldl step s)
    I (fun s => done (streams s)) (fun s round hs => hIrun round.1 s hs)
    (fun s round => grows_foldl streams step hgrows round.1 s)
    (fun s round hs hsame => by
      have hall := idle_of_round streams step task Idle hgrows hidle hkeep hsame
      rw [← hsame]
      exact hdone _ (hIrun round.1 s hs) (fun k => hall k (Or.inr (round.2 k))))
    (fun s round hs hd => hstaysRun round.1 s hs hd) hbound hs hall
  rw [← List.foldl_map (f := Subtype.val)
    (g := fun s (round : List α) => round.foldl step s),
    List.attachWith_map_subtype_val] at hmoves
  rw [List.foldl_flatten]
  exact hmoves

/-- **Bounded streams**: their size has a bound that holds in all states of a
set. The bound is not named, since only its existence is used. -/
def Bounded {σ τ : Type*} [Growing τ] (S : σ → Prop) (streams : σ → τ) : Prop :=
  ∃ n, ∀ s, S s → Growing.size (streams s) ≤ n

/-- A pair of bounded streams is bounded. -/
theorem Bounded.prod {σ τ τ' : Type*} [Growing τ] [Growing τ']
    {S : σ → Prop} {f : σ → τ} {g : σ → τ'} (hf : Bounded S f)
    (hg : Bounded S g) :
    Bounded S (fun s => (f s, g s)) := by
  obtain ⟨m, hm⟩ := hf
  obtain ⟨n, hn⟩ := hg
  exact ⟨m + n, fun s hs => Nat.add_le_add (hm s hs) (hn s hs)⟩

/-- A family of bounded streams is bounded. The members may have different
bounds; the family is finite, so there is one for all. -/
theorem Bounded.family {σ ι τ : Type*} [Fintype ι] [Growing τ]
    {S : σ → Prop} {f : σ → ι → τ}
    (hf : ∀ i, Bounded S (fun s => f s i)) : Bounded S f := by
  choose n hn using hf
  exact ⟨∑ i, n i, fun s hs => Finset.sum_le_sum (fun i _ => hn i s hs)⟩

/-- **Where all sizes are bounded, growth comes to an end**: some member of a
set of values cannot be outgrown within the set.

With the reachable states for the set this is a schedule after which no
continuation changes a stream any more. -/
theorem exists_not_outgrown {σ τ : Type*} [Growing τ] (streams : σ → τ)
    {S : σ → Prop} {s₀ : σ} (h₀ : S s₀) (hbound : Bounded S streams) :
    ∃ s, S s ∧ ∀ s', S s' → Grows (streams s) (streams s') →
      streams s' = streams s := by
  obtain ⟨n, hbound⟩ := hbound
  have hmax : ∃ s, S s ∧ ∀ s', S s' → Growing.size (streams s')
    ≤ Growing.size (streams s) := by
    by_contra hnone
    -- sizes without a bound
    have hall : ∀ k, ∃ s, S s ∧ k ≤ Growing.size (streams s) := by
      intro k
      induction k with
      | zero => exact ⟨s₀, h₀, Nat.zero_le _⟩
      | succ k ih =>
        obtain ⟨s, hs, hk⟩ := ih
        by_contra hless
        refine hnone ⟨s, hs, fun s' hs' => ?_⟩
        by_contra hlt
        exact hless ⟨s', hs', by omega⟩
    obtain ⟨s, hs, hn⟩ := hall (n + 1)
    have := hbound s hs
    omega
  obtain ⟨s, hs, hle⟩ := hmax
  exact ⟨s, hs, fun s' hs' hgrows => Growing.eq_of_size hgrows (hle s' hs')⟩

namespace Fifo

variable {α : Type*}

/-- What is put in makes a stream grow. -/
theorem grows_write (s : Fifo α) (y : α) : Grows s (s.write y) :=
  ⟨List.prefix_rfl, by rw [written_write]; exact List.prefix_append _ _⟩

/-- What arrives makes a stream grow. -/
theorem grows_arrive (input : List α) (s : Fifo α) :
    Grows s (s.arrive input) := by
  unfold arrive
  split
  · exact Growing.refl _
  · exact grows_write _ _

/-- When nothing arrives any more, everything has arrived: the history is as
long as the input. -/
theorem length_le_of_arrive {input : List α} {s : Fifo α}
    (h : s.arrive input = s) :
    input.length ≤ s.written.length := by
  unfold arrive at h
  cases hx : input[s.written.length]? with
  | none => exact List.getElem?_eq_none_iff.mp hx
  | some x =>
    rw [hx] at h
    exact absurd h (write_ne _ _)

/-- What is taken makes a stream grow, since the taken elements are part of its
history. -/
theorem grows_of_readNb {s s' : Fifo α} {x : α}
    (h : s.readNb = some (x, s')) : Grows s s' :=
  ⟨by rw [consumed_of_readNb h]; exact List.prefix_append _ _,
    by rw [written_of_readNb h]⟩

/-- The size of a stream is at most twice the length of its history: every
element counts once when it is put in and once when it is taken. -/
theorem size_le {s : Fifo α} {n : ℕ} (h : s.written.length ≤ n) :
    Growing.size s ≤ 2 * n := by
  have hc := s.consumed_isPrefix.length_le
  show s.consumed.length + s.written.length ≤ 2 * n
  omega

/-- A stream with a history of bounded length is bounded. -/
theorem bounded {σ : Type*} {S : σ → Prop} {f : σ → Fifo α} {n : ℕ}
    (h : ∀ s, S s → (f s).written.length ≤ n) : Bounded S f :=
  ⟨2 * n, fun s hs => size_le (h s hs)⟩

end Fifo

end Streams
