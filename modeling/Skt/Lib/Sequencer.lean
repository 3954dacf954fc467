import Mathlib

/-!
# Machines that choose which input to read

A sequencer has several input streams and always waits for one of them, named by
its own state. What arrives on the others in the meantime does not matter to it.
A script lists the elements in the order in which the sequencer asks for them;
what each stream carries is the part of the script that is addressed to it.

The invariant of this module, `Sequencer.After`, says that a sequencer on such
streams has come a certain way down the script, whatever the timing: a read
takes it one entry further, and when the stream it waits for has nothing left
the script is at its end.

What comes out is therefore a function of what was put into each stream alone.
This is the reason why a process with blocking reads has one result under every
schedule, and it is used for every process here that collects from several
producers.
-/

namespace Streams

/-- **A sequencer**: the input it waits for, and what it does with an element it
reads. It cannot look whether an input has something, only wait for it. -/
structure Sequencer (ι β γ σ : Type*) where
  /-- The input that is read next, decided by the state alone. -/
  select : σ → ι
  /-- The state after an element has been read. -/
  next : σ → β → σ
  /-- What is put out for an element, none, one or several elements. -/
  out : σ → β → List γ

namespace Sequencer

variable {ι β γ σ : Type*} [DecidableEq ι] (m : Sequencer ι β γ σ)

/-- The state after a number of elements, from whichever inputs they came. -/
def run (s : σ) (xs : List β) : σ := xs.foldl m.next s

/-- The output for a number of elements, each in the state in which it was
read. -/
def emits (s : σ) : List β → List γ
  | [] => []
  | x :: xs => m.out s x ++ emits (m.next s x) xs

/-- A script addresses every element to the input the sequencer waits for. A
script with an element at the wrong input would never be read to its end. -/
def Follows (s : σ) : List (ι × β) → Prop
  | [] => True
  | (i, x) :: script => m.select s = i ∧ Follows (m.next s x) script

omit [DecidableEq ι] in
/-- Output in two steps, the second from the state the first one leads to. -/
theorem emits_append (s : σ) (xs ys : List β) :
    m.emits s (xs ++ ys) = m.emits s xs ++ m.emits (m.run s xs) ys := by
  induction xs generalizing s with
  | nil => rfl
  | cons x xs ih =>
    show m.out s x ++ m.emits (m.next s x) (xs ++ ys) = _
    rw [ih, ← List.append_assoc]
    rfl

omit [DecidableEq ι] in
/-- A script in two parts: the second has to follow from the state the first
leads to. -/
theorem follows_append {s : σ} {script script' : List (ι × β)} :
    m.Follows s (script ++ script')
      ↔ m.Follows s script
        ∧ m.Follows (m.run s (script.map Prod.snd)) script' := by
  induction script generalizing s with
  | nil => simp [Follows, run]
  | cons e script ih =>
    obtain ⟨i, x⟩ := e
    show (m.select s = i ∧ m.Follows (m.next s x) (script ++ script'))
      ↔ (m.select s = i ∧ m.Follows (m.next s x) script)
        ∧ m.Follows (m.run (m.next s x) (script.map Prod.snd)) script'
    rw [ih, and_assoc]

/-- **A stretch of a script**: it leads from one state to another with a given
output.

Scripts are put together from stretches. What a job comes to is proved for the
entries of the job, and the stream of jobs is their repetition. -/
structure Passes (s : σ) (script : List (ι × β)) (s' : σ)
    (given : List γ) : Prop where
  /-- It asks for the inputs of the script, in this order. -/
  follows : m.Follows s script
  /-- It ends in the state. -/
  state : m.run s (script.map Prod.snd) = s'
  /-- And it gives out the list on the way. -/
  given : m.emits s (script.map Prod.snd) = given

omit [DecidableEq ι] in
/-- An empty stretch leads nowhere and gives nothing. -/
theorem passes_nil (s : σ) : m.Passes s [] s [] := ⟨trivial, rfl, rfl⟩

variable {m} in
omit [DecidableEq ι] in
/-- Two stretches in a row: where the first one ends the second one starts. -/
theorem Passes.append {s s' s'' : σ} {script script' : List (ι × β)}
    {given given' : List γ} (h : m.Passes s script s' given)
    (h' : m.Passes s' script' s'' given') :
    m.Passes s (script ++ script') s'' (given ++ given') where
  follows := by
    rw [follows_append, h.state]
    exact ⟨h.follows, h'.follows⟩
  state := by
    rw [List.map_append, run, List.foldl_append]
    exact (congrArg (fun t => m.run t _) h.state).trans h'.state
  given := by rw [List.map_append, emits_append, h.state, h.given, h'.given]

variable {m} in
omit [DecidableEq ι] in
/-- One entry is a stretch: the input it has to be addressed to, the next state
and the output are read off the sequencer. -/
theorem Passes.single {s s' : σ} {i : ι} {x : β} {given : List γ}
    (hi : m.select s = i) (hnext : m.next s x = s') (hout : m.out s x = given) :
    m.Passes s [(i, x)] s' given where
  follows := ⟨hi, trivial⟩
  state := hnext
  given := (List.append_nil _).trans hout

variable {m} in
omit [DecidableEq ι] in
/-- **A script that comes back to its start can be repeated**, job by job. The
state at the end of a job has to be the one at its beginning, with every counter
reset. -/
theorem passes_flatMap {α : Type*} {s : σ} {script : α → List (ι × β)}
    {given : α → List γ} {jobs : List α}
    (h : ∀ job ∈ jobs, m.Passes s (script job) s (given job)) :
    m.Passes s (jobs.flatMap script) s (jobs.flatMap given) := by
  induction jobs with
  | nil => exact m.passes_nil s
  | cons job jobs ih =>
    rw [List.flatMap_cons, List.flatMap_cons]
    exact (h job List.mem_cons_self).append
      (ih (fun j hj => h j (List.mem_cons_of_mem _ hj)))

/-- The part of a script addressed to one input, which is what the producer
behind that input has to supply. -/
def addressed (i : ι) (script : List (ι × β)) : List β :=
  (script.filter (fun e => e.1 = i)).map Prod.snd

/-- A script in two parts addresses to each input what the two parts do, in
their order. -/
theorem addressed_append (i : ι) (script script' : List (ι × β)) :
    addressed i (script ++ script') = addressed i script
      ++ addressed i script' := by
  unfold addressed
  rw [List.filter_append, List.map_append]

/-- A script of jobs addresses job by job, so each input carries a stream of
jobs, too. -/
theorem addressed_flatMap {α : Type*} (i : ι)
    (script : α → List (ι × β)) (jobs : List α) :
    addressed i (jobs.flatMap script)
      = jobs.flatMap (fun job => addressed i (script job)) := by
  induction jobs with
  | nil => rfl
  | cons job jobs ih =>
    rw [List.flatMap_cons, addressed_append, ih, List.flatMap_cons]

/-- **A script that goes through its inputs one by one** addresses to each of
them what it is fed. This is the script of a process that polls its inputs in
order and takes as much from each as there is for the job. -/
theorem addressed_feed (i : ι) (feed : ι → List β) {inputs : List ι}
    (hnodup : inputs.Nodup) (hi : i ∈ inputs) :
    addressed i (inputs.flatMap (fun i => (feed i).map (Prod.mk i)))
      = feed i := by
  have hone : ∀ j, addressed i ((feed j).map (Prod.mk j)) = if j
    = i then feed j else [] := by
    intro j
    unfold addressed
    by_cases h : j = i
    · rw [if_pos h, List.filter_eq_self.mpr (by simp [h]), List.map_map]
      exact List.map_id _
    · rw [if_neg h, List.filter_eq_nil_iff.mpr (by simp [h])]
      rfl
  induction inputs with
  | nil => exact absurd hi List.not_mem_nil
  | cons j inputs ih =>
    obtain ⟨hj, hrest⟩ := List.nodup_cons.mp hnodup
    rw [List.flatMap_cons, addressed_append, hone]
    by_cases h : j = i
    · -- nothing further on is addressed to this input
      have hnone : addressed i
        (inputs.flatMap (fun i => (feed i).map (Prod.mk i))) = [] := by
        rw [addressed_flatMap]
        refine List.flatMap_eq_nil_iff.mpr (fun k hk => ?_)
        rw [hone, if_neg (fun hki => hj (by rwa [h, ← hki]))]
      rw [if_pos h, hnone, List.append_nil, h]
    · rw [if_neg h, List.nil_append]
      exact ih hrest ((List.mem_cons.mp hi).resolve_left (Ne.symm h))

/-- **The way down a script.** After its first `n` entries the sequencer has
taken from every input what they address to it, and is in the state and has
given the output they lead to.

The number of entries is the only thing that changes with time. In particular no
input can be ahead of the script, however early its elements arrived. -/
structure After (s₀ : σ) (script : List (ι × β)) (n : ℕ)
    (taken : ι → List β) (s : σ)
    (given : List γ) : Prop where
  /-- What it has taken from each input is what the first `n` turns have asked
  of it. -/
  taken : ∀ i, taken i = addressed i (script.take n)
  /-- Its state and what it has given out are those after these turns. -/
  state : s = m.run s₀ ((script.take n).map Prod.snd)
  given : given = m.emits s₀ ((script.take n).map Prod.snd)

/-- At the start nothing has been read, from any input. -/
theorem after_zero (s₀ : σ) (script : List (ι × β)) :
    m.After s₀ script 0 (fun _ => []) s₀ [] :=
  ⟨fun _ => rfl, rfl, rfl⟩

section After

variable {m} {s₀ s : σ} {script : List (ι × β)} {n : ℕ}
    {taken : ι → List β} {given : List γ}

/-- What is left of a script follows from the state reached, so the next entry
is addressed to the input the sequencer waits for. -/
theorem After.follows_drop (h : m.After s₀ script n taken s given)
    (hs : m.Follows s₀ script) :
    m.Follows s (script.drop n) := by
  rw [← List.take_append_drop n script, follows_append, ← h.state] at hs
  exact hs.2

/-- What is left of a script carries on behind what is taken: the first element
left for an input is the one at the position its reader has come to. -/
theorem After.getElem?_addressed
    (h : m.After s₀ script n taken s given) (i : ι) :
    (addressed i script)[(taken i).length]?
      = (addressed i (script.drop n))[0]? := by
  conv_lhs => rw [← List.take_append_drop n script,
    addressed_append, ← h.taken i]
  rw [List.getElem?_append_right le_rfl, Nat.sub_self]

/-- **A read is the next entry of the script**: the element that comes next on
the input the sequencer waits for is the element the script has next.

The streams of the network enter through `hx` and the two equations about
`taken'`, so the rule can be used with whatever holds the histories. -/
theorem After.read (h : m.After s₀ script n taken s given)
    (hs : m.Follows s₀ script) {x : β}
    (hx : (addressed (m.select s) script)[(taken (m.select s)).length]?
      = some x)
    {taken' : ι → List β}
    (hself : taken' (m.select s) = taken (m.select s) ++ [x])
    (hother : ∀ i, i ≠ m.select s → taken' i = taken i) :
    m.After s₀ script (n + 1) taken' (m.next s x) (given ++ m.out s x) := by
  have hdrop := h.follows_drop hs
  rw [h.getElem?_addressed] at hx
  cases hrest : script.drop n with
  | nil =>
    rw [hrest] at hx
    cases hx
  | cons e rest =>
    obtain ⟨i, y⟩ := e
    rw [hrest] at hx hdrop
    obtain ⟨hi, -⟩ := hdrop
    -- the entry is addressed to the input selected
    have hxy : y = x := by
      rw [hi, addressed, List.filter_cons_of_pos (by simp)] at hx
      exact Option.some.inj hx
    have htake : script.take (n + 1) = script.take n ++ [(m.select s, x)] := by
      have hn : script[n]? = some (m.select s, x) := by
        rw [← List.head?_drop, hrest, hi, hxy]
        rfl
      rw [List.take_add_one, hn]
      rfl
    refine ⟨fun j => ?_, ?_, ?_⟩
    · rw [htake, addressed_append, ← h.taken j]
      by_cases hj : j = m.select s
      · rw [hj, hself]
        simp [addressed]
      · rw [hother j hj]
        simp [addressed, Ne.symm hj]
    · rw [htake, List.map_append, run, List.foldl_append]
      exact congrArg (m.next · x) h.state
    · rw [htake, List.map_append, emits_append, ← h.given, ← h.state]
      exact congrArg (given ++ ·) (List.append_nil _).symm

/-- The output is the beginning of what the whole script leads to, at any moment
and under any schedule. -/
theorem After.given_isPrefix (h : m.After s₀ script n taken s given) :
    given <+: m.emits s₀ (script.map Prod.snd) := by
  conv_rhs => rw [← List.take_append_drop n script, List.map_append,
    emits_append, ← h.given]
  exact List.prefix_append _ _

/-- **A sequencer that has nothing left to wait for is through its script.** -/
theorem After.through (h : m.After s₀ script n taken s given)
    (hs : m.Follows s₀ script)
    (hall : taken (m.select s) = addressed (m.select s) script) :
    (∀ i, taken i = addressed i script)
      ∧ s = m.run s₀ (script.map Prod.snd)
      ∧ given = m.emits s₀ (script.map Prod.snd) := by
  have hdrop := h.follows_drop hs
  have hend : script.drop n = [] := by
    cases hrest : script.drop n with
    | nil => rfl
    | cons e rest =>
      obtain ⟨i, y⟩ := e
      rw [hrest] at hdrop
      have hnone := h.getElem?_addressed (m.select s)
      rw [hall, List.getElem?_eq_none le_rfl, hrest, hdrop.1, addressed,
        List.filter_cons_of_pos (by simp)] at hnone
      cases hnone
  have htake : script.take n = script := by
    conv_rhs => rw [← List.take_append_drop n script, hend, List.append_nil]
  obtain ⟨h₁, h₂, h₃⟩ := h
  rw [htake] at h₂ h₃
  exact ⟨fun i => by rw [h₁ i, htake], h₂, h₃⟩

end After

end Sequencer

end Streams
