import Mathlib

/-!
# Loops over tables

A table is a list updated in place, entry by entry. Two loops recur: one that
visits every entry up to a bound, and one that updates a single entry in each of
several rows laid out one after the other. Both are described by what they do to
the entry at a given position, so that a proof about a table is a proof about
one entry and the loop is gone from it.

Where a turn may fail, for instance because an index is checked, the loop is a
fold in a monad, and it is described by its last turn. An induction on the
number of turns then has the checks of a single turn to discharge.
-/

namespace Table

variable {α : Type*}

/-! ## One entry after the other -/

/-- Visit the entries below `M` in order and update each in place. The update
sees its index. Entries past the end of the list are skipped, as `modify`
does. -/
def forEach (M : ℕ) (f : ℕ → α → α) (t : List α) : List α :=
  (List.range M).foldl (fun t i => t.modify i (f i)) t

/-- Visiting one entry more, the step of every induction on the bound. -/
theorem forEach_succ (M : ℕ) (f : ℕ → α → α) (t : List α) :
    forEach (M + 1) f t = (forEach M f t).modify M (f M) := by
  simp [forEach, List.range_succ]

@[simp] theorem length_forEach (M : ℕ) (f : ℕ → α → α) (t : List α) :
    (forEach M f t).length = t.length := by
  induction M with
  | zero => rfl
  | succ M ih => rw [forEach_succ, List.length_modify, ih]

/-- **The loop updates the entries below its bound and no other.** Each of them
is updated once and from its old value, since no turn reads another entry. -/
theorem getElem?_forEach (M : ℕ) (f : ℕ → α → α) (t : List α) (k : ℕ) :
    (forEach M f t)[k]? = t[k]?.map (fun c => if k < M then f k c else c) := by
  induction M with
  | zero => simp [forEach]
  | succ M ih =>
    rw [forEach_succ, List.getElem?_modify, ih]
    by_cases hk : M = k
    · subst hk
      cases t[M]? <;> simp
    · have hiff : k < M + 1 ↔ k < M := by omega
      cases t[k]? <;> simp [hk, hiff]

/-- **A loop that sets every entry** leaves nothing of the table. -/
theorem forEach_const (v : α) {M : ℕ} {t : List α} (ht : t.length = M) :
    forEach M (fun _ _ => v) t = List.replicate M v := by
  refine List.ext_getElem? fun k => ?_
  rw [getElem?_forEach, List.getElem?_replicate]
  by_cases hk : k < M
  · rw [List.getElem?_eq_getElem (ht ▸ hk), if_pos hk,
      Option.map_some, if_pos hk]
  · rw [List.getElem?_eq_none (ht ▸ Nat.not_lt.mp hk), if_neg hk]
    rfl

/-! ## Two tables, entry by entry -/

/-- **A loop that combines every entry with that of another table** combines the
tables.

The other table is read with a default, which is never used: both tables have
the length of the loop. -/
theorem forEach_eq_zipWith (op : α → α → α) (d : α) {M : ℕ}
    {t u : List α} (ht : t.length = M) (hu : u.length = M) :
    forEach M (fun i ref => op ref (u.getD i d)) t = List.zipWith op t u := by
  refine List.ext_getElem? (fun k => ?_)
  rw [getElem?_forEach, List.getElem?_zipWith, List.getD_eq_getElem?_getD]
  rcases Nat.lt_or_ge k M with hk | hk
  · have hkt : k < t.length := ht.symm ▸ hk
    have hku : k < u.length := hu.symm ▸ hk
    rw [List.getElem?_eq_getElem hkt, List.getElem?_eq_getElem hku]
    simp [hk]
  · have hkt : t.length ≤ k := ht.symm ▸ hk
    rw [List.getElem?_eq_none hkt]
    rfl

/-- **A contribution to the second table is one to both combined.** This is what
makes it the same to update a table that is merged later and to update the
merged one; the operation has to be associative for it. -/
theorem zipWith_modify (op : α → α → α)
    (hop : ∀ a b c, op a (op b c) = op (op a b) c) (t u : List α) (k : ℕ)
    (v : α) :
    List.zipWith op t (u.modify k (fun c => op c v))
      = (List.zipWith op t u).modify k (fun c => op c v) := by
  refine List.ext_getElem? (fun i => ?_)
  rw [List.getElem?_modify, List.getElem?_zipWith, List.getElem?_zipWith,
    List.getElem?_modify]
  cases t[i]? with
  | none => rfl
  | some a =>
    cases u[i]? with
    | none => rfl
    | some b =>
      by_cases hk : k = i
      · simp [hk, hop]
      · simp [hk]

/-- Combining with a table of neutral entries, such as one that has just been
cleared, changes nothing. -/
theorem zipWith_replicate_right (op : α → α → α) {e : α}
    (he : ∀ a, op a e = a) (t : List α) :
    List.zipWith op t (List.replicate t.length e) = t := by
  refine List.ext_getElem? (fun i => ?_)
  rw [List.getElem?_zipWith]
  rcases Nat.lt_or_ge i t.length with hi | hi
  · rw [List.getElem?_replicate, if_pos hi, List.getElem?_eq_getElem hi]
    exact congrArg some (he _)
  · rw [List.getElem?_eq_none hi]

/-- **Two tables combine alike with a third** when their entries do. The
equality is decided position by position. -/
theorem zipWith_eq_zipWith_iff (op : α → α → α) (d : α) {M : ℕ} {t u v : List α}
    (ht : t.length = M) (hu : u.length = M) (hv : v.length = M) :
    List.zipWith op t u = List.zipWith op t v
      ↔ ∀ i < M, op (t.getD i d) (u.getD i d)
        = op (t.getD i d) (v.getD i d) := by
  have hget : ∀ (w : List α), w.length = M → ∀ i < M,
      (List.zipWith op t w)[i]? = some (op (t.getD i d) (w.getD i d)) := by
    intro w hw i hi
    have hit : i < t.length := ht.symm ▸ hi
    have hiw : i < w.length := hw.symm ▸ hi
    rw [List.getElem?_zipWith, List.getD_eq_getElem?_getD,
      List.getD_eq_getElem?_getD,
      List.getElem?_eq_getElem hit, List.getElem?_eq_getElem hiw]
    rfl
  constructor
  · intro h i hi
    have hi' := congrArg (fun l => l[i]?) h
    simp only [hget u hu i hi, hget v hv i hi] at hi'
    exact Option.some.inj hi'
  · intro h
    refine List.ext_getElem? (fun i => ?_)
    rcases Nat.lt_or_ge i M with hi | hi
    · rw [hget u hu i hi, hget v hv i hi, h i hi]
    · have hit : t.length ≤ i := ht.symm ▸ hi
      rw [List.getElem?_zipWith, List.getElem?_zipWith,
        List.getElem?_eq_none hit]

/-! ## Loops that may fail -/

/-- The last turn of a loop over `n + 1` numbers, in any monad. The loop has
failed before it, or it decides. -/
theorem foldlM_range_succ {m : Type _ → Type _} [Monad m]
    [LawfulMonad m] {σ : Type _} (f : σ → ℕ → m σ) (s : σ) (n : ℕ) :
    (List.range (n + 1)).foldlM f s = (List.range n).foldlM f s
      >>= fun s => f s n := by
  rw [List.range_succ, List.foldlM_append]
  simp

/-- A loop whose turns all succeed is an iteration. Only the states the
iteration passes through have to pass the check. -/
theorem foldlM_range_eq_iterate {σ : Type _} {step : σ → Option σ}
    {f : σ → σ} {s : σ} {r : ℕ}
    (h : ∀ n < r, step (f^[n] s) = some (f (f^[n] s))) :
    (List.range r).foldlM (fun s _ => step s) s = some (f^[r] s) := by
  induction r with
  | zero => rfl
  | succ r ih =>
    rw [foldlM_range_succ, ih (fun n hn => h n (Nat.lt_succ_of_lt hn)),
      Function.iterate_succ_apply']
    exact h r (Nat.lt_succ_self r)

/-! ## Rows laid out one after the other -/

/-- In each of `n` rows of length `stride`, update the entry `ofs j` by `f j`.
The rows lie one after the other in one list, so the entry is at `j * stride +
ofs j`. -/
def rowUpdates (stride : ℕ) (ofs : ℕ → ℕ) (f : ℕ → α → α) (n : ℕ)
    (t : List α) : List α :=
  (List.range n).foldl (fun t j => t.modify (j * stride + ofs j) (f j)) t

/-- Updating one row more, the step of every induction on the number of rows. -/
theorem rowUpdates_succ (stride : ℕ) (ofs : ℕ → ℕ) (f : ℕ → α → α)
    (n : ℕ) (t : List α) :
    rowUpdates stride ofs f (n + 1) t
      = (rowUpdates stride ofs f n t).modify (n * stride + ofs n) (f n) := by
  simp [rowUpdates, List.range_succ]

@[simp] theorem length_rowUpdates (stride : ℕ) (ofs : ℕ → ℕ)
    (f : ℕ → α → α) (n : ℕ)
    (t : List α) : (rowUpdates stride ofs f n t).length = t.length := by
  induction n with
  | zero => rfl
  | succ n ih => rw [rowUpdates_succ, List.length_modify, ih]

/-- Positions in a table of rows have one row and one offset, provided that the
offsets stay inside the row. -/
theorem row_position_inj {stride i j a b : ℕ}
    (ha : a < stride) (hb : b < stride)
    (h : i * stride + a = j * stride + b) : i = j ∧ a = b := by
  have hi : (i * stride + a) / stride = i := by
    rw [Nat.add_comm, Nat.add_mul_div_right _ _ (by omega),
      Nat.div_eq_of_lt ha, Nat.zero_add]
  have hj : (j * stride + b) / stride = j := by
    rw [Nat.add_comm, Nat.add_mul_div_right _ _ (by omega),
      Nat.div_eq_of_lt hb, Nat.zero_add]
  have hij : i = j := by rw [← hi, ← hj, h]
  subst hij
  exact ⟨rfl, by omega⟩

/-- **A row update reaches exactly the entry it names**, in every row below the
bound. The offsets have to lie inside their rows: otherwise an update would
spill into the next row. -/
theorem getElem?_rowUpdates (stride : ℕ) (ofs : ℕ → ℕ) (f : ℕ → α → α)
    (hofs : ∀ j, ofs j < stride) (n : ℕ) (t : List α) (j k : ℕ)
    (hk : k < stride) :
    (rowUpdates stride ofs f n t)[j * stride + k]?
      = t[j * stride + k]?.map
        (fun c => if j < n ∧ ofs j = k then f j c else c) := by
  induction n with
  | zero => simp [rowUpdates]
  | succ n ih =>
    rw [rowUpdates_succ, List.getElem?_modify, ih]
    by_cases h : n * stride + ofs n = j * stride + k
    · obtain ⟨rfl, rfl⟩ := row_position_inj (hofs n) hk h
      cases t[n * stride + ofs n]? <;> simp
    · have hiff : (j ≤ n ∧ ofs j = k) ↔ (j < n ∧ ofs j = k) := by
        refine ⟨fun ⟨hj, hk'⟩ => ⟨lt_of_le_of_ne hj ?_, hk'⟩,
          fun ⟨hj, hk'⟩ => ⟨hj.le, hk'⟩⟩
        rintro rfl
        exact h (by rw [hk'])
      cases t[j * stride + k]? <;> simp [h, hiff]

end Table
