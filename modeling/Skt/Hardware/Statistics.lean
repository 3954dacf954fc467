import Skt.Hardware.Network

/-!
# What the basic sketch computes

The summary of a word keeps its sum and its sum of squares in registers that are
wider than an item by the logarithm of a number of lanes. Nothing is lost as
long as this is the number of items of a word; the kernel uses the number of its
parallel lanes. The statistics of a job are therefore stated for any width, with
the sums of a word cut to it.

The accumulators of a job are wider again, of 64 and 96 bits, and wrap modulo
these. Between the two there is no further loss: a sum over words is a sum over
the items of the job. Minimum and maximum are never cut, and they are stated as
what they are in an order.
-/

namespace Skt.Hardware

open Streams

instance {w : ℕ} : Std.Associative (stdMin (w := w)) :=
  ⟨fun a b c => BitVec.eq_of_toNat_eq (by simp only [toNat_stdMin, min_assoc])⟩

/-- All ones are neutral for the minimum, which is why it is reset to `-1`. -/
theorem stdMin_allOnes {w : ℕ} (a : BitVec w) :
    stdMin a (BitVec.allOnes w) = a :=
  BitVec.eq_of_toNat_eq (by
    have ha := a.isLt
    rw [toNat_stdMin, BitVec.toNat_allOnes]
    omega)

/-- Zero is neutral for the maximum, which is why it is reset to `0`. -/
theorem stdMax_zero {w : ℕ} (a : BitVec w) : stdMax a 0 = a :=
  BitVec.eq_of_toNat_eq (by rw [toNat_stdMax]; exact Nat.max_zero _)

/-- A fold of an operation that selects one of its arguments selects one that is
before all others. -/
theorem foldl_selects {α : Type*} {op : α → α → α} {r : α → α → Prop}
    (hsel : ∀ a b, op a b = a ∨ op a b = b) (hl : ∀ a b, r (op a b) a)
    (hr : ∀ a b, r (op a b) b) (htrans : ∀ {a b c}, r a b → r b c → r a c)
    (hrefl : ∀ a, r a a) (items : List α) (a : α) :
    items.foldl op a ∈ a :: items
      ∧ ∀ x ∈ a :: items, r (items.foldl op a) x := by
  induction items generalizing a with
  | nil =>
    exact ⟨List.mem_singleton_self a, fun x hx => by
      rw [List.mem_singleton.mp hx]; exact hrefl a⟩
  | cons y items ih =>
    obtain ⟨hmem, hle⟩ := ih (op a y)
    rw [List.foldl_cons]
    constructor
    · rcases List.mem_cons.mp hmem with h | h
      · rw [h]
        rcases hsel a y with h' | h' <;> simp [h']
      · exact List.mem_cons_of_mem _ (List.mem_cons_of_mem _ h)
    · intro x hx
      have hfirst := hle (op a y) List.mem_cons_self
      rcases List.mem_cons.mp hx with rfl | hx
      · exact htrans hfirst (hl _ y)
      · rcases List.mem_cons.mp hx with rfl | hx
        · exact htrans hfirst (hr a _)
        · exact hle x (List.mem_cons_of_mem _ hx)

/-- **The minimum of some items** is the least of them; of no items it would be
all ones. -/
theorem isLeast_foldl_stdMin {w : ℕ} {items : List (BitVec w)}
    (hitems : items ≠ []) :
    IsLeast {x | x ∈ items} (items.foldl stdMin (BitVec.allOnes w)) := by
  obtain ⟨y, items, rfl⟩ := List.exists_cons_of_ne_nil hitems
  have hle : ∀ a b : BitVec w, stdMin a b ≤ a ∧ stdMin a b ≤ b := fun a b => by
    simp only [BitVec.le_def, toNat_stdMin]
    exact ⟨min_le_left _ _, min_le_right _ _⟩
  have hfirst : stdMin (BitVec.allOnes w) y = y := BitVec.eq_of_toNat_eq (by
    have hy := y.isLt
    rw [toNat_stdMin, BitVec.toNat_allOnes]
    omega)
  rw [List.foldl_cons, hfirst]
  exact foldl_selects (r := (· ≤ ·))
    (fun a b => by unfold stdMin; split <;> simp)
    (fun a b => (hle a b).1) (fun a b => (hle a b).2) BitVec.le_trans
      BitVec.le_refl items y

/-- **The maximum of some items** is the greatest of them; of no items it would
be zero. -/
theorem isGreatest_foldl_stdMax {w : ℕ} {items : List (BitVec w)}
    (hitems : items ≠ []) :
    IsGreatest {x | x ∈ items} (items.foldl stdMax 0) := by
  obtain ⟨y, items, rfl⟩ := List.exists_cons_of_ne_nil hitems
  have hle : ∀ a b : BitVec w, a ≤ stdMax a b ∧ b ≤ stdMax a b := fun a b => by
    simp only [BitVec.le_def, toNat_stdMax]
    exact ⟨le_max_left _ _, le_max_right _ _⟩
  have hfirst : stdMax 0 y = y := BitVec.eq_of_toNat_eq (by
    rw [toNat_stdMax]
    exact Nat.zero_max _)
  rw [List.foldl_cons, hfirst]
  exact foldl_selects (r := (· ≥ ·))
    (fun a b => by unfold stdMax; split <;> simp)
    (fun a b => (hle a b).1) (fun a b => (hle a b).2)
      (fun h h' => BitVec.le_trans h' h)
    BitVec.le_refl items y

/-- The sum of the items of a word, as a number: in no register. -/
def wordSum {N0 : ℕ} (x : BitVec (N0 * 32)) : ℕ :=
  ((wordItems x).map BitVec.toNat).sum

/-- The sum of the squares of the items of a word, as a number. -/
def wordSumq {N0 : ℕ} (x : BitVec (N0 * 32)) : ℕ :=
  ((wordItems x).map (fun y => y.toNat ^ 2)).sum

section Summary

variable {N0 : ℕ}

/-- The summary of a number of items: each field is folded on its own, and the
sums are those of the items modulo the register. -/
theorem foldl_add (c : ℕ) (items : List (BitVec 32)) :
    items.foldl BasicSummary.add (BasicSummary.empty c)
      = { min := items.foldl stdMin (BitVec.allOnes 32)
          max := items.foldl stdMax 0
          sum := BitVec.ofNat (32 + c) (items.map BitVec.toNat).sum
          sumq := BitVec.ofNat (64 + c)
            (items.map (fun y => y.toNat ^ 2)).sum } := by
  induction items using List.reverseRecOn with
  | nil => rfl
  | append_singleton items y ih =>
    have hsum : y.setWidth (32 + c) = BitVec.ofNat (32 + c) y.toNat :=
      (BitVec.ofNat_toNat _ _).symm
    have hsq : (y.setWidth 64 * y.setWidth 64).setWidth (64 + c)
        = BitVec.ofNat (64 + c) (y.toNat ^ 2) := by
      have hy := y.isLt
      have hlt : y.toNat * y.toNat < 2 ^ 64 := by nlinarith
      refine BitVec.eq_of_toNat_eq ?_
      rw [BitVec.toNat_setWidth, BitVec.toNat_mul,
        BitVec.toNat_setWidth, BitVec.toNat_ofNat,
        Nat.mod_eq_of_lt (show y.toNat < 2 ^ 64 by omega),
          Nat.mod_eq_of_lt hlt, pow_two]
    rw [List.foldl_append, ih]
    simp only [List.foldl_cons, List.foldl_nil, List.foldl_append,
      BasicSummary.add, hsum, hsq,
      List.map_append, List.map_cons, List.map_nil, List.sum_append,
        List.sum_cons, List.sum_nil,
      Nat.add_zero, BitVec.ofNat_add]

/-- **The statistics of a job**, from summaries of any width: the sums of its
words are cut to the width of a summary first and added up then. -/
theorem jobStats_map_summaryOf (c : ℕ) (job : List (BitVec (N0 * 32))) :
    BasicSketch.jobStats N0 (job.map (summaryOf c))
      = { cnt := BitVec.ofNat 32 (itemsOf job).length
          min := (itemsOf job).foldl stdMin (BitVec.allOnes 32)
          max := (itemsOf job).foldl stdMax 0
          sum := BitVec.ofNat 64
            (job.map (fun x => wordSum x % 2 ^ (32 + c))).sum
          sumq := BitVec.ofNat 96
            (job.map (fun x => wordSumq x % 2 ^ (64 + c))).sum } := by
  induction job using List.reverseRecOn with
  | nil => rfl
  | append_singleton job x ih =>
    have hitems : itemsOf (job ++ [x]) = itemsOf job ++ wordItems x := by
      unfold itemsOf
      rw [List.flatMap_append, List.flatMap_singleton]
    have hmin : ∀ a : BitVec 32,
      stdMin a ((wordItems x).foldl stdMin (BitVec.allOnes 32))
        = (wordItems x).foldl stdMin a := fun a => by
      rw [← @List.foldl_assoc _ stdMin, stdMin_allOnes]
    have hmax : ∀ a : BitVec 32, stdMax a ((wordItems x).foldl stdMax 0)
        = (wordItems x).foldl stdMax a := fun a => by
      rw [← @List.foldl_assoc _ stdMax, stdMax_zero]
    have hcut : ∀ {w v : ℕ} (n : ℕ), (BitVec.ofNat w n).setWidth v
      = BitVec.ofNat v (n % 2 ^ w) :=
      fun n => by rw [← BitVec.ofNat_toNat, BitVec.toNat_ofNat]
    unfold BasicSketch.jobStats at ih ⊢
    rw [List.map_append, List.map_singleton, List.foldl_append, ih,
      List.foldl_cons, List.foldl_nil,
      summaryOf, foldl_add, hitems]
    simp only [BasicStats.absorb, hmin, hmax, hcut,
      List.foldl_append, List.length_append,
      length_wordItems, BitVec.ofNat_add, List.map_append,
        List.map_singleton, List.sum_append,
      List.sum_singleton]
    rfl

/-- A word has no more than its items allow. -/
theorem sum_wordItems_le {b : ℕ} {f : BitVec 32 → ℕ} (hf : ∀ y, f y ≤ b)
    (x : BitVec (N0 * 32)) : ((wordItems x).map f).sum ≤ N0 * b := by
  have hle := List.sum_le_card_nsmul ((wordItems x).map f) b (fun v hv => by
    obtain ⟨y, -, rfl⟩ := List.mem_map.mp hv
    exact hf y)
  rwa [List.length_map, length_wordItems, smul_eq_mul] at hle

/-- **The registers are wide enough for the items of a word**, if there are no
more of them than lanes the width is made for. -/
theorem wordSum_lt {c : ℕ} (hc : N0 ≤ 2 ^ c) (x : BitVec (N0 * 32)) :
    wordSum x < 2 ^ (32 + c) := by
  calc wordSum x ≤ N0 * (2 ^ 32 - 1) :=
           sum_wordItems_le (fun y => Nat.le_pred_of_lt y.isLt) x
    _ ≤ 2 ^ c * (2 ^ 32 - 1) := Nat.mul_le_mul_right _ hc
    _ < 2 ^ c * 2 ^ 32 := Nat.mul_lt_mul_of_pos_left
      (by decide) (Nat.two_pow_pos c)
    _ = 2 ^ (32 + c) := by rw [← pow_add, Nat.add_comm]

/-- So are the registers of the squares, each of which is below `2 ^ 64`. -/
theorem wordSumq_lt {c : ℕ} (hc : N0 ≤ 2 ^ c) (x : BitVec (N0 * 32)) :
    wordSumq x < 2 ^ (64 + c) := by
  have hsq : ∀ y : BitVec 32, y.toNat ^ 2 ≤ (2 ^ 32 - 1) ^ 2 := fun y =>
    Nat.pow_le_pow_left (Nat.le_pred_of_lt y.isLt) 2
  calc wordSumq x ≤ N0 * (2 ^ 32 - 1) ^ 2 := sum_wordItems_le hsq x
    _ ≤ 2 ^ c * (2 ^ 32 - 1) ^ 2 := Nat.mul_le_mul_right _ hc
    _ < 2 ^ c * 2 ^ 64 := Nat.mul_lt_mul_of_pos_left
      (by decide) (Nat.two_pow_pos c)
    _ = 2 ^ (64 + c) := by rw [← pow_add, Nat.add_comm]

/-- A sum over words is a sum over items, for any function of an item. -/
theorem sum_map_itemsOf (f : BitVec 32 → ℕ) (job : List (BitVec (N0 * 32))) :
    (job.map (fun x => ((wordItems x).map f).sum)).sum
      = ((itemsOf job).map f).sum := by
  unfold itemsOf
  rw [List.map_flatMap, List.flatMap_def, List.sum_flatten, List.map_map]
  rfl

/-- **The statistics of the items of a job**: what the words of the record stand
for. The sums are modulo their own registers here, and nothing else. -/
def statsOf (items : List (BitVec 32)) : BasicStats where
  cnt := BitVec.ofNat 32 items.length
  min := items.foldl stdMin (BitVec.allOnes 32)
  max := items.foldl stdMax 0
  sum := BitVec.ofNat 64 (items.map BitVec.toNat).sum
  sumq := BitVec.ofNat 96 (items.map (fun y => y.toNat ^ 2)).sum

/-- **Summaries as wide as the items of a word lose nothing**: the statistics of
a job are those of its items, modulo the registers of the job only. -/
theorem jobStats_eq_statsOf {c : ℕ} (hc : N0 ≤ 2 ^ c)
    (job : List (BitVec (N0 * 32))) :
    BasicSketch.jobStats N0 (job.map (summaryOf c))
      = statsOf (itemsOf job) := by
  have hsum : job.map (fun x => wordSum x % 2 ^ (32 + c)) = job.map wordSum :=
    List.map_congr_left (fun x _ => Nat.mod_eq_of_lt (wordSum_lt hc x))
  have hsumq : job.map (fun x => wordSumq x % 2 ^ (64 + c))
    = job.map wordSumq :=
    List.map_congr_left (fun x _ => Nat.mod_eq_of_lt (wordSumq_lt hc x))
  rw [jobStats_map_summaryOf, hsum, hsumq]
  unfold statsOf
  rw [← sum_map_itemsOf, ← sum_map_itemsOf]
  rfl

end Summary

end Skt.Hardware
