import Skt.Hardware.BitUtils
import Skt.Lib.Tables

/-!
# The population count

`weight` of `bit_utils.hpp` counts the set bits of a `W`-bit word with a tree of
adders laid out as a binary heap: the node `i` adds the nodes `2 * i + 1` and `2
* i + 2`, the last `W` of the `2 * W - 1` nodes hold one bit each, and the count
  is read from node `0`. Nothing initialises the array: its nodes start
  unwritten here, and reading such a node, or one outside the array, fails.

For a width that is no power of two the leaves lie on two levels, but the order
of the additions hides the shape: when the loop has come down to node `i`, the
nodes `i` to `2 * i` are written and sum to the count (`Summed`). The next node
replaces the two at the upper end of that window by their sum at its lower end.
A node is one of the summands, so it is at most `W` and fits its register.

That no addition wraps is shown by running the same loop with adders that fail
where the sum is too wide: it returns the same. Both adders are covered by one
proof, which asks of an addition only that it is right where the sum fits.
-/

namespace Skt.Hardware

variable {W M : ℕ}

/-! ## The array of nodes

Reads and writes are checked, so that a result is also a statement about the
nodes that are used. -/

/-- The nodes of the tree, those not written yet without a value:
`tree[2*W-1]`. -/
abbrev Nodes (M : ℕ) := List (Option (BitVec M))

/-- A node is read: it must exist and have been written. -/
def Nodes.read (tree : Nodes M) (i : ℕ) : Option (BitVec M) := tree[i]?.join

/-- A node is written: it must exist. -/
def Nodes.write (tree : Nodes M) (i : ℕ) (v : BitVec M) : Option (Nodes M) :=
  if i < tree.length then some (tree.set i (some v)) else none

/-- The number a node holds, zero for one that does not hold any. It is for the
statements only: the code never reads such a node. -/
def Nodes.value (tree : Nodes M) (i : ℕ) : ℕ :=
  ((tree.read i).map BitVec.toNat).getD 0

/-- A write inside the array succeeds. -/
theorem Nodes.write_eq {tree : Nodes M} {i : ℕ}
    (hi : i < tree.length) (v : BitVec M) :
    tree.write i v = some (tree.set i (some v)) := if_pos hi

/-- The written node reads back. -/
theorem Nodes.read_set_self {tree : Nodes M} {i : ℕ}
    (hi : i < tree.length) (v : BitVec M) :
    Nodes.read (tree.set i (some v)) i = some v := by
  unfold Nodes.read
  rw [List.getElem?_set_self hi]
  rfl

/-- The other nodes are as they were. -/
theorem Nodes.read_set_of_ne (tree : Nodes M) {i j : ℕ}
    (hij : i ≠ j) (v : BitVec M) :
    Nodes.read (tree.set i (some v)) j = tree.read j := by
  unfold Nodes.read
  rw [List.getElem?_set_ne hij]

/-- The number in the written node. -/
theorem Nodes.value_set_self {tree : Nodes M} {i : ℕ}
    (hi : i < tree.length) (v : BitVec M) :
    Nodes.value (tree.set i (some v)) i = v.toNat := by
  rw [Nodes.value, Nodes.read_set_self hi]
  rfl

/-- The numbers in the other nodes. -/
theorem Nodes.value_set_of_ne (tree : Nodes M) {i j : ℕ}
    (hij : i ≠ j) (v : BitVec M) :
    Nodes.value (tree.set i (some v)) j = tree.value j := by
  rw [Nodes.value, Nodes.read_set_of_ne tree hij, Nodes.value]

/-- A written node holds the word of its number, so that a read of it
succeeds. -/
theorem Nodes.exists_read {tree : Nodes M} {i : ℕ} (h : (tree.read i).isSome) :
    ∃ v, tree.read i = some v ∧ v.toNat = tree.value i := by
  obtain ⟨v, hv⟩ := Option.isSome_iff_exists.mp h
  exact ⟨v, hv, by rw [Nodes.value, hv]; rfl⟩

/-! ## The tree of adders

The two loops of the source, the second one with its index going down to
zero. -/

/-- The addition of the source: the sum is cut to the node's width, since it is
assigned to a node. -/
def wrapAdd (a b : BitVec M) : Option (BitVec M) := some (a + b)

/-- The addition that fails where the node is too narrow for the sum. -/
def exactAdd (a b : BitVec M) : Option (BitVec M) :=
  if a.toNat + b.toNat < 2 ^ M then some (a + b) else none

/-- One turn of the first loop: a leaf gets its bit, `x(i, i)`. -/
def leafTurn (x : BitVec W) (tree : Nodes M) (i : ℕ) : Option (Nodes M) :=
  tree.write (W - 1 + i) ((x.extractLsb' i 1).setWidth M)

/-- One turn of the second loop: an adder reads its two children and writes
their sum. -/
def addTurn (add : BitVec M → BitVec M → Option (BitVec M))
    (tree : Nodes M) (i : ℕ) :
    Option (Nodes M) := do
  let a ← tree.read (2 * i + 1)
  let b ← tree.read (2 * i + 2)
  let sum ← add a b
  tree.write i sum

/-- The second loop from node `i` down, as the condition `i-- > 0` has it. -/
def addFrom (add : BitVec M → BitVec M → Option (BitVec M)) :
    ℕ → Nodes M → Option (Nodes M)
  | 0, tree => some tree
  | i + 1, tree => do
    let tree ← addTurn add tree i
    addFrom add i tree

/-- `weight`, with a parameter for its addition. The array starts unwritten. -/
def weightWith (add : BitVec M → BitVec M → Option (BitVec M)) (x : BitVec W) :
    Option (BitVec M) := do
  let tree ← (List.range W).foldlM (leafTurn x)
    (List.replicate (2 * W - 1) none)
  let tree ← addFrom add (W - 1) tree
  tree.read 0

/-- `weight`; no value when it reads an unwritten node or leaves the array. -/
def weight (x : BitVec W) : Option (BitVec (clog2 (W + 1))) :=
  weightWith wrapAdd x

/-- The number of set bits of a word, which is what is to be computed. -/
def countOnes (x : BitVec W) : ℕ :=
  ((Finset.range W).filter fun i => x.getLsbD i = true).card

/-! ## The leaves

They are written from the left to the right, and all of them before any
adder. -/

/-- The leaf of a bit holds the bit as a number. -/
theorem toNat_leaf (hM : 0 < M) (x : BitVec W) (i : ℕ) :
    ((x.extractLsb' i 1).setWidth M).toNat = (x.getLsbD i).toNat := by
  have h1 : x.toNat / 2 ^ i % 2 < 2 ^ M :=
    lt_of_lt_of_le (Nat.mod_lt _ Nat.two_pos)
      (Nat.pow_le_pow_right Nat.two_pos hM)
  rw [BitVec.toNat_setWidth, BitVec.extractLsb'_toNat,
    Nat.shiftRight_eq_div_pow, pow_one,
    Nat.mod_eq_of_lt h1, BitVec.getLsbD, Nat.toNat_testBit]

/-- The first loop after `n` turns: the first `n` leaves hold their bits. -/
structure Leaves (x : BitVec W) (n : ℕ) (tree : Nodes M) : Prop where
  length : tree.length = 2 * W - 1
  read : ∀ i < n, tree.read (W - 1 + i) = some ((x.extractLsb' i 1).setWidth M)

/-- **The first loop writes all leaves**, by induction on its turns. -/
theorem exists_leaves (x : BitVec W) : ∀ n ≤ W, ∃ tree : Nodes M,
    (List.range n).foldlM (leafTurn x)
    (List.replicate (2 * W - 1) none) = some tree
      ∧ Leaves x n tree := by
  intro n
  induction n with
  | zero =>
    intro _
    exact ⟨_, rfl, List.length_replicate, fun i hi =>
      absurd hi (Nat.not_lt_zero i)⟩
  | succ n ih =>
    intro hn
    obtain ⟨tree, hrun, htree⟩ := ih (Nat.le_of_succ_le hn)
    have hlt : W - 1 + n < tree.length := by
      rw [htree.length]
      omega
    refine ⟨tree.set (W - 1 + n) (some ((x.extractLsb' n 1).setWidth M)), ?_,
      (List.length_set ..).trans htree.length, fun i hi => ?_⟩
    · rw [Table.foldlM_range_succ, hrun, Option.bind_eq_bind,
        Option.bind_some, leafTurn,
        Nodes.write_eq hlt]
    · rcases Nat.eq_or_lt_of_le (Nat.le_of_lt_succ hi) with rfl | hlt'
      · exact Nodes.read_set_self hlt _
      · rw [Nodes.read_set_of_ne _ (by omega)]
        exact htree.read i hlt'

/-! ## The adders

The induction goes down with the index of the loop, and the window is its
invariant. -/

/-- **The second loop when its index has come down to `i`**: every node from
`i` on is written, and the window from `i` to `2 * i` sums to the count. -/
structure Summed (W i c : ℕ) (tree : Nodes M) : Prop where
  length : tree.length = 2 * W - 1
  /-- The nodes from `i` on can be read. -/
  written : ∀ j, i ≤ j → j < 2 * W - 1 → (tree.read j).isSome
  sum : ∑ j ∈ Finset.Ico i (2 * i + 1), tree.value j = c

/-- The leaves sum to the number of set bits: the window starts with them and
nothing else. -/
theorem Leaves.summed (hW : 1 ≤ W) (hM : 0 < M) {x : BitVec W} {tree : Nodes M}
    (h : Leaves x W tree) : Summed W (W - 1) (countOnes x) tree where
  length := h.length
  written j hj hlt := by
    rw [show j = W - 1 + (j - (W - 1)) by omega, h.read _ (by omega)]
    rfl
  sum := by
    have hleaf : ∀ i ∈ Finset.range W,
        tree.value (W - 1 + i) = if x.getLsbD i = true then 1
          else 0 := fun i hi => by
      rw [Nodes.value, h.read i (Finset.mem_range.mp hi),
        Option.map_some, Option.getD_some,
        toNat_leaf hM, Bool.toNat]
      cases x.getLsbD i <;> rfl
    rw [Finset.sum_Ico_eq_sum_range, show 2 * (W - 1)
      + 1 - (W - 1) = W by omega,
      Finset.sum_congr rfl hleaf, countOnes, Finset.card_filter]

section Adders

variable {add : BitVec M → BitVec M → Option (BitVec M)}
  (hadd : ∀ a b : BitVec M, a.toNat + b.toNat < 2 ^ M → add a b = some (a + b))

include hadd

/-- **One adder moves the window down by one node.** -/
theorem Summed.turn {i c : ℕ} {tree : Nodes M}
    (h : Summed W (i + 1) c tree) (hi : i + 1 < W)
    (hc : c < 2 ^ M) :
    ∃ tree', addTurn add tree i = some tree' ∧ Summed W i c tree' := by
  obtain ⟨a, ha, hav⟩ :=
    Nodes.exists_read (h.written (2 * i + 1) (by omega) (by omega))
  obtain ⟨b, hb, hbv⟩ :=
    Nodes.exists_read (h.written (2 * i + 2) (by omega) (by omega))
  have hlt : i < tree.length := by
    rw [h.length]
    omega
  -- the two upper ends of the window are split off its sum
  have hsum : ∑ j ∈ Finset.Ico (i + 1) (2 * i + 1), tree.value j
      + (tree.value (2 * i + 1) + tree.value (2 * i + 2)) = c := by
    rw [← h.sum, show 2 * (i + 1) + 1 = 2 * i + 2 + 1 by omega,
      Finset.sum_Ico_succ_top (show i + 1 ≤ 2 * i + 2 by omega),
      Finset.sum_Ico_succ_top (show i + 1 ≤ 2 * i + 1 by omega), Nat.add_assoc]
  have hfit : a.toNat + b.toNat < 2 ^ M := by omega
  have hnew : (a + b).toNat = tree.value (2 * i + 1)
    + tree.value (2 * i + 2) := by
    rw [BitVec.toNat_add, Nat.mod_eq_of_lt hfit, hav, hbv]
  refine ⟨tree.set i (some (a + b)), ?_,
    (List.length_set ..).trans h.length, ?_, ?_⟩
  · simp only [addTurn, ha, hb, hadd a b hfit,
      Option.bind_eq_bind, Option.bind_some]
    exact Nodes.write_eq hlt _
  · intro j hj hjW
    rcases Nat.eq_or_lt_of_le hj with rfl | hij
    · rw [Nodes.read_set_self hlt]
      rfl
    · rw [Nodes.read_set_of_ne _ (by omega)]
      exact h.written j hij hjW
  · rw [Finset.sum_eq_sum_Ico_succ_bot (by omega),
      Nodes.value_set_self hlt, hnew,
      Finset.sum_congr rfl fun j hj => Nodes.value_set_of_ne tree
        (by have := (Finset.mem_Ico.mp hj).1; omega) (a + b), Nat.add_comm]
    exact hsum

/-- **The whole second loop** leaves the count in node `0`, which is the window
of index `0`. -/
theorem Summed.loop {i c : ℕ} {tree : Nodes M}
    (h : Summed W i c tree) (hi : i < W)
    (hc : c < 2 ^ M) :
    ∃ tree', addFrom add i tree = some tree' ∧ Summed W 0 c tree' := by
  induction i generalizing tree with
  | zero => exact ⟨tree, rfl, h⟩
  | succ i ih =>
    obtain ⟨tree₁, hturn, h₁⟩ := h.turn hadd hi hc
    obtain ⟨tree₂, hloop, h₂⟩ := ih h₁ (Nat.lt_of_succ_lt hi)
    exact ⟨tree₂, by rw [addFrom, hturn, Option.bind_eq_bind,
      Option.bind_some, hloop], h₂⟩

/-- The result, for any addition that is right while the sum fits the node. No
sum exceeds the count, which is at most `W`. -/
theorem exists_weightWith (hW : 1 ≤ W) (x : BitVec W) (hM : W < 2 ^ M) :
    ∃ r, weightWith add x = some r ∧ r.toNat = countOnes x := by
  have hcount : countOnes x ≤ W := by
    have h := Finset.card_filter_le (Finset.range W) fun i => x.getLsbD i = true
    rwa [Finset.card_range] at h
  have hM0 : 0 < M := by
    rcases Nat.eq_zero_or_pos M with rfl | h
    · omega
    · exact h
  obtain ⟨tree₁, hleaf, h₁⟩ := exists_leaves (M := M) x W (le_refl W)
  obtain ⟨tree₂, hadds, h₂⟩ :=
    (h₁.summed hW hM0).loop hadd (by omega) (lt_of_le_of_lt hcount hM)
  obtain ⟨r, hr, hrv⟩ := Nodes.exists_read (h₂.written 0 (le_refl 0) (by omega))
  refine ⟨r, ?_, ?_⟩
  · simp only [weightWith, hleaf, hadds, hr,
      Option.bind_eq_bind, Option.bind_some]
  · have hwin := h₂.sum
    rw [Nat.mul_zero, Finset.sum_Ico_succ_top (le_refl 0),
      Finset.Ico_self, Finset.sum_empty,
      Nat.zero_add] at hwin
    rw [hrv, hwin]

end Adders

/-- **`weight` is the population count at every width**: it reads no unwritten
node, stays inside its array, returns the number of set bits, and does so even
with adders that refuse a sum too wide for their node. -/
theorem weight_eq_countOnes (hW : 1 ≤ W) (x : BitVec W) :
    ∃ r : BitVec (clog2 (W + 1)), weight x = some r ∧ r.toNat = countOnes x
      ∧ weightWith exactAdd x = some r := by
  have hM : W < 2 ^ clog2 (W + 1) := le_two_pow_clog2 (W + 1)
  have hwrap : ∀ a b : BitVec (clog2 (W + 1)), a.toNat + b.toNat
    < 2 ^ clog2 (W + 1) →
      wrapAdd a b = some (a + b) := fun _ _ _ => rfl
  have hexact : ∀ a b : BitVec (clog2 (W + 1)), a.toNat + b.toNat
    < 2 ^ clog2 (W + 1) →
      exactAdd a b = some (a + b) := fun _ _ h => if_pos h
  obtain ⟨r, hr, hrv⟩ := exists_weightWith hwrap hW x hM
  obtain ⟨r', hr', hrv'⟩ := exists_weightWith hexact hW x hM
  obtain rfl : r = r' := BitVec.eq_of_toNat_eq (hrv.trans hrv'.symm)
  exact ⟨r, hr, hrv, hr'⟩

/-- The theorem at an odd width, where the leaves lie on two levels. -/
theorem weight_eq_countOnes_five :
    ∃ r : BitVec (clog2 (5 + 1)), weight 0b10110#5 = some r
      ∧ r.toNat = countOnes 0b10110#5
      ∧ weightWith exactAdd 0b10110#5 = some r :=
  weight_eq_countOnes (by decide) 0b10110#5

end Skt.Hardware
