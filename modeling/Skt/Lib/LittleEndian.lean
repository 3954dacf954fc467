import Mathlib

/-!
# Little-endian bytes

Numbers as byte strings, least significant byte first, and byte strings read as
sequences of words of `n` bytes. A byte string need not have a whole number of
words: what is left over is not decoded.

A network hands out a byte string in pieces that end anywhere. The lemmas about
decoding in two steps say when the pieces can be decoded one by one: the first
has to consist of whole words, and the bytes behind its last whole word have to
be kept for the next.
-/

namespace LittleEndian

/-- A byte, the unit in which files and sockets deliver. -/
abbrev Byte := BitVec 8

/-- The `n` low bytes of `v`, least significant first. What does not fit into
`n` bytes is lost. -/
def leBytes : (n : ℕ) → (v : ℕ) → List Byte
  | 0, _ => []
  | n + 1, v => BitVec.ofNat 8 v :: leBytes n (v / 256)

/-- The number a byte string stands for, whatever its length. -/
def leNat : List Byte → ℕ
  | [] => 0
  | b :: bs => b.toNat + 256 * leNat bs

@[simp] theorem length_leBytes (n v : ℕ) : (leBytes n v).length = n := by
  induction n generalizing v with
  | zero => rfl
  | succ n ih => rw [leBytes, List.length_cons, ih]

/-- Reading back what was written loses what did not fit, and nothing else. -/
theorem leNat_leBytes (n v : ℕ) : leNat (leBytes n v) = v % 256 ^ n := by
  induction n generalizing v with
  | zero => simp [leBytes, leNat, Nat.mod_one]
  | succ n ih =>
    rw [leBytes, leNat, ih, BitVec.toNat_ofNat, pow_succ' 256 n]
    exact Nat.mod_mul.symm

/-- Writing back what was read restores the bytes, the zeros at the upper end
included. -/
theorem leBytes_leNat (bs : List Byte) : leBytes bs.length (leNat bs) = bs := by
  induction bs with
  | nil => rfl
  | cons b bs ih =>
    have hb : b.toNat < 256 := b.isLt
    have hdiv : (b.toNat + 256 * leNat bs) / 256 = leNat bs := by omega
    have hmod : BitVec.ofNat 8 (b.toNat + 256 * leNat bs) = b := by
      refine BitVec.eq_of_toNat_eq ?_
      rw [BitVec.toNat_ofNat]
      omega
    rw [List.length_cons, leBytes, leNat, hdiv, hmod, ih]

/-- A byte string stands for less than its length allows. -/
theorem leNat_lt (bs : List Byte) : leNat bs < 256 ^ bs.length := by
  rw [← leBytes_leNat bs, leNat_leBytes, length_leBytes]
  exact Nat.mod_lt _ (by positivity)

/-! ## Words -/

/-- The `i`-th word of `n` bytes. Where the string ends inside the word or
before it, what is there is read. -/
def wordAt (n : ℕ) (bs : List Byte) (i : ℕ) : ℕ :=
  leNat ((bs.drop (n * i)).take n)

/-- **The decoding of a byte string**: its whole words, in order. The bytes
behind the last whole word are not looked at. -/
def words (n : ℕ) (bs : List Byte) : List ℕ :=
  (List.range (bs.length / n)).map (wordAt n bs)

@[simp] theorem length_words (n : ℕ) (bs : List Byte) :
    (words n bs).length = bs.length / n := by
  rw [words, List.length_map, List.length_range]

/-- Two strings in a row: the second one stands above the first. -/
theorem leNat_append (a b : List Byte) :
    leNat (a ++ b) = leNat a + 256 ^ a.length * leNat b := by
  induction a with
  | nil => simp [leNat]
  | cons x a ih =>
    rw [List.cons_append, leNat, leNat, ih, List.length_cons, pow_succ]
    ring

/-- **A word of a string is a slice of its number.** So statements about bytes
in memory become statements about quotients and remainders. -/
theorem wordAt_eq (n : ℕ) (bs : List Byte) (i : ℕ) :
    wordAt n bs i = leNat bs / 256 ^ (n * i) % 256 ^ n := by
  have hdrop : ∀ k, leNat (bs.drop k) = leNat bs / 256 ^ k := fun k => by
    rcases Nat.lt_or_ge bs.length k with hk | hk
    · have hlt := (leNat_lt bs).trans (Nat.pow_lt_pow_right (by decide) hk)
      rw [List.drop_eq_nil_of_le hk.le, Nat.div_eq_of_lt hlt]
      rfl
    · have hsplit := leNat_append (bs.take k) (bs.drop k)
      have hlt := leNat_lt (bs.take k)
      rw [List.take_append_drop, List.length_take, min_eq_left hk] at hsplit
      rw [List.length_take, min_eq_left hk] at hlt
      rw [hsplit, Nat.add_mul_div_left _ _ (by positivity),
        Nat.div_eq_of_lt hlt, Nat.zero_add]
  have htake : ∀ cs : List Byte, leNat (cs.take n)
    = leNat cs % 256 ^ n := fun cs => by
    rcases Nat.lt_or_ge cs.length n with hn | hn
    · have hlt := (leNat_lt cs).trans (Nat.pow_lt_pow_right (by decide) hn)
      rw [List.take_of_length_le hn.le, Nat.mod_eq_of_lt hlt]
    · have hsplit := leNat_append (cs.take n) (cs.drop n)
      have hlt := leNat_lt (cs.take n)
      rw [List.take_append_drop, List.length_take, min_eq_left hn] at hsplit
      rw [List.length_take, min_eq_left hn] at hlt
      rw [hsplit, Nat.add_mul_mod_self_left, Nat.mod_eq_of_lt hlt]
  unfold wordAt
  rw [htake, hdrop]

/-- A word lying in the first of two strings is read there. -/
theorem wordAt_append_left {n : ℕ} {a b : List Byte} {i : ℕ}
    (h : n * i + n ≤ a.length) :
    wordAt n (a ++ b) i = wordAt n a i := by
  unfold wordAt
  rw [List.drop_append_of_le_length (by omega), List.take_append_of_le_length]
  rw [List.length_drop]
  omega

/-- A word lying past a whole number of words is read after them. -/
theorem wordAt_append_right {n q : ℕ} {a b : List Byte}
    (ha : a.length = n * q) (i : ℕ) :
    wordAt n (a ++ b) (q + i) = wordAt n b i := by
  unfold wordAt
  rw [Nat.mul_add, ← ha, List.drop_length_add_append]

/-- Every index below the number of words names a word that is all there. -/
theorem mul_add_le_of_lt_div {n len i : ℕ} (h : i < len / n) :
    n * i + n ≤ len := by
  have h1 : n * (i + 1) ≤ n * (len / n) := Nat.mul_le_mul_left n h
  have h2 := Nat.mul_div_le len n
  rw [Nat.mul_succ] at h1
  omega

/-- **Decoding in two steps**, the first of whole words. Without that condition
a word would be cut between the two. -/
theorem words_append {n : ℕ} (hn : 0 < n) {a b : List Byte}
    (ha : n ∣ a.length) :
    words n (a ++ b) = words n a ++ words n b := by
  obtain ⟨q, hq⟩ := ha
  have hdiv : (a ++ b).length / n = q + b.length / n := by
    rw [List.length_append, hq, Nat.mul_add_div hn]
  have hqa : a.length / n = q := by rw [hq, Nat.mul_div_cancel_left _ hn]
  unfold words
  rw [hdiv, hqa, List.range_add, List.map_append, List.map_map]
  refine congr (congrArg _ (List.map_congr_left (fun i hi => ?_)))
    (List.map_congr_left (fun i _ => ?_))
  · have := List.mem_range.mp hi
    exact wordAt_append_left (mul_add_le_of_lt_div (hqa.symm ▸ this))
  · exact wordAt_append_right hq i

/-- Decoding does not look past the last whole word: the bytes behind it may be
moved elsewhere before or after. -/
theorem words_take_whole {n : ℕ} (hn : 0 < n) {bs : List Byte} {k : ℕ}
    (hk : n * k ≤ bs.length) (hlast : bs.length < n * k + n) :
    words n (bs.take (n * k)) = words n bs := by
  have hlen : (bs.take (n * k)).length = n * k := by
    rw [List.length_take, min_eq_left hk]
  have hnil : words n (bs.drop (n * k)) = [] := by
    rw [← List.length_eq_zero_iff, length_words, List.length_drop,
      Nat.div_eq_zero_iff]
    omega
  have h := words_append (b := bs.drop (n * k)) hn (hlen ▸ Dvd.intro k rfl)
  rw [List.take_append_drop, hnil, List.append_nil] at h
  exact h.symm

/-- **Decoding what was encoded**: the words of a byte string assembled from
words. -/
theorem wordAt_flatMap_leBytes {n : ℕ} (ws : List (BitVec (8 * n))) {i : ℕ}
    {w : BitVec (8 * n)} (hi : ws[i]? = some w) :
    wordAt n (ws.flatMap (fun w => leBytes n w.toNat)) i = w.toNat := by
  induction ws generalizing i with
  | nil => cases hi
  | cons v ws ih =>
    rw [List.flatMap_cons]
    cases i with
    | zero =>
      obtain rfl : v = w := Option.some.inj hi
      rw [wordAt_append_left (by rw [length_leBytes]; omega)]
      unfold wordAt
      rw [Nat.mul_zero, List.drop_zero,
        List.take_of_length_le (by rw [length_leBytes]),
        leNat_leBytes]
      refine Nat.mod_eq_of_lt ?_
      have hlt := v.isLt
      rw [pow_mul] at hlt
      exact hlt
    | succ i =>
      rw [Nat.add_comm i 1,
        wordAt_append_right (by rw [length_leBytes, Nat.mul_one])]
      exact ih hi

/-- The low and the high half of a word are two words, as when a wide word is
sent as two narrower ones. -/
theorem leBytes_add (m n v : ℕ) :
    leBytes (m + n) v = leBytes m v ++ leBytes n (v / 256 ^ m) := by
  induction m generalizing v with
  | zero => simp [leBytes]
  | succ m ih =>
    rw [Nat.succ_add, leBytes, leBytes, ih, List.cons_append,
      Nat.div_div_eq_div_mul,
      ← pow_succ']

/-- The low bytes depend on what they hold only, so a value may be reduced
before it is written. -/
theorem leBytes_mod (n v : ℕ) : leBytes n (v % 256 ^ n) = leBytes n v := by
  have h := leBytes_leNat (leBytes n v)
  rwa [leNat_leBytes, length_leBytes] at h

end LittleEndian
