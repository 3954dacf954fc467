import Skt.Lib.Bits

/-!
# Words bit by bit

Writing one bit of a word, and the carry chain of an increment: adding one to a
number flips its trailing ones and the zero above them, and no other bit.

A word other than zero has a lowest and a highest set bit. Reversing the word
exchanges the two, a word and its negative share the lowest one only, and the
highest one is what the leading zeros leave. A word is one-hot when they are the
same bit.

Loops over the bits of a word are described with `getLsbD`, which reads `false`
past the end, so no statement needs a bound on its index except where a bit is
written.
-/

namespace Bits

variable {W : ℕ}

/-! ## Writing a bit -/

/-- The word with its bit `i` replaced. An index past the end replaces
nothing. -/
def setBit (y : BitVec W) (i : ℕ) (b : Bool) : BitVec W :=
  if b then y ||| BitVec.twoPow W i else y &&& ~~~BitVec.twoPow W i

/-- **A written bit reads back**, and the other bits are unchanged. One equation
serves both, for a proof that does not know yet which bit is asked for. -/
theorem getLsbD_setBit (y : BitVec W) (i : ℕ) (b : Bool) (j : ℕ) :
    (setBit y i b).getLsbD j = if j = i ∧ i < W then b else y.getLsbD j := by
  unfold setBit
  by_cases hj : j < W
  · by_cases hij : i = j
    · subst hij
      cases b <;> simp [hj]
    · cases b <;> simp [hj, Ne.symm hij]
  · have hy : y.getLsbD j = false := BitVec.getLsbD_of_ge y j (by omega)
    rw [BitVec.getLsbD_of_ge _ _ (by omega), hy, if_neg (by omega)]

/-- The written bit, when it lies inside the word. -/
theorem getLsbD_setBit_self {i : ℕ} (y : BitVec W) (b : Bool) (hi : i < W) :
    (setBit y i b).getLsbD i = b := by
  rw [getLsbD_setBit, if_pos ⟨rfl, hi⟩]

/-- The other bits are as they were. -/
theorem getLsbD_setBit_of_ne {i j : ℕ} (y : BitVec W) (b : Bool) (hj : j ≠ i) :
    (setBit y i b).getLsbD j = y.getLsbD j := by
  rw [getLsbD_setBit, if_neg fun h => hj h.1]

/-! ## The carry chain of an increment -/

/-- **An increment flips an initial run of the bits**: the trailing ones and the
zero above them. The length of the run is not given, only that there is one. -/
theorem exists_carryChain (n : ℕ) :
    ∃ t, ∀ i, n.testBit i ≠ (n + 1).testBit i ↔ i ≤ t := by
  induction n using Nat.strong_induction_on with
  | _ n ih =>
    rcases Nat.even_or_odd' n with ⟨m, rfl | rfl⟩
    · -- an even number: only the last bit changes
      refine ⟨0, fun i => ?_⟩
      cases i with
      | zero => simp [Nat.testBit_zero, Nat.add_mod]
      | succ i =>
        rw [Nat.testBit_succ, Nat.testBit_succ, show (2 * m + 1) / 2
          = 2 * m / 2 by omega]
        simp
    · -- an odd number: the last bit changes, and the carry goes into the rest
      obtain ⟨t, hi⟩ := ih m (by omega)
      have hhalf : (2 * m + 1) / 2 = m := by omega
      have hhalf' : (2 * m + 1 + 1) / 2 = m + 1 := by omega
      refine ⟨t + 1, fun i => ?_⟩
      cases i with
      | zero =>
        have hodd : (2 * m + 1) % 2 = 1 := by omega
        have heven : (2 * m + 1 + 1) % 2 = 0 := by omega
        simp [Nat.testBit_zero, hodd, heven]
      | succ i =>
        rw [Nat.testBit_succ, Nat.testBit_succ, hhalf, hhalf', hi i]
        exact Nat.add_le_add_iff_right.symm

/-- The same of a word that does not wrap: the run of flipped bits ends inside
it. The word of all ones is excluded, since all its bits flip. -/
theorem exists_carryChain_bitVec {x : BitVec W} (hx : x.toNat < 2 ^ W - 1) :
    ∃ t < W, ∀ i, x.getLsbD i ≠ (x + 1#W).getLsbD i ↔ i ≤ t := by
  obtain ⟨t, hi⟩ := exists_carryChain x.toNat
  have h1 : (x + 1#W).toNat = x.toNat + 1 := by
    rw [BitVec.toNat_add, BitVec.toNat_ofNat, Nat.add_mod_mod,
      Nat.mod_eq_of_lt (by omega)]
  have hbit : ∀ i, x.getLsbD i ≠ (x + 1#W).getLsbD i ↔ i ≤ t := fun i => by
    rw [BitVec.getLsbD, BitVec.getLsbD, h1]
    exact hi i
  refine ⟨t, ?_, hbit⟩
  by_contra hW
  refine (hbit t).mpr (le_refl t) ?_
  rw [BitVec.getLsbD_of_ge _ _ (by omega), BitVec.getLsbD_of_ge _ _ (by omega)]

/-! ## The lowest and the highest set bit -/

/-- **The lowest set bit** of a word, as a property of its position. -/
structure LowestBit (x : BitVec W) (p : ℕ) : Prop where
  set : x.getLsbD p = true
  below : ∀ i < p, x.getLsbD i = false

/-- **The highest set bit** of a word, as a property of its position. -/
structure HighestBit (x : BitVec W) (p : ℕ) : Prop where
  set : x.getLsbD p = true
  above : ∀ i, p < i → x.getLsbD i = false

variable {x y : BitVec W} {p : ℕ}

/-- It lies inside the word, since there is no set bit past the end. -/
theorem LowestBit.lt (h : LowestBit x p) : p < W := BitVec.lt_of_getLsbD h.set

/-- So does the highest. -/
theorem HighestBit.lt (h : HighestBit x p) : p < W := BitVec.lt_of_getLsbD h.set

/-- A bit of the reversed word, counted from the other end. -/
theorem getLsbD_reverse_of_lt {i : ℕ} (x : BitVec W) (hi : i < W) :
    x.reverse.getLsbD i = x.getLsbD (W - 1 - i) := by
  rw [BitVec.getLsbD_reverse, BitVec.getMsbD_eq_getLsbD,
    decide_eq_true hi, Bool.true_and]

/-- **Reversing a word** makes its lowest set bit the highest. Hardware that can
only count from one end counts from the other one in this way. -/
theorem LowestBit.reverse (h : LowestBit x p) :
    HighestBit x.reverse (W - 1 - p) where
  set := by
    have hp := h.lt
    rw [getLsbD_reverse_of_lt x (by omega),
      show W - 1 - (W - 1 - p) = p by omega]
    exact h.set
  above i hi := by
    by_cases hiW : i < W
    · rw [getLsbD_reverse_of_lt x hiW]
      exact h.below _ (by omega)
    · exact BitVec.getLsbD_of_ge _ _ (by omega)

/-- And its highest the lowest. -/
theorem HighestBit.reverse (h : HighestBit x p) :
    LowestBit x.reverse (W - 1 - p) where
  set := by
    have hp := h.lt
    rw [getLsbD_reverse_of_lt x (by omega),
      show W - 1 - (W - 1 - p) = p by omega]
    exact h.set
  below i hi := by
    rw [getLsbD_reverse_of_lt x (by omega)]
    exact h.above _ (by omega)

/-- **A word other than zero has a lowest set bit.** The least number that is a
position of a set bit is one. -/
theorem exists_lowestBit (hx : x ≠ 0#W) : ∃ p, LowestBit x p := by
  have hset : ∃ p, x.getLsbD p = true := by
    by_contra hnone
    refine hx (BitVec.eq_of_getLsbD_eq fun i _ => ?_)
    rw [BitVec.getLsbD_zero]
    exact Bool.eq_false_iff.mpr fun hi => hnone ⟨i, hi⟩
  exact ⟨Nat.find hset, Nat.find_spec hset,
    fun i hi => Bool.eq_false_iff.mpr (Nat.find_min hset hi)⟩

/-- **And a highest one.** It is the lowest one of the reversed word. -/
theorem exists_highestBit (hx : x ≠ 0#W) : ∃ p, HighestBit x p := by
  obtain ⟨p, hp⟩ := exists_lowestBit (mt BitVec.reverse_eq_zero_iff.mp hx)
  have h := hp.reverse
  rw [BitVec.reverse_reverse_eq] at h
  exact ⟨_, h⟩

/-- **The leading zeros end at the highest set bit.** -/
theorem HighestBit.leadingZeros (h : HighestBit x p) :
    leadingZeros W x.toNat = W - 1 - p := by
  have hlow : 2 ^ p ≤ x.toNat := Nat.ge_two_pow_of_testBit h.set
  have hup : x.toNat < 2 ^ (p + 1) := Nat.lt_pow_two_of_testBit _
    fun i hi => h.above i hi
  have hsize : x.toNat.size = p + 1 :=
    le_antisymm (Nat.size_le.mpr hup) (Nat.lt_size.mpr hlow)
  rw [Bits.leadingZeros, hsize]
  omega

/-! ## One-hot words -/

/-- **A one-hot word**: exactly one bit is set. -/
def OneHot (x : BitVec W) : Prop := ∃! i, x.getLsbD i = true

/-- Whether a word is one-hot can be computed. -/
instance (x : BitVec W) : Decidable (OneHot x) :=
  decidable_of_iff (∃ i < W, x.getLsbD i = true ∧ ∀ j < W,
    x.getLsbD j = true → j = i)
    ⟨fun ⟨i, _, hi, hunique⟩ =>
      ⟨i, hi, fun j hj => hunique j (BitVec.lt_of_getLsbD hj) hj⟩,
      fun ⟨i, hi, hunique⟩ =>
        ⟨i, BitVec.lt_of_getLsbD hi, hi, fun j _ hj => hunique j hj⟩⟩

/-- A word whose only set bit is `p`. It says which bit is set where `OneHot`
says that there is one. -/
def HotAt (x : BitVec W) (p : ℕ) : Prop := ∀ i, x.getLsbD i = true ↔ i = p

/-- Such a word is one-hot, at the position it names. -/
theorem HotAt.oneHot (h : HotAt x p) : OneHot x :=
  ⟨p, (h p).mpr rfl, fun i hi => (h i).mp hi⟩

/-- A one-hot word is such a word, at some position. -/
theorem OneHot.exists_hotAt (h : OneHot x) : ∃ p, HotAt x p := by
  obtain ⟨p, hp, hunique⟩ := h
  exact ⟨p, fun i => ⟨hunique i, fun hi => hi ▸ hp⟩⟩

/-- The position lies inside the word, so it can be written with the bits an
index has. -/
theorem HotAt.lt (h : HotAt x p) : p < W := BitVec.lt_of_getLsbD ((h p).mpr rfl)

/-- **The position determines the word**, which makes the position an encoding
of the one-hot words. -/
theorem HotAt.eq (hx : HotAt x p) (hy : HotAt y p) : x = y :=
  BitVec.eq_of_getLsbD_eq fun i _ =>
    Bool.eq_iff_iff.mpr ((hx i).trans (hy i).symm)

/-- **The only set bit is the lowest and the highest.** A search from either end
finds it. -/
theorem hotAt_iff : HotAt x p ↔ LowestBit x p ∧ HighestBit x p := by
  constructor
  · intro h
    have hset : x.getLsbD p = true := (h p).mpr rfl
    exact ⟨⟨hset, fun i hi => Bool.eq_false_iff.mpr fun hx =>
      hi.ne ((h i).mp hx)⟩,
      ⟨hset, fun i hi => Bool.eq_false_iff.mpr fun hx => hi.ne' ((h i).mp hx)⟩⟩
  · rintro ⟨hlow, hhigh⟩ i
    refine ⟨fun hx => ?_, fun hi => hi ▸ hlow.set⟩
    rcases Nat.lt_trichotomy i p with hlt | rfl | hgt
    · exact absurd ((hlow.below i hlt).symm.trans hx) Bool.false_ne_true
    · rfl
    · exact absurd ((hhigh.above i hgt).symm.trans hx) Bool.false_ne_true

/-- Reversing the word counts its position from the other end. -/
theorem HotAt.reverse (h : HotAt x p) : HotAt x.reverse (W - 1 - p) := by
  obtain ⟨hlow, hhigh⟩ := hotAt_iff.mp h
  exact hotAt_iff.mpr ⟨hhigh.reverse, hlow.reverse⟩

/-- **A word and its negative share their lowest set bit and no other.** This is
the well-known way to single out that bit, `x & -x`. -/
theorem LowestBit.hotAt_and_neg (h : LowestBit x p) : HotAt (x &&& -x) p := by
  intro i
  rw [BitVec.getLsbD_and, BitVec.getLsbD_neg]
  rcases Nat.lt_trichotomy i p with hlt | rfl | hgt
  · -- below it the word has no bits
    rw [h.below i hlt, Bool.false_and]
    exact iff_of_false Bool.false_ne_true hlt.ne
  · -- there is no carry into it
    have hnone : ¬ ∃ j < i, x.getLsbD j = true := fun ⟨j, hj, hset⟩ =>
      Bool.false_ne_true ((h.below j hj).symm.trans hset)
    rw [decide_eq_false hnone, Bool.and_false, Bool.xor_false, Bool.and_self]
    exact iff_of_true h.set rfl
  · -- above it the negative is the complement
    have hsome : ∃ j < i, x.getLsbD j = true := ⟨p, hgt, h.set⟩
    rw [decide_eq_true hsome, Bool.and_true]
    by_cases hi : i < W
    · rw [decide_eq_true hi, Bool.xor_true, Bool.and_not_self]
      exact iff_of_false Bool.false_ne_true hgt.ne'
    · rw [BitVec.getLsbD_of_ge x i (by omega), Bool.false_and]
      exact iff_of_false Bool.false_ne_true hgt.ne'

end Bits
