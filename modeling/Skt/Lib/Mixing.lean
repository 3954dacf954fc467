import Mathlib

/-!
# Mixing steps that lose nothing

A hash function for words is a chain of steps, each of which sends distinct
words to distinct words: the addition of a constant, the multiplication by an
odd constant, an exclusive-or with a constant or with the word's own upper part,
a rotation. A chain of such steps does not merge words either, by
`Function.Injective.comp`.

On words of the same width an injective function is a bijection, so distinct
inputs are counted exactly by their distinct hashes.
-/

namespace Mixing

variable {W : ℕ}

/-- `x ^ (x >> r)`, which mixes the upper part of a word into its lower part. -/
def xorShift (r : ℕ) (x : BitVec W) : BitVec W := x ^^^ (x >>> r)

/-- `(x << r) | (x >> (W - r))`, which programs write for a rotation in a
language without one. -/
def rotate (r : ℕ) (x : BitVec W) : BitVec W := (x <<< r) ||| (x >>> (W - r))

/-- `x += c` loses nothing, the addition wrapping around. -/
theorem add_injective (c : BitVec W) : Function.Injective (fun x => x + c) :=
  fun _ _ h => (BitVec.add_left_inj c).mp h

/-- `x ^= c` loses nothing, being its own inverse. -/
theorem xor_injective (c : BitVec W) : Function.Injective (fun x => x ^^^ c) :=
  fun _ _ h => (BitVec.xor_left_inj c).mp h

/-- `c ^= x` loses nothing either. Here the word goes into a state that is
fixed. -/
theorem xor_injective_right (c : BitVec W) :
    Function.Injective (fun x => c ^^^ x) :=
  fun _ _ h => (BitVec.xor_right_inj c).mp h

/-- **`x *= c` for an odd `c`**: an odd number has no factor in common with the
modulus and can be cancelled. With an even `c` the upper bit would be lost. -/
theorem mul_injective {c : BitVec W} (hc : c.toNat % 2 = 1) :
    Function.Injective (fun x => x * c) := by
  intro x y h
  have hmod : x.toNat * c.toNat ≡ y.toNat * c.toNat [MOD 2 ^ W] := by
    have hnat := congrArg BitVec.toNat h
    simp only [BitVec.toNat_mul] at hnat
    exact hnat
  have hcop : Nat.Coprime (2 ^ W) c.toNat :=
    Nat.Coprime.pow_left W (Nat.coprime_two_left.mpr (Nat.odd_iff.mpr hc))
  have hxy := Nat.ModEq.cancel_right_of_coprime hcop hmod
  refine BitVec.eq_of_toNat_eq ?_
  rwa [Nat.ModEq, Nat.mod_eq_of_lt x.isLt, Nat.mod_eq_of_lt y.isLt] at hxy

/-- **`x ^= x >> r`** keeps the upper `r` bits, and every other bit is found
again from one that is higher up. The inversion goes from the top down, `r` bits
at a time. -/
theorem xorShift_injective {r : ℕ} (hr : 0 < r) :
    Function.Injective (xorShift (W := W) r) := by
  intro x y h
  have hbit : ∀ k i, W ≤ i + k → x.getLsbD i = y.getLsbD i := by
    intro k
    induction k with
    | zero =>
      intro i hi
      rw [BitVec.getLsbD_of_ge x i hi, BitVec.getLsbD_of_ge y i hi]
    | succ k ih =>
      intro i hi
      have hi' := congrArg (fun z => z.getLsbD i) h
      simp only [xorShift, BitVec.getLsbD_xor, BitVec.getLsbD_ushiftRight,
        ih (r + i) (by omega)] at hi'
      exact Bool.xor_left_inj.mp hi'
  exact BitVec.eq_of_getLsbD_eq fun i _ => hbit W i (Nat.le_add_left W i)

/-- **`(x << r) | (x >> (W - r))`** moves every bit to a place of its own. The
two parts of the disjunction do not overlap. -/
theorem rotate_injective {r : ℕ} (hr : r ≤ W) :
    Function.Injective (rotate (W := W) r) := by
  intro x y h
  refine BitVec.eq_of_getLsbD_eq fun i hi => ?_
  rcases Nat.lt_or_ge (i + r) W with hlt | hge
  · -- the bit is moved up
    have hi' := congrArg (fun z => z.getLsbD (i + r)) h
    simp only [rotate, BitVec.getLsbD_or, BitVec.getLsbD_shiftLeft,
      BitVec.getLsbD_ushiftRight] at hi'
    rw [BitVec.getLsbD_of_ge x (W - r + (i + r)) (by omega),
      BitVec.getLsbD_of_ge y (W - r + (i + r)) (by omega)] at hi'
    simpa [hlt] using hi'
  · -- the bit comes round to the lower end
    have hi' := congrArg (fun z => z.getLsbD (i + r - W)) h
    simp only [rotate, BitVec.getLsbD_or, BitVec.getLsbD_shiftLeft,
      BitVec.getLsbD_ushiftRight] at hi'
    rw [show W - r + (i + r - W) = i by omega] at hi'
    simpa [show i + r - W < r by omega] using hi'

/-- The distinct images of a list under a function that merges nothing are as
many as its distinct entries. -/
theorem card_toFinset_map {α β : Type*} [DecidableEq α]
    [DecidableEq β] {f : α → β} (hf : Function.Injective f) (l : List α) :
    (l.map f).toFinset.card = l.toFinset.card := by
  have himage : (l.map f).toFinset = l.toFinset.image f := by
    ext b
    simp
  rw [himage, Finset.card_image_of_injective _ hf]

end Mixing
