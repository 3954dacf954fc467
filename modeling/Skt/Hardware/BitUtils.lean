import Mathlib

/-!
# Compile-time logarithms

The widths of the kernel's registers are computed at compile time by the
templates `flog2`, `clog2` and `pow2` of the bit utilities. The functions here
follow the `constexpr` versions that stand in their comment, which are also
defined at `0`, where the first two templates have no value.

Every counter of the kernel that runs below some bound `n` is declared with
`clog2 n` bits: the row index of `Concat`, the fill count of the funnel, the
ranks. What the rest of the development needs of them is therefore one fact with
two sides. A register of `clog2 n` bits is wide enough for every value below
`n`, so that an increment which stays below the bound does not wrap; and no
narrower register is.
-/

namespace Skt.Hardware

/-- `flog2`, with a bound on the number of halvings. The template recursion ends
because `N/2` is smaller than `N`; here the bound makes it structural. -/
def flog2Aux : ℕ → ℕ → ℕ
  | 0, _ => 0
  | k + 1, n => if n < 2 then 0 else 1 + flog2Aux k (n / 2)

/-- `flog2`: floor of the logarithm, `0` at `0` and at `1`. There are never more
halvings than `n` itself. -/
def flog2 (n : ℕ) : ℕ := flog2Aux n n

/-- `clog2`: ceiling of the logarithm, one more than the floor of the logarithm
of the predecessor. -/
def clog2 (n : ℕ) : ℕ := if n < 2 then 0 else 1 + flog2 (n - 1)

/-- `pow2`: the power of two, by doubling. The widths that are computed by it
fit an `unsigned`, so that it is a natural number here. -/
def pow2 : ℕ → ℕ
  | 0 => 1
  | n + 1 => 2 * pow2 n

/-- The power computed by doubling is Mathlib's. -/
theorem pow2_eq (n : ℕ) : pow2 n = 2 ^ n := by
  induction n with
  | zero => rfl
  | succ n ih => rw [pow2, ih, pow_succ']

/-- **Enough halvings reach the top bit**: `n` lies between the power of the
logarithm and the next one. The induction is on the bound, one halving a
step. -/
theorem flog2Aux_spec {k n : ℕ} (hk : n ≤ k) :
    n < 2 ^ (flog2Aux k n + 1) ∧ (n ≠ 0 → 2 ^ flog2Aux k n ≤ n) := by
  induction k generalizing n with
  | zero =>
    obtain rfl : n = 0 := by omega
    exact ⟨by decide, fun h => absurd rfl h⟩
  | succ k ih =>
    rw [flog2Aux]
    split
    · next h => exact ⟨by omega, fun h0 => by omega⟩
    · next h =>
      obtain ⟨h₁, h₂⟩ := ih (n := n / 2) (by omega)
      have h₃ := h₂ (by omega)
      rw [Nat.add_comm 1]
      constructor
      · rw [pow_succ]
        omega
      · intro
        rw [pow_succ]
        omega

/-- **A register of `clog2 n` bits holds every value below `n`.** -/
theorem le_two_pow_clog2 (n : ℕ) : n ≤ 2 ^ clog2 n := by
  unfold clog2
  split
  · next h =>
    show n ≤ 1
    omega
  · have h := (flog2Aux_spec (le_refl (n - 1))).1
    unfold flog2
    rw [Nat.add_comm 1]
    omega

/-- **A narrower register does not**: its values end before `n`. -/
theorem two_pow_lt_of_lt_clog2 {c n : ℕ} (h : c < clog2 n) : 2 ^ c < n := by
  unfold clog2 at h
  split at h
  · exact absurd h (Nat.not_lt_zero c)
  · have hle := (flog2Aux_spec (le_refl (n - 1))).2 (by omega)
    have hpow : 2 ^ c ≤ 2 ^ flog2 (n - 1) :=
      Nat.pow_le_pow_right (by decide) (by omega)
    unfold flog2 at hpow
    omega

/-- **The logarithm undoes the power.** It is what makes `bin2hot` and `hot2bin`
fit together: the default widths of the two are these functions. -/
theorem clog2_pow2 (n : ℕ) : clog2 (pow2 n) = n := by
  rw [pow2_eq]
  refine le_antisymm ?_
    ((Nat.pow_le_pow_iff_right (by decide)).mp (le_two_pow_clog2 (2 ^ n)))
  by_contra h
  exact lt_irrefl _ (two_pow_lt_of_lt_clog2 (Nat.lt_of_not_le h))

end Skt.Hardware
