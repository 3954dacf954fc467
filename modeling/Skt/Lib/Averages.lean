import Mathlib

/-!
# Averages over finitely many outcomes

What holds on average, and for which part of the outcomes, when outcomes are
equally likely: the bounds of Markov and Chebyshev, and what independence gives.

The outcomes of interest are functions. A value of a random function may be
drawn anew without changing an average (`expect_update`), which is all it takes
to average a quadratic form whose kernel is zero on average: its mean is the sum
of the squares of the weights, and its variance is small if the kernel rarely is
not zero (`Kernel.expect_form`, `Kernel.expect_form_sq`).

A map is balanced if it takes every value equally often. The parts of an outcome
that disjoint balanced maps read are independent, so when each of several
estimates is rarely off, it is rarer still that many of them are
(`part_many_le`).

Everything is a finite sum of rational numbers. There is no measure, and no
limit is taken.
-/

namespace Averages

open Finset

open scoped BigOperators

/-! ## Parts of the outcomes -/

section Part

variable {Ω : Type*} [Fintype Ω]

open Classical in
/-- **The part of the outcomes with a property**, a number between zero and
one. -/
noncomputable def part (P : Ω → Prop) : ℚ := 𝔼 ω, if P ω then 1 else 0

/-- A part is an average of ones, whichever way the property is decided. -/
theorem part_eq_expect (P : Ω → Prop) [DecidablePred P] :
    part P = 𝔼 ω, if P ω then (1 : ℚ) else 0 :=
  Finset.expect_congr rfl fun _ _ => by congr

/-- What is at most as large everywhere is so on average. -/
theorem expect_mono {f g : Ω → ℚ} (h : ∀ ω, f ω ≤ g ω) : 𝔼 ω, f ω ≤ 𝔼 ω, g ω :=
  Finset.expect_le_expect fun ω _ => h ω

/-- A stronger property has a smaller part. -/
theorem part_mono {P Q : Ω → Prop} (h : ∀ ω, P ω → Q ω) : part P ≤ part Q := by
  refine expect_mono fun ω => ?_
  by_cases hP : P ω
  · rw [if_pos hP, if_pos (h ω hP)]
  · rw [if_neg hP]
    split <;> norm_num

/-- No part is negative. -/
theorem part_nonneg (P : Ω → Prop) : 0 ≤ part P :=
  Finset.expect_nonneg fun ω _ => by split <;> norm_num

/-- A part and the rest make up everything. There has to be an outcome for
it. -/
theorem part_not [Nonempty Ω] (P : Ω → Prop) :
    part (fun ω => ¬ P ω) = 1 - part P := by
  rw [eq_sub_iff_add_eq]
  unfold part
  rw [← Finset.expect_add_distrib]
  refine (Finset.expect_congr rfl fun ω _ => ?_).trans (Fintype.expect_const 1)
  by_cases hP : P ω
  · rw [if_neg (not_not.mpr hP), if_pos hP, zero_add]
  · rw [if_pos hP, if_neg hP, add_zero]

/-- A single outcome has its share. -/
theorem part_eq (ω₀ : Ω) : part (fun ω => ω = ω₀) = 1 / Fintype.card Ω := by
  classical
  unfold part
  rw [Fintype.expect_eq_sum_div_card, Finset.sum_ite_eq',
    if_pos (Finset.mem_univ _)]

/-- The part with one of several properties is at most the parts together,
whether or not the properties exclude each other. -/
theorem part_exists_le {ι : Type*} (S : Finset ι) (P : ι → Ω → Prop) :
    part (fun ω => ∃ i ∈ S, P i ω) ≤ ∑ i ∈ S, part (P i) := by
  classical
  unfold part
  rw [← Finset.expect_sum_comm]
  refine expect_mono fun ω => ?_
  by_cases h : ∃ i ∈ S, P i ω
  · obtain ⟨i, hi, hP⟩ := h
    rw [if_pos ⟨i, hi, hP⟩]
    calc (1 : ℚ) = if P i ω then 1 else 0 := by rw [if_pos hP]
      _ ≤ ∑ j ∈ S, if P j ω then 1 else 0 :=
          Finset.single_le_sum (f := fun j => if P j ω then (1 : ℚ) else 0)
            (fun j _ => by split <;> norm_num) hi
  · rw [if_neg h]
    exact Finset.sum_nonneg fun j _ => by split <;> norm_num

/-- **Markov's bound**: a quantity that is never negative is rarely much larger
than its average. -/
theorem part_le_of_expect {f : Ω → ℚ} (hf : ∀ ω, 0 ≤ f ω) {t : ℚ} (ht : 0 < t) :
    part (fun ω => t ≤ f ω) ≤ (𝔼 ω, f ω) / t := by
  rw [Finset.expect_div]
  refine expect_mono fun ω => ?_
  split
  · next h => exact (one_le_div ht).mpr h
  · exact div_nonneg (hf ω) ht.le

/-- **Chebyshev's bound**: a quantity is rarely far from its mean when its
variance is small. -/
theorem part_le_of_variance {f : Ω → ℚ} {mean t : ℚ} (ht : 0 < t) :
    part (fun ω => t ≤ |f ω - mean|) ≤ (𝔼 ω, (f ω - mean) ^ 2) / t ^ 2 := by
  refine (part_mono fun ω h => ?_).trans
    (part_le_of_expect (fun ω => sq_nonneg (f ω - mean)) (pow_pos ht 2))
  rw [← sq_abs (f ω - mean)]
  exact pow_le_pow_left₀ ht.le h 2

end Part

/-! ## Random functions -/

section Functions

variable {X Y : Type*} [Fintype X] [DecidableEq X] [Fintype Y]

/-- Drawing the value at `x` anew, with the old value kept. That it is a
bijection is the whole reason why drawing anew changes no average. -/
def redraw (x : X) : (X → Y) × Y ≃ (X → Y) × Y where
  toFun p := (Function.update p.1 x p.2, p.1 x)
  invFun p := (Function.update p.1 x p.2, p.1 x)
  left_inv p := by simp
  right_inv p := by simp

/-- **A value may be drawn anew.** On the right, the function's own value at `x`
is no longer used, so what depends on it can be averaged apart. -/
theorem expect_update [Nonempty Y] (F : (X → Y) → ℚ) (x : X) :
    𝔼 g, F g = 𝔼 g, 𝔼 y, F (Function.update g x y) := by
  calc 𝔼 g, F g = 𝔼 g : X → Y, 𝔼 _y : Y, F g := by
           simp only [Fintype.expect_const]
    _ = 𝔼 p : (X → Y) × Y, F p.1 := by
        rw [← Finset.expect_product', Finset.univ_product_univ]
    _ = 𝔼 p : (X → Y) × Y, F (Function.update p.1 x p.2) :=
        (Fintype.expect_equiv (redraw x) _ _ fun p => rfl).symm
    _ = 𝔼 g, 𝔼 y, F (Function.update g x y) := by
        rw [← Finset.expect_product', Finset.univ_product_univ]

end Functions

/-- **Two values are the same as often as there are values**: at two different
indices, a random function agrees in one of as many cases. -/
theorem expect_collide {X Y : Type*} [Fintype X] [DecidableEq X]
    [Fintype Y] [DecidableEq Y] [Nonempty Y] {x z : X} (hne : x ≠ z) :
    𝔼 g : X → Y, (if g x = g z then (1 : ℚ) else 0) = 1 / Fintype.card Y := by
  rw [expect_update _ x]
  refine (Finset.expect_congr rfl fun g _ => ?_).trans (Fintype.expect_const _)
  simp only [Function.update_self, Function.update_of_ne hne.symm]
  rw [Fintype.expect_eq_sum_div_card, Finset.sum_ite_eq',
    if_pos (Finset.mem_univ _)]

/-! ## Quadratic forms -/

/-- **A kernel that is zero on average**, and one on the diagonal.

It compares two values of a random function. An index compared with itself gives
one, and two different indices cancel on average; `size` measures how large the
deviations are. -/
structure Kernel (Y : Type*) [Fintype Y] where
  /-- Its value on two elements. -/
  val : Y → Y → ℚ
  /-- the average of the square -/
  size : ℚ
  /-- On equal elements it is one. -/
  diag : ∀ y, val y y = 1
  symm : ∀ y z, val y z = val z y
  /-- Against a fixed element it averages to zero. -/
  mean : ∀ z, 𝔼 y, val y z = 0
  mean_sq : ∀ z, 𝔼 y, val y z ^ 2 = size

namespace Kernel

variable {X Y : Type*} [Fintype X] [DecidableEq X] [Fintype Y]
    (K : Kernel Y) (f : X → ℚ)

/-- The quadratic form of a kernel with weights, at a function. The weights are
how often each index occurs. -/
def form (g : X → Y) : ℚ := ∑ x, ∑ z, f x * f z * K.val (g x) (g z)

/-- The pairs of different indices, in both orders. -/
def pairs (X : Type*) [Fintype X] [DecidableEq X] : Finset (X × X) :=
  Finset.univ.filter fun p => p.1 ≠ p.2

/-- A sum over all pairs is one over the diagonal and one over the pairs of
different indices. -/
theorem sum_eq_diag_add (F : X → X → ℚ) :
    ∑ x, ∑ z, F x z = ∑ x, F x x + ∑ p ∈ pairs X, F p.1 p.2 := by
  have hdiag : ∑ p ∈ Finset.univ.filter (fun p : X × X => p.1 = p.2),
    F p.1 p.2 = ∑ x, F x x := by
    rw [Finset.sum_filter, ← Finset.univ_product_univ, Finset.sum_product]
    exact Finset.sum_congr rfl fun x _ => by simp
  rw [← hdiag, pairs, Finset.sum_filter_add_sum_filter_not,
    ← Finset.univ_product_univ,
    Finset.sum_product]

/-- The form is the sum of the squared weights and what the different indices
add. The second part is the error of an estimate, and it is what is averaged. -/
theorem form_eq (g : X → Y) :
    K.form f g = ∑ x, f x ^ 2 + ∑ p ∈ pairs X, f p.1 * f p.2 * K.val
      (g p.1) (g p.2) := by
  unfold form
  rw [sum_eq_diag_add]
  refine congrArg (· + _) (Finset.sum_congr rfl fun x _ => ?_)
  rw [K.diag, mul_one, sq]

variable [Nonempty Y]

/-- **What reads one index once is zero on average.** The value at that index is
drawn anew, and the kernel averages to zero while the other factor stays. -/
theorem expect_mul_eq_zero {x z : X} (hne : x ≠ z) {F : (X → Y) → ℚ}
    (hF : ∀ g y, F (Function.update g x y) = F g) :
    𝔼 g, K.val (g x) (g z) * F g = 0 := by
  rw [expect_update _ x]
  refine Finset.expect_eq_zero fun g _ => ?_
  simp only [Function.update_self, Function.update_of_ne hne.symm, hF]
  rw [← Finset.expect_mul, K.mean, zero_mul]

/-- Two pairs of different indices are uncorrelated unless they are the same
indices. So of the square of the error only the diagonal survives. -/
theorem expect_mul (p p' : X × X) (hp : p.1 ≠ p.2) (hp' : p'.1 ≠ p'.2) :
    𝔼 g : X → Y, K.val (g p.1) (g p.2) * K.val (g p'.1) (g p'.2)
      = if p' = p ∨ p' = p.swap then K.size else 0 := by
  obtain ⟨x, z⟩ := p
  obtain ⟨x', z'⟩ := p'
  have hsame : 𝔼 g : X → Y, K.val (g x) (g z) ^ 2 = K.size := by
    rw [expect_update _ x]
    refine (Finset.expect_congr rfl fun g _ => ?_).trans
      (Fintype.expect_const K.size)
    simp only [Function.update_self, Function.update_of_ne (Ne.symm hp)]
    exact K.mean_sq (g z)
  -- an index that the second pair does not read
  have honce : ∀ {a b : X}, a ≠ b → x' ≠ a → z' ≠ a →
      𝔼 g : X → Y, K.val (g a) (g b) * K.val (g x') (g z')
        = 0 := fun hab hx hz =>
    K.expect_mul_eq_zero hab fun g y => by
      rw [Function.update_of_ne hx, Function.update_of_ne hz]
  by_cases hx : x' ≠ x ∧ z' ≠ x
  · rw [if_neg fun h => h.elim (fun h => hx.1 (congrArg Prod.fst h)) fun h =>
      hx.2 (congrArg Prod.snd h)]
    exact honce hp hx.1 hx.2
  · by_cases hz : x' ≠ z ∧ z' ≠ z
    · rw [if_neg fun h => h.elim (fun h => hz.2 (congrArg Prod.snd h)) fun h =>
        hz.1 (congrArg Prod.fst h)]
      have hswap : ∀ g : X → Y, K.val (g x) (g z) = K.val (g z) (g x) :=
        fun g => K.symm _ _
      simp only [hswap]
      exact honce (Ne.symm hp) hz.1 hz.2
    · -- both are read, so the pairs are of the same indices
      have hcases : (x' = x ∧ z' = z) ∨ (x' = z ∧ z' = x) := by
        rw [not_and_or, not_not, not_not] at hx hz
        rcases hx with rfl | rfl
        · exact Or.inl ⟨rfl, hz.resolve_left hp⟩
        · exact Or.inr ⟨hz.resolve_right hp, rfl⟩
      rcases hcases with ⟨rfl, rfl⟩ | ⟨rfl, rfl⟩
      · rw [if_pos (Or.inl rfl), ← hsame]
        exact Finset.expect_congr rfl fun g _ => (sq _).symm
      · have hswap : (x', z') = ((z', x') : X × X).swap := rfl
        rw [if_pos (Or.inr hswap), ← hsame]
        exact Finset.expect_congr rfl fun g _ => by
          rw [K.symm (g x') (g z'), sq]

/-- **The form is the sum of the squared weights on average**: the estimate has
no bias. -/
theorem expect_form : 𝔼 g : X → Y, K.form f g = ∑ x, f x ^ 2 := by
  have hzero : ∀ p ∈ pairs X, 𝔼 g : X →
    Y, f p.1 * f p.2 * K.val (g p.1) (g p.2) = 0 := by
    intro p hp
    have hmean := K.expect_mul_eq_zero (Finset.mem_filter.mp hp).2
      (F := fun _ : X → Y => f p.1 * f p.2) fun _ _ => rfl
    rw [← hmean]
    exact Finset.expect_congr rfl fun g _ => mul_comm _ _
  simp only [form_eq, Finset.expect_add_distrib, Fintype.expect_const,
    Finset.expect_sum_comm]
  rw [Finset.sum_eq_zero hzero, add_zero]

/-- The weights of the pairs of different indices, from the second and the
fourth moment. -/
theorem sum_pairs_sq :
    ∑ p ∈ pairs X, (f p.1 * f p.2) ^ 2 = (∑ x, f x ^ 2) ^ 2 - ∑ x, f x ^ 4 := by
  have hall := sum_eq_diag_add fun x z => (f x * f z) ^ 2
  have hsquare : ∑ x, ∑ z, (f x * f z) ^ 2 = (∑ x, f x ^ 2) ^ 2 := by
    rw [sq (∑ x, f x ^ 2), Finset.sum_mul_sum]
    exact Finset.sum_congr rfl fun x _ => Finset.sum_congr rfl fun z _ =>
      mul_pow _ _ _
  have hdiag : ∑ x, (f x * f x) ^ 2 = ∑ x, f x ^ 4 :=
    Finset.sum_congr rfl fun x _ => by ring
  rw [hsquare, hdiag] at hall
  rw [hall, add_sub_cancel_left]

/-- **The variance of the form**, exactly. Each pair of indices counts in both
orders, hence the two. -/
theorem expect_form_sq : 𝔼 g : X → Y, (K.form f g - ∑ x, f x ^ 2) ^ 2
    = 2 * K.size * ((∑ x, f x ^ 2) ^ 2 - ∑ x, f x ^ 4) := by
  have hexpand : ∀ g : X → Y, (K.form f g - ∑ x, f x ^ 2) ^ 2
      = ∑ p ∈ pairs X, ∑ p' ∈ pairs X, f p.1 * f p.2 * (f p'.1 * f p'.2)
          * (K.val (g p.1) (g p.2) * K.val (g p'.1) (g p'.2)) := by
    intro g
    rw [form_eq, add_sub_cancel_left, sq, Finset.sum_mul_sum]
    exact Finset.sum_congr rfl fun p _ =>
      Finset.sum_congr rfl fun p' _ => by ring
  have hpair : ∀ p ∈ pairs X, ∑ p' ∈ pairs X, f p.1 * f p.2 * (f p'.1 * f p'.2)
      * (𝔼 g : X → Y, K.val (g p.1) (g p.2) * K.val (g p'.1) (g p'.2))
      = 2 * K.size * (f p.1 * f p.2) ^ 2 := by
    intro p hp
    have hne := (Finset.mem_filter.mp hp).2
    have hswap : p.swap ∈ pairs X :=
      Finset.mem_filter.mpr ⟨Finset.mem_univ _, Ne.symm hne⟩
    have hdiff : p ≠ p.swap := fun h => hne (congrArg Prod.fst h)
    calc ∑ p' ∈ pairs X, f p.1 * f p.2 * (f p'.1 * f p'.2)
          * (𝔼 g : X → Y, K.val (g p.1) (g p.2) * K.val (g p'.1) (g p'.2))
        = ∑ p' ∈ pairs X, if p' = p ∨ p' = p.swap
            then f p.1 * f p.2 * (f p'.1 * f p'.2) * K.size else 0 := by
          refine Finset.sum_congr rfl fun p' hp' => ?_
          rw [K.expect_mul p p' hne (Finset.mem_filter.mp hp').2,
            mul_ite, mul_zero]
      _ = ∑ p' ∈ {p, p.swap}, f p.1 * f p.2 * (f p'.1 * f p'.2) * K.size := by
          rw [← Finset.sum_filter]
          refine Finset.sum_congr (Finset.ext fun p' => ?_) fun _ _ => rfl
          rw [Finset.mem_filter, Finset.mem_insert, Finset.mem_singleton]
          exact ⟨fun h => h.2, fun h =>
            ⟨h.elim (fun h => h ▸ hp) fun h => h ▸ hswap, h⟩⟩
      _ = 2 * K.size * (f p.1 * f p.2) ^ 2 := by
          rw [Finset.sum_pair hdiff]
          show _ + f p.1 * f p.2 * (f p.2 * f p.1) * K.size = _
          ring
  calc 𝔼 g : X → Y, (K.form f g - ∑ x, f x ^ 2) ^ 2
      = ∑ p ∈ pairs X, ∑ p' ∈ pairs X, f p.1 * f p.2 * (f p'.1 * f p'.2)
          * (𝔼 g : X → Y, K.val (g p.1) (g p.2) * K.val (g p'.1) (g p'.2)) := by
        simp only [hexpand, Finset.expect_sum_comm, Finset.mul_expect]
    _ = ∑ p ∈ pairs X, 2 * K.size * (f p.1 * f p.2) ^ 2 :=
      Finset.sum_congr rfl hpair
    _ = 2 * K.size * ((∑ x, f x ^ 2) ^ 2 - ∑ x, f x ^ 4) := by
        rw [← Finset.mul_sum, sum_pairs_sq]

end Kernel

/-! ## Signed buckets -/

section Signed

variable {X B : Type*} [Fintype X] [Fintype B]

/-- The sign of a bit. -/
def signOf (b : Bool) : ℚ := if b then 1 else -1

/-- Signs are one when squared. -/
theorem signOf_mul_self (b : Bool) : signOf b * signOf b = 1 := by
  cases b <;> norm_num [signOf]

/-- A random sign is zero on average, in whatever bucket and with whatever
weight of the bucket. -/
theorem expect_signed [Nonempty B] (F : B → ℚ) :
    𝔼 y : Bool × B, signOf y.1 * F y.2 = 0 := by
  rw [Fintype.expect_eq_sum_div_card, Fintype.sum_prod_type, Fintype.sum_bool]
  simp [signOf]

variable [DecidableEq B]

variable (B) in
/-- **The kernel of a signed bucket**: the product of the signs of two indices
in one bucket, and zero of two in different buckets.

Two indices share a bucket in one case of as many as there are buckets, which is
the size of the kernel. -/
def Kernel.signed [Nonempty B] : Kernel (Bool × B) where
  val y z := if y.2 = z.2 then signOf y.1 * signOf z.1 else 0
  size := 1 / Fintype.card B
  diag y := by rw [if_pos rfl, signOf_mul_self]
  symm y z := by simp only [eq_comm, mul_comm]
  mean z := by
    refine (Finset.expect_congr rfl fun y _ => ?_).trans
      (expect_signed fun k => if k = z.2 then signOf z.1 else 0)
    rw [mul_ite, mul_zero]
  mean_sq z := by
    have hsq : ∀ y : Bool × B,
      (if y.2 = z.2 then signOf y.1 * signOf z.1 else 0) ^ 2
        = if y.2 = z.2 then (1 : ℚ) else 0 := by
      intro y
      split
      · rw [mul_pow, sq, sq, signOf_mul_self, signOf_mul_self, one_mul]
      · norm_num
    simp only [hsq]
    rw [Fintype.expect_eq_sum_div_card, Fintype.sum_prod_type,
      Fintype.card_prod, Fintype.card_bool,
      Nat.cast_mul]
    simp only [Finset.sum_ite_eq', Finset.mem_univ, if_true,
      Fintype.sum_bool, Nat.cast_ofNat]
    rw [one_add_one_eq_two, ← div_div, div_self two_ne_zero]

/-- **The form of signed buckets is a sum of squares**, one for each bucket. The
left side is how the average is taken and the right side how a program computes
it. -/
theorem Kernel.form_signed [Nonempty B] (f : X → ℚ) (g : X → Bool × B) :
    (Kernel.signed B).form f g
      = ∑ k, (∑ x, if (g x).2 = k then f x * signOf (g x).1 else 0) ^ 2 := by
  have hbucket : ∀ x z, f x * f z * (Kernel.signed B).val (g x) (g z)
      = ∑ k, (if (g x).2 = k then f x * signOf (g x).1 else 0)
        * (if (g z).2 = k then f z * signOf (g z).1 else 0) := by
    intro x z
    rw [Finset.sum_eq_single (g x).2
      (fun k _ hk => by rw [if_neg hk.symm, zero_mul])
      fun h => absurd (Finset.mem_univ _) h]
    show _ * (if (g x).2 = (g z).2 then signOf (g x).1
      * signOf (g z).1 else 0) = _
    rw [if_pos rfl]
    by_cases h : (g x).2 = (g z).2
    · rw [if_pos h, if_pos h.symm]
      ring
    · rw [if_neg h, if_neg (Ne.symm h), mul_zero, mul_zero]
  simp only [form, hbucket, sq, Finset.sum_mul_sum]
  rw [Finset.sum_congr rfl fun x _ => Finset.sum_comm, Finset.sum_comm]

end Signed

/-! ## Balanced maps -/

section Balanced

variable {X Y Z : Type*} [Fintype Y]

open Classical in
/-- **A map that takes every value equally often.** The number of times is not
named, as only its being positive and the same for all is used. -/
def Balanced (π : Y → Z) : Prop :=
  ∃ c, 0 < c ∧ ∀ z, (Finset.univ.filter fun y => π y = z).card = c

/-- A balanced map reads every value, and sums along it are sums over the
values, each counted as often. -/
theorem Balanced.card_eq [Fintype Z] {π : Y → Z} (hπ : Balanced π) :
    ∃ c, 0 < c ∧ Fintype.card Y = c * Fintype.card Z
      ∧ ∀ F : Z → ℚ, ∑ y, F (π y) = c * ∑ z, F z := by
  classical
  obtain ⟨c, hc, hcard⟩ := hπ
  have hsum : ∀ F : Z → ℚ, ∑ y, F (π y) = c * ∑ z, F z := by
    intro F
    rw [← Finset.sum_fiberwise Finset.univ π, Finset.mul_sum]
    refine Finset.sum_congr rfl fun z _ => ?_
    have hconst : ∀ y ∈ Finset.univ.filter (fun y => π y = z),
      F (π y) = F z := fun y hy => by
      rw [(Finset.mem_filter.mp hy).2]
    rw [Finset.sum_congr rfl hconst, Finset.sum_const, nsmul_eq_mul]
    convert congrArg (fun n : ℕ => (n : ℚ) * F z) (hcard z)
  refine ⟨c, hc, ?_, hsum⟩
  have hone := hsum fun _ => 1
  simp only [Finset.sum_const, Finset.card_univ, nsmul_eq_mul, mul_one] at hone
  exact_mod_cast hone

/-- A bijection takes every value once. -/
theorem balanced_equiv (e : Y ≃ Z) : Balanced e := by
  classical
  refine ⟨1, Nat.one_pos, fun z => ?_⟩
  have hset : (Finset.univ.filter fun y => e y = z) = {e.symm z} := by
    ext y
    simp [e.eq_symm_apply]
  convert Finset.card_singleton (e.symm z)

/-- A component takes every value equally often, once for each of the other
component. -/
theorem balanced_snd [Fintype Z] [Nonempty Y] :
    Balanced fun p : Y × Z => p.2 := by
  classical
  refine ⟨Fintype.card Y, Fintype.card_pos, fun z => ?_⟩
  have hset : (Finset.univ.filter fun p : Y × Z => p.2 = z)
    = Finset.univ.image fun y => (y, z) := by
    ext ⟨y, z'⟩
    simp [eq_comm]
  have hcard : (Finset.univ.image fun y : Y => (y, z)).card = Fintype.card Y :=
    Finset.card_image_of_injective _ fun _ _ h => congrArg Prod.fst h
  convert hcard

/-- **Balanced maps compose**, and the numbers of times multiply. -/
theorem Balanced.comp [Fintype Z] {T : Type*} {ρ : Z → T}
    {π : Y → Z} (hρ : Balanced ρ)
    (hπ : Balanced π) : Balanced fun y => ρ (π y) := by
  classical
  obtain ⟨c, hc, hcard⟩ := hπ
  obtain ⟨d, hd, hcard'⟩ := hρ
  refine ⟨d * c, Nat.mul_pos hd hc, fun t => ?_⟩
  have hfiber : ∀ z ∈ Finset.univ.filter (fun z => ρ z = t),
      (Finset.univ.filter fun y => ρ (π y) = t ∧ π y = z).card = c := by
    intro z hz
    have hset : (Finset.univ.filter fun y => ρ (π y) = t ∧ π y = z)
        = Finset.univ.filter fun y => π y = z := by
      ext y
      simp only [Finset.mem_filter, Finset.mem_univ, true_and,
        and_iff_right_iff_imp]
      rintro rfl
      exact (Finset.mem_filter.mp hz).2
    rw [hset]
    convert hcard z
  have hsum : (Finset.univ.filter fun y => ρ (π y) = t).card
      = ∑ z ∈ Finset.univ.filter (fun z => ρ z = t),
        (Finset.univ.filter fun y => ρ (π y) = t ∧ π y = z).card := by
    rw [Finset.card_eq_sum_card_fiberwise (f := π)
      (t := Finset.univ.filter fun z => ρ z = t) fun y hy => by simpa using hy]
    simp only [Finset.filter_filter]
  have hcount : (Finset.univ.filter fun z => ρ z = t).card = d := by
    convert hcard' t
  calc _ = (Finset.univ.filter fun y => ρ (π y) = t).card := by congr
    _ = d * c := by
      rw [hsum, Finset.sum_congr rfl hfiber, Finset.sum_const,
        hcount, smul_eq_mul]

/-- **Averages do not see more than a balanced map reads.** The average over the
hash words, for instance, becomes one over the bits that are used. -/
theorem Balanced.expect [Fintype Z] {π : Y → Z} (hπ : Balanced π) (F : Z → ℚ) :
    𝔼 y, F (π y) = 𝔼 z, F z := by
  obtain ⟨c, hc, hcard, hsum⟩ := hπ.card_eq
  have hpos : (c : ℚ) ≠ 0 := Nat.cast_ne_zero.mpr hc.ne'
  rw [Fintype.expect_eq_sum_div_card, Fintype.expect_eq_sum_div_card, hsum,
    hcard, Nat.cast_mul,
    mul_div_mul_left _ _ hpos]

open Classical in
/-- The part with a property that a balanced map reads is the part of its values
with the property. -/
theorem Balanced.part [Fintype Z] {π : Y → Z} (hπ : Balanced π) (P : Z → Prop) :
    part (fun y => P (π y)) = Averages.part P := by
  unfold Averages.part
  exact hπ.expect fun z => if P z then 1 else 0

/-- **Reading every value of a function through a balanced map is balanced.** A
random function stays random when its values are cut down. -/
theorem Balanced.pi [Fintype X] [DecidableEq X] {π : Y → Z} (hπ : Balanced π) :
    Balanced fun (g : X → Y) (x : X) => π (g x) := by
  classical
  obtain ⟨c, hc, hcard⟩ := hπ
  refine ⟨c ^ Fintype.card X, pow_pos hc _, fun h => ?_⟩
  have hset : (Finset.univ.filter fun g : X → Y => (fun x => π (g x)) = h)
      = Fintype.piFinset fun x => Finset.univ.filter fun y => π y = h x := by
    ext g
    simp only [Finset.mem_filter, Finset.mem_univ, true_and,
      Fintype.mem_piFinset]
    exact funext_iff
  have hfiber : ∀ x, (Finset.univ.filter fun y => π y = h x).card
    = c := fun x => by
    convert hcard (h x)
  calc _ = (Fintype.piFinset fun x => Finset.univ.filter fun y =>
           π y = h x).card := by
        rw [← hset]
        congr
    _ = c ^ Fintype.card X := by
        rw [Fintype.card_piFinset, Finset.prod_congr rfl fun x _ =>
          hfiber x, Finset.prod_const,
          Finset.card_univ]

/-- A value of a function is read equally often, at any index. -/
theorem balanced_apply [DecidableEq Y] [Fintype Z] [Nonempty Z] (y : Y) :
    Balanced fun h : Y → Z => h y :=
  (balanced_snd (Y := {y' // y' ≠ y} → Z)).comp
    (balanced_equiv ((Equiv.funSplitAt y Z).trans (Equiv.prodComm _ _)))

/-- **What a random function is read through part by part** is as many random
functions, independent of each other when the map is balanced on the family. -/
theorem Balanced.pi_comm [Fintype X] [DecidableEq X] {ι : Type*}
    [Fintype ι] [DecidableEq ι] [Fintype Z] {π : Y → ι → Z} (hπ : Balanced π) :
    Balanced fun (g : X → Y) (i : ι) (x : X) => π (g x) i :=
  (balanced_equiv (Equiv.piComm fun (_ : X) (_ : ι) => Z)).comp hπ.pi

end Balanced

/-! ## Independent outcomes -/

section Independent

variable {ι Z : Type*} [Fintype ι] [DecidableEq ι] [Fintype Z]

/-- **The average of a product** is the product of the averages, where every
factor reads an outcome of its own. -/
theorem expect_prod (F : ι → Z → ℚ) :
    𝔼 h : ι → Z, ∏ i, F i (h i) = ∏ i, 𝔼 z, F i z := by
  simp only [Fintype.expect_eq_sum_div_card]
  rw [Finset.prod_div_distrib, Finset.prod_univ_sum,
    Fintype.piFinset_univ, Finset.prod_const,
    Fintype.card_fun, Finset.card_univ, Nat.cast_pow]

variable [Nonempty Z]

open Classical in
/-- **Independent properties**: the part with several of them is the product of
the parts. -/
theorem part_forall (S : Finset ι) (P : ι → Z → Prop) :
    part (fun h : ι → Z => ∀ i ∈ S, P i (h i)) = ∏ i ∈ S, part (P i) := by
  unfold part
  refine (Finset.expect_congr rfl fun h _ => ?_).trans
    ((expect_prod fun i z =>
      if i ∈ S then (if P i z then (1 : ℚ) else 0) else 1).trans ?_)
  · by_cases hall : ∀ i ∈ S, P i (h i)
    · rw [if_pos hall]
      refine (Finset.prod_eq_one fun i _ => ?_).symm
      by_cases hi : i ∈ S
      · rw [if_pos hi, if_pos (hall i hi)]
      · rw [if_neg hi]
    · rw [if_neg hall]
      push Not at hall
      obtain ⟨i, hi, hP⟩ := hall
      exact (Finset.prod_eq_zero (Finset.mem_univ i)
        (by rw [if_pos hi, if_neg hP])).symm
  · refine ((Finset.prod_subset (Finset.subset_univ S) fun i _ hi =>
      ?_).symm.trans
      (Finset.prod_congr rfl fun i hi => ?_))
    · simp only [if_neg hi, Fintype.expect_const]
    · simp only [if_pos hi]

open Classical in
/-- **When each is rare, many are rarer still.** At least `k` of the properties
hold in the part that a choice of `k` of them accounts for. A median is far off
only when half of its estimates are. -/
theorem part_many_le {P : ι → Z → Prop} {δ : ℚ}
    (hδ : ∀ i, part (P i) ≤ δ) (k : ℕ) :
    part (fun h : ι → Z => k ≤ (Finset.univ.filter fun i => P i (h i)).card)
      ≤ (Fintype.card ι).choose k * δ ^ k := by
  have hsub : ∀ h : ι → Z, k ≤ (Finset.univ.filter fun i => P i (h i)).card →
      ∃ S ∈ Finset.powersetCard k (Finset.univ : Finset ι),
        ∀ i ∈ S, P i (h i) := by
    intro h hk
    obtain ⟨S, hS, hcard⟩ := Finset.exists_subset_card_eq hk
    exact ⟨S, Finset.mem_powersetCard.mpr ⟨Finset.subset_univ S, hcard⟩,
      fun i hi => (Finset.mem_filter.mp (hS hi)).2⟩
  calc part (fun h : ι → Z => k ≤ (Finset.univ.filter fun i => P i (h i)).card)
      ≤ ∑ S ∈ Finset.powersetCard k (Finset.univ : Finset ι),
          part (fun h : ι → Z => ∀ i ∈ S, P i (h i)) :=
        (part_mono hsub).trans (part_exists_le _ _)
    _ ≤ ∑ S ∈ Finset.powersetCard k (Finset.univ : Finset ι), δ ^ k := by
        refine Finset.sum_le_sum fun S hS => ?_
        rw [part_forall, ← (Finset.mem_powersetCard.mp hS).2,
          ← Finset.prod_const]
        exact Finset.prod_le_prod (fun i _ => part_nonneg _) fun i _ => hδ i
    _ = (Fintype.card ι).choose k * δ ^ k := by
        rw [Finset.sum_const, Finset.card_powersetCard,
          Finset.card_univ, nsmul_eq_mul]

end Independent

end Averages
