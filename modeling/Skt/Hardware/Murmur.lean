import Skt.Hardware.Hashes
import Skt.Lib.Mixing

/-!
# Murmur hashes do not merge items

Every step of `Murmur3_32` and of the two halves of `Murmur3_128` sends distinct
words to distinct words. The halves of `Murmur3_128` are mixed with each other,
so that each depends on the key through both; but the additions at the end can
be taken back, and the first half before them is a chain of steps on the key.
The number of distinct hash values of a data list is therefore its number of
distinct items, at any seed.

The steps are of few kinds: multiplication by an odd constant, rotation,
exclusive-or with the word moved down by some bits, and addition of or
exclusive-or with a constant. Each of them is injective on words of any width,
and so is a chain of them.

The results are about the full widths. A hash word that is cut, as the kernel's
is, may merge items.
-/

namespace Skt.Hardware

open Function Mixing

/-! ## The 32-bit hash -/

/-- `Murmur3_32` is a chain of mixing steps, written from the last one to the
first. -/
theorem murmur3_32_eq_chain (seed : BitVec 32) :
    murmur3_32 seed 32
      = xorShift 16 ∘ (· * 0xc2b2ae35#32) ∘ xorShift 13
        ∘ (· * 0x85ebca6b#32) ∘ xorShift 16
        ∘ (· ^^^ 4#32) ∘ (· + 0xe6546b64#32) ∘ (· * 5#32)
          ∘ rotate 13 ∘ (seed ^^^ ·)
        ∘ (· * 0x1b873593#32) ∘ rotate 15 ∘ (· * 0xcc9e2d51#32) := by
  funext data
  exact BitVec.setWidth_eq _

/-- **`Murmur3_32` does not merge words.** -/
theorem murmur3_32_injective (seed : BitVec 32) :
    Injective (murmur3_32 seed 32) := by
  rw [murmur3_32_eq_chain]
  refine (xorShift_injective (by decide)).comp
    <| (mul_injective (by decide)).comp <|
    (xorShift_injective (by decide)).comp <| (mul_injective (by decide)).comp <|
    (xorShift_injective (by decide)).comp ?_
  refine (xor_injective _).comp <| (add_injective _).comp
    <| (mul_injective (by decide)).comp <|
    (rotate_injective (by decide)).comp <| (xor_injective_right seed).comp ?_
  exact (mul_injective (by decide)).comp <|
    (rotate_injective (by decide)).comp (mul_injective (by decide))

/-- **`Murmur3_32` is a bijection on 32-bit words**: keys and hash words are as
many. -/
theorem murmur3_32_bijective (seed : BitVec 32) :
    Bijective (murmur3_32 seed 32) :=
  have : Finite (BitVec 32) := Finite.of_equiv _ BitVec.equivFin.symm.toEquiv
  Finite.injective_iff_bijective.mp (murmur3_32_injective seed)

/-- The software's 32-bit hash is the kernel's, at its own seed, and so the
results hold of it. -/
theorem hashMurmur3_32_eq : hashMurmur3_32 = murmur3_32 42#32 32 := by
  funext key
  exact (BitVec.setWidth_eq _).symm

/-! ## The 128-bit hash

Its first word determines its second up to the key, and both together determine
the key. -/

/-- The finalisation of either half, before they are added to each other. -/
def mixed (h : BitVec 64) : BitVec 64 :=
  (xorShift 33 ∘ (· * 0xc4ceb9fe1a85ec53#64) ∘ xorShift 33
    ∘ (· * 0xff51afd7ed558ccd#64)
    ∘ xorShift 33) h

/-- The finalisation does not merge words. -/
theorem mixed_injective : Injective mixed :=
  (xorShift_injective (by decide)).comp <| (mul_injective (by decide)).comp <|
    (xorShift_injective (by decide)).comp <| (mul_injective (by decide)).comp <|
    xorShift_injective (by decide)

/-- The first half when the key has gone into it. The second half has not seen
the key yet. -/
def keyed (seed : BitVec 64) (data : BitVec 32) : BitVec 64 :=
  ((· ^^^ 4#64) ∘ (seed ^^^ ·) ∘ (· * 0x4cf5ad432745937f#64) ∘ rotate 31
    ∘ (· * 0x87c37b91114253d5#64) ∘ BitVec.setWidth 64) data

/-- It does not merge keys: a key of 32 bits is widened and then mixed. -/
theorem keyed_injective (seed : BitVec 64) : Injective (keyed seed) := by
  have hwiden : Injective (BitVec.setWidth 64 : BitVec 32 → BitVec 64) :=
    fun a b h => by
    have h' := congrArg (BitVec.setWidth 32) h
    rwa [BitVec.setWidth_setWidth_of_le _ (by decide),
      BitVec.setWidth_setWidth_of_le _ (by decide),
      BitVec.setWidth_eq, BitVec.setWidth_eq] at h'
  exact (xor_injective _).comp <| (xor_injective_right seed).comp <|
    (mul_injective (by decide)).comp <| (rotate_injective (by decide)).comp <|
    (mul_injective (by decide)).comp hwiden

/-- The two words of the result, from the first half. -/
theorem murmur3_128Words_eq (seed : BitVec 64) (data : BitVec 32) :
    murmur3_128Words seed data
      = (let h1 := keyed seed data + (seed ^^^ 4#64)
         let h2 := (seed ^^^ 4#64) + h1
         (mixed h2 + (mixed h1 + mixed h2), mixed h1 + mixed h2)) := rfl

/-- **The two words determine the key.** -/
theorem murmur3_128Words_injective (seed : BitVec 64) :
    Injective (murmur3_128Words seed) := by
  intro a b h
  rw [murmur3_128Words_eq, murmur3_128Words_eq] at h
  simp only [Prod.mk.injEq] at h
  obtain ⟨h2, h1⟩ := h
  -- the additions at the end are taken back one after the other
  rw [h1] at h2
  have hmixed2 := (BitVec.add_left_inj _).mp h2
  rw [hmixed2] at h1
  have hmixed1 := mixed_injective ((BitVec.add_left_inj _).mp h1)
  exact keyed_injective seed ((BitVec.add_left_inj _).mp hmixed1)

/-- **`Murmur3_128` does not merge keys** at its full width. -/
theorem murmur3_128_injective (seed : BitVec 64) :
    Injective (murmur3_128 seed 128) := by
  intro a b h
  unfold murmur3_128 at h
  simp only [BitVec.setWidth_eq] at h
  have h2 := congrArg (BitVec.extractLsb' 64 64) h
  rw [BitVec.extractLsb'_append_eq_left,
    BitVec.extractLsb'_append_eq_left] at h2
  rw [h2, BitVec.append_right_inj] at h
  exact murmur3_128Words_injective seed (Prod.ext h2 h)

/-- The software's 128-bit hash is the kernel's, at its own seed. -/
theorem hashMurmur3_128_eq :
    hashMurmur3_128 = murmur3_128 0xDEADF00D#64 128 := by
  funext key
  rw [murmur3_128_eq, BitVec.setWidth_eq]

/-! ## Distinct items -/

/-- **Murmur hashes do not merge distinct items**: at every seed the 32-bit hash
is a bijection on words and the 128-bit hash injective, in the kernel and in
the software, so that a data list has as many distinct hash values as distinct
items. -/
theorem murmur_distinct (seed : BitVec 32) (seed' : BitVec 64) :
    (Bijective (murmur3_32 seed 32) ∧ Injective (murmur3_128 seed' 128))
      ∧ (Bijective hashMurmur3_32 ∧ Injective hashMurmur3_128)
      ∧ ∀ data : List (BitVec 32),
        (data.map (murmur3_32 seed 32)).toFinset.card = data.toFinset.card
          ∧ (data.map (murmur3_128 seed' 128)).toFinset.card
            = data.toFinset.card
          ∧ (data.map hashMurmur3_32).toFinset.card = data.toFinset.card
          ∧ (data.map hashMurmur3_128).toFinset.card = data.toFinset.card := by
  have h32 : Bijective hashMurmur3_32 :=
    hashMurmur3_32_eq ▸ murmur3_32_bijective _
  have h128 : Injective hashMurmur3_128 :=
    hashMurmur3_128_eq ▸ murmur3_128_injective _
  exact ⟨⟨murmur3_32_bijective seed, murmur3_128_injective seed'⟩,
    ⟨h32, h128⟩, fun data =>
    ⟨card_toFinset_map (murmur3_32_injective seed) data,
      card_toFinset_map (murmur3_128_injective seed') data,
      card_toFinset_map h32.injective data, card_toFinset_map h128 data⟩⟩

end Skt.Hardware
