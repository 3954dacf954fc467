import Skt.Software.Hash

/-!
# The hash functions of the kernel

`Murmur3_128<SEED, W>`, `Murmur3_32<SEED, W>` and `SipHash<W, cROUNDS, dROUNDS>`
of `hashes.hpp`, statement by statement, on words that wrap as `ap_uint` does.
They were written apart from the software's specialisations, with the same
constants; at the same seed the result of `Murmur3_128` is the software's hash
word, cut to its low `W` bits. The kernel uses that one only.

The seeds, the result widths and the numbers of rounds are template parameters
in the source and parameters here. A result wider than the function's own word
is refused by a `static_assert` there; here it would be filled up with zeros, so
that the statements about a width carry it as a bound.
-/

namespace Skt.Hardware

/-- The two words `Murmur3_128` concatenates. The value is its only block and
its length is `4`, which is why there is no tail and no loop. -/
def murmur3_128Words (seed : BitVec 64) (data : BitVec 32) :
    BitVec 64 × BitVec 64 :=
  let c1 := 0x87c37b91114253d5#64
  let c2 := 0x4cf5ad432745937f#64
  let c3 := 0xff51afd7ed558ccd#64
  let c4 := 0xc4ceb9fe1a85ec53#64
  let len := 4#64
  let k1 := data.setWidth 64
  let h1 := seed
  let h2 := seed
  let k1 := k1 * c1
  let k1 := (k1 <<< 31) ||| (k1 >>> (64 - 31))
  let k1 := k1 * c2
  let h1 := h1 ^^^ k1
  let h1 := h1 ^^^ len
  let h2 := h2 ^^^ len
  let h1 := h1 + h2
  let h2 := h2 + h1
  let h1 := h1 ^^^ (h1 >>> 33)
  let h1 := h1 * c3
  let h1 := h1 ^^^ (h1 >>> 33)
  let h1 := h1 * c4
  let h1 := h1 ^^^ (h1 >>> 33)
  let h2 := h2 ^^^ (h2 >>> 33)
  let h2 := h2 * c3
  let h2 := h2 ^^^ (h2 >>> 33)
  let h2 := h2 * c4
  let h2 := h2 ^^^ (h2 >>> 33)
  let h1 := h1 + h2
  let h2 := h2 + h1
  (h2, h1)

/-- `Murmur3_128<SEED, W>`: the concatenation `(h2, h1)`, cut to the result
width. Below 64 bits only `h1` is seen. -/
def murmur3_128 (seed : BitVec 64) (W : ℕ) (data : BitVec 32) : BitVec W :=
  let (h2, h1) := murmur3_128Words seed data
  (h2 ++ h1).setWidth W

/-- `Murmur3_32<SEED, W>`: one block of 32 bits, and the finalizer with its
constants in place. -/
def murmur3_32 (seed : BitVec 32) (W : ℕ) (data : BitVec 32) : BitVec W :=
  let c1 := 0xcc9e2d51#32
  let c2 := 0x1b873593#32
  let len := 4#32
  let h1 := seed
  let k1 := data
  let k1 := k1 * c1
  let k1 := (k1 <<< 15) ||| (k1 >>> (32 - 15))
  let k1 := k1 * c2
  let h1 := h1 ^^^ k1
  let h1 := (h1 <<< 13) ||| (h1 >>> (32 - 13))
  let h1 := h1 * 5#32 + 0xe6546b64#32
  let h1 := h1 ^^^ len
  let h1 := h1 ^^^ (h1 >>> 16)
  let h1 := h1 * 0x85ebca6b#32
  let h1 := h1 ^^^ (h1 >>> 13)
  let h1 := h1 * 0xc2b2ae35#32
  let h1 := h1 ^^^ (h1 >>> 16)
  h1.setWidth W

namespace SipHash

/-- `SipHash::rotl64`: a rotation to the left, by the amounts of the rounds. -/
def rotl64 (x : BitVec 64) (r : ℕ) : BitVec 64 := (x <<< r) ||| (x >>> (64 - r))

/-- The four words of the state, `v0` to `v3`. -/
abbrev State := BitVec 64 × BitVec 64 × BitVec 64 × BitVec 64

/-- `SipHash::sip_round`, on the state as a whole. -/
def sipRound (v : State) : State :=
  let (v0, v1, v2, v3) := v
  let v0 := v0 + v1
  let v1 := rotl64 v1 13
  let v1 := v1 ^^^ v0
  let v0 := rotl64 v0 32
  let v2 := v2 + v3
  let v3 := rotl64 v3 16
  let v3 := v3 ^^^ v2
  let v0 := v0 + v3
  let v3 := rotl64 v3 21
  let v3 := v3 ^^^ v0
  let v2 := v2 + v1
  let v1 := rotl64 v1 17
  let v1 := v1 ^^^ v2
  let v2 := rotl64 v2 32
  (v0, v1, v2, v3)

end SipHash

/-- `SipHash<W, cROUNDS, dROUNDS>`, with its result `v0^v1^v1^v2` as it stands
in the source. The block is the value under its length in the top byte. There is
no key: the initial words are the constants a key would be mixed into. -/
def sipHash (W cRounds dRounds : ℕ) (data : BitVec 32) : BitVec W :=
  let v0 := 0x736f6d6570736575#64
  let v1 := 0x646f72616e646f6d#64
  let v2 := 0x6c7967656e657261#64
  let v3 := 0x7465646279746573#64
  let b := (4#64 <<< 56) ||| data.setWidth 64
  let v3 := v3 ^^^ b
  let (v0, v1, v2, v3) := SipHash.sipRound^[cRounds] (v0, v1, v2, v3)
  let v0 := v0 ^^^ b
  let v2 := v2 ^^^ 0xFF#64
  let (v0, v1, v2, _) := SipHash.sipRound^[dRounds] (v0, v1, v2, v3)
  (v0 ^^^ v1 ^^^ v1 ^^^ v2).setWidth W

/-- **The kernel hashes as the software does**, up to the width of the hash
word. Both are the same arithmetic on 64-bit words, in different statements. -/
theorem murmur3_128_eq (W : ℕ) (data : BitVec 32) :
    murmur3_128 0xDEADF00D#64 W data = (hashMurmur3_128 data).setWidth W := by
  have hwords : murmur3_128Words 0xDEADF00D#64 data
      = ((murmur3Words data).2, (murmur3Words data).1) := rfl
  have hcat : ∀ h2 h1 : BitVec 64,
      (h2 ++ h1 : BitVec 128) = (h2.setWidth 128 <<< 64) ||| h1.setWidth 128 :=
        fun h2 h1 => by
    rw [BitVec.append_def, BitVec.shiftLeftZeroExtend_eq, BitVec.setWidth'_eq]
  unfold murmur3_128
  rw [hwords]
  exact congrArg (BitVec.setWidth W) (hcat _ _)

end Skt.Hardware
