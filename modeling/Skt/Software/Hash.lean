import Mathlib

/-!
# The hash functions of the software sketches

`skt_base.cpp` specialises `hash<HASH, T>` for every value of `hash_e`. Each
specialisation takes a 32-bit key to a word of its own width; the collection
loop is a template over that width. Unsigned machine words are `BitVec`s, on
which the arithmetic wraps as in C++.

The definitions follow the statements of the source one by one, each assignment
as a `let` that shadows the one before. The two branches behind
`INCLUDE_AVX_HASHES` have no code in the repository and are left out of the
enumeration.
-/

namespace Skt

/-- `hash_e`: the hash functions a collector can be built with. The value `end`
of the source counts them and names none. -/
inductive HashE where
  | ident
  | sip
  | murmur3_32
  | murmur3_64
  | murmur3_128
  deriving DecidableEq, Repr

/-- The width of the hash word, from the `IMPLEMENT(HASH, W)` table. `IDENT` and
the short `MURMUR3` have as many bits as a key. -/
@[reducible] def HashE.width : HashE → ℕ
  | .ident => 32
  | .sip => 64
  | .murmur3_32 => 32
  | .murmur3_64 => 64
  | .murmur3_128 => 128

/-- Every hash word has some bits, so shifts by its width less one are
defined. -/
theorem HashE.width_pos (h : HashE) : 0 < h.width := by cases h <;> decide

/-- No hash word has more than 128 bits, which bounds the ranks by 129. -/
theorem HashE.width_le (h : HashE) : h.width ≤ 128 := by cases h <;> decide

/-- No hash word has fewer than 32 bits: a table entry is never wider than the
word it is widened to in the collection loop. -/
theorem HashE.le_width (h : HashE) : 32 ≤ h.width := by cases h <;> decide

/-! ## The specialisations

All of them work on one key of four bytes, so the length enters as a constant
and the loop over the blocks of a longer input is not there. -/

/-- `hash<IDENT>`: not a hash, just the key. -/
def hashIdent (key : BitVec 32) : BitVec 32 := key

/-- `hash<MURMUR3_32>`: the seed is 42, and the block and the finalisation are
written out for the one block there is. -/
def hashMurmur3_32 (key : BitVec 32) : BitVec 32 :=
  let h1 := 42#32
  -- body
  let k1 := key
  let k1 := k1 * 0xcc9e2d51#32
  let k1 := (k1 <<< 15) ||| (k1 >>> (32 - 15))
  let k1 := k1 * 0x1b873593#32
  let h1 := h1 ^^^ k1
  let h1 := (h1 <<< 13) ||| (h1 >>> (32 - 13))
  let h1 := h1 * 5#32 + 0xe6546b64#32
  -- finalization
  let h1 := h1 ^^^ 4#32
  let h1 := h1 ^^^ (h1 >>> 16)
  let h1 := h1 * 0x85ebca6b#32
  let h1 := h1 ^^^ (h1 >>> 13)
  let h1 := h1 * 0xc2b2ae35#32
  h1 ^^^ (h1 >>> 16)

/-- `rotl64`, which the source writes with two shifts. It is called with
constant amounts between 13 and 32. -/
def rotl64 (x : BitVec 64) (r : ℕ) : BitVec 64 := (x <<< r) ||| (x >>> (64 - r))

/-- `fmix64`, the finalisation of a half of the 128-bit hash. -/
def fmix64 (k : BitVec 64) : BitVec 64 :=
  let k := k ^^^ (k >>> 33)
  let k := k * 0xff51afd7ed558ccd#64
  let k := k ^^^ (k >>> 33)
  let k := k * 0xc4ceb9fe1a85ec53#64
  k ^^^ (k >>> 33)

/-- The body `hash<MURMUR3_64>` and `hash<MURMUR3_128>` share: the pair `(h1,
h2)` both have at their `return`. The source writes it twice, statement for
statement. -/
def murmur3Words (key : BitVec 32) : BitVec 64 × BitVec 64 :=
  let seed := 0xDEADF00D#64
  let h1 := seed
  let h2 := seed
  let k1 := key.setWidth 64
  let k1 := k1 * 0x87c37b91114253d5#64
  let k1 := rotl64 k1 31
  let k1 := k1 * 0x4cf5ad432745937f#64
  let h1 := h1 ^^^ k1
  -- finalization
  let h1 := h1 ^^^ 4#64
  let h2 := h2 ^^^ 4#64
  let h1 := h1 + h2
  let h2 := h2 + h1
  let h1 := fmix64 h1
  let h2 := fmix64 h2
  let h1 := h1 + h2
  let h2 := h2 + h1
  (h1, h2)

/-- `hash<MURMUR3_64>`: the truncated 128-bit hash, of which it returns `h1`. -/
def hashMurmur3_64 (key : BitVec 32) : BitVec 64 := (murmur3Words key).1

/-- `hash<MURMUR3_128>`: `h2` above `h1`. -/
def hashMurmur3_128 (key : BitVec 32) : BitVec 128 :=
  ((murmur3Words key).2.setWidth 128 <<< 64)
    ||| (murmur3Words key).1.setWidth 128

/-- `SIPROUND` on the state `(v0, v1, v2, v3)`. The macro updates the two pairs
of words one after the other, where the specification interleaves them. -/
def sipRound (v : BitVec 64 × BitVec 64 × BitVec 64 × BitVec 64) :
    BitVec 64 × BitVec 64 × BitVec 64 × BitVec 64 :=
  let (v0, v1, v2, v3) := v
  let v0 := v0 + v1
  let v1 := rotl64 v1 13
  let v1 := v1 ^^^ v0
  let v0 := rotl64 v0 32
  let v2 := v2 + v3
  let v3 := rotl64 v3 16
  let v3 := v3 ^^^ v2
  let v0 := v0 + v3
  let v3 := rotl64 v3 21
  let v3 := v3 ^^^ v0
  let v2 := v2 + v1
  let v1 := rotl64 v1 17
  let v1 := v1 ^^^ v2
  let v2 := rotl64 v2 32
  (v0, v1, v2, v3)

/-- `hash<SIP>`, with its length byte `8` and its result `v0^v1^v1^v2`. The key
has four bytes, and of the four words of the state the last is not used and `v1`
cancels; both are as in the source. -/
def hashSip (key : BitVec 32) : BitVec 64 :=
  let v0 := 0x736f6d6570736575#64
  let v1 := 0x646f72616e646f6d#64
  let v2 := 0x6c7967656e657261#64
  let v3 := 0x7465646279746573#64
  let b := (8#64 <<< 56) ||| key.setWidth 64
  let v3 := v3 ^^^ b
  let (v0, v1, v2, v3) := sipRound (sipRound (v0, v1, v2, v3))
  let v0 := v0 ^^^ b
  let v2 := v2 ^^^ 0xFF#64
  let (v0, v1, v2, _) :=
    sipRound (sipRound (sipRound (sipRound (v0, v1, v2, v3))))
  v0 ^^^ v1 ^^^ v1 ^^^ v2

/-- `hash<HASH, T>`: the specialisation a collector's dispatch entry calls. The
type of its result depends on the hash function, as the template parameter
does. -/
def hash : (h : HashE) → BitVec 32 → BitVec h.width
  | .ident => hashIdent
  | .sip => hashSip
  | .murmur3_32 => hashMurmur3_32
  | .murmur3_64 => hashMurmur3_64
  | .murmur3_128 => hashMurmur3_128

end Skt
