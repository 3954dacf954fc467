import Skt.Lib.LittleEndian

/-!
# SipHash

The keyed hash function SipHash-c-d on byte strings. The string is cut into
little-endian words of eight bytes; the last word holds the bytes left over and,
in its top byte, the length of the string. Every word is mixed in with `c`
rounds, and `d` rounds finish the hash, which is the exclusive-or of all four
words of the state. On a string of fewer than eight bytes there is only the last
word.

The definitions follow the function as it is specified, with both numbers of
rounds as parameters. An implementation for words of a fixed length is compared
with `state` and `hash`: it unrolls the loop over the words and writes the last
word as a constant with the input in its lower bytes (`state_of_length_lt`,
`lastWord_leBytes`).
-/

namespace Sip

open LittleEndian

/-- The four words of the state. -/
abbrev State := BitVec 64 × BitVec 64 × BitVec 64 × BitVec 64

/-- One round, an unkeyed permutation of the state: additions, rotations and
exclusive-ors in the order of the specification. -/
def round (v : State) : State :=
  let (v0, v1, v2, v3) := v
  let v0 := v0 + v1
  let v2 := v2 + v3
  let v1 := v1.rotateLeft 13
  let v3 := v3.rotateLeft 16
  let v1 := v1 ^^^ v0
  let v3 := v3 ^^^ v2
  let v0 := v0.rotateLeft 32
  let v2 := v2 + v1
  let v0 := v0 + v3
  let v1 := v1.rotateLeft 17
  let v3 := v3.rotateLeft 21
  let v1 := v1 ^^^ v2
  let v3 := v3 ^^^ v0
  let v2 := v2.rotateLeft 32
  (v0, v1, v2, v3)

/-- The state a key starts from. The four constants are fixed by the
specification. -/
def init (k0 k1 : BitVec 64) : State :=
  (k0 ^^^ 0x736f6d6570736575#64, k1 ^^^ 0x646f72616e646f6d#64,
    k0 ^^^ 0x6c7967656e657261#64,
    k1 ^^^ 0x7465646279746573#64)

/-- A word is mixed in: before the rounds into the last word of the state and
after them into the first. -/
def compress (c : ℕ) (v : State) (m : BitVec 64) : State :=
  let (v0, v1, v2, v3) := round^[c] (v.1, v.2.1, v.2.2.1, v.2.2.2 ^^^ m)
  (v0 ^^^ m, v1, v2, v3)

/-- The last word is mixed in and the hash finished. The constant `0xFF` sets
the rounds of the end apart from those of another word. -/
def finish (c d : ℕ) (v : State) (m : BitVec 64) : State :=
  let (v0, v1, v2, v3) := compress c v m
  round^[d] (v0, v1, v2 ^^^ 0xFF#64, v3)

/-- The last word of a byte string: the length modulo 256 on top, and under it
the bytes behind the last whole word, which are at most seven. -/
def lastWord (bs : List Byte) : BitVec 64 :=
  BitVec.ofNat 64
    (bs.length % 256 * 2 ^ 56 + leNat (bs.drop (8 * (bs.length / 8))))

/-- The state at the end, before its four words are combined. -/
def state (c d : ℕ) (k0 k1 : BitVec 64) (bs : List Byte) : State :=
  finish c d
    ((words 8 bs).foldl (fun v m => compress c v (BitVec.ofNat 64 m))
      (init k0 k1))
    (lastWord bs)

/-- **SipHash-c-d**: the exclusive-or of the four words of the state at the
end. -/
def hash (c d : ℕ) (k0 k1 : BitVec 64) (bs : List Byte) : BitVec 64 :=
  let (v0, v1, v2, v3) := state c d k0 k1 bs
  v0 ^^^ v1 ^^^ v2 ^^^ v3

/-- A string of two words, its second word not full, under the key `00 01 ..
0f`. -/
example : hash 2 4 0x0706050403020100#64 0x0f0e0d0c0b0a0908#64
    ((List.range 15).map (BitVec.ofNat 8)) = 0xa129ca6149be45e5#64 := by
  decide +kernel

/-- A byte string shorter than a word is finished at once, without a turn of the
loop over the words. -/
theorem state_of_length_lt (c d : ℕ) (k0 k1 : BitVec 64) {bs : List Byte}
    (h : bs.length < 8) :
    state c d k0 k1 bs = finish c d (init k0 k1) (lastWord bs) := by
  have hdiv : bs.length / 8 = 0 := Nat.div_eq_of_lt h
  unfold state words
  rw [hdiv]
  rfl

/-- The last word of the four bytes of a word. -/
theorem lastWord_leBytes (x : BitVec 32) :
    lastWord (leBytes 4 x.toNat) = (4#64 <<< 56) ||| x.setWidth 64 := by
  have hx := x.isLt
  have hword : leNat (leBytes 4 x.toNat) = x.toNat := by
    rw [leNat_leBytes]
    exact Nat.mod_eq_of_lt hx
  have hor : 4 * 2 ^ 56 + x.toNat = 4 * 2 ^ 56 ||| x.toNat := by
    rw [Nat.mul_comm]
    exact Nat.two_pow_add_eq_or_of_lt (by omega) 4
  refine BitVec.eq_of_toNat_eq ?_
  rw [lastWord, length_leBytes, BitVec.toNat_ofNat, BitVec.toNat_or,
    BitVec.toNat_setWidth,
    Nat.mod_eq_of_lt (show x.toNat < 2 ^ 64 by omega)]
  show (4 * 2 ^ 56 + leNat (leBytes 4 x.toNat)) % 2 ^ 64
    = 4 * 2 ^ 56 ||| x.toNat
  rw [hword, ← hor]
  exact Nat.mod_eq_of_lt (by omega)

end Sip
