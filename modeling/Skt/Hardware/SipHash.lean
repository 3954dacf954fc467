import Skt.Lib.Sip
import Skt.Hardware.Hashes

/-!
# What the two copies of SipHash compute

The software's `hash<SIP>` and the kernel's `SipHash<W, cROUNDS, dROUNDS>` are
two copies of one cipher, written out by hand. Both start from the initial state
of SipHash under the all-zero key, both mix in one last word that holds the
item, and the rounds of both are the published ones. Two things differ from
SipHash on the four bytes of the item. The software writes `8` into the length
byte of the last word, where the kernel writes the `4` of a four-byte item; and
both return `v0^v1^v1^v2`, where the published function returns `v0^v1^v2^v3`.
In the result of either copy `v1` cancels and `v3` never occurs, so two of the
four words of the final state are lost.

The final state is therefore the place to compare the three. This module states
what each of them reads off it, for all numbers of rounds and all widths of the
result, and from that when the kernel's copy gives what SipHash gives.
-/

namespace Skt.Hardware

open LittleEndian

/-- **The final state on an item**, under a length byte: the all-zero key, one
last word with the length byte at its top and the item at its bottom, `c` rounds
to mix it in and `d` rounds to finish. -/
def sipState (c d : ℕ) (len : BitVec 64) (key : BitVec 32) : Sip.State :=
  Sip.finish c d (Sip.init 0 0) ((len <<< 56) ||| key.setWidth 64)

/-- The two words of a state that reach the result of either copy. -/
def sipOuter (v : Sip.State) : BitVec 64 := v.1 ^^^ v.2.2.1

/-- The two words of a state that neither copy returns: one of them is cancelled
by itself, the other is left out. -/
def sipInner (v : Sip.State) : BitVec 64 := v.2.1 ^^^ v.2.2.2

/-- Equal words cancel. -/
theorem xor_cancel_middle (a b c : BitVec 64) :
    a ^^^ b ^^^ b ^^^ c = a ^^^ c := by
  rw [BitVec.xor_assoc a b b, BitVec.xor_self, BitVec.xor_zero]

/-! ## The cipher -/

/-- The software's round is the published one. It makes the four additions in
another order, but no two of them that are swapped touch the same word. -/
theorem sipRound_eq : sipRound = Sip.round := rfl

/-- So is the kernel's. -/
theorem sipHash_sipRound_eq : SipHash.sipRound = Sip.round := rfl

/-- The initial state under the all-zero key. -/
theorem sip_init_zero :
    Sip.init 0 0 = (0x736f6d6570736575#64, 0x646f72616e646f6d#64,
    0x6c7967656e657261#64, 0x7465646279746573#64) := rfl

/-! ## The results -/

/-- **The software's result**: the outer words of the state of SipHash-2-4 under
the length byte `8`. -/
theorem hashSip_eq (key : BitVec 32) :
    hashSip key = sipOuter (sipState 2 4 8#64 key) := by
  unfold hashSip sipOuter sipState Sip.finish Sip.compress
  rw [sipRound_eq, sip_init_zero]
  -- what the rounds do plays no part
  generalize Sip.round = r
  exact xor_cancel_middle _ _ _

/-- **The kernel's result**: the outer words of the state of SipHash under the
length byte `4`, cut to the width asked for. -/
theorem sipHash_eq (W c d : ℕ) (key : BitVec 32) :
    sipHash W c d key = (sipOuter (sipState c d 4#64 key)).setWidth W := by
  unfold sipHash sipOuter sipState Sip.finish Sip.compress
  rw [sipHash_sipRound_eq, sip_init_zero]
  generalize Sip.round = r
  exact congrArg (BitVec.setWidth W) (xor_cancel_middle _ _ _)

/-- **The published result**: all four words of the state under the length byte
`4`. The four bytes of the item are less than one word, so there is nothing to
mix in before the last word. -/
theorem sip_hash_eq (c d : ℕ) (key : BitVec 32) :
    Sip.hash c d 0 0 (leBytes 4 key.toNat)
      = sipOuter (sipState c d 4#64 key)
        ^^^ sipInner (sipState c d 4#64 key) := by
  have hstate : Sip.state c d 0 0 (leBytes 4 key.toNat)
    = sipState c d 4#64 key := by
    rw [Sip.state_of_length_lt c d 0 0 (by rw [length_leBytes]; decide),
      Sip.lastWord_leBytes]
    rfl
  unfold Sip.hash sipOuter sipInner
  rw [hstate]
  generalize sipState c d 4#64 key = v
  show v.1 ^^^ v.2.1 ^^^ v.2.2.1 ^^^ v.2.2.2 = _
  rw [BitVec.xor_assoc v.1, BitVec.xor_comm v.2.1,
    ← BitVec.xor_assoc v.1, BitVec.xor_assoc]

/-- **What the two copies of SipHash compute.** For every item, the kernel's
copy at every width and numbers of rounds, the software's copy, and SipHash
itself are read off the final state: the copies return its outer words, the
software under the length byte of another item length, and SipHash the
exclusive-or of the outer and the inner ones. So at full width the kernel gives
what SipHash gives on an item exactly if the two words it does not return are
equal there. -/
theorem sip_copies (key : BitVec 32) :
    (∀ W c d, sipHash W c d key = (sipOuter (sipState c d 4#64 key)).setWidth W)
    ∧ hashSip key = sipOuter (sipState 2 4 8#64 key)
    ∧ (∀ c d, Sip.hash c d 0 0 (leBytes 4 key.toNat)
      = sipOuter (sipState c d 4#64 key) ^^^ sipInner (sipState c d 4#64 key))
    ∧ ∀ c d, sipHash 64 c d key = Sip.hash c d 0 0 (leBytes 4 key.toNat)
      ↔ (sipState c d 4#64 key).2.1 = (sipState c d 4#64 key).2.2.2 := by
  refine ⟨fun W c d => sipHash_eq W c d key, hashSip_eq key,
    fun c d => sip_hash_eq c d key,
    fun c d => ?_⟩
  rw [sipHash_eq, sip_hash_eq, BitVec.setWidth_eq, eq_comm]
  have hcancel := BitVec.xor_right_inj (y := 0#64)
    (sipOuter (sipState c d 4#64 key))
    (x := sipInner (sipState c d 4#64 key))
  rw [BitVec.xor_zero] at hcancel
  exact hcancel.trans BitVec.xor_eq_zero_iff

/-- On the item `0` the software, the kernel and SipHash return three different
words. -/
example : hashSip 0 = 0x34c0e02aa57e7b58#64
    ∧ sipHash 64 2 4 0 = 0xbbf965602409d715#64
    ∧ Sip.hash 2 4 0 0 (leBytes 4 0) = 0x7bf55e51b22b9698#64 := by
  decide +kernel

end Skt.Hardware
