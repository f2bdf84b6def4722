import Uchain.Types.Block

/-!
# Networks and compact targets

`types::network`, and `primitive_types::Compact`: a 256-bit target as a mantissa of 23 bits, a sign
bit and the size of the number in bytes.
-/

namespace Uchain

structure Compact where
  bits : UInt32
  deriving DecidableEq, Repr

namespace Compact

/-- `to_u256`: the target, and whether it is negative or too large. -/
def decodeTarget (c : Compact) : Bool × U256 :=
  let size := c.bits.toNat >>> 24
  let word := c.bits.toNat &&& 0x007fffff
  -- for a small size the source also shifts the word that it checks below
  let word' := if size ≤ 3 then word >>> (8 * (3 - size)) else word
  let result : U256 :=
    if size ≤ 3 then BitVec.ofNat 256 word' else BitVec.ofNat 256 word <<< (8 * (size - 3))
  let isNegative := word' ≠ 0 ∧ c.bits.toNat &&& 0x00800000 ≠ 0
  let isOverflow := (word' ≠ 0 ∧ size > 34) ∨ (word' > 0xff ∧ size > 33) ∨ (word' > 0xffff ∧ size > 32)
  (isNegative ∨ isOverflow, result)

/-- `to_u256` when it is `Ok`. -/
def toU256? (c : Compact) : Option U256 :=
  if c.decodeTarget.1 then none else some c.decodeTarget.2

/-- `From<Compact> for U256`, which ignores overflows and negative values. -/
def toU256 (c : Compact) : U256 := c.decodeTarget.2

/-- `from_u256`. Its assertions hold for every value. -/
def fromU256 (val : U256) : Compact :=
  let size := (Nat.size val.toNat + 7) / 8
  let compact :=
    if size ≤ 3 then (val.toNat <<< (8 * (3 - size))) % 2 ^ 32
    else (val.toNat >>> (8 * (size - 3))) % 2 ^ 32
  -- a mantissa whose top bit is set would read as negative
  if compact &&& 0x00800000 ≠ 0 then ⟨.ofNat ((compact >>> 8) ||| ((size + 1) <<< 24))⟩
  else ⟨.ofNat (compact ||| (size <<< 24))⟩

/-- `from_u256` with its assertions; a failed one is `none`. -/
def fromU256? (val : U256) : Option Compact :=
  let size := (Nat.size val.toNat + 7) / 8
  let compact :=
    if size ≤ 3 then (val.toNat <<< (8 * (3 - size))) % 2 ^ 32
    else (val.toNat >>> (8 * (size - 3))) % 2 ^ 32
  let adjusted := if compact &&& 0x00800000 ≠ 0 then (compact >>> 8, size + 1) else (compact, size)
  if adjusted.1 &&& 0xff800000 = 0 ∧ adjusted.2 < 256 then
    some ⟨.ofNat (adjusted.1 ||| (adjusted.2 <<< 24))⟩
  else none

end Compact

inductive Network where
  | mainnet
  | testnet
  | alphanet
  deriving DecidableEq, Repr

namespace Network

def maxDifficulty : Network → U256
  | testnet => BitVec.ofNat 256 (0x00000377ae000000 * 2 ^ 192)
  | alphanet => BitVec.ofNat 256 (0x000000fff000000 * 2 ^ 192)
  | mainnet => BitVec.ofNat 256 (2 ^ 224 - 1)

def chainId : Network → UInt32
  | mainnet => 0
  | testnet => 1
  | alphanet => 2

def maxDifficultyCompact (n : Network) : Compact := .fromU256 n.maxDifficulty

end Network

end Uchain
