import Uchain.Blockchain.BlockStorage
import Uchain.State.State

/-!
# The Barossa consensus

`consensus::barossa`: the work that a header has to show, and what makes a block valid. Every method
reads the chain through the block storage.

The target is adjusted every `retargetingInterval` levels, with a rule of its own on the test network.

The arithmetic of levels and times is that of `u32` and wraps. A product of targets that does not fit
256 bits panics, as does a missing header where the source calls `expect`.
-/

namespace Uchain

open Lib

def blockMaxFuture : Int := 2 * 60 * 60

def retargetingFactor : UInt32 := 4

def targetSpacingSeconds : UInt32 := 2 * 60

def doubleSpacingSeconds : UInt32 := 2 * targetSpacingSeconds

def targetTimespanSeconds : UInt32 := 2 * 7 * 24 * 60 * 60

def minTimespan : UInt32 := targetTimespanSeconds / retargetingFactor

def maxTimespan : UInt32 := targetTimespanSeconds * retargetingFactor

def retargetingInterval : UInt32 := targetTimespanSeconds / targetSpacingSeconds

def maxBlockHeight : Nat := 25000000

def initialReward : Nat := 10 * 1000000000

def spread : Nat := maxBlockHeight ^ 4 / initialReward

def precisionCorrection : Nat := 5012475762

def maxSupplyApprox : Nat := initialReward * maxBlockHeight - maxBlockHeight ^ 5 / (5 * spread)

def maxSupplyPrecomputed : Nat := maxSupplyApprox + precisionCorrection

/-- `miner_reward`, in the arithmetic of `u128`. -/
def minerRewardAt (blockHeight : Nat) : Nat :=
  (2 ^ 128 + initialReward - blockHeight ^ 4 % 2 ^ 128 / spread) % 2 ^ 128

def isValidProofOfWork (maxWorkBits bits : Compact) (hash : H256) : Bool :=
  match maxWorkBits.toU256?, bits.toU256? with
  | some maximum, some target => target ≤ maximum ∧ hash.num ≤ target.toNat
  | _, _ => false

namespace BlockHeader

/-- `difficulty()`. -/
def bits (h : BlockHeader) : Compact := ⟨h.difficulty⟩

end BlockHeader

structure BarossaProtocol where
  network : Network

namespace BarossaProtocol

def isRetargetHeight (height : UInt32) : Bool := height % retargetingInterval = 0

def rangeConstrain (value min max : Int) : Int := Min.min (Max.max value min) max

def retargetTimespan (retargetTimestamp lastTimestamp : UInt32) : UInt32 :=
  let timespan : Int := lastTimestamp.toNat - retargetTimestamp.toNat
  .ofNat (rangeConstrain timespan minTimespan.toNat maxTimespan.toNat).toNat

def minerReward (_ : BarossaProtocol) (blockLevel : UInt32) : UInt64 :=
  .ofNat (minerRewardAt blockLevel.toNat)

def getGenesisHeader (p : BarossaProtocol) : BlockHeader where
  parentHash := .zero
  receiptHash := .zero
  txRoot := .zero
  stateRoot :=
    .ofNum 32 0xa7a6b1c84b4d9119959afbe95e2ed7a2762b7772c4e82a58d1041bb8c18a8f6d
  mixNonce := 0
  coinbase := .zero
  difficulty := p.network.maxDifficultyCompact.bits
  chainId := p.network.chainId
  level := 0
  time := 0
  nonce := 0

section Work

variable [Crypto]

open BlockStorage

def workRequiredRetarget (parentHeader : IndexedBlockHeader) (height : UInt32)
    (maxWorkBits : Compact) : BlockStorage.M Compact := do
  let retargetRef := height - retargetingInterval
  let retargetHeader ← Exec.orPanic (← getHeaderByLevel retargetRef)
  let timespan := retargetTimespan retargetHeader.raw.time parentHeader.raw.time
  let product := parentHeader.raw.bits.toU256.toNat * timespan.toNat
  if 2 ^ 256 ≤ product then Exec.panic
  else
    let retarget := BitVec.ofNat 256 (product / targetTimespanSeconds.toNat)
    if retarget > maxWorkBits.toU256 then return maxWorkBits
    else return .fromU256 retarget

/-- The targets of a header and the headers before it, `n` at most. -/
def collectBits : Nat → H256 → BlockStorage.M (List Compact)
  | 0, _ => return []
  | n + 1, blockRef => do
    match ← getHeaderByHash blockRef with
    | none => return []
    | some previousHeader =>
      let bits ← collectBits n previousHeader.raw.parentHash
      return previousHeader.raw.bits :: bits

/-- The first target that is not the easiest one, or that was set at a retarget height. -/
def firstBits (maxBits : Compact) (height : UInt32) : Nat → List Compact → Compact
  | _, [] => maxBits
  | index, bit :: bits =>
    if bit ≠ maxBits ∨ isRetargetHeight (height - .ofNat index - 1) then bit
    else firstBits maxBits height (index + 1) bits

def workRequiredTestnet (p : BarossaProtocol) (parentHash : H256) (time height : UInt32) :
    BlockStorage.M Compact := do
  if height = 0 then Exec.panic
  else
    let parentHeader ← Exec.orPanic (← getHeaderByHash parentHash)
    let maxTimeGap := parentHeader.raw.time + doubleSpacingSeconds
    let maxBits := p.network.maxDifficultyCompact
    if time > maxTimeGap then return maxBits
    else
      let bits ← collectBits retargetingInterval.toNat parentHash
      return firstBits maxBits height 0 bits

/-- The work required for a header. -/
def workRequired (p : BarossaProtocol) (parentHash : H256) (time height : UInt32) :
    BlockStorage.M Compact := do
  let maxBits := p.network.maxDifficultyCompact
  if height = 0 then return maxBits
  else
    let parentHeader ← Exec.orPanic (← getHeaderByHash parentHash)
    if isRetargetHeight height then workRequiredRetarget parentHeader height maxBits
    else if p.network = .testnet then p.workRequiredTestnet parentHash time height
    else return parentHeader.raw.bits

/-- Fill in what follows from the parent. -/
def prepareHeader (p : BarossaProtocol) (header : BlockHeader) : BlockStorage.M BlockHeader := do
  let parent ← getHeader header.parentHash (header.level - 1)
  let parent ← Exec.ofOption .parentBlockNotFound parent
  let difficulty ← p.workRequired parent.hash header.time (header.level + 1)
  return { header with chainId := p.network.chainId, difficulty := difficulty.bits }

/-- `verify_header` at the time `currentTime`. -/
def verifyHeader (p : BarossaProtocol) (currentTime : Int) (header : BlockHeader) :
    BlockStorage.M Unit := do
  let parent ← getHeader header.parentHash (header.level - 1)
  let _ ← Exec.ofOption .parentBlockNotFound parent
  if ¬ (header.time.toNat : Int) < blockMaxFuture + currentTime then
    Exec.err (.message "future block timestamp")
  else
    let hash ← header.hashed
    let maxBits := p.network.maxDifficultyCompact
    if isValidProofOfWork maxBits header.bits hash then return ()
    else Exec.err (.badPow maxBits header.bits)

variable [Codec AccountState]

/-- The tree of the transactions: each hash is stored under itself. -/
def txTree (txs : List SignedTransaction) : Smt Unit :=
  Exec.forEach (fun tx => do let _ ← SparseMerkleTree.update tx.hash.bytes tx.hash.bytes) txs

/-- Execute the transactions on `state` and commit to the results in the header. -/
def finalize (p : BarossaProtocol) (vm : Vm) (header : BlockHeader)
    (txs : List SignedTransaction) : Exec ChainError Query State BlockHeader := do
  let (_, merkle) ← Exec.mapErr (fun e => ChainError.state (.smt e))
    (Exec.runOn SparseMerkleTree.new (txTree txs))
  Exec.mapErr ChainError.state (State.applyTxs vm txs)
  let _ ← Exec.mapErr ChainError.state
    (State.creditBalance header.coinbase (p.minerReward header.level))
  Exec.mapErr ChainError.state State.commit
  let state ← Exec.get
  return { header with stateRoot := state.root, txRoot := merkle.root }

end Work

end BarossaProtocol

end Uchain
