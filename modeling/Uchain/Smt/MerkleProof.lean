import Uchain.Smt.Tree

/-!
# Merkle proofs

`smt::proof`, and the methods of the tree that make proofs: `proof` and `proof_updatable` collect the
side nodes on the way to a key; `verify_proof` hashes from the leaf up to a root.
-/

namespace Uchain

open Lib

structure Proof where
  sideNodes : List H256
  nonMembershipLeafData : Option Bytes
  siblingData : Option Bytes
  deriving DecidableEq

section Verify

open TreeHasher

variable [Crypto] {σ : Type}

/-- `get_bits_at_from_msb` on a path. A position behind its end is an index out of bounds. -/
def pathBit (path : H256) (position : Nat) : Exec SmtError Query σ Bool :=
  if position < 256 then return getBitsAtFromMsb path.bytes position else Exec.panic

/-- The loop of `verify_proof_with_updates` over the side nodes that are left. -/
def verifyLoop (path : H256) : List H256 → H256 → List (Bytes × Bytes) →
    Exec SmtError Query σ (H256 × List (Bytes × Bytes))
  | [], currentHash, updates => return (currentHash, updates)
  | node :: nodes, currentHash, updates => do
    let (left, right) :=
      if ← pathBit path nodes.length then (node, currentHash) else (currentHash, node)
    let (currentHash, currentData) ← digestNode left.bytes right.bytes
    verifyLoop path nodes currentHash (updates ++ [(currentHash.bytes, currentData)])

/-- What `verify_proof_with_updates` starts the loop with: the hash at the end of the path. -/
def verifyStart (proof : Proof) (path : H256) (value : Bytes) :
    Exec SmtError Query σ (H256 × List (Bytes × Bytes)) := do
  if value.isEmpty then
    match proof.nonMembershipLeafData with
    | none => return (placeholder, [])
    | some nonMembershipLeafData =>
      let (actualPath, valueHash) ← parseLeaf nonMembershipLeafData
      if actualPath = path.bytes then
        Exec.err (.nonMembershipPathError actualPath path.bytes)
      else
        let (currentHash, currentData) ← digestLeaf actualPath valueHash
        return (currentHash, [(currentHash.bytes, currentData)])
  else
    let valueHash ← digest value
    let (currentHash, currentData) ← digestLeaf path.bytes valueHash.bytes
    return (currentHash, [(currentHash.bytes, currentData)])

def verifyProofWithUpdates (proof : Proof) (root : H256) (key value : Bytes) :
    Exec SmtError Query σ (List (Bytes × Bytes)) := do
  let path ← TreeHasher.path key
  let (currentHash, updates) ← verifyStart proof path value
  let (currentHash, updates) ← verifyLoop path proof.sideNodes currentHash updates
  if currentHash ≠ root then Exec.err (.badProof updates) else return updates

def verifyProof (proof : Proof) (root : H256) (key value : Bytes) :
    Exec SmtError Query σ Bool := do
  match ← Exec.attempt (verifyProofWithUpdates proof root key value) with
  | .ok _ => return true
  | .error _ => return false

end Verify

namespace SparseMerkleTree

variable [Crypto]

def doProofForRoot (key : Bytes) (root : H256) (isUpdatable : Bool) : Smt Proof := do
  let path ← TreeHasher.path key
  let r ← sideNodesForRoot path root isUpdatable
  if (r.pathNodes.headD FixedBytes.zero).isZero then
    return ⟨r.sideNodes, none, r.siblingData⟩
  else
    let (actualPath, _) ← TreeHasher.parseLeaf r.leafData
    return ⟨r.sideNodes, if actualPath = path.bytes then none else some r.leafData, r.siblingData⟩

def proof (key : Bytes) : Smt Proof := do
  doProofForRoot key (← Exec.get).root false

def proofUpdatable (key : Bytes) : Smt Proof := do
  doProofForRoot key (← Exec.get).root true

end SparseMerkleTree

end Uchain
