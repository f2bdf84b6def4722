import Uchain.Smt.MerkleProof

/-!
# Branches

`add_branch` writes the nodes that the verifier has computed from a proof into another tree, so that
a tree without any nodes can be updated at the keys whose branches it was given.

`subtreeImporting` is `subtree` with its list of keys: a partial copy takes over their values.
-/

namespace Uchain

open Lib

namespace SparseMerkleTree

variable [Crypto]

/-- `get_with_proof_for_root` and `get_with_proof_updatable_for_root` at the root of the tree. -/
def getAndProve (key : Bytes) (isUpdatable : Bool) : Smt (Bytes × Proof) := do
  let value ← get key
  let proof ← doProofForRoot key (← Exec.get).root isUpdatable
  return (value, proof)

def getWithProof (key : Bytes) : Smt (Bytes × Proof) := getAndProve key false

def getWithProofUpdatable (key : Bytes) : Smt (Bytes × Proof) := getAndProve key true

/-- One node of the verifier. Its key is a hash that the verifier has computed. -/
def putUpdate (update : Bytes × Bytes) : Smt Unit := do
  putNode (← H256.fromSlice update.1) update.2

/-- The sibling data of a proof, under its deepest side node. They are not hashed. -/
def putSibling (proof : Proof) : Smt Unit :=
  match proof.siblingData, proof.sideNodes with
  | some siblingData, sideNode :: _ => putNode sideNode siblingData
  | _, _ => return ()

def addBranch (proof : Proof) (root : H256) (key value : Bytes) : Smt Unit := do
  let updates ← verifyProofWithUpdates proof root key value
  if !value.isEmpty then putValue (← TreeHasher.path key) value
  Exec.forEach putUpdate updates
  putSibling proof

/-- `add_branch` with the value and the updatable proof of a key of `t`. -/
def importBranch (t : SparseMerkleTree) (key : Bytes) : Smt Unit := do
  let r ← Exec.runOn t (getWithProofUpdatable key)
  addBranch r.1.2 t.root key r.1.1

def importBranches (t : SparseMerkleTree) (keys : List Bytes) : Smt Unit :=
  Exec.forEach (importBranch t) keys

/-- `subtree`, as a computation that starts from any tree and ends with the copy. Only a partial copy
reads the keys. -/
def subtreeImporting (t : SparseMerkleTree) (strategy : CopyStrategy) (importKeys : List Bytes) :
    Smt Unit := do
  Exec.set (t.subtree strategy)
  match strategy with
  | .partialCopy => importBranches t importKeys
  | .full => return ()
  | .none => return ()

end SparseMerkleTree

end Uchain
