import Uchain.Smt.MerkleProof
import Uchain.State.TreeDB

/-!
# Reads with proofs

`TreeDB::get_with_proof` reads a value and makes a Merkle proof of its key; `Verifier::verify_proof`
checks such a proof against a root.
-/

namespace Uchain

open Lib

variable [Crypto] {K V : Type} [Codec K] [Codec V]

/-- The value is read through the staged version; the proof is made by the head. -/
def TreeDB.getWithProof (key : K) : TreeDB.M (V × Proof) := do
  let head := (← Exec.get).head
  let rawKey := Codec.encode key
  let value ← Exec.ofOption (.invalidKey (hexEncode rawKey)) (← TreeDB.get key)
  let (proof, _) ← TreeDB.onTree head (SparseMerkleTree.proof rawKey)
  return (value, proof)

def Verifier.verifyProof {σ : Type} (proof : Proof) (root : H256) (key : K) (value : V) :
    Exec StateError Query σ Unit :=
  Exec.mapErr StateError.smt do
    let _ ← verifyProofWithUpdates proof root (Codec.encode key)
      (IValue.value (Codec.encode value)).encode

end Uchain
