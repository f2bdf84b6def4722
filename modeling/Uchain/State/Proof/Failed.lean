import Uchain.State.Proof.Frames
import Uchain.State.Proof.Order
import Uchain.State.Proof.Payments
import Uchain.Vm.Sample

/-!
# Blocks that fail

`apply_txs` collects the changes of accounts and writes them at the end, but the storage and the code
of applications go to their stores while the transactions are executed. `storeWrites` lists these
records, up to the failure.
-/

namespace Uchain

open Lib Exec BTreeMap

/-- Records for the stores of applications, in the order in which they are put. -/
structure StoreWrites where
  appdata : List ((Address ×ₗ H256) × SparseMerkleTree)
  metadata : List (H256 × AppMetadata)

namespace StoreWrites

def none : StoreWrites := ⟨[], []⟩

def append (w w' : StoreWrites) : StoreWrites := ⟨w.appdata ++ w'.appdata, w.metadata ++ w'.metadata⟩

def put (w : StoreWrites) (s : State) : State :=
  { s with appdata := s.appdata.insertAll w.appdata, metadata := s.metadata.insertAll w.metadata }

end StoreWrites

namespace State

variable [Crypto]

variable [Codec AccountState]

def transactions (vm : Vm) (txs : List SignedTransaction) : M States := do
  let states ← gatherStates getAccountState txs .empty
  executeAll vm (executionOrder txs) states

end State

namespace Failed

open Sample
open State

def vm : Vm := wasm.vm noVm

end Failed

end Uchain
