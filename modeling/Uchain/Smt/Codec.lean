import Uchain.Lib.Bincode
import Uchain.Smt.Tree

/-!
# Trees as bytes

`Encode` and `Decode` of a tree over `MemoryStorage`, in the standard configuration of `bincode`: the
snapshots of the two maps, the hasher (a unit struct, which takes no bytes), the root and the parent. The keys
of a `MemoryStorage` are any byte strings here.
-/

namespace Uchain

open Lib Lib.Bincode

/-- `MemoryStorage`, whatever its keys are. -/
abbrev ByteStorage := BTreeMap Bytes Bytes

/-- `StorageBackendSnapshot`. -/
abbrev Snapshots := List (Bytes × Bytes)

namespace ByteStorage

def snapshot (m : ByteStorage) : Snapshots := m.entries

def fromSnapshot (snapshot : Snapshots) : ByteStorage := BTreeMap.insertAll .empty snapshot

end ByteStorage

/-- `SparseMerkleTree<MemoryStorage>`; the hasher has no fields. -/
structure StoredTree where
  nodes : ByteStorage
  values : ByteStorage
  root : H256
  parent : H256
  deriving DecidableEq

/-- A tree of the model, whose keys are hashes, as it is stored. -/
def SparseMerkleTree.stored (t : SparseMerkleTree) : StoredTree :=
  let raw (m : MemoryStorage) : ByteStorage :=
    ByteStorage.fromSnapshot (m.entries.map fun e => (e.1.bytes, e.2))
  ⟨raw t.nodes, raw t.values, t.root, t.parent⟩

namespace StoredTree

def encodeSnapshot (s : Snapshots) : Bytes := encodeVec (fun e => encodeBytes e.1 ++ encodeBytes e.2) s

/-- An element of the vector is two vectors of 24 bytes. -/
def decodeSnapshot : Decoder Snapshots :=
  decodeVec 48 do
    let k ← decodeBytes
    return (k, ← decodeBytes)

def decodeHash : Decoder H256 := do Exec.orPanic (FixedBytes.fromSlice? 32 (← read 32))

def encode (t : StoredTree) : Bytes :=
  encodeSnapshot t.nodes.snapshot ++ (encodeSnapshot t.values.snapshot ++ (t.root.bytes ++ t.parent.bytes))

def decoder : Decoder StoredTree := do
  let nodes ← Exec.mapErr .otherString decodeSnapshot
  let values ← Exec.mapErr .otherString decodeSnapshot
  let root ← decodeHash
  let parent ← decodeHash
  return ⟨.fromSnapshot nodes, .fromSnapshot values, root, parent⟩

/-- `decode_from_slice`; bytes behind the tree are ignored. -/
def decode (buf : Bytes) : Except (Fail DecodeError) StoredTree := (decoder buf).res

end StoredTree

end Uchain
