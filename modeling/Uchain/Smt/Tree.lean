import Uchain.Lib.BTreeMap
import Uchain.Primitives.Crypto

/-!
# The sparse Merkle tree

`smt::SparseMerkleTree` over `MemoryStorage` and `DefaultTreeHasher`: node data under their hashes in
`nodes`, values under the hashed keys in `values`, the root hash and the root of the version the tree
was derived from.

* `update`: set the value of a key (an empty value deletes it).
* `get`: the value of a key in `values`; a partial copy does not hold every value.
* `subtree`: a copy to work on, with this version as its parent.
-/

namespace Uchain

open Lib

/-- `smt::error::Error`, without `CustomError`, which nothing modelled returns. -/
inductive SmtError where
  | keyAlreadyEmpty
  | nonMembershipPathError (actualPath path : Bytes)
  | storageError
  | storageErrorKeyNotFound
  | badProof (updates : List (Bytes × Bytes))
  deriving DecidableEq, Repr

/-- `MemoryStorage`: every key that is used is a hash. -/
abbrev MemoryStorage := BTreeMap H256 Bytes

structure SparseMerkleTree where
  nodes : MemoryStorage
  values : MemoryStorage
  root : H256
  parent : H256
  deriving DecidableEq

abbrev Smt (α : Type) := Exec SmtError Query SparseMerkleTree α

inductive CopyStrategy where
  | partialCopy
  | full
  | none
  deriving DecidableEq

/-! ## `DefaultTreeHasher` -/

namespace TreeHasher

def hashLen : Nat := 32

def leafPrefix : Bytes := [0]

def nodePrefix : Bytes := [1]

def placeholder : H256 := FixedBytes.zero

section Digest

variable [Crypto] {ε σ : Type}

def digest (data : Bytes) : Exec ε Query σ H256 := keccak256 data

def path (key : Bytes) : Exec ε Query σ H256 := digest key

theorem path_run (key : Bytes) (s : σ) : (path key : Exec ε Query σ H256) s =
    ⟨.ok (Crypto.keccak256 key), s, [.keccak256 key]⟩ := rfl

def digestLeaf (path leafData : Bytes) : Exec ε Query σ (H256 × Bytes) := do
  let value := leafPrefix ++ path ++ leafData
  return (← digest value, value)

def digestNode (leftData rightData : Bytes) : Exec ε Query σ (H256 × Bytes) := do
  let value := nodePrefix ++ leftData ++ rightData
  return (← digest value, value)

/-- The two fields behind the one-byte prefix; the slices panic on shorter data. -/
def parse (data : Bytes) : Exec ε Query σ (Bytes × Bytes) :=
  if 1 + hashLen ≤ data.length then
    return ((data.drop 1).take hashLen, data.drop (1 + hashLen))
  else Exec.panic

def parseLeaf (data : Bytes) : Exec ε Query σ (Bytes × Bytes) := parse data

def parseNode (data : Bytes) : Exec ε Query σ (Bytes × Bytes) := parse data

def isLeaf (data : Bytes) : Exec ε Query σ Bool :=
  if 1 ≤ data.length then return data.take 1 = leafPrefix else Exec.panic

end Digest

end TreeHasher

/-- `H256::from_slice`, which panics on another length. -/
def H256.fromSlice {ε σ : Type} (b : Bytes) : Exec ε Query σ H256 :=
  Exec.orPanic (FixedBytes.fromSlice? 32 b)

/-- `count_common_prefix`: the number of leading bits that `lhs` and `rhs` share, `n` at most. -/
def countCommonPrefixFrom (lhs rhs : H256) : Nat → Nat → Nat
  | 0, i => i
  | n + 1, i =>
    if getBitsAtFromMsb lhs.bytes i = getBitsAtFromMsb rhs.bytes i then
      countCommonPrefixFrom lhs rhs n (i + 1)
    else i

def countCommonPrefix (lhs rhs : H256) : Nat := countCommonPrefixFrom lhs rhs 256 0

/-! ## Methods -/

namespace SparseMerkleTree

open TreeHasher

def new : SparseMerkleTree := ⟨.empty, .empty, FixedBytes.zero, FixedBytes.zero⟩

def depth : Nat := hashLen * 8

/-- `subtree(strategy, [])`. -/
def subtree (t : SparseMerkleTree) (strategy : CopyStrategy) : SparseMerkleTree :=
  match strategy with
  | .partialCopy => { nodes := t.nodes, values := .empty, root := t.root, parent := t.root }
  | .full => t
  | .none => { nodes := .empty, values := .empty, root := t.root, parent := t.root }

def getNode (key : H256) : Smt Bytes := do
  Exec.ofOption .storageErrorKeyNotFound ((← Exec.get).nodes.get? key)

def putNode (key : H256) (value : Bytes) : Smt Unit :=
  Exec.modify fun t => { t with nodes := t.nodes.insert key value }

def deleteNode (key : H256) : Smt Unit := do
  if (← Exec.get).nodes.contains key then
    Exec.modify fun t => { t with nodes := t.nodes.erase key }
  else Exec.err .storageError

def putValue (key : H256) (value : Bytes) : Smt Unit :=
  Exec.modify fun t => { t with values := t.values.insert key value }

def deleteValue (key : H256) : Smt Unit := do
  if (← Exec.get).values.contains key then
    Exec.modify fun t => { t with values := t.values.erase key }
  else Exec.err .storageError

variable [Crypto]

/-- The nodes on the way to a path and next to it, deepest first, and the data at its end. -/
structure SideNodesForRootResult where
  sideNodes : List H256
  pathNodes : List H256
  leafData : Bytes
  siblingData : Option Bytes

/-- The loop of `side_nodes_for_root`, with `n` iterations left. The lists grow at the front, so
they end up in the order that the source obtains by reversing them. -/
def sideNodesLoop (path : H256) : Nat → Bytes → List H256 → List H256 →
    Smt (List H256 × List H256 × Bytes)
  | 0, currentData, sideNodes, pathNodes => return (sideNodes, pathNodes, currentData)
  | n + 1, currentData, sideNodes, pathNodes => do
    let (leftNode, rightNode) ← parseNode currentData
    let (sideNode, node) :=
      if getBitsAtFromMsb path.bytes (depth - (n + 1)) then (leftNode, rightNode)
      else (rightNode, leftNode)
    let nodeHash ← H256.fromSlice node
    let sideNode ← H256.fromSlice sideNode
    if nodeHash.isZero then
      return (sideNode :: sideNodes, nodeHash :: pathNodes, [])
    else
      let currentData ← getNode nodeHash
      if ← isLeaf currentData then
        return (sideNode :: sideNodes, nodeHash :: pathNodes, currentData)
      else
        sideNodesLoop path n currentData (sideNode :: sideNodes) (nodeHash :: pathNodes)

def sideNodesForRoot (path root : H256) (getSiblingData : Bool) : Smt SideNodesForRootResult := do
  if root.isZero then
    return ⟨[], [root], [], none⟩
  else
    let currentData ← getNode root
    if ← isLeaf currentData then
      return ⟨[], [root], currentData, none⟩
    else
      let (sideNodes, pathNodes, currentData) ← sideNodesLoop path depth currentData [] [root]
      -- the loop has run at least once, so there is a last side node
      let siblingData ←
        if getSiblingData then getNode (sideNodes.headD FixedBytes.zero) else pure []
      return ⟨sideNodes, pathNodes, currentData, some siblingData⟩

/-- The side node of iteration `i` of the loop in `update_with_sides_nodes`, if it has one. -/
def sideNodeAt (sideNodes : List H256) (commonPrefixCount i : Nat) : Option H256 :=
  let offsetSideNodes := depth - sideNodes.length
  match if i < offsetSideNodes then none else sideNodes[i - offsetSideNodes]? with
  | some sideNode => some sideNode
  | none =>
    if commonPrefixCount ≠ depth ∧ commonPrefixCount > depth - 1 - i then some placeholder else none

/-- Hash a node from its child on the way to `path` and the other one, at bit `i`, and write it. -/
def putParent (path : H256) (i : Nat) (current sideNode : H256) : Smt H256 := do
  let (left, right) :=
    if getBitsAtFromMsb path.bytes i then (sideNode, current) else (current, sideNode)
  let (currentHash, currentData) ← digestNode left.bytes right.bytes
  putNode currentHash currentData
  return currentHash

/-- The loop of `update_with_sides_nodes`, with `n` iterations left. -/
def updateLoop (path : H256) (sideNodes : List H256) (commonPrefixCount : Nat) :
    Nat → H256 → Smt H256
  | 0, current => return current
  | n + 1, current =>
    let i := depth - (n + 1)
    match sideNodeAt sideNodes commonPrefixCount i with
    | none => updateLoop path sideNodes commonPrefixCount n current
    | some sideNode => do
      let current ← putParent path (depth - 1 - i) current sideNode
      updateLoop path sideNodes commonPrefixCount n current

/-- The number of leading bits the new path shares with the leaf found, and that leaf's value. -/
def commonPrefix (path : H256) (pathNodes : List H256) (oldLeafData : Bytes) :
    Smt (Nat × Option H256) := do
  if (pathNodes.headD FixedBytes.zero).isZero then
    return (depth, none)
  else
    let (ap, op) ← parseLeaf oldLeafData
    let actualPath ← H256.fromSlice ap
    let oldValueHash ← H256.fromSlice op
    return (countCommonPrefix path actualPath, some oldValueHash)

/-- The end of `update_with_sides_nodes`: drop the old way to the path, hash the new one up to the
root, and write the value. -/
def rehash (path : H256) (value : Bytes) (sideNodes pathNodes : List H256)
    (commonPrefixCount : Nat) (current : H256) : Smt H256 := do
  Exec.forEach deleteNode (pathNodes.drop 1)
  let newRoot ← updateLoop path sideNodes commonPrefixCount depth current
  putValue path value
  return newRoot

def updateWithSidesNodes (path : H256) (value : Bytes) (sideNodes pathNodes : List H256)
    (oldLeafData : Bytes) : Smt H256 := do
  let valueHash ← digest value
  let (leafHash, leafData) ← digestLeaf path.bytes valueHash.bytes
  putNode leafHash leafData
  let (commonPrefixCount, oldValueHash) ← commonPrefix path pathNodes oldLeafData
  let pathNode := pathNodes.headD FixedBytes.zero
  if commonPrefixCount ≠ depth then
    let current ← putParent path commonPrefixCount leafHash pathNode
    rehash path value sideNodes pathNodes commonPrefixCount current
  else match oldValueHash with
    | none => rehash path value sideNodes pathNodes commonPrefixCount leafHash
    | some oldValueHash =>
      if oldValueHash = valueHash then
        return (← Exec.get).root
      else
        deleteNode pathNode
        -- fails in a copy without the value, which is ignored
        let _ ← Exec.attempt (deleteValue path)
        rehash path value sideNodes pathNodes commonPrefixCount leafHash

/-- What the loop of `delete_with_sides_nodes` has put together so far. -/
structure DeleteLoop where
  currentHash : H256 := FixedBytes.zero
  /-- The hash to join next; `none` is an empty `current_data`. -/
  currentData : Option H256 := none
  nonPlaceholderReached : Bool := false

/-- One iteration of the loop of `delete_with_sides_nodes`, at bit `i`. -/
def deleteLoopBody (path : H256) (i : Nat) (sideNode : H256) (st : DeleteLoop) :
    Smt DeleteLoop := do
  let join (current : H256) : Smt DeleteLoop := do
    let currentHash ← putParent path i current sideNode
    return ⟨currentHash, some currentHash, true⟩
  match st.currentData with
  | none =>
    let sideNodeValue ← getNode sideNode
    if ← isLeaf sideNodeValue then
      return { st with currentHash := sideNode, currentData := some sideNode }
    else join placeholder
  | some current =>
    if !st.nonPlaceholderReached && sideNode = placeholder then return st else join current

def deleteLoop (path : H256) : List H256 → DeleteLoop → Smt DeleteLoop
  | [], st => return st
  | sideNode :: sideNodes, st => do
    let st ← deleteLoopBody path sideNodes.length sideNode st
    deleteLoop path sideNodes st

def deleteWithSidesNodes (path : H256) (sideNodes pathNodes : List H256) (oldLeafData : Bytes) :
    Smt H256 := do
  if (pathNodes.headD FixedBytes.zero).isZero then
    Exec.err .keyAlreadyEmpty
  else
    let (actualPath, _) ← parseLeaf oldLeafData
    if actualPath ≠ path.bytes then
      Exec.err .keyAlreadyEmpty
    else
      Exec.forEach deleteNode pathNodes
      let st ← deleteLoop path sideNodes {}
      return st.currentHash

def updateForRoot (key value : Bytes) (root : H256) : Smt H256 := do
  let path ← TreeHasher.path key
  let r ← sideNodesForRoot path root false
  if value.isEmpty then
    deleteValue path
    deleteWithSidesNodes path r.sideNodes r.pathNodes r.leafData
  else
    updateWithSidesNodes path value r.sideNodes r.pathNodes r.leafData

def update (key value : Bytes) : Smt H256 := do
  let newRoot ← updateForRoot key value (← Exec.get).root
  Exec.modify fun t => { t with root := newRoot }
  return newRoot

def get (key : Bytes) : Smt Bytes := do
  let t ← Exec.get
  if t.root.isZero then
    return []
  else
    let path ← TreeHasher.path key
    return (t.values.get? path).getD []

end SparseMerkleTree

end Uchain
