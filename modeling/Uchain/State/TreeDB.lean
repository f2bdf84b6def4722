import Uchain.Smt.Tree
import Uchain.Types.Account

/-!
# The versioned trie database

`state::tree::TreeDB`: the committed version (`head`), the version being written (`staging`), and a
database that keeps stored versions under their roots. A stored version holds the values written
since the version it was derived from; a read that finds nothing goes on with that parent
(`getDescendLoop`).

* `put`, `delete`, `commit`, `reset`, `rollback`: work on `staging` and `head`.
* `apply`, `applyNonCommit`: write a batch to the head, or to a copy of a stored version, and store
  the result.
* `get`, `getAtRoot`: reads through the parents.
-/

namespace Uchain

open Lib

/-- The errors of the state crate that its modelled functions return. -/
inductive StateError where
  | smt (e : SmtError)
  | versionNotFound
  | storeReadOnly
  | codec
  | accountNotFound
  | insufficientFunds
  | invalidKey (hex : String)
  | message (text : String)
  deriving DecidableEq, Repr

/-- A value of the trie: written, or deleted. -/
inductive IValue where
  | deleted
  | value (v : Bytes)
  deriving DecidableEq

namespace IValue

/-- Big-endian, fixed-width `bincode`: the variant as `u32`, a vector with its length as `u64`. -/
def encode : IValue → Bytes
  | deleted => beBytes 4 0
  | value v => beBytes 4 1 ++ (beBytes 8 v.length ++ v)

/-- The bytes behind a `u64` length, if there are enough. -/
def decodeVec (b : Bytes) : Option Bytes :=
  let n := ofBeBytes (b.take 8)
  if 8 ≤ b.length ∧ n ≤ (b.drop 8).length then some ((b.drop 8).take n) else none

def decode (b : Bytes) : Option IValue :=
  if b.length < 4 then none
  else match ofBeBytes (b.take 4) with
    | 0 => some deleted
    | 1 => (decodeVec (b.drop 4)).map value
    | _ => none

end IValue

/-- `TrieCacheDatabase`: the stored versions; writes fail if it was opened read-only. -/
structure TrieCacheDatabase where
  trees : BTreeMap H256 SparseMerkleTree
  readOnly : Bool

structure TreeDB where
  db : TrieCacheDatabase
  head : SparseMerkleTree
  staging : SparseMerkleTree
  strategy : CopyStrategy

/-- The order in which a `HashMap` is iterated, which is not specified. -/
structure HashOrder where
  order : List (Bytes × Bytes) → List (Bytes × Bytes)
  perm : ∀ l, (order l).Perm l

/-- A hash map that keeps the order of insertion. -/
def HashOrder.insertion : HashOrder := ⟨id, List.Perm.refl⟩

inductive Op (K V : Type) where
  | delete (key : K)
  | put (key : K) (value : V)

namespace TreeDB

abbrev M (α : Type) := Exec StateError Query TreeDB α

/-- `TreeDB::open` on a store: no root is ever recorded in it, so the tree starts empty. -/
def openDb (db : TrieCacheDatabase) : TreeDB :=
  { db, head := .new, staging := SparseMerkleTree.new.subtree .partialCopy,
    strategy := .partialCopy }

def dbGet (root : H256) : M SparseMerkleTree := do
  Exec.ofOption .versionNotFound ((← Exec.get).db.trees.get? root)

def dbPut (root : H256) (tree : SparseMerkleTree) : M Unit := do
  if (← Exec.get).db.readOnly then Exec.err .storeReadOnly
  else Exec.modify fun t => { t with db := { t.db with trees := t.db.trees.insert root tree } }

/-- `open_read_only_at_root`, given what is in the store. -/
def openReadOnlyAtRoot (db : TrieCacheDatabase) (root : H256) : Except StateError TreeDB :=
  match db.trees.get? root with
  | none => .error .versionNotFound
  | some tree =>
    .ok { db := { db with readOnly := true }, head := tree, staging := tree,
          strategy := .partialCopy }

def reset (root : H256) : M Unit := do
  let newHead ← dbGet root
  Exec.modify fun t => { t with head := newHead, staging := newHead.subtree t.strategy }

def rollback : M Unit :=
  Exec.modify fun t => { t with staging := t.head.subtree t.strategy }

def root (t : TreeDB) : H256 := t.head.root

def commit (persist : Bool) : M H256 := do
  let t ← Exec.get
  if t.head.root = t.staging.root then
    return t.head.root
  else
    if persist then
      -- a failed write is only logged
      let _ ← Exec.attempt (dbPut t.staging.root t.staging)
    Exec.modify fun t =>
      { t with head := t.staging, staging := t.staging.subtree t.strategy }
    return t.staging.root

variable [Crypto]

/-- Run a method of a tree that is not part of the database. -/
def onTree {α : Type} (tree : SparseMerkleTree) (x : Smt α) : M (α × SparseMerkleTree) :=
  Exec.mapErr StateError.smt (Exec.runOn tree x)

def onStaging {α : Type} (x : Smt α) : M α :=
  Exec.mapErr StateError.smt
    (Exec.zoom (fun t : TreeDB => t.staging) (fun s t => { t with staging := s }) x)

def onHead {α : Type} (x : Smt α) : M α :=
  Exec.mapErr StateError.smt
    (Exec.zoom (fun t : TreeDB => t.head) (fun h t => { t with head := h }) x)

/-- The loop of `_get_descend`, with an allowance of steps. Every step looks up a stored version, so
more steps than versions mean that the parents form a cycle and the loop never ends. -/
def getDescendLoop (key : Bytes) : Nat → H256 → M (Option Bytes)
  | 0, _ => Exec.fail .diverge
  | n + 1, root => do
    let tree ← dbGet root
    let (value, _) ← onTree tree (SparseMerkleTree.get key)
    if value.isEmpty ∧ tree.root ≠ tree.parent then getDescendLoop key n tree.parent
    else if value.isEmpty then return none
    else return some value

def getDescend (key : Bytes) (root : H256) : M (Option Bytes) := do
  getDescendLoop key ((← Exec.get).db.trees.entries.length + 1) root

section Codecs

variable {K V : Type} [Codec K] [Codec V]

def decodeValue (value : Bytes) : M (Option V) :=
  if value.isEmpty then return none
  else match IValue.decode value with
    | none => Exec.err .codec
    | some .deleted => return none
    | some (.value v) => do
      let v ← Exec.ofOption .codec (Codec.decode v)
      return some v

/-- Look in `first`; if it has nothing, in the versions from `root` on. -/
def getFrom (first : SparseMerkleTree) (root : H256) (head : SparseMerkleTree) (key : Bytes) :
    M (Option V) := do
  let (value, _) ← onTree first (SparseMerkleTree.get key)
  if value.isEmpty then
    if (← Exec.get).strategy = .partialCopy then
      match ← getDescend key root with
      | none => return none
      | some value => decodeValue value
    else
      let (value, _) ← onTree head (SparseMerkleTree.get key)
      decodeValue value
  else decodeValue value

def get (key : K) : M (Option V) := do
  let t ← Exec.get
  getFrom t.staging t.head.root t.head (Codec.encode key)

def getAtRoot (fromRoot : H256) (key : K) : M (Option V) := do
  let head ← dbGet fromRoot
  getFrom head head.root head (Codec.encode key)

def put (key : K) (value : V) : M Unit := do
  let _ ← onStaging
    (SparseMerkleTree.update (Codec.encode key) (IValue.value (Codec.encode value)).encode)

def delete (key : K) : M Unit := do
  let _ ← onStaging (SparseMerkleTree.update (Codec.encode key) IValue.deleted.encode)

def encodeOp : Op K V → Bytes × Bytes
  | .delete key => (Codec.encode key, IValue.deleted.encode)
  | .put key value => (Codec.encode key, (IValue.value (Codec.encode value)).encode)

/-- Collecting into a `HashMap`: the last entry of a key stays. -/
def collect : List (Bytes × Bytes) → List (Bytes × Bytes)
  | [] => []
  | e :: l => if l.any fun e' => e'.1 = e.1 then collect l else e :: collect l

def updates (batch : List (Bytes × Bytes)) : Smt Unit :=
  Exec.forEach (fun e => do let _ ← SparseMerkleTree.update e.1 e.2) batch

/-- Commit what is staged, then write a batch to the head itself and store it. -/
def apply (order : HashOrder) (batch : List (Op K V)) (persist : Bool) : M H256 := do
  let _ ← commit persist
  onHead (updates (order.order (collect (batch.map encodeOp))))
  let head := (← Exec.get).head
  dbPut head.root head
  Exec.modify fun t => { t with staging := t.head.subtree t.strategy }
  return head.root

def applyNonCommit (order : HashOrder) (atRoot : H256) (batch : List (Op K V)) : M H256 := do
  let tree ← dbGet atRoot
  let (_, tree) ← onTree tree (updates (order.order (collect (batch.map encodeOp))))
  dbPut tree.root tree
  return tree.root

end Codecs

end TreeDB

end Uchain
