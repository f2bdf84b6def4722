import Mathlib.Data.List.Sort
import Uchain.State.TreeDB
import Uchain.Types.Network
import Uchain.Types.Wire

/-!
# Block storage

`blockchain::block_storage`: four columns. Headers and the index by level are written only where
nothing is yet; the transactions and the index by hash are overwritten. Transactions are kept as
bytes, in their wire format. `delete` only removes an entry of the index by level.
-/

namespace Uchain

open Lib

/-- The errors of the chain and of the consensus. -/
inductive ChainError where
  | state (e : StateError)
  | decode (e : Protobuf.DecodeError)
  | parentBlockNotFound
  | badPow (expected got : Compact)
  | failedToVerifyHeader (expected header : BlockHeader) (detail : ChainError)
  | invalidBlock
  | channelClosed
  | message (text : String)
  deriving DecidableEq

structure BlockStorage where
  headers : BTreeMap BlockPrimaryKey BlockHeader
  transactions : BTreeMap BlockPrimaryKey Bytes
  blockByHash : BTreeMap H256 BlockPrimaryKey
  blockByLevel : BTreeMap UInt32 BlockPrimaryKey

/-- Write where nothing is yet. -/
def putAbsent {κ ν : Type} [LinearOrder κ] (m : BTreeMap κ ν) (k : κ) (v : ν) : BTreeMap κ ν :=
  match m.get? k with
  | some _ => m
  | none => m.insert k v

namespace BlockStorage

abbrev M (α : Type) := Exec ChainError Query BlockStorage α

def new : BlockStorage := ⟨.empty, .empty, .empty, .empty⟩

section Crypto

variable [Crypto]

def key (h : BlockHeader) : BlockPrimaryKey := toLex (h.level, h.hash)

/-- The columns after `put`. -/
def stored (s : BlockStorage) (block : Block) : BlockStorage where
  headers := putAbsent s.headers (key block.header) block.header
  transactions :=
    s.transactions.insert (key block.header) (Wire.transactionList.encode block.transactions)
  blockByHash := s.blockByHash.insert block.hash (key block.header)
  blockByLevel := putAbsent s.blockByLevel block.level (key block.header)

def put (block : Block) : M Unit := do
  let _ ← block.header.hashed
  Exec.modify fun s => s.stored block

def delete (_hash : H256) (level : UInt32) : M Unit :=
  Exec.modify fun s => { s with blockByLevel := s.blockByLevel.erase level }

/-! ## `ChainHeadReader` -/

/-- Index a header that was read. -/
def indexed : Option BlockHeader → M (Option IndexedBlockHeader)
  | none => return none
  | some h => do return some (← IndexedBlockHeader.fromRaw h)

def getHeader (hash : H256) (level : UInt32) : M (Option IndexedBlockHeader) := do
  let s ← Exec.get
  indexed (s.headers.get? (toLex (level, hash)))

/-- The header under a key of an index. -/
def getHeaderAt : Option BlockPrimaryKey → M (Option IndexedBlockHeader)
  | none => return none
  | some k => getHeader (ofLex k).2 (ofLex k).1

def getHeaderByHash (hash : H256) : M (Option IndexedBlockHeader) := do
  let s ← Exec.get
  getHeaderAt (s.blockByHash.get? hash)

def getHeaderByLevel (level : UInt32) : M (Option IndexedBlockHeader) := do
  let s ← Exec.get
  getHeaderAt (s.blockByLevel.get? level)

/-! ## `ChainReader` -/

/-- The transactions of a column, decoded. -/
def decodeTransactions : Option Bytes → M (Option (List SignedTransaction))
  | none => return none
  | some b => match Wire.transactionList.decode b with
    | .ok txs => return some txs
    | .error (.err e) => Exec.err (.decode e)
    | .error .panic => Exec.panic
    | .error .diverge => Exec.fail .diverge

def getBlock (hash : H256) (level : UInt32) : M (Option Block) := do
  let s ← Exec.get
  let transactions ← decodeTransactions (s.transactions.get? (toLex (level, hash)))
  match s.headers.get? (toLex (level, hash)), transactions with
  | some header, some transactions => return some ⟨header, transactions⟩
  | _, _ => return none

def getBlockByHash (hash : H256) : M (Option Block) := do
  let s ← Exec.get
  match s.blockByHash.get? hash with
  | none => return none
  | some k => getBlock (ofLex k).2 (ofLex k).1

/-! ## `get_blocks` -/

/-- `prefix_iter` of a store that keeps its encoded keys in byte order: the entries from `start` on. -/
def prefixIter {ν : Type} (column : BTreeMap BlockPrimaryKey ν) (start : BlockPrimaryKey) :
    List (Except (Fail ChainError) BlockPrimaryKey × ν) :=
  let stored := (column.entries.map fun e => (e.1.encode, e.2)).insertionSort fun e e' => e.1 ≤ e'.1
  (stored.filter fun e => start.encode ≤ e.1).map fun e => (BlockPrimaryKey.decode e.1, e.2)

/-- An item of `get_blocks`. The keys were decoded on the way and are dropped. -/
def blockItem (header : Except (Fail ChainError) BlockPrimaryKey × BlockHeader)
    (transactions : Except (Fail ChainError) BlockPrimaryKey × Bytes) :
    Except (Fail ChainError) Block := do
  let _ ← header.1
  let _ ← transactions.1
  match Wire.transactionList.decode transactions.2 with
  | .ok txs => .ok ⟨header.2, txs⟩
  | .error (.err e) => .error (.err (.decode e))
  | .error .panic => .error .panic
  | .error .diverge => .error .diverge

/-- All the items of the iterator that `get_blocks` returns. -/
def getBlocks (hash : H256) (level : UInt32) (s : BlockStorage) : List (Except (Fail ChainError) Block) :=
  List.zipWith blockItem (prefixIter s.headers (toLex (level, hash)))
    (prefixIter s.transactions (toLex (level, hash)))

end Crypto

end BlockStorage

end Uchain
