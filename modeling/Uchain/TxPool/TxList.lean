import Uchain.Lib.BTreeMap
import Uchain.Types.Wire

/-!
# The lists of the transaction pool

`txpool::tx_list`, `tx_lookup`, `tx_noncer`: the transactions of an account by nonce, the priced
list of remote transactions, the lookup by hash and the cache of account nonces.

`TxList::add` compares fees in `i128` and divides by the fee of the new transaction, so a
replacement without a fee panics.
-/

namespace Uchain

open Lib

instance instLinearOrderUInt64 : LinearOrder UInt64 where
  le_refl := UInt64.le_refl
  le_trans _ _ _ := UInt64.le_trans
  lt_iff_le_not_ge a b := by
    rw [UInt64.lt_iff_le_and_ne]
    constructor
    · intro h
      exact ⟨h.1, fun h' => h.2 (UInt64.le_antisymm h.1 h')⟩
    · intro h
      exact ⟨h.1, fun he => h.2 (he ▸ UInt64.le_refl _)⟩
  le_antisymm _ _ := UInt64.le_antisymm
  le_total := UInt64.le_total
  toDecidableLE := inferInstance

/-- The fields of `TxPoolConfig` that the pool reads. -/
structure TxPoolConfig where
  priceBump : BitVec 128
  accountSlots : UInt64
  globalSlots : UInt64
  accountQueue : UInt64
  globalQueue : UInt64
  deriving DecidableEq

/-- `DEFAULT_TX_POOL_CONFIG`. -/
def TxPoolConfig.default : TxPoolConfig := ⟨10, 16, 4096, 64, 1024⟩

/-- `sanitize`: each limit below one is replaced by its default. -/
def TxPoolConfig.sanitize (conf : TxPoolConfig) : TxPoolConfig where
  priceBump := if conf.priceBump < 1 then TxPoolConfig.default.priceBump else conf.priceBump
  accountSlots :=
    if conf.accountSlots < 1 then TxPoolConfig.default.accountSlots else conf.accountSlots
  globalSlots := if conf.globalSlots < 1 then TxPoolConfig.default.globalSlots else conf.globalSlots
  accountQueue :=
    if conf.accountQueue < 1 then TxPoolConfig.default.accountQueue else conf.accountQueue
  globalQueue := if conf.globalQueue < 1 then TxPoolConfig.default.globalQueue else conf.globalQueue

/-- `TX_SLOT_SIZE`. -/
def txSlotSize : UInt64 := 32 * 1024

def numSlots (tx : SignedTransaction) : UInt64 :=
  (.ofNat (Wire.signedTransaction.encodedLen tx) + txSlotSize - 1) / txSlotSize

/-! ## Transactions by nonce -/

abbrev TxSortedList := BTreeMap UInt64 SignedTransaction

namespace TxSortedList

def put (l : TxSortedList) (tx : SignedTransaction) : TxSortedList := l.insert tx.nonce tx

/-- `drain_filter`: what passes the test, in the order of nonces, and the rest. -/
def filter (p : UInt64 → SignedTransaction → Bool) (l : TxSortedList) :
    List SignedTransaction × TxSortedList :=
  ((BTreeMap.filter p l).values, BTreeMap.filter (fun nonce tx => !p nonce tx) l)

def forward (threshold : UInt64) (l : TxSortedList) : List SignedTransaction × TxSortedList :=
  filter (fun nonce _ => nonce < threshold) l

def ready (start : UInt64) (l : TxSortedList) : List SignedTransaction × TxSortedList :=
  filter (fun nonce _ => start ≤ nonce) l

def len (l : TxSortedList) : Nat := l.entries.length

/-- `cap`: the first transactions leave until `threshold` are left. -/
def cap (threshold : Nat) (l : TxSortedList) : List SignedTransaction × TxSortedList :=
  ((l.entries.take (l.len - threshold)).map Prod.snd, BTreeMap.drop (l.len - threshold) l)

/-- `last_element`, which returns the *first* element. -/
def lastElement (l : TxSortedList) : Option SignedTransaction := (l.entries.head?).map Prod.snd

def flatten (l : TxSortedList) : List SignedTransaction := l.values

end TxSortedList

structure TxList where
  strict : Bool
  txs : TxSortedList
  deriving DecidableEq

/-- The result of `TxList::add`, with the list after it. -/
structure TxList.Added where
  inserted : Bool
  old : Option SignedTransaction
  list : TxList

/-- The result of `TxList::remove`, with the list after it. -/
structure TxList.Removed where
  removed : Bool
  invalids : List SignedTransaction
  list : TxList

/-- The result of `TxList::filter`, with the list after it. -/
structure TxList.Filtered where
  drops : List SignedTransaction
  invalids : List SignedTransaction
  list : TxList

namespace TxList

def new (strict : Bool) : TxList := ⟨strict, .empty⟩

/-- The rise of the fee, in percent of the new fee. -/
def feeBump (old tx : SignedTransaction) : Int :=
  (((tx.fees.toNat : Int) - old.fees.toNat) * 100).tdiv tx.fees.toNat

/-- `add`; no value if it panics. -/
def add (list : TxList) (tx : SignedTransaction) (priceBump : BitVec 128) : Option Added :=
  match list.txs.get? tx.nonce with
  | none => some ⟨true, none, { list with txs := list.txs.put tx }⟩
  | some old =>
    if tx.fees = 0 then none
    else if old.fees ≤ tx.fees ∧ feeBump old tx < priceBump.toInt then some ⟨false, none, list⟩
    else some ⟨true, some old, { list with txs := list.txs.put tx }⟩

/-- `remove`: it answers `false` when it did remove the transaction. -/
def remove (list : TxList) (tx : SignedTransaction) : Removed :=
  if (list.txs.get? tx.nonce).isSome then
    ⟨false, [], { list with txs := list.txs.erase tx.nonce }⟩
  else if list.strict then
    let drained := TxSortedList.filter (fun _ t => tx.nonce < t.nonce) list.txs
    ⟨true, drained.1, { list with txs := drained.2 }⟩
  else ⟨true, [], list⟩

def forward (list : TxList) (threshold : UInt64) : List SignedTransaction × TxList :=
  ((list.txs.forward threshold).1, { list with txs := (list.txs.forward threshold).2 })

def ready (list : TxList) (start : UInt64) : List SignedTransaction × TxList :=
  ((list.txs.ready start).1, { list with txs := (list.txs.ready start).2 })

def cap (list : TxList) (threshold : Nat) : List SignedTransaction × TxList :=
  ((list.txs.cap threshold).1, { list with txs := (list.txs.cap threshold).2 })

/-- The lowest nonce among the transactions, `u64::MAX` if there is none. -/
def lowestNonce (txs : List SignedTransaction) : UInt64 :=
  txs.foldl (fun lowest tx => if lowest > tx.nonce then tx.nonce else lowest) (.ofNat (2 ^ 64 - 1))

def filter (list : TxList) (priceLimit : UInt64) : Option Filtered :=
  if priceLimit = 0 then none
  else
    let unpayable := TxSortedList.filter (fun _ tx => priceLimit < tx.price) list.txs
    if list.strict then
      let gapped := TxSortedList.filter (fun _ tx => lowestNonce unpayable.1 < tx.nonce) unpayable.2
      some ⟨unpayable.1, gapped.1, { list with txs := gapped.2 }⟩
    else some ⟨unpayable.1, [], { list with txs := unpayable.2 }⟩

def len (list : TxList) : Nat := list.txs.len

def isEmpty (list : TxList) : Bool := list.txs.entries.isEmpty

def flatten (list : TxList) : List SignedTransaction := list.txs.flatten

def lastElement (list : TxList) : Option SignedTransaction := list.txs.lastElement

def overlaps (list : TxList) (tx : SignedTransaction) : Bool := list.txs.contains tx.nonce

end TxList

/-! ## Transactions by fee -/

/-- `PricedTransaction::cmp`: fees descending, then nonces descending. -/
def PricedTransaction.cmp (a b : SignedTransaction) : Ordering :=
  match (compare a.fees b.fees).swap with
  | .lt => .lt
  | .eq => (compare a.nonce b.nonce).swap
  | .gt => .gt

/-- `NonceTransaction::cmp`: nonces descending. -/
def NonceTransaction.cmp (a b : SignedTransaction) : Ordering := (compare a.nonce b.nonce).swap

/-- The set of remote transactions by fee, and the sum of their fees as the source counts it. -/
structure TxPricedList where
  txs : List SignedTransaction
  totalFee : UInt64
  deriving DecidableEq

namespace TxPricedList

def new : TxPricedList := ⟨[], 0⟩

/-- `put`: the fee is added, also when the set does not change. -/
def put (l : TxPricedList) (tx : SignedTransaction) (isLocal : Bool) : TxPricedList :=
  if isLocal then l else ⟨insertBy PricedTransaction.cmp tx l.txs, l.totalFee + tx.fees⟩

/-- `remove`: what compares equal leaves. -/
def remove (l : TxPricedList) (tx : SignedTransaction) : TxPricedList where
  txs := l.txs.filter fun t => PricedTransaction.cmp t tx != .eq
  totalFee := if l.txs.any fun t => PricedTransaction.cmp t tx == .eq then l.totalFee - tx.fees
    else l.totalFee

def underpriced (l : TxPricedList) (tx : SignedTransaction) : Bool :=
  match l.txs.getLast? with
  | none => false
  | some least => (PricedTransaction.cmp least tx).isGE

/-- `discard`: the first `slots` stay, the others are returned; nothing is if there are at most
`slots`. The sum of the fees stays as it is. -/
def discard (l : TxPricedList) (slots : UInt64) : List SignedTransaction × TxPricedList :=
  if l.txs.length ≤ slots.toNat then ([], l)
  else (l.txs.drop slots.toNat, { l with txs := l.txs.take slots.toNat })

end TxPricedList

/-! ## Transactions by hash -/

abbrev AccountSet := BTreeMap Address Unit

namespace AccountSet

def add (s : AccountSet) (address : Address) : AccountSet := s.insert address ()

def ofList (addresses : List Address) : AccountSet := addresses.foldl add .empty

def flatten (s : AccountSet) : List Address := s.keys

end AccountSet

structure TxLookup where
  slots : UInt64
  locals : BTreeMap H256 SignedTransaction
  remotes : BTreeMap H256 SignedTransaction
  deriving DecidableEq

namespace TxLookup

def new : TxLookup := ⟨0, .empty, .empty⟩

def get (t : TxLookup) (hash : H256) : Option SignedTransaction :=
  (t.locals.get? hash).or (t.remotes.get? hash)

def contains (t : TxLookup) (hash : H256) : Bool :=
  t.locals.contains hash || t.remotes.contains hash

def remove (t : TxLookup) (hash : H256) : TxLookup where
  slots := match (t.locals.get? hash).or (t.remotes.get? hash) with
    | some tx => t.slots - numSlots tx
    | none => t.slots
  locals := t.locals.erase hash
  remotes := t.remotes.erase hash

variable [Crypto]

def add (t : TxLookup) (tx : SignedTransaction) (isLocal : Bool) : TxLookup :=
  if isLocal then
    { t with slots := t.slots + numSlots tx, locals := t.locals.insert tx.hash tx }
  else { t with slots := t.slots + numSlots tx, remotes := t.remotes.insert tx.hash tx }

/-- `remote_to_locals`: the remote transactions of the accounts become local. -/
def remoteToLocals (t : TxLookup) (accounts : AccountSet) : List SignedTransaction × TxLookup :=
  let migrated := BTreeMap.filter (fun _ tx => accounts.contains tx.sender) t.remotes
  (migrated.values,
    { t with
      locals := migrated.entries.foldl (fun m e => m.insert e.1 e.2) t.locals
      remotes := BTreeMap.filter (fun _ tx => !accounts.contains tx.sender) t.remotes })

end TxLookup

/-! ## Nonces -/

/-- The next nonce of each account, read from the state on the first request. -/
structure TxNoncer where
  fallback : Address → AccountState
  nonces : BTreeMap Address UInt64

namespace TxNoncer

def new (state : Address → AccountState) : TxNoncer := ⟨state, .empty⟩

/-- The nonce that `get` returns. -/
def nonce (t : TxNoncer) (address : Address) : UInt64 :=
  (t.nonces.get? address).getD (t.fallback address).nonce

def set (t : TxNoncer) (address : Address) (nonce : UInt64) : TxNoncer :=
  { t with nonces := t.nonces.insert address nonce }

/-- `get`: the nonce is remembered. -/
def get (t : TxNoncer) (address : Address) : UInt64 × TxNoncer :=
  (t.nonce address, t.set address (t.nonce address))

def setIfLower (t : TxNoncer) (address : Address) (nonce : UInt64) : TxNoncer :=
  t.set address (if t.nonce address ≤ nonce then t.nonce address else nonce)

def setAll (t : TxNoncer) (all : BTreeMap Address UInt64) : TxNoncer := { t with nonces := all }

end TxNoncer

end Uchain
