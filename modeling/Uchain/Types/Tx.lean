import Uchain.Lib.Protobuf
import Uchain.Types.Account

/-!
# Transactions

`types::tx`: the payload, its packing, and a payload with its signature. The order
`NoncePricedTransaction::cmp` looks at nonce and price only, while two transactions are equal for
the source when their hashes are.
-/

namespace Uchain

open Lib.Protobuf (stringBytes)

structure ApplicationCall where
  appId : Address
  service : UInt64
  method : UInt64
  args : Bytes
  deriving DecidableEq

structure CreateApplication where
  packageName : String
  binary : Bytes
  deriving DecidableEq

structure UpdateApplication where
  appId : Address
  binary : Bytes
  migrate : Bool
  deriving DecidableEq

inductive TransactionData where
  | payment (recipient : Address)
  | call (call : ApplicationCall)
  | create (create : CreateApplication)
  | update (update : UpdateApplication)
  | rawData (raw : Bytes)
  deriving DecidableEq

structure Transaction where
  nonce : UInt64
  chainId : UInt32
  genesisHash : H256
  fee : UInt64
  value : UInt64
  data : Option TransactionData
  deriving DecidableEq

namespace Transaction

/-- What `pack` appends for the data. -/
def packData : TransactionData → Bytes
  | .payment recipient => toBeBytes32 1 ++ recipient.bytes
  | .call v =>
    toBeBytes32 2 ++ v.appId.bytes ++ toBeBytes64 v.service ++ toBeBytes64 v.method ++ v.args
  | .create v => toBeBytes32 3 ++ stringBytes v.packageName ++ v.binary
  | .update v => toBeBytes32 4 ++ v.appId.bytes ++ [if v.migrate then 1 else 0] ++ v.binary
  | .rawData v => toBeBytes32 5 ++ v

def pack (tx : Transaction) : Bytes :=
  toBeBytes64 tx.nonce ++ toBeBytes32 tx.chainId ++ tx.genesisHash.bytes ++ toBeBytes64 tx.fee ++
    toBeBytes64 tx.value ++ (tx.data.map packData).getD []

def sigHash [Crypto] (tx : Transaction) : H256 := Crypto.keccak256 tx.pack

end Transaction

structure SignedTransaction where
  tx : Transaction
  r : H256
  s : H256
  v : UInt32
  deriving DecidableEq

namespace SignedTransaction

def nonce (t : SignedTransaction) : UInt64 := t.tx.nonce

def price (t : SignedTransaction) : UInt64 := t.tx.value

def fees (t : SignedTransaction) : UInt64 := t.tx.fee

/-- `data()`, which panics on a transaction without data. -/
def data? (t : SignedTransaction) : Option TransactionData := t.tx.data

variable [Crypto]

def hash (t : SignedTransaction) : H256 := t.tx.sigHash

/-- `from()`, `sender()`: the signer, or the default address if the signature does not recover. -/
def sender (t : SignedTransaction) : Address :=
  (Crypto.recoverAddress t.r t.s t.v.toUInt8 t.tx.sigHash t.tx.chainId).getD FixedBytes.zero

/-- `to()`: the account that a transaction names besides its sender. -/
def recipient (t : SignedTransaction) : Address :=
  match t.tx.data with
  | none => FixedBytes.zero
  | some (.payment recipient) => recipient
  | some (.call v) => v.appId
  | some (.rawData _) => FixedBytes.zero
  | some (.create v) => (Crypto.packageAddress v.packageName t.sender).getD FixedBytes.zero
  | some (.update v) => v.appId

def isPayment (t : SignedTransaction) : Bool :=
  match t.tx.data with
  | some (.payment _) => true
  | _ => false

end SignedTransaction

/-- `NoncePricedTransaction::cmp`: nonces ascending, then prices descending. -/
def NoncePricedTransaction.cmp (a b : SignedTransaction) : Ordering :=
  match compare a.nonce b.nonce with
  | .lt => .lt
  | .eq => (compare a.price b.price).swap
  | .gt => .gt

end Uchain
