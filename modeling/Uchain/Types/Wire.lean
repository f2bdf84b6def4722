import Uchain.Types.Block

/-!
# Wire formats

The `prost` messages of hashes, transactions and blocks: what each field writes (`encodeRaw`), the
length it announces (`encodedLen`), and how a field is read (`mergeField`). Those of
`SignedTransaction`, `TransactionList`, `Block` and the fixed-length arrays are written by hand in
the source, the others are derived; a derived message leaves out a number, a flag or bytes that have
their default.
-/

namespace Uchain.Wire

open Lib Lib.Protobuf

/-- `impl_prost_message!`: the bytes of the array as field 1. `from_slice` panics on another
length. -/
def fixedBytes (n : Nat) : Message (FixedBytes n) where
  default := .zero
  encodeRaw h := encodeBytes 1 h.bytes
  encodedLen _ := keyLen 1 + (encodedLenVarint n + n)
  mergeField tag w ctx h buf :=
    match tag with
    | 1 => do
      let (b, buf) ← mergeBytes w buf
      match FixedBytes.fromSlice? n b with
      | none => .error .panic
      | some h => .ok (h, buf)
    | _ => skipped w tag ctx h buf

/-- `impl_prost_message_unit!(U256, 4)`: the 32 big-endian bytes as field 1. `from_big_endian`
panics on more bytes. -/
def u256 : Message U256 where
  default := 0
  encodeRaw x := encodeBytes 1 (beBytes 32 x.toNat)
  encodedLen _ := keyLen 1 + (encodedLenVarint (4 * 8) + 4 * 8)
  mergeField tag w ctx x buf :=
    match tag with
    | 1 => do
      let (b, buf) ← mergeBytes w buf
      if 32 < b.length then .error .panic else .ok (BitVec.ofNat 256 (ofBeBytes b), buf)
    | _ => skipped w tag ctx x buf

def h256 : Message H256 := fixedBytes 32

def address : Message Address := fixedBytes 44

/-! ## Payloads -/

def payment : Message Address where
  default := .zero
  encodeRaw v := address.encodeField 1 v
  encodedLen v := address.lenField 1 v
  mergeField tag w ctx v buf :=
    match tag with
    | 1 => address.merge w ctx v buf
    | _ => skipped w tag ctx v buf

def call : Message ApplicationCall where
  default := ⟨.zero, 0, 0, []⟩
  encodeRaw v := address.encodeField 1 v.appId ++ (optUint 2 v.service.toNat ++
    (optUint 3 v.method.toNat ++ optBytes 4 v.args))
  encodedLen v := address.lenField 1 v.appId + (lenOptUint 2 v.service.toNat +
    (lenOptUint 3 v.method.toNat + lenOptBytes 4 v.args))
  mergeField tag w ctx v buf :=
    match tag with
    | 1 => do
      let (appId, buf) ← address.merge w ctx v.appId buf
      .ok ({ v with appId }, buf)
    | 2 => do
      let (service, buf) ← mergeVarint w buf
      .ok ({ v with service := .ofNat service }, buf)
    | 3 => do
      let (method, buf) ← mergeVarint w buf
      .ok ({ v with method := .ofNat method }, buf)
    | 4 => do
      let (args, buf) ← mergeBytes w buf
      .ok ({ v with args }, buf)
    | _ => skipped w tag ctx v buf

def create : Message CreateApplication where
  default := ⟨"", []⟩
  encodeRaw v := encodeBytes 1 (stringBytes v.packageName) ++ optBytes 2 v.binary
  encodedLen v := lenBytes 1 (stringBytes v.packageName) + lenOptBytes 2 v.binary
  mergeField tag w ctx v buf :=
    match tag with
    | 1 => do
      let (packageName, buf) ← mergeString w buf
      .ok ({ v with packageName }, buf)
    | 2 => do
      let (binary, buf) ← mergeBytes w buf
      .ok ({ v with binary }, buf)
    | _ => skipped w tag ctx v buf

def update : Message UpdateApplication where
  default := ⟨.zero, [], false⟩
  encodeRaw v := address.encodeField 1 v.appId ++ (optBytes 2 v.binary ++ optUint 3 v.migrate.toNat)
  encodedLen v :=
    address.lenField 1 v.appId + (lenOptBytes 2 v.binary + lenOptUint 3 v.migrate.toNat)
  mergeField tag w ctx v buf :=
    match tag with
    | 1 => do
      let (appId, buf) ← address.merge w ctx v.appId buf
      .ok ({ v with appId }, buf)
    | 2 => do
      let (binary, buf) ← mergeBytes w buf
      .ok ({ v with binary }, buf)
    | 3 => do
      let (migrate, buf) ← mergeVarint w buf
      .ok ({ v with migrate := migrate ≠ 0 }, buf)
    | _ => skipped w tag ctx v buf

/-- The `oneof`: the field of the payload's kind. -/
def encodeData : TransactionData → Bytes
  | .payment v => payment.encodeField 6 v
  | .call v => call.encodeField 7 v
  | .create v => create.encodeField 8 v
  | .update v => update.encodeField 9 v
  | .rawData v => encodeBytes 10 v

def lenData : TransactionData → Nat
  | .payment v => payment.lenField 6 v
  | .call v => call.lenField 7 v
  | .create v => create.lenField 8 v
  | .update v => update.lenField 9 v
  | .rawData v => lenBytes 10 v

/-- Merge a payload of one kind into `old`, which starts at the default for another kind. -/
def mergeVariant {α : Type} (m : Message α) (mk : α → TransactionData) (old : α) (w : WireType)
    (ctx : Nat) : Parser (Option TransactionData) := fun buf => do
  let (v, buf) ← m.merge w ctx old buf
  .ok (some (mk v), buf)

def mergeData (tag : Nat) (w : WireType) (ctx : Nat) (data : Option TransactionData) :
    Parser (Option TransactionData) := fun buf =>
  match tag, data with
  | 6, some (.payment v) => mergeVariant payment .payment v w ctx buf
  | 6, _ => mergeVariant payment .payment payment.default w ctx buf
  | 7, some (.call v) => mergeVariant call .call v w ctx buf
  | 7, _ => mergeVariant call .call call.default w ctx buf
  | 8, some (.create v) => mergeVariant create .create v w ctx buf
  | 8, _ => mergeVariant create .create create.default w ctx buf
  | 9, some (.update v) => mergeVariant update .update v w ctx buf
  | 9, _ => mergeVariant update .update update.default w ctx buf
  | 10, _ => do
    let (v, buf) ← mergeBytes w buf
    .ok (some (.rawData v), buf)
  | _, _ => skipped w tag ctx data buf

/-! ## Transactions -/

def transaction : Message Transaction where
  default := ⟨0, 0, .zero, 0, 0, none⟩
  encodeRaw t := optUint 1 t.nonce.toNat ++ (optUint 2 t.chainId.toNat ++
    (h256.encodeField 3 t.genesisHash ++ (optUint 4 t.fee.toNat ++
      (optUint 5 t.value.toNat ++ (t.data.map encodeData).getD []))))
  encodedLen t := lenOptUint 1 t.nonce.toNat + (lenOptUint 2 t.chainId.toNat +
    (h256.lenField 3 t.genesisHash + (lenOptUint 4 t.fee.toNat +
      (lenOptUint 5 t.value.toNat + (t.data.map lenData).getD 0))))
  mergeField tag w ctx t buf :=
    match tag with
    | 1 => do
      let (nonce, buf) ← mergeVarint w buf
      .ok ({ t with nonce := .ofNat nonce }, buf)
    | 2 => do
      let (chainId, buf) ← mergeVarint w buf
      .ok ({ t with chainId := .ofNat chainId }, buf)
    | 3 => do
      let (genesisHash, buf) ← h256.merge w ctx t.genesisHash buf
      .ok ({ t with genesisHash }, buf)
    | 4 => do
      let (fee, buf) ← mergeVarint w buf
      .ok ({ t with fee := .ofNat fee }, buf)
    | 5 => do
      let (value, buf) ← mergeVarint w buf
      .ok ({ t with value := .ofNat value }, buf)
    | _ => do
      let (data, buf) ← mergeData tag w ctx t.data buf
      .ok ({ t with data }, buf)

/-- Written by hand: `encoded_len` counts `v` also when `encode_raw` leaves it out. -/
def signedTransaction : Message SignedTransaction where
  default := ⟨transaction.default, .zero, .zero, 0⟩
  encodeRaw t := transaction.encodeField 1 t.tx ++ (h256.encodeField 2 t.r ++
    (h256.encodeField 3 t.s ++ optUint 4 t.v.toNat))
  encodedLen t := transaction.lenField 1 t.tx + (h256.lenField 2 t.r +
    (h256.lenField 3 t.s + lenUint 4 t.v.toNat))
  mergeField tag w ctx t buf :=
    match tag with
    | 1 => do
      let (tx, buf) ← transaction.merge w ctx t.tx buf
      .ok ({ t with tx }, buf)
    | 2 => do
      let (r, buf) ← h256.merge w ctx t.r buf
      .ok ({ t with r }, buf)
    | 3 => do
      let (s, buf) ← h256.merge w ctx t.s buf
      .ok ({ t with s }, buf)
    | 4 => do
      let (v, buf) ← mergeVarint w buf
      .ok ({ t with v := .ofNat v }, buf)
    | _ => skipped w tag ctx t buf

/-- A repeated field. -/
def encodeRepeated {α : Type} (m : Message α) (tag : Nat) (l : List α) : Bytes :=
  l.flatMap fun a => m.encodeField tag a

def lenRepeated {α : Type} (m : Message α) (tag : Nat) (l : List α) : Nat :=
  keyLen tag * l.length + (l.map fun a => m.encodedLen a + encodedLenVarint (m.encodedLen a)).sum

def mergeRepeated {α : Type} (m : Message α) (w : WireType) (ctx : Nat) (l : List α) :
    Parser (List α) := fun buf => do
  let (a, buf) ← m.merge w ctx m.default buf
  .ok (l ++ [a], buf)

/-- A message with one repeated field of signed transactions. -/
def signedTransactions : Message (List SignedTransaction) where
  default := []
  encodeRaw l := encodeRepeated signedTransaction 1 l
  encodedLen l := lenRepeated signedTransaction 1 l
  mergeField tag w ctx l buf :=
    match tag with
    | 1 => mergeRepeated signedTransaction w ctx l buf
    | _ => skipped w tag ctx l buf

def transactionList : Message (List SignedTransaction) := signedTransactions

def broadcastTransactionMessage : Message (List SignedTransaction) := signedTransactions

/-! ## Blocks -/

def blockHeader : Message BlockHeader where
  default := ⟨.zero, .zero, .zero, .zero, 0, .zero, 0, 0, 0, 0, 0⟩
  encodeRaw h := h256.encodeField 1 h.parentHash ++ (h256.encodeField 2 h.receiptHash ++
    (h256.encodeField 3 h.txRoot ++ (h256.encodeField 4 h.stateRoot ++
      (u256.encodeField 5 h.mixNonce ++ (address.encodeField 6 h.coinbase ++
        (optUint 7 h.difficulty.toNat ++ (optUint 8 h.chainId.toNat ++
          (optUint 9 h.level.toNat ++ (optUint 10 h.time.toNat ++ optUint 11 h.nonce.toNat)))))))))
  encodedLen h := h256.lenField 1 h.parentHash + (h256.lenField 2 h.receiptHash +
    (h256.lenField 3 h.txRoot + (h256.lenField 4 h.stateRoot +
      (u256.lenField 5 h.mixNonce + (address.lenField 6 h.coinbase +
        (lenOptUint 7 h.difficulty.toNat + (lenOptUint 8 h.chainId.toNat +
          (lenOptUint 9 h.level.toNat + (lenOptUint 10 h.time.toNat +
            lenOptUint 11 h.nonce.toNat)))))))))
  mergeField tag w ctx h buf :=
    match tag with
    | 1 => do
      let (parentHash, buf) ← h256.merge w ctx h.parentHash buf
      .ok ({ h with parentHash }, buf)
    | 2 => do
      let (receiptHash, buf) ← h256.merge w ctx h.receiptHash buf
      .ok ({ h with receiptHash }, buf)
    | 3 => do
      let (txRoot, buf) ← h256.merge w ctx h.txRoot buf
      .ok ({ h with txRoot }, buf)
    | 4 => do
      let (stateRoot, buf) ← h256.merge w ctx h.stateRoot buf
      .ok ({ h with stateRoot }, buf)
    | 5 => do
      let (mixNonce, buf) ← u256.merge w ctx h.mixNonce buf
      .ok ({ h with mixNonce }, buf)
    | 6 => do
      let (coinbase, buf) ← address.merge w ctx h.coinbase buf
      .ok ({ h with coinbase }, buf)
    | 7 => do
      let (difficulty, buf) ← mergeVarint w buf
      .ok ({ h with difficulty := .ofNat difficulty }, buf)
    | 8 => do
      let (chainId, buf) ← mergeVarint w buf
      .ok ({ h with chainId := .ofNat chainId }, buf)
    | 9 => do
      let (level, buf) ← mergeVarint w buf
      .ok ({ h with level := .ofNat level }, buf)
    | 10 => do
      let (time, buf) ← mergeVarint w buf
      .ok ({ h with time := .ofNat time }, buf)
    | 11 => do
      let (nonce, buf) ← mergeVarint w buf
      .ok ({ h with nonce := .ofNat nonce }, buf)
    | _ => skipped w tag ctx h buf

def block : Message Block where
  default := ⟨blockHeader.default, []⟩
  encodeRaw b := blockHeader.encodeField 1 b.header ++
    encodeRepeated signedTransaction 2 b.transactions
  encodedLen b := blockHeader.lenField 1 b.header + lenRepeated signedTransaction 2 b.transactions
  mergeField tag w ctx b buf :=
    match tag with
    | 1 => do
      let (header, buf) ← blockHeader.merge w ctx b.header buf
      .ok ({ b with header }, buf)
    | 2 => do
      let (transactions, buf) ← mergeRepeated signedTransaction w ctx b.transactions buf
      .ok ({ b with transactions }, buf)
    | _ => skipped w tag ctx b buf

end Uchain.Wire
