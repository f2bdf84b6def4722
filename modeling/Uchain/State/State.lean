import Mathlib.Data.Prod.Lex
import Uchain.State.TreeDB
import Uchain.Types.Tx

/-!
# The account state

`state::State`: accounts in a versioned trie, and the data of applications. Two paths execute a list
of transactions: `applyTxs` on the staged version, and `applyTxsNoCommit` on a stored one. Both
collect the accounts that the transactions name, execute the transactions sender by sender
(`executeAll`), and write the accounts back.

The virtual machine is a parameter (`Vm`).
-/

namespace Uchain

open Lib

structure AppMetadata where
  binary : Bytes
  descriptor : Bytes
  deriving DecidableEq

structure State where
  trie : TreeDB
  appdata : BTreeMap (Address ×ₗ H256) SparseMerkleTree
  metadata : BTreeMap H256 AppMetadata
  readOnly : Bool

/-- What the execution of an application changes. -/
structure Changelist where
  accountChanges : BTreeMap Address AccountState
  storage : SparseMerkleTree

/-- The account states a block's transactions work on. -/
abbrev States := BTreeMap Address AccountState

/-- `WasmVMInstance`, and the call that `register_namespace` makes for a package name. -/
structure Vm where
  executeAppTx : State → Address → UInt64 → ApplicationCall → Except StateError Changelist
  executeAppCreate : State → Address → UInt64 → CreateApplication →
    Except StateError (Bytes × Changelist)
  registerCall : SignedTransaction → CreateApplication → Except StateError ApplicationCall
  registerAdmin : Address

namespace State

abbrev M (α : Type) := Exec StateError Query State α

def onTrie {α : Type} (x : TreeDB.M α) : M α :=
  Exec.zoom (fun s : State => s.trie) (fun t s => { s with trie := t }) x

def ofExcept {α : Type} : Except StateError α → M α
  | .ok a => return a
  | .error e => Exec.err e

/-- `State::new` on empty stores. -/
def new : State := ⟨.openDb ⟨.empty, false⟩, .empty, .empty, false⟩

def root (s : State) : H256 := s.trie.root

def putAppdata (key : Address × H256) (storage : SparseMerkleTree) : M Unit :=
  Exec.modify fun s => { s with appdata := s.appdata.insert (toLex key) storage }

def putMetadata (codeHash : H256) (m : AppMetadata) : M Unit :=
  Exec.modify fun s => { s with metadata := s.metadata.insert codeHash m }

def commit : M Unit := do
  let s ← Exec.get
  let _ ← onTrie (TreeDB.commit !s.readOnly)

def reset (root : H256) : M Unit := onTrie (TreeDB.reset root)

/-- `get_sate_at`: a read-only state at a stored root. -/
def getStateAt (s : State) (root : H256) : Except StateError State :=
  match TreeDB.openReadOnlyAtRoot s.trie.db root with
  | .error e => .error e
  | .ok trie => .ok { s with trie, readOnly := true }

/-! ## Transactions -/

def insertChanges (changes : BTreeMap Address AccountState) (states : States) : States :=
  changes.entries.foldl (fun states e => states.insert e.1 e.2) states

/-- Record the storage root of a call on the application's account. -/
def setAppRoot (app : Address) (rootHash : H256) (states : States) : Except StateError States :=
  match states.get? app with
  | some account => match account.appState with
    | some appState =>
      .ok (states.insert app { account with appState := some { appState with rootHash } })
    | none => .error (.message "app state not found")
  | none => .error (.message "app state not found")

section Crypto

variable [Crypto]

def executePaymentTx (tx : SignedTransaction) (states : States) : Except StateError States :=
  match states.get? tx.sender with
  | none => .error .accountNotFound
  | some fromAccountState =>
    let amount := tx.price + tx.fees
    if fromAccountState.freeBalance < amount then .error .insufficientFunds
    else
      let states := states.insert tx.sender (fromAccountState.debit amount)
      match states.get? tx.recipient with
      | none => .error .accountNotFound
      | some toAccountState => .ok (states.insert tx.recipient (toAccountState.credit tx.price))

/-- Update the nonce of a transaction's origin. -/
def updateNonce (tx : SignedTransaction) (states : States) : Except StateError States :=
  match states.get? tx.sender with
  | none => .error .accountNotFound
  | some fromAccountState => .ok (states.insert tx.sender (fromAccountState.bumpNonce tx.nonce))

def getAccountState [Codec AccountState] (address : Address) : M AccountState := do
  match ← Exec.attempt (onTrie (TreeDB.get address)) with
  | .ok (some accountState) => return accountState
  | _ => return .new

def getAccountStateAtRoot [Codec AccountState] (atRoot : H256) (address : Address) :
    M AccountState := do
  match ← Exec.attempt (onTrie (TreeDB.getAtRoot atRoot address)) with
  | .ok (some accountState) => return accountState
  | _ => return .new

/-- `register_namespace`. -/
def registerNamespace (vm : Vm) (tx : SignedTransaction) (arg : CreateApplication)
    (states : States) : M States := do
  let call ← ofExcept (vm.registerCall tx arg)
  let changelist ← ofExcept (vm.executeAppTx (← Exec.get) vm.registerAdmin 0 call)
  let states ← ofExcept
    (setAppRoot call.appId changelist.storage.root (insertChanges changelist.accountChanges states))
  putAppdata (call.appId, changelist.storage.root) changelist.storage
  return states

variable [Codec AccountState]

/-- The part of `apply_transaction` that depends on the kind of transaction. -/
def execute (vm : Vm) (states : States) (tx : SignedTransaction) : M States := do
  match tx.data? with
  | none => Exec.panic
  | some (.payment _) => ofExcept (executePaymentTx tx states)
  | some (.call arg) =>
    let changelist ← ofExcept (vm.executeAppTx (← Exec.get) tx.sender tx.price arg)
    let states ← ofExcept
      (setAppRoot tx.recipient changelist.storage.root (insertChanges changelist.accountChanges states))
    putAppdata (tx.recipient, changelist.storage.root) changelist.storage
    return states
  | some (.create arg) =>
    match ← Exec.attempt (onTrie (TreeDB.get (V := AccountState) tx.recipient)) with
    | .ok (some _) => Exec.err (.message "app address already exists")
    | _ =>
      let states ← registerNamespace vm tx arg states
      let codeHash ← keccak256 arg.binary
      let (descriptor, changelist) ←
        ofExcept (vm.executeAppCreate (← Exec.get) tx.sender tx.price arg)
      let states := insertChanges changelist.accountChanges states
      match states.get? tx.recipient with
      | none => Exec.err (.message "app state not found")
      | some account =>
        let appState := ⟨changelist.storage.root, codeHash, tx.sender, 1⟩
        putMetadata codeHash ⟨arg.binary, descriptor⟩
        putAppdata (tx.recipient, changelist.storage.root) changelist.storage
        return states.insert tx.recipient { account with appState := some appState }
  | some (.update _) => Exec.panic
  | some (.rawData _) => return states

def applyTransaction (vm : Vm) (states : States) (tx : SignedTransaction) : M States := do
  let states ← execute vm states tx
  ofExcept (updateNonce tx states)

/-- The transactions of each sender, in execution order. -/
abbrev Accounts := BTreeMap Address (List SignedTransaction)

/-- `accounts.entry(tx.from()).or_default().insert(NoncePricedTransaction(tx))`. -/
def addTx (accounts : Accounts) (tx : SignedTransaction) : Accounts :=
  accounts.insert tx.sender
    (insertBy NoncePricedTransaction.cmp tx ((accounts.get? tx.sender).getD []))

/-- Fill a vacant entry of `states` with the account that `read` finds. -/
def fillVacant (read : Address → M AccountState) (address : Address) (states : States) :
    M States :=
  match states.get? address with
  | some _ => return states
  | none => do return states.insert address (← read address)

/-- The first loop of both paths: the accounts that the transactions name. -/
def gatherStates (read : Address → M AccountState) : List SignedTransaction → States → M States
  | [], states => return states
  | tx :: txs, states => do
    let states ← fillVacant read tx.sender states
    let states ← fillVacant read tx.recipient states
    gatherStates read txs states

/-- The transactions of a list by sender, and for each sender by nonce and price. -/
def gatherTxs (txs : List SignedTransaction) : Accounts := txs.foldl addTx .empty

/-- The transactions that are executed, in order. -/
def executionOrder (txs : List SignedTransaction) : List SignedTransaction :=
  (gatherTxs txs).entries.flatMap fun e => e.2

/-- The second loop of both paths. -/
def executeAll (vm : Vm) : List SignedTransaction → States → M States
  | [], states => return states
  | tx :: txs, states => do
    let states ← applyTransaction vm states tx
    executeAll vm txs states

def putAll (states : List (Address × AccountState)) : M Unit :=
  Exec.forEach (fun e => onTrie (TreeDB.put e.1 e.2)) states

def applyTxs (vm : Vm) (txs : List SignedTransaction) : M Unit := do
  let states ← gatherStates getAccountState txs .empty
  let states ← executeAll vm (executionOrder txs) states
  putAll states.entries

def applyTxsNoCommit (order : HashOrder) (vm : Vm) (atRoot : H256) (reward : UInt64)
    (coinbase : Address) (txs : List SignedTransaction) : M H256 := do
  let states ← gatherStates (getAccountStateAtRoot atRoot) txs .empty
  let states ← executeAll vm (executionOrder txs) states
  let batch := states.entries.map fun e => Op.put e.1 e.2
  let found ← Exec.attempt (onTrie (TreeDB.getAtRoot atRoot coinbase))
  let coinbaseAccountState : AccountState :=
    match found with
    | .ok (some accountState) => accountState
    | _ => .default
  let batch := batch ++ [Op.put coinbase (coinbaseAccountState.credit reward)]
  onTrie (TreeDB.applyNonCommit order atRoot batch)

def creditBalance (address : Address) (amount : UInt64) : M H256 := do
  let accountState ← getAccountState address
  onTrie (TreeDB.put address (accountState.credit amount))
  return (← Exec.get).root

def debitBalance (address : Address) (amount : UInt64) : M H256 := do
  let accountState ← getAccountState address
  onTrie (TreeDB.put address (accountState.debit amount))
  return (← Exec.get).root

def setAccountState (address : Address) (accountState : AccountState) : M H256 := do
  onTrie (TreeDB.put address accountState)
  return (← Exec.get).root

end Crypto

end State

end Uchain
