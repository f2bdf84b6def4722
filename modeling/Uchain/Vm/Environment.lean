import Uchain.State.State
import Uchain.Types.Network

/-!
# The execution environment of applications

`runtime/vm`: an application runs against an `ExecutionEnvironment`, which holds the accounts it
touched, and reads all else through `StateDb`. The code of an application is a `Guest`: what it does
next may depend on what the host calls so far returned.

What the WebAssembly engine makes of a binary is a parameter (`Wasm`). Host calls that neither read
nor write accounts and storage (keys, signatures, hashes of blocks) are left out.
-/

namespace Uchain

open Lib

/-- The methods of `StateDB` that the virtual machine calls. -/
structure StateDb where
  accountState : Address → AccountState
  getAppData : Address → Except StateError SparseMerkleTree
  getAppSource : Address → Except StateError Bytes

structure ExecutionEnvironment where
  sender : Address
  appAddress : Address
  value : UInt64
  storage : SparseMerkleTree
  accounts : BTreeMap Address AccountState
  events : List (String × Bytes)

inductive HostCall where
  | transfer (recipient : Bytes) (amount : UInt64)
  | reserve (amount : UInt64)
  | unreserve (amount : UInt64)
  | getFreeBalance (address : Bytes)
  | getNonce (address : Bytes)
  | getReserveBalance (address : Bytes)
  | insert (key value : Bytes)
  | get (key : Bytes)
  | remove (key : Bytes)
  | emit (eventType : String) (eventData : Bytes)
  | value
  | sender

inductive HostResult where
  | unit
  | bool (b : Bool)
  | u64 (n : UInt64)
  | bytes (b : Bytes)
  | option (b : Option Bytes)

/-- The code of an application on one input: it returns, it traps, or it makes a host call. -/
inductive Guest where
  | done
  | trap
  | host (call : HostCall) (next : HostResult → Guest)

/-- The engine: the networks of addresses, and the behaviour of a binary on a call. -/
structure Wasm where
  network : Address → Option Network
  call : (binary : Bytes) → ApplicationCall → Guest

namespace ExecutionEnvironment

/-- A host call. -/
abbrev M (α : Type) := Exec StateError Query ExecutionEnvironment α

/-- `ExecutionEnvironment::new`: the application is credited with the value of the call. -/
def new (network : Address → Option Network) (origin appId : Address) (value : UInt64)
    (storage : SparseMerkleTree) (db : StateDb) : Except StateError ExecutionEnvironment :=
  match network appId with
  | none => .error (.message "network not found")
  | some _ => .ok
    { sender := origin, appAddress := appId, value, storage,
      accounts := BTreeMap.empty.insert appId ((db.accountState appId).credit value), events := [] }

def putAccount (address : Address) (account : AccountState) : M Unit :=
  Exec.modify fun env => { env with accounts := env.accounts.insert address account }

/-- `get_account_state`: an account is read from the state once. -/
def getAccountState (db : StateDb) (address : Address) : M AccountState := do
  match (← Exec.get).accounts.get? address with
  | some account => return account
  | none =>
    putAccount address (db.accountState address)
    return db.accountState address

/-- `ensure!((balance as i128 - amount as i128) > 0)`. -/
def ensurePositive (balance amount : UInt64) : M Unit :=
  if (balance.toNat : Int) - amount.toNat > 0 then return ()
  else Exec.err (.message "Condition failed")

/-- `Address::from_slice`. -/
def addressOf (b : Bytes) : M Address := Exec.orPanic (FixedBytes.fromSlice? 44 b)

def transfer (db : StateDb) (recipient : Bytes) (amount : UInt64) : M Bool := do
  let recipient ← addressOf recipient
  let app := (← Exec.get).appAddress
  let fromAcc ← getAccountState db app
  ensurePositive fromAcc.freeBalance amount
  putAccount app (fromAcc.debit amount)
  let toAcc ← getAccountState db recipient
  putAccount recipient (toAcc.credit amount)
  return true

def reserve (db : StateDb) (amount : UInt64) : M Bool := do
  let sender := (← Exec.get).sender
  let fromAcc ← getAccountState db sender
  ensurePositive fromAcc.freeBalance amount
  putAccount sender { fromAcc with
    freeBalance := fromAcc.freeBalance - amount, reserveBalance := fromAcc.reserveBalance + amount }
  return true

def unreserve (db : StateDb) (amount : UInt64) : M Bool := do
  let sender := (← Exec.get).sender
  let fromAcc ← getAccountState db sender
  ensurePositive fromAcc.reserveBalance amount
  putAccount sender { fromAcc with
    reserveBalance := fromAcc.reserveBalance - amount, freeBalance := fromAcc.freeBalance + amount }
  return true

/-- Read a field of an account. -/
def readAccount (db : StateDb) (field : AccountState → UInt64) (address : Bytes) : M UInt64 := do
  let address ← addressOf address
  return field (← getAccountState db address)

def getFreeBalance (db : StateDb) : Bytes → M UInt64 := readAccount db (·.freeBalance)

def getNonce (db : StateDb) : Bytes → M UInt64 := readAccount db (·.nonce)

def getReserveBalance (db : StateDb) : Bytes → M UInt64 := readAccount db (·.reserveBalance)

section Storage

variable [Crypto]

def onStorage {α : Type} (x : Smt α) : M α :=
  Exec.mapErr StateError.smt
    (Exec.zoom (fun env : ExecutionEnvironment => env.storage)
      (fun storage env => { env with storage }) x)

def insert (key value : Bytes) : M Unit := do
  let _ ← onStorage (SparseMerkleTree.update key value)

def get (key : Bytes) : M (Option Bytes) := do
  match ← Exec.attempt (onStorage (SparseMerkleTree.get key)) with
  | .ok data => return some data
  | .error _ => return none

def remove (key : Bytes) : M Bool := do
  match ← Exec.attempt (onStorage (SparseMerkleTree.update key [])) with
  | .ok _ => return true
  | .error _ => return false

def emit (eventType : String) (eventData : Bytes) : M Unit :=
  Exec.modify fun env => { env with events := env.events ++ [(eventType, eventData)] }

def hostCall (db : StateDb) : HostCall → M HostResult
  | .transfer recipient amount => do return .bool (← transfer db recipient amount)
  | .reserve amount => do return .bool (← reserve db amount)
  | .unreserve amount => do return .bool (← unreserve db amount)
  | .getFreeBalance address => do return .u64 (← getFreeBalance db address)
  | .getNonce address => do return .u64 (← getNonce db address)
  | .getReserveBalance address => do return .u64 (← getReserveBalance db address)
  | .insert key value => do
    insert key value
    return .unit
  | .get key => do return .option (← get key)
  | .remove key => do return .bool (← remove key)
  | .emit eventType eventData => do
    emit eventType eventData
    return .unit
  | .value => do return .u64 (← Exec.get).value
  | .sender => do return .bytes (← Exec.get).sender.bytes

/-- Run the code of an application. An error of a host call ends it. -/
def runGuest (db : StateDb) : Guest → M Unit
  | .done => return ()
  | .trap => Exec.err (.message "wasm trap")
  | .host call next => do
    let result ← hostCall db call
    runGuest db (next result)

end Storage

/-- `From<&ExecutionEnvironment> for Changelist`. -/
def changelist (env : ExecutionEnvironment) : Changelist := ⟨env.accounts, env.storage⟩

end ExecutionEnvironment

section Call

variable [Crypto]

/-- The environment in which the code of an application starts. Loaded code is kept by the virtual
machine; it never changes, so loading it each time makes no difference. -/
def Wasm.prepare (wasm : Wasm) (db : StateDb) (origin : Address) (call : ApplicationCall)
    (value : UInt64) : Except StateError (Guest × ExecutionEnvironment) := do
  let binary ← db.getAppSource call.appId
  let storage ← db.getAppData call.appId
  let env ← ExecutionEnvironment.new wasm.network origin call.appId value storage db
  return (wasm.call binary call, env)

/-- What a run leaves. A panic of a host call has no change list either. -/
def ExecutionEnvironment.finish (run : Run StateError Query ExecutionEnvironment Unit) :
    Except StateError ExecutionEnvironment :=
  match run.res with
  | .ok _ => .ok run.state
  | .error (.err e) => .error e
  | .error _ => .error (.message "panic")

/-- The environment at the end of `execute_call`. -/
def Wasm.callEnvironment (wasm : Wasm) (db : StateDb) (origin : Address) (call : ApplicationCall)
    (value : UInt64) : Except StateError ExecutionEnvironment := do
  let (guest, env) ← wasm.prepare db origin call value
  ExecutionEnvironment.finish (ExecutionEnvironment.runGuest db guest env)

def Wasm.executeCall (wasm : Wasm) (db : StateDb) (origin : Address) (call : ApplicationCall)
    (value : UInt64) : Except StateError Changelist := do
  let env ← wasm.callEnvironment db origin call value
  return env.changelist

end Call

section State

variable [Crypto] [Codec AccountState]

namespace State

/-- `account_state`. -/
def accountState (s : State) (address : Address) : AccountState :=
  match (getAccountState address s).res with
  | .ok account => account
  | .error _ => .new

/-- `self.trie.get(address)`, when it returns. -/
def trieGet (s : State) (address : Address) : Except StateError (Option AccountState) :=
  match (onTrie (TreeDB.get (V := AccountState) address) s).res with
  | .ok account => .ok account
  | .error (.err e) => .error e
  | .error _ => .error (.message "panic")

def getAppData (s : State) (appId : Address) : Except StateError SparseMerkleTree :=
  match s.trieGet appId with
  | .ok (some account) => match account.appState with
    | some app => .ok ((s.appdata.get? (toLex (appId, app.rootHash))).getD .new)
    | none => .error (.message "app not initialized")
  | _ => .error (.message "app not found")

def getAppSource (s : State) (appId : Address) : Except StateError Bytes := do
  match ← s.trieGet appId with
  | none => .error (.message "app not found")
  | some account => match account.appState with
    | none => .error (.message "address is not an application address")
    | some app => match s.metadata.get? app.codeHash with
      | some metadata => .ok metadata.binary
      | none => .error (.message "value not found")

/-- The state as the virtual machine sees it. -/
def stateDb (s : State) : StateDb where
  accountState := s.accountState
  getAppData := s.getAppData
  getAppSource := s.getAppSource

end State

/-- `WasmVM`, with the behaviour of `vm` for everything but calls. -/
def Wasm.vm (wasm : Wasm) (vm : Vm) : Vm :=
  { vm with executeAppTx := fun s sender value call => wasm.executeCall s.stateDb sender call value }

end State

end Uchain
