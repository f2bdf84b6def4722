import Uchain.Consensus.Barossa

/-!
# The chain state

`blockchain::chain_state`: the account state, the block storage and the current header, and how a
list of blocks changes them. `putChain` first goes back to the parent of the first block if that
block is on another branch and not above the head (`rollBack`), and then takes the blocks one by one:
`processBlock` executes a block on a read-only copy of its parent's state and compares the headers,
`acceptBlock` executes it on the head, or beside it.

What comes from outside the modelled crates is a parameter: the virtual machine and the built-in
applications (`Setup`), and for each call the clock, the event channel, the transaction pool and the
order of hash maps (`Env`).
-/

namespace Uchain

open Lib

/-- `account::ROOT`. -/
def rootAccount : Address := .ofNum 44 (ofBeBytes
  [111, 100, 97, 110, 120, 49, 107, 122, 50, 55, 109, 112, 106, 104, 50, 113, 110, 106, 54, 56,
    112, 115, 97, 110, 54, 51, 103, 109, 116, 119, 51, 113, 52, 54, 122, 104, 97, 50, 119, 102,
    117, 99, 100, 50])

structure ChainState where
  state : State
  blockStorage : BlockStorage
  /-- `ChainStateStorage`: the header under the key `"ch"`. -/
  header : Option BlockHeader

/-- What the start of a node uses. -/
structure Setup where
  consensus : BarossaProtocol
  vm : Vm
  builtIn : List (String × Bytes)
  /-- `get_address_from_package_name`. -/
  packageAddress : String → Network → Except StateError Address
  /-- `create_application` of the machine for an application, with the origin `ROOT`. -/
  createApplication : State → Address → Bytes → Except StateError (Bytes × Changelist)
  loadApplication : State → Address → Except StateError Unit
  /-- The order in which a `HashMap` of accounts is iterated. -/
  order : List (Address × AccountState) → List (Address × AccountState)
  perm : ∀ l, (order l).Perm l

/-- What a call of `put_chain` meets outside. -/
structure Env where
  order : Block → HashOrder
  /-- The time at which a header is verified. -/
  now : BlockHeader → Int
  /-- Whether the event channel is open. -/
  send : BlockHeader → Bool
  /-- `repack` of the transaction pool, after the head changed. -/
  repack : (oldHead newHead : BlockHeader) → Except ChainError Unit

namespace ChainState

/-- A method of the chain state. -/
abbrev M (α : Type) := Exec ChainError Query ChainState α

def empty : ChainState := ⟨.new, .new, none⟩

def onState {α : Type} (x : State.M α) : M α :=
  Exec.mapErr ChainError.state
    (Exec.zoom (fun c : ChainState => c.state) (fun s c => { c with state := s }) x)

def onStorage {α : Type} (x : BlockStorage.M α) : M α :=
  Exec.zoom (fun c : ChainState => c.blockStorage) (fun b c => { c with blockStorage := b }) x

def ofExcept {α : Type} : Except ChainError α → M α
  | .ok a => return a
  | .error e => Exec.err e

def ofState {α : Type} : Except StateError α → M α
  | .ok a => return a
  | .error e => Exec.err (.state e)

def setCurrentHeader (header : BlockHeader) : M Unit :=
  Exec.modify fun c => { c with header := some header }

variable [Crypto]

def currentHeader : M (Option IndexedBlockHeader) := do
  match (← Exec.get).header with
  | none => return none
  | some header => do return some (← IndexedBlockHeader.fromRaw header)

/-- The current header, which every call needs. -/
def loadHead : M IndexedBlockHeader := do
  Exec.ofOption (.message "failed to load current head, state invalid") (← currentHeader)

variable [Codec AccountState]

/-! ## Start -/

/-- Create the built-in applications; the result has the accounts that they change. -/
def createBuiltIn (setup : Setup) : List (String × Bytes) → States → M States
  | [], states => return states
  | (packageName, binary) :: builtIn, states => do
    let appAddress ← ofState (setup.packageAddress packageName setup.consensus.network)
    let (descriptor, changelist) ←
      ofState (setup.createApplication (← Exec.get).state appAddress binary)
    let codeHash ← keccak256 binary
    let states := State.insertChanges changelist.accountChanges states
    match states.get? appAddress with
    | none => Exec.err (.message "app state not found")
    | some account =>
      let root := changelist.storage.root
      let appState : AppState := ⟨root, codeHash, rootAccount, 1⟩
      onState (State.putAppdata (appAddress, root) changelist.storage)
      onState (State.putMetadata codeHash ⟨binary, descriptor⟩)
      createBuiltIn setup builtIn (states.insert appAddress { account with appState := some appState })

def loadBuiltIn (setup : Setup) : List (String × Bytes) → M Unit
  | [] => return ()
  | (packageName, _) :: builtIn => do
    let appAddress ← ofState (setup.packageAddress packageName setup.consensus.network)
    ofState (setup.loadApplication (← Exec.get).state appAddress)
    loadBuiltIn setup builtIn

/-- The first start: the genesis block. -/
def startGenesis (setup : Setup) : M Unit := do
  let _ ← onState (State.creditBalance .zero 1000000000000)
  let states ← createBuiltIn setup setup.builtIn .empty
  Exec.forEach (fun e => do let _ ← onState (State.setAccountState e.1 e.2))
    (setup.order states.entries)
  onState State.commit
  let genesis := { setup.consensus.getGenesisHeader with stateRoot := (← Exec.get).state.root }
  onStorage (BlockStorage.put ⟨genesis, []⟩)
  setCurrentHeader genesis

/-- `ChainState::new` on what is stored: the database is opened, without a head. -/
def new (setup : Setup) : M Unit := do
  Exec.modify fun c => { c with state := { c.state with trie := .openDb c.state.trie.db } }
  match ← currentHeader with
  | some head =>
    onState (State.reset head.raw.stateRoot)
    loadBuiltIn setup setup.builtIn
  | none => startGenesis setup

/-! ## Blocks -/

/-- Execute a block on a copy of its parent's state and compare the headers. -/
def processBlock (setup : Setup) (env : Env) (block : Block) : M Unit := do
  let header ← onStorage (setup.consensus.prepareHeader block.header)
  let parentHeader ← onStorage (BlockStorage.getHeaderByHash block.parentHash)
  let parentHeader ← Exec.ofOption (.message "error processing block parent block not found")
    parentHeader
  let parentState ← ofState ((← Exec.get).state.getStateAt parentHeader.raw.stateRoot)
  let (header, _) ← Exec.runOn parentState
    (setup.consensus.finalize setup.vm header block.transactions)
  Exec.mapErr (ChainError.failedToVerifyHeader header block.header)
    (onStorage (setup.consensus.verifyHeader (env.now header) header))
  let hash ← header.hashed
  let blockHash ← block.header.hashed
  if hash ≠ blockHash then Exec.err .invalidBlock

/-- Accept a block on the head. -/
def acceptOnHead (setup : Setup) (env : Env) (block : Block) : M Bool := do
  let header := block.header
  onState (State.applyTxs setup.vm block.transactions)
  let _ ← onState (State.creditBalance header.coinbase (setup.consensus.minerReward header.level))
  onState State.commit
  setCurrentHeader header
  if env.send header then return true
  else Exec.err .channelClosed

/-- Accept a block beside the head; it becomes the head if it is above it. -/
def acceptBeside (setup : Setup) (env : Env) (head : IndexedBlockHeader) (block : Block) :
    M Bool := do
  let header := block.header
  let parentHeader ← onStorage (BlockStorage.getHeaderByHash block.parentHash)
  let parentHeader ← Exec.ofOption (.message "error accepting block non commit") parentHeader
  let commitState ← onState (State.applyTxsNoCommit (env.order block) setup.vm
    parentHeader.raw.stateRoot (setup.consensus.minerReward block.level) header.coinbase
    block.transactions)
  if commitState ≠ header.stateRoot then Exec.err (.message "Invalid or Corrupt Block")
  else if block.level > head.raw.level then
    onState (State.reset header.stateRoot)
    setCurrentHeader header
    return true
  else return false

/-- Accept a processed block; whether the transaction pool has to be repacked. -/
def acceptBlock (setup : Setup) (env : Env) (block : Block) : M Bool := do
  let head ← loadHead
  if block.parentHash = head.hash then acceptOnHead setup env block
  else acceptBeside setup env head block

/-- The first block is on another branch and not above the head. -/
def rollsBack (head : IndexedBlockHeader) (first : Block) : Bool :=
  first.parentHash ≠ head.hash ∧ head.raw.level > first.level - 1

omit [Codec AccountState] in
/-- The loop that removes a stale branch from the index by level, with an allowance of rounds. Each
round looks up a stored header by its hash alone, so more rounds than headers mean that it never
ends. -/
def removeStale (parentHash : H256) : Nat → H256 → M Unit
  | 0, _ => Exec.fail .diverge
  | n + 1, head => do
    match ← onStorage (BlockStorage.getHeaderByHash head) with
    | none => return ()
    | some block =>
      onStorage (BlockStorage.delete head block.raw.level)
      let next := block.raw.parentHash
      if next ≠ parentHash then return ()
      else removeStale parentHash n next

/-- Go back to the parent of the first block. -/
def rollBack (head : IndexedBlockHeader) (first : Block) : M Unit := do
  let parentHeader ← onStorage (BlockStorage.getHeaderByHash first.parentHash)
  let parentHeader ← Exec.ofOption (.message "error accepting block non commit") parentHeader
  onState (State.reset parentHeader.raw.stateRoot)
  setCurrentHeader parentHeader.raw
  let stale ← head.raw.hashed
  removeStale parentHeader.hash
    ((← Exec.get).blockStorage.blockByHash.entries.length + 1) stale

def putBlock (setup : Setup) (env : Env) (oldHead : IndexedBlockHeader) (block : Block) :
    M Unit := do
  processBlock setup env block
  let repack ← acceptBlock setup env block
  onStorage (BlockStorage.put block)
  if repack then ofExcept (env.repack oldHead.raw block.header)

/-- What `put_chain` does before it takes the first block. -/
def prepareChain (head : IndexedBlockHeader) (first : Block) : M Unit :=
  if rollsBack head first then rollBack head first else return ()

def putChain (setup : Setup) (env : Env) (blocks : List Block) : M Unit := do
  let head ← loadHead
  match blocks with
  | [] => Exec.panic
  | first :: _ =>
    prepareChain head first
    Exec.forEach (putBlock setup env head) blocks

end ChainState

end Uchain
