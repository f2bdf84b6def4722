import Uchain.Blockchain.ChainState
import Uchain.P2p.Message
import Uchain.TxPool.Pool
import Uchain.Vm.Environment

/-!
# The node

`node::sync` and the event loop of `node::node`: a message of a peer goes to the transaction pool, to
the block storage or to the `SyncService`, which imports blocks and asks the peers for more.

The chain and the pool are the ones of their own modules. Here they are parts of one state, so that
`putChain` repacks the pool that the other messages fill. The log of a run has the messages that the
node sends.
-/

namespace Uchain

open Lib

inductive SyncMode where
  | forward
  | backward
  | normal
  deriving DecidableEq

structure SyncService where
  syncMode : SyncMode
  lastRequestIndex : UInt32
  finderMultiplier : UInt32
  networkTip : BlockHeader
  highestPeer : String
  tipBeforeSync : Option (String × BlockHeader)
  deriving DecidableEq

structure Node where
  chain : ChainState
  pool : TxPool
  sync : SyncService

inductive NodeError where
  | chainValidationFailed
  | chain (e : ChainError)
  | pool (e : TxPoolError)
  | message (text : String)
  deriving DecidableEq

structure NodeToPeerMessage where
  peerId : Option String
  message : Msg
  deriving DecidableEq

namespace Node

/-- What the handling of a message meets outside. -/
structure Env where
  setup : Setup
  order : Block → HashOrder
  now : BlockHeader → Int
  /-- Whether the channel of local events is open. -/
  send : BlockHeader → Bool
  pool : TxPool.Env
  /-- Whether the channel to the peers is open. -/
  peers : Bool

/-- What the chain meets; the pool is repacked by the node. -/
def Env.chain (env : Env) : Uchain.Env where
  order := env.order
  now := env.now
  send := env.send
  repack _ _ := .ok ()

abbrev M (α : Type) := Exec NodeError NodeToPeerMessage Node α

def unwrap {α : Type} (x : M α) : M α := do
  match ← Exec.attempt x with
  | .ok a => return a
  | .error _ => Exec.panic

def modifySync (f : SyncService → SyncService) : M Unit :=
  Exec.modify fun n => { n with sync := f n.sync }

/-- `send_peer_message`. -/
def sendPeerMessage (env : Env) (msg : Msg) : M Unit := do
  match (← Exec.get).sync.tipBeforeSync with
  | none => return ()
  | some tip => if env.peers then Exec.tell ⟨some tip.1, msg⟩ else Exec.panic

/-- Ask the peer of the sync for `limit` blocks from the last request index on. -/
def findBlocks (env : Env) (limit : UInt32) : M Unit := do
  sendPeerMessage env (.findBlocks ⟨(← Exec.get).sync.lastRequestIndex, limit⟩)

def saturatingSub (a b : UInt32) : UInt32 := if b ≤ a then a - b else 0

/-- A request index that goes down, to one at the lowest. -/
def lowered (index step : UInt32) : UInt32 :=
  if saturatingSub index step = 0 then 1 else saturatingSub index step

section Crypto

variable [Crypto] [Codec AccountState]

/-- The chain, as the pool reads it. -/
def poolEnv (env : Env) (c : ChainState) : TxPool.Env :=
  { env.pool with
    getBlock := fun hash level =>
      match (BlockStorage.getBlock hash level c.blockStorage).res with
      | .ok block => .ok block
      | .error _ => .error "failed to read block"
    getStateAt := fun root =>
      match c.state.getStateAt root with
      | .ok state => .ok state.accountState
      | .error _ => .error "version not found" }

/-- A method of the chain. A pool that was not reset yet reads the live state. -/
def onChain {α : Type} (env : Env) (x : ChainState.M α) : M α := fun n =>
  let r := x n.chain
  ⟨Exec.mapFail NodeError.chain r.res,
    { n with
      chain := r.state
      pool := (TxPool.exec (poolEnv env r.state) (.moved r.state.state.accountState) n.pool).state },
    []⟩

def onPool {α : Type} (env : Env) (x : TxPool.Env → TxPool.M α) : M α := fun n =>
  let r := x (poolEnv env n.chain) n.pool
  ⟨Exec.mapFail NodeError.pool r.res, { n with pool := r.state }, []⟩

/-! ## `put_chain`, with the pool -/

def putBlock (env : Env) (oldHead : IndexedBlockHeader) (block : Block) : M Unit := do
  onChain env (ChainState.processBlock env.setup env.chain block)
  let repack ← onChain env (ChainState.acceptBlock env.setup env.chain block)
  onChain env (ChainState.onStorage (BlockStorage.put block))
  if repack then
    onPool env fun poolEnv =>
      TxPool.repack poolEnv .empty (some ⟨some oldHead.raw, block.header⟩)

def putChain (env : Env) (blocks : List Block) : M Unit := do
  let head ← onChain env ChainState.loadHead
  match blocks with
  | [] => Exec.panic
  | first :: _ =>
    onChain env (ChainState.prepareChain head first)
    Exec.forEach (putBlock env head) blocks

/-! ## `SyncService` -/

omit [Codec AccountState] in
/-- The blocks by level and hash. -/
def blocksByLevel (blocks : List Block) : BTreeMap UInt32 (BTreeMap H256 Block) :=
  blocks.foldl (fun m b => m.insert b.level (((m.get? b.level).getD .empty).insert b.hash b)) .empty

/-- The loop of `validate_chain`: some block of a level has a parent at the level below. -/
def linked (byLevel : BTreeMap UInt32 (BTreeMap H256 Block)) : List UInt32 → Bool
  | [] => true
  | level :: levels =>
    match byLevel.get? level with
    | none => false
    | some blocks =>
      match byLevel.get? (level - 1) with
      | none => false
      | some prevBlocks =>
        if blocks.values.any fun b => prevBlocks.contains b.parentHash then linked byLevel levels
        -- `break`
        else true

omit [Codec AccountState] in
def validateChain (blocks : List Block) : Bool :=
  let byLevel := blocksByLevel blocks
  if byLevel.entries.length ≤ 1 then true
  else
    let highest := (byLevel.keys.getLast?).getD 0
    let lowest := (byLevel.keys.head?).getD 0
    -- `highest_block_level..lowest_block_level`
    linked byLevel
      ((List.range' highest.toNat (lowest.toNat - highest.toNat)).map UInt32.ofNat)

omit [Codec AccountState] in
/-- The `BTreeSet` of `OrderedBlock`s: by level, then by hash; the last one of equal blocks. -/
def orderedBlocks (blocks : List Block) : List Block :=
  (blocks.foldl (fun m b => m.insert (toLex (b.level, b.hash)) b)
    (BTreeMap.empty : BTreeMap BlockPrimaryKey Block)).values

/-- `chain.current_header().unwrap()`, and the level of the header that must be there. -/
def headLevel (env : Env) : M UInt32 := do
  let head ← unwrap (onChain env ChainState.currentHeader)
  return (← Exec.orPanic head).raw.level

/-- The parent of a block is stored with a state that opens, or the block is at level zero. -/
def hasCommonAncestor (env : Env) (start : Block) : M Bool := do
  let found ← Exec.attempt
    (onChain env (ChainState.onStorage (BlockStorage.getBlockByHash start.parentHash)))
  let s := (← Exec.get).chain.state
  let known := match found with
    | .ok (some block) => (s.getStateAt block.header.stateRoot).toOption.isSome
    | _ => false
  return known || start.level = 0

/-- A message without blocks: the peer has none. -/
def importNothing (env : Env) (nodeLevel : UInt32) : M Unit := do
  let sync := (← Exec.get).sync
  if nodeLevel ≥ sync.networkTip.level then
    modifySync fun sync => { sync with syncMode := .normal }
  else
    modifySync fun sync => { sync with tipBeforeSync := some (sync.highestPeer, sync.networkTip) }
    findBlocks env 24

/-- Ask for the blocks after the head. -/
def requestNext (env : Env) (nodeLevel : UInt32) : M Unit := do
  modifySync fun sync => { sync with lastRequestIndex := nodeLevel + 1 }
  findBlocks env 24

/-- After an import: ask for more blocks if the peer has more. -/
def goForward (env : Env) : M Unit := do
  modifySync fun sync => { sync with syncMode := .forward }
  let nodeLevel ← headLevel env
  let syncPoint ← Exec.orPanic (← Exec.get).sync.tipBeforeSync
  if syncPoint.2.level > nodeLevel then requestNext env nodeLevel
  else
    modifySync fun sync => { sync with tipBeforeSync := none }
    let sync := (← Exec.get).sync
    if nodeLevel < sync.networkTip.level then
      modifySync fun sync => { sync with tipBeforeSync := some (sync.highestPeer, sync.networkTip) }
      requestNext env nodeLevel

/-- The blocks start at a known block. -/
def importForward (env : Env) (blocks : List Block) : M Unit := do
  modifySync fun sync => { sync with finderMultiplier := 1 }
  putChain env blocks
  goForward env

omit [Crypto] [Codec AccountState] in
/-- The blocks start at an unknown block: look for one further down. -/
def searchBackward (env : Env) (nodeLevel : UInt32) : M Unit := do
  modifySync fun sync => { sync with
    syncMode := .backward
    lastRequestIndex :=
      if sync.lastRequestIndex > nodeLevel then nodeLevel else sync.lastRequestIndex }
  let sync := (← Exec.get).sync
  if sync.lastRequestIndex = 0 then return ()
  else
    modifySync fun sync => { sync with
      lastRequestIndex := lowered sync.lastRequestIndex (5 * sync.finderMultiplier) }
    findBlocks env 24

def handleImportBlocks (env : Env) (blocks : List Block) : M Unit := do
  let nodeLevel ← headLevel env
  if blocks.isEmpty then importNothing env nodeLevel
  else if !validateChain blocks then Exec.err .chainValidationFailed
  else
    match orderedBlocks blocks with
    | [] => Exec.err (.message "imported empty blocks")
    | start :: rest =>
      if ← hasCommonAncestor env start then importForward env (start :: rest)
      else searchBackward env nodeLevel

def handleRemoteMessage (env : Env) : Msg → M Unit
  | .blocks blocks => handleImportBlocks env blocks
  | _ => return ()

/-- `Handler<Msg>::handle`: after an error the search starts again further down. -/
def handle (env : Env) (msg : Msg) : M Unit := do
  match ← Exec.attempt (handleRemoteMessage env msg) with
  | .ok _ => return ()
  | .error _ =>
    modifySync fun sync => { sync with lastRequestIndex := lowered sync.lastRequestIndex 12 }
    findBlocks env 52

/-- The handling of a message of a peer. An error that is returned ends the loop. -/
def handlePeerMessage (env : Env) : Msg → M Unit
  | .broadcastTransaction txs => unwrap (onPool env fun poolEnv => TxPool.addTxs poolEnv txs false)
  | .broadcastBlock none => return ()
  | .broadcastBlock (some block) => onChain env (ChainState.onStorage (BlockStorage.put block))
  | msg => handle env msg

def run (env : Env) (msgs : List Msg) : M Unit := Exec.forEach (handlePeerMessage env) msgs

def start (setup : Setup) (conf : Option TxPoolConfig) (localAccounts : Option (List Address))
    (c : ChainState) : Node where
  chain := c
  pool := TxPool.new conf localAccounts c.state.accountState
  sync :=
    { syncMode := .normal
      lastRequestIndex := (c.header.map BlockHeader.level).getD 0
      finderMultiplier := 1
      networkTip := setup.consensus.getGenesisHeader
      highestPeer := ""
      tipBeforeSync := none }

end Crypto

end Node

end Uchain
