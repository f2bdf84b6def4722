import Mathlib.Data.List.Sort
import Uchain.TxPool.TxList

/-!
# The transaction pool

`txpool::TxPool`: transactions come in through `addTxs`, wait in the `queue` of their sender, move
to `pending` in `promoteExecutable`, and leave when they are replaced, out of date, not payable, or
when the pool is over one of its limits. `repack` runs promotion, demotion and truncation;
with a `ResetRequest` it first moves the pool to a new head.

A call works on the whole pool and may fail in the middle, with what it did so far kept. What the
pool reads from outside (the chain, the clock, the order of a hash map, the event channel) is in
`Env`. The log of a call has its actions, each with the pool it was done in: they let a theorem say
which action of a run does what.
-/

namespace Uchain

open Lib

inductive TxPoolError where
  | compositeErrors (errors : List String)
  | transactionAlreadyKnown
  | nonceTooLow
  | insufficientFunds (fee amount : UInt64)
  | underpriced
  | txPoolOverflow
  | replaceUnderpriced
  | missingBlock
  /-- An error of the chain or of the event channel. -/
  | other (text : String)
  deriving DecidableEq

/-- The `Display` of an error. -/
def TxPoolError.display : TxPoolError → String
  | .compositeErrors errors =>
    "MutexGuard error [" ++ String.join (errors.map fun e => "\n    \"" ++ e ++ "\",") ++ "\n]"
  | .transactionAlreadyKnown => "`Transaction is already known`"
  | .nonceTooLow => "`Transaction nonce too low`"
  | .insufficientFunds fee amount =>
    s!"`insufficient funds for fee: {fee} + amount: {amount}`"
  | .underpriced => "`transaction is underpriced`"
  | .txPoolOverflow => "`transaction pool overflow`"
  | .replaceUnderpriced => "`replacement transaction underpriced`"
  | .missingBlock => "`missing block`"
  | .other text => text

structure TxPool where
  config : TxPoolConfig
  locals : AccountSet
  currentState : Address → AccountState
  /-- `currentState` is still the one of `TxPool::new`, which moves with the chain. -/
  live : Bool
  pendingNonce : TxNoncer
  queuedEvents : BTreeMap Address TxSortedList
  pending : BTreeMap Address TxList
  queue : BTreeMap Address TxList
  /-- The heartbeats of accounts, by the clock. -/
  beats : BTreeMap Address Nat
  all : TxLookup
  priced : TxPricedList
  changesSinceRepack : Int32

/-- Where a transaction is. -/
inductive TransactionStatus where
  | confirmed
  | pending
  | queued
  | notFound
  deriving DecidableEq

/-- Why a transaction leaves the lookup. -/
inductive Cause where
  /-- Replaced by another one with its nonce. -/
  | replaced
  /-- Not promoted, since the pending one with its nonce is better. -/
  | outbid
  /-- The nonce of the account passed it. -/
  | stale
  | unpayable
  /-- Evicted for a new transaction (`priced.discard`). -/
  | discarded
  /-- `truncate_queue`. -/
  | truncated
  /-- Over `account_queue`. -/
  | capped
  /-- `truncate_pending`. -/
  | fairness
  deriving DecidableEq

inductive Action where
  /-- A new transaction enters the lookup. -/
  | enter (tx : SignedTransaction) (isLocal : Bool)
  /-- A call of `add` ends with success. -/
  | accept (tx : SignedTransaction) (asLocal : Bool)
  | drop (cause : Cause) (tx : SignedTransaction)
  | promote (address : Address) (tx : SignedTransaction)
  /-- The pending list of an account is about to lose its first transaction. -/
  | cap (address : Address)
  /-- The transactions that `reset` submits again. -/
  | reinject (txs : List SignedTransaction)
  /-- A `TxPoolPack` event. -/
  | send (txs : List SignedTransaction)
  /-- The chain moves while the pool still reads its live state. -/
  | moved (accounts : Address → AccountState)

/-- The order in which a hash map lists its keys. -/
structure KeyOrder where
  order : List Address → List Address
  perm : ∀ l, (order l).Perm l

/-- The order of the keys themselves. -/
def KeyOrder.sorted : KeyOrder := ⟨id, List.Perm.refl⟩

structure ResetRequest where
  oldHead : Option BlockHeader
  newHead : BlockHeader

namespace TxPool

/-- What a call reads from outside. -/
structure Env where
  /-- The iteration order of `pending`, `queue` and `queuedEvents`, which may change at any time. -/
  keyOrder : TxPool → KeyOrder
  now : TxPool → Nat
  /-- The error of a send on the event channel, if it is closed. -/
  channel : Option String
  getBlock : H256 → UInt32 → Except String (Option Block)
  getStateAt : H256 → Except String (Address → AccountState)
  /-- A bound on the rounds of the loops that walk the chain. -/
  fuel : Nat

/-- A method of the pool. -/
abbrev M (α : Type) := Exec TxPoolError (Action × TxPool) TxPool α

def new (conf : Option TxPoolConfig) (localAccounts : Option (List Address))
    (currentState : Address → AccountState) : TxPool where
  config := (conf.map TxPoolConfig.sanitize).getD TxPoolConfig.default
  locals := (localAccounts.map AccountSet.ofList).getD .empty
  currentState
  live := true
  pendingNonce := .new currentState
  queuedEvents := .empty
  pending := .empty
  queue := .empty
  beats := .empty
  all := .new
  priced := .new
  changesSinceRepack := 0

/-- Record an action. -/
def note (a : Action) : M Unit := fun p => ⟨.ok (), p, [(a, p)]⟩

/-- `anyhow::ensure!`. -/
def ensure (c : Prop) [Decidable c] (e : TxPoolError) : M Unit := if c then pure () else Exec.err e

theorem ensure_run {c : Prop} [Decidable c] {p : TxPool} (e : TxPoolError) (h : c) :
    ensure c e p = ⟨.ok (), p, []⟩ := congrFun (if_pos h) p

theorem ensure_error {c : Prop} [Decidable c] {p : TxPool} (e : TxPoolError) (h : ¬ c) :
    ensure c e p = ⟨.error (.err e), p, []⟩ := congrFun (if_neg h) p

theorem ensure_eq_ok {c : Prop} [Decidable c] {e : TxPoolError} {u : Unit} {p p' : TxPool}
    {l : List (Action × TxPool)} (h : ensure c e p = ⟨.ok u, p', l⟩) : c ∧ p' = p := by
  unfold ensure at h
  split at h
  · cases h
    exact ⟨‹c›, rfl⟩
  · cases h

/-- The entries of a hash map, in its order. -/
def Env.iter {α : Type} (env : Env) (p : TxPool) (m : BTreeMap Address α) : List (Address × α) :=
  ((env.keyOrder p).order m.keys).filterMap fun a => (m.get? a).map (a, ·)

/-! ## The state, one field at a time -/

def setPending (a : Address) (list : TxList) : M Unit :=
  Exec.modify fun p => { p with pending := p.pending.insert a list }

def setQueue (a : Address) (list : TxList) : M Unit :=
  Exec.modify fun p => { p with queue := p.queue.insert a list }

/-- `self.priced.remove(tx)`. -/
def unprice (tx : SignedTransaction) : M Unit :=
  Exec.modify fun p => { p with priced := p.priced.remove tx }

def forget (cause : Cause) (hash : H256) (tx : SignedTransaction) : M Unit := do
  note (.drop cause tx)
  Exec.modify fun p => { p with all := p.all.remove hash }

def lowerNonce (a : Address) (nonce : UInt64) : M Unit :=
  Exec.modify fun p => { p with pendingNonce := p.pendingNonce.setIfLower a nonce }

variable [Crypto]

def queueEvent (tx : SignedTransaction) : M Unit :=
  Exec.modify fun p => { p with
    queuedEvents := p.queuedEvents.insert tx.sender
      (((p.queuedEvents.get? tx.sender).getD .empty).put tx) }

/-- A new transaction enters the lookup and the priced list. -/
def register (tx : SignedTransaction) (isLocal : Bool) : M Unit := do
  note (.enter tx isLocal)
  Exec.modify fun p => { p with all := p.all.add tx isLocal, priced := p.priced.put tx isLocal }

/-- A transaction that was replaced leaves the lookup and the priced list. -/
def unregister (cause : Cause) (tx : SignedTransaction) : M Unit := do
  forget cause tx.hash tx
  unprice tx

/-- The transaction that was replaced, if there is one. -/
def unregisterOld : Option SignedTransaction → M Unit
  | some old => unregister .replaced old
  | none => pure ()

/-! ## Adding and removing one transaction -/

def validateTx (tx : SignedTransaction) : M Unit := do
  let p ← Exec.get
  ensure (¬ (p.currentState tx.sender).nonce > tx.nonce) .nonceTooLow
  ensure (¬ (p.currentState tx.sender).freeBalance < tx.fees + tx.price)
    (.insufficientFunds tx.fees tx.price)

def enqueueTx (env : Env) (tx : SignedTransaction) (isLocal addAll : Bool) : M Bool := do
  let p ← Exec.get
  let added ← Exec.orPanic
    (((p.queue.get? tx.sender).getD (TxList.new false)).add tx p.config.priceBump)
  ensure (added.inserted = true) .replaceUnderpriced
  setQueue tx.sender added.list
  unregisterOld added.old
  if addAll then register tx isLocal
  Exec.modify fun p => { p with
    beats := if p.beats.contains tx.sender then p.beats else p.beats.insert tx.sender (env.now p) }
  return added.old.isSome

/-- The end of `remove_tx`: a transaction that is not pending. -/
def removeFuture (tx : SignedTransaction) : M Unit := do
  match (← Exec.get).queue.get? tx.sender with
  | none => pure ()
  | some future =>
    setQueue tx.sender (future.remove tx).list
    if (future.remove tx).removed then
      Exec.modify fun p =>
        if p.pending.entries.isEmpty then { p with queue := p.queue.erase tx.sender } else p

/-- The rest of `remove_tx`, once the transaction left the lookup. -/
def removeListed (env : Env) (tx : SignedTransaction) : M Unit := do
  match (← Exec.get).pending.get? tx.sender with
  | none => removeFuture tx
  | some list =>
    setPending tx.sender (list.remove tx).list
    if (list.remove tx).removed then
      if (list.remove tx).list.isEmpty then
        Exec.modify fun p => { p with pending := p.pending.erase tx.sender }
      Exec.forEach (fun t => do let _ ← enqueueTx env t false false) (list.remove tx).invalids
      lowerNonce tx.sender tx.nonce
    else removeFuture tx

def removeTx (env : Env) (hash : H256) (outofbound : Bool) : M Unit := do
  match (← Exec.get).all.get hash with
  | none => pure ()
  | some tx =>
    forget (if outofbound then .truncated else .discarded) hash tx
    if outofbound then unprice tx
    removeListed env tx

/-- `add`, where a pool over its limit evicts the cheapest remote transactions. -/
def makeRoom (env : Env) (tx : SignedTransaction) (isLocal : Bool) : M Unit := do
  let p ← Exec.get
  let limit := p.config.globalSlots + p.config.globalQueue
  if p.all.slots + numSlots tx > limit then
    ensure (¬ (!isLocal && p.priced.underpriced tx) = true) .underpriced
    ensure (p.changesSinceRepack < (p.config.globalSlots / 4).toUInt32.toInt32) .txPoolOverflow
    let discarded := p.priced.discard (p.all.slots - limit + numSlots tx)
    Exec.modify fun p => { p with
      priced := discarded.2, changesSinceRepack := .ofNat discarded.1.length }
    Exec.forEach (fun t => removeTx env t.hash false) discarded.1

/-- `add`, where a pending transaction has the nonce. -/
def replacePending (tx : SignedTransaction) (isLocal asLocal : Bool) (list : TxList) : M Bool := do
  let added ← Exec.orPanic (list.add tx (← Exec.get).config.priceBump)
  ensure (added.inserted = true) .replaceUnderpriced
  setPending tx.sender added.list
  unregisterOld added.old
  register tx isLocal
  queueEvent tx
  note (.accept tx asLocal)
  return added.old.isSome

/-- `add`, where a transaction of a new local account makes all of them local. -/
def localize (a : Address) : M Unit := do
  Exec.modify fun p => { p with locals := p.locals.add a }
  let p ← Exec.get
  Exec.modify fun p => { p with all := (p.all.remoteToLocals p.locals).2 }
  Exec.forEach unprice (p.all.remoteToLocals p.locals).1

/-- `add`, where no pending transaction has the nonce. -/
def addFuture (env : Env) (tx : SignedTransaction) (isLocal asLocal : Bool) : M Bool := do
  let replaced ← enqueueTx env tx isLocal true
  if asLocal && !(← Exec.get).locals.contains tx.sender then localize tx.sender
  note (.accept tx asLocal)
  return replaced

def add (env : Env) (tx : SignedTransaction) (asLocal : Bool) : M Bool := do
  let p ← Exec.get
  ensure (¬ p.all.contains tx.hash = true) .transactionAlreadyKnown
  let isLocal := asLocal || p.locals.contains tx.sender
  validateTx tx
  makeRoom env tx isLocal
  match (← Exec.get).pending.get? tx.sender with
  | none => addFuture env tx isLocal asLocal
  | some list =>
    if list.overlaps tx then replacePending tx isLocal asLocal list
    else addFuture env tx isLocal asLocal

/-- `add`, once there is room. -/
def place (env : Env) (tx : SignedTransaction) (isLocal asLocal : Bool) : M Bool := do
  match (← Exec.get).pending.get? tx.sender with
  | none => addFuture env tx isLocal asLocal
  | some list =>
    if list.overlaps tx then replacePending tx isLocal asLocal list
    else addFuture env tx isLocal asLocal

theorem add_eq (env : Env) (tx : SignedTransaction) (asLocal : Bool) : add env tx asLocal = (do
    let p ← Exec.get
    ensure (¬ p.all.contains tx.hash = true) .transactionAlreadyKnown
    validateTx tx
    makeRoom env tx (asLocal || p.locals.contains tx.sender)
    place env tx (asLocal || p.locals.contains tx.sender) asLocal) := rfl

/-! ## Promotion and demotion -/

def promoteTx (env : Env) (a : Address) (tx : SignedTransaction) : M Bool := do
  let p ← Exec.get
  let added ← Exec.orPanic
    (((p.pending.get? a).getD (TxList.new true)).add tx p.config.priceBump)
  note (.promote a tx)
  setPending a added.list
  if added.inserted then
    unregisterOld added.old
    Exec.modify fun p => { p with
      pendingNonce := p.pendingNonce.set a (tx.nonce + 1), beats := p.beats.insert a (env.now p) }
    return true
  else
    unregister .outbid tx
    return false

/-- The transactions of an account that can be executed now; those that were promoted. -/
def promoteAll (env : Env) (a : Address) : List SignedTransaction → M (List SignedTransaction)
  | [] => pure []
  | tx :: readies => do
    let promoted ← promoteTx env a tx
    let rest ← promoteAll env a readies
    return if promoted then tx :: rest else rest

/-- The first loop of `promote_executable`, for one account. -/
def promoteAccount (env : Env) (a : Address) : M (List SignedTransaction) := do
  let p ← Exec.get
  match p.queue.get? a with
  | none => return []
  | some list =>
    let forwarded := list.forward (p.currentState a).nonce
    setQueue a forwarded.2
    Exec.forEach (fun tx => forget .stale tx.hash tx) forwarded.1
    let filtered := (forwarded.2.filter (p.currentState a).freeBalance).getD ⟨[], [], forwarded.2⟩
    setQueue a filtered.list
    Exec.forEach (fun tx => forget .unpayable tx.hash tx) filtered.drops
    let readied := filtered.list.ready (p.pendingNonce.get a).1
    Exec.modify fun p => { p with pendingNonce := (p.pendingNonce.get a).2 }
    setQueue a readied.2
    promoteAll env a readied.1

def promoteAccounts (env : Env) : List Address → M (List SignedTransaction)
  | [] => pure []
  | a :: accounts => do
    let promoted ← promoteAccount env a
    let rest ← promoteAccounts env accounts
    return promoted ++ rest

/-- The second loop of `promote_executable`, for one account. -/
def capAccount (a : Address) : M Unit := do
  let p ← Exec.get
  match p.queue.get? a with
  | none => pure ()
  | some list =>
    let capped := if p.locals.contains a then ([], list) else list.cap p.config.accountQueue.toNat
    setQueue a capped.2
    Exec.forEach (fun tx => forget .capped tx.hash tx) capped.1
    if capped.2.isEmpty then
      Exec.modify fun p => { p with queue := p.queue.erase a, beats := p.beats.erase a }

def promoteExecutable (env : Env) (accounts : List Address) : M (List SignedTransaction) := do
  let promoted ← promoteAccounts env accounts
  Exec.forEach capAccount accounts
  return promoted

/-- The first loop of `demote_unexecutable`, for one account; what goes back to the queue. -/
def demoteAccount (a : Address) (list : TxList) : M (List SignedTransaction) := do
  let account := (← Exec.get).currentState a
  let forwarded := list.forward account.nonce
  setPending a forwarded.2
  Exec.forEach (fun tx => forget .stale tx.hash tx) forwarded.1
  let filtered := (forwarded.2.filter account.freeBalance).getD ⟨[], [], forwarded.2⟩
  setPending a filtered.list
  Exec.forEach (fun tx => forget .unpayable tx.hash tx) filtered.drops
  if !filtered.list.isEmpty && (filtered.list.txs.get? account.nonce).isNone then
    setPending a (filtered.list.cap 0).2
    return filtered.invalids ++ (filtered.list.cap 0).1
  else return filtered.invalids

def demoteAccounts : List (Address × TxList) → M (List SignedTransaction)
  | [] => pure []
  | e :: entries => do
    let demoted ← demoteAccount e.1 e.2
    let rest ← demoteAccounts entries
    return demoted ++ rest

def demoteUnexecutable (env : Env) : M Unit := do
  let p ← Exec.get
  let enqueue ← demoteAccounts (env.iter p p.pending)
  Exec.forEach (fun tx => do let _ ← enqueueTx env tx false false) enqueue
  Exec.modify fun p => { p with pending := p.pending.filter fun _ list => !list.isEmpty }

/-! ## Truncation -/

/-- The length of the pending list of an account. -/
def pendingLen (p : TxPool) (a : Address) : Nat := ((p.pending.get? a).map TxList.len).getD 0

/-- The first pending transaction of an account leaves. -/
def capFirst (a : Address) (list : TxList) : M Unit := do
  note (.cap a)
  setPending a (list.cap (list.len - 1)).2
  Exec.forEach (fun tx => do
    unregister .fairness tx
    lowerNonce a tx.nonce) (list.cap (list.len - 1)).1

/-- Each offender loses a transaction; no value where the source returns. -/
def capEach : List Address → UInt64 → M (Option UInt64)
  | [], pending => return some pending
  | a :: offenders, pending => do
    match (← Exec.get).pending.get? a with
    | none => return none
    | some list =>
      capFirst a list
      capEach offenders (pending - 1)

/-- The inner loop: until the last but one offender has as few as the last one. -/
def equalize (offenders : List Address) (threshold : Nat) :
    (fuel : Nat) → UInt64 → M (Option UInt64)
  | 0, _ => Exec.fail .diverge
  | fuel + 1, pending => do
    let p ← Exec.get
    if pending > p.config.globalSlots ∧
        ((offenders[offenders.length - 2]?).map p.pendingLen).getD 0 > threshold then
      match ← capEach offenders pending with
      | none => return none
      | some pending => equalize offenders threshold fuel pending
    else return some pending

/-- The loop over the accounts with the most pending transactions. -/
def penalize : (spammers offenders : List Address) → UInt64 → M (Option (List Address × UInt64))
  | [], offenders, pending => return some (offenders, pending)
  | offender :: spammers, offenders, pending => do
    let p ← Exec.get
    if pending > p.config.globalSlots then
      if offenders.isEmpty then penalize spammers [offender] pending
      else
        let all := offenders ++ [offender]
        match ← equalize all (p.pendingLen offender)
            (((all[all.length - 2]?).map p.pendingLen).getD 0 + 1) pending with
        | none => return none
        | some pending => penalize spammers all pending
    else return some (offenders, pending)

/-- A round of the last loop, which skips an account without a list. -/
def capPresent : List Address → UInt64 → M UInt64
  | [], pending => return pending
  | a :: offenders, pending => do
    match (← Exec.get).pending.get? a with
    | none => capPresent offenders pending
    | some list =>
      capFirst a list
      capPresent offenders (pending - 1)

/-- The last loop: until the last offender has `account_slots`. -/
def reduce (offenders : List Address) : (fuel : Nat) → UInt64 → M Unit
  | 0, _ => Exec.fail .diverge
  | fuel + 1, pending => do
    let p ← Exec.get
    if pending > p.config.globalSlots ∧
        .ofNat (((offenders.getLast?).map p.pendingLen).getD 0) > p.config.accountSlots then do
      reduce offenders fuel (← capPresent offenders pending)

/-- The accounts over `account_slots`, those with the most transactions first. -/
def spammers (env : Env) (p : TxPool) : List Address :=
  (((env.iter p p.pending).filter fun e =>
    !p.locals.contains e.1 && decide (UInt64.ofNat e.2.len > p.config.accountSlots)).map
      Prod.fst).insertionSort fun a b => p.pendingLen b ≤ p.pendingLen a

def truncatePending (env : Env) : M Unit := do
  let p ← Exec.get
  let pending : UInt64 := .ofNat (p.pending.values.map TxList.len).sum
  if pending > p.config.globalSlots then
    match ← penalize (spammers env p) [] pending with
    | none => pure ()
    | some r =>
      let p ← Exec.get
      if r.2 > p.config.globalSlots ∧ r.1.isEmpty = false then
        reduce r.1 (((r.1.getLast?).map p.pendingLen).getD 0 + 1) r.2

/-- `AddressByHeartbeat::cmp`. -/
def cmpHeartbeat (a b : Address × Nat) : Ordering := compare a.2 b.2

/-- The remote accounts by heartbeat, with a panic for one that has none. -/
def byHeartbeat (p : TxPool) : List Address → List (Address × Nat) → M (List (Address × Nat))
  | [], addresses => return addresses
  | a :: rest, addresses => do
    if p.locals.contains a then byHeartbeat p rest addresses
    else do
      let beat ← Exec.orPanic (p.beats.get? a)
      byHeartbeat p rest (insertBy cmpHeartbeat (a, beat) addresses)

/-- `while i >= 0 && drop > 0`, with `k = i + 1`. -/
def dropFrom (env : Env) (txs : List SignedTransaction) : (k : Nat) → UInt64 → M UInt64
  | 0, drop => return drop
  | k + 1, drop => do
    if drop > 0 then
      removeTx env (← Exec.orPanic txs[k]?).hash true
      dropFrom env txs k (drop - 1)
    else return drop

/-- The loop of `truncate_queue`; the accounts stand in the order in which they are taken. -/
def dropQueues (env : Env) : List (Address × Nat) → UInt64 → M Unit
  | [], _ => pure ()
  | e :: addresses, drop => do
    if drop > 0 then
      match (← Exec.get).queue.get? e.1 with
      | none => pure ()
      | some list =>
        if .ofNat list.len ≤ drop then
          Exec.forEach (fun tx => removeTx env tx.hash true) list.flatten
          dropQueues env addresses (drop - .ofNat list.len)
        else
          -- the source starts at `txs[txs.len()]`
          dropQueues env addresses (← dropFrom env list.flatten (list.flatten.length + 1) drop)

def truncateQueue (env : Env) : M Unit := do
  let p ← Exec.get
  -- `fold(0, |_acc, (_, list)| list.len())`: the length of the last list
  let queued : UInt64 := .ofNat (((env.iter p p.queue).getLast?.map fun e => e.2.len).getD 0)
  if queued > p.config.globalQueue then
    let addresses ← byHeartbeat p ((env.iter p p.queue).map Prod.fst) []
    dropQueues env addresses.reverse (queued - p.config.globalQueue)

/-! ## Adding a batch -/

/-- `add_txs_locked`: the senders to promote and the errors, inserted at the index of their
transaction. -/
def addTxsLocked (env : Env) (asLocal : Bool) :
    List SignedTransaction → (i : Nat) → AccountSet → List String → M (AccountSet × List String)
  | [], _, dirty, errors => return (dirty, errors)
  | tx :: txs, i, dirty, errors => do
    match ← Exec.attempt (add env tx asLocal) with
    | .ok replaced =>
      addTxsLocked env asLocal txs (i + 1) (if replaced then dirty else dirty.add tx.sender) errors
    | .error e =>
      if i ≤ errors.length then
        addTxsLocked env asLocal txs (i + 1) dirty (errors.insertIdx i e.display)
      else Exec.panic

/-! ## Moving to a new head -/

def getBlock (env : Env) (hash : H256) (level : UInt32) : M (Option Block) :=
  match env.getBlock hash level with
  | .ok block => pure block
  | .error e => Exec.err (.other e)

/-- `extend`: the transactions of a block join a set ordered by nonce. -/
def collect (set : List SignedTransaction) (b : Block) : List SignedTransaction :=
  b.transactions.foldl (fun set tx => insertBy NonceTransaction.cmp tx set) set

/-- `while rem.level() > add.level()`; no value where the source returns from `reset`. -/
def lowerRem (env : Env) (add : Block) :
    (fuel : Nat) → (rem : Block) → (discarded : List SignedTransaction) →
      M (Option (Block × List SignedTransaction))
  | 0, _, _ => Exec.fail .diverge
  | fuel + 1, rem, discarded => do
    if rem.level > add.level then
      match ← getBlock env rem.parentHash (rem.level - 1) with
      | none => return none
      | some block => lowerRem env add fuel block (collect discarded rem)
    else return some (rem, discarded)

/-- `while rem.hash() != add.hash()`. -/
def meet (env : Env) : (fuel : Nat) → (rem add : Block) →
    (discarded included : List SignedTransaction) →
      M (Option (List SignedTransaction × List SignedTransaction))
  | 0, _, _, _, _ => Exec.fail .diverge
  | fuel + 1, rem, add, discarded, included => do
    if rem.hash ≠ add.hash then
      match ← getBlock env rem.parentHash (rem.level - 1) with
      | none => return none
      | some block =>
        match ← getBlock env add.parentHash (add.level - 1) with
        | none => return none
        | some block' =>
          meet env fuel block block' (collect discarded rem) (collect included add)
    else return some (discarded, included)

/-- `discarded.intersection(&included)`, by the order of the sets. -/
def intersection (discarded included : List SignedTransaction) : List SignedTransaction :=
  discarded.filter fun tx => included.any fun t => NonceTransaction.cmp tx t = .eq

/-- The three loops of `reset`, from the blocks of the two heads. -/
def branches (env : Env) (rem add : Block) : M (Option (List SignedTransaction)) := do
  match ← lowerRem env add env.fuel rem [] with
  | none => return none
  | some lowered =>
    match ← lowerRem env lowered.1 env.fuel add [] with
    | none => return none
    | some raised =>
      match ← meet env env.fuel lowered.1 raised.1 lowered.2 raised.2 with
      | none => return none
      | some sets => return some (intersection sets.1 sets.2)

/-- `(old_num as i32 - new_num as i32).abs()`. -/
def depth (old new : UInt32) : Int32 := (old.toInt32 - new.toInt32).abs

/-- The transactions that `reset` submits again; no value where it returns before. -/
def orphans (env : Env) (oldHead : Option BlockHeader) (newHead : BlockHeader) :
    M (Option (List SignedTransaction)) := do
  match oldHead with
  | none => return some []
  | some oldHead =>
    if oldHead.hash ≠ newHead.parentHash then
      if depth oldHead.level newHead.level > 64 then return some []
      else
        let rem ← getBlock env oldHead.hash oldHead.level
        match ← getBlock env newHead.hash newHead.level with
        | none => Exec.err .missingBlock
        | some add =>
          match rem with
          | some rem => branches env rem add
          | none => return if newHead.level > oldHead.level then none else some []
    else return some []

def getStateAt (env : Env) (root : H256) : M (Address → AccountState) :=
  match env.getStateAt root with
  | .ok state => pure state
  | .error e => Exec.err (.other e)

def reset (env : Env) (oldHead : Option BlockHeader) (newHead : BlockHeader) : M Unit := do
  match ← orphans env oldHead newHead with
  | none => pure ()
  | some reinject =>
    let state ← getStateAt env newHead.stateRoot
    Exec.modify fun p => { p with currentState := state, live := false, pendingNonce := .new state }
    note (.reinject reinject)
    let _ ← addTxsLocked env false reinject 0 .empty []

/-! ## Repacking -/

/-- `list.forward(self.pending_nonce.get(addr))` for each list of events. -/
def forwardEvents : List Address → BTreeMap Address TxSortedList → M (BTreeMap Address TxSortedList)
  | [], events => return events
  | a :: rest, events => do
    let got := (← Exec.get).pendingNonce.get a
    Exec.modify fun p => { p with pendingNonce := got.2 }
    forwardEvents rest (events.insert a (((events.get? a).getD .empty).forward got.1).2)

/-- The nonces after the pending lists, set anew for each list. -/
def resetNonces : List (Address × TxList) → BTreeMap Address UInt64 → M Unit
  | [], _ => pure ()
  | e :: entries, nonces => do
    let nonces := match e.2.lastElement with
      | some tx => nonces.insert e.1 (tx.nonce + 1)
      | none => nonces
    Exec.modify fun p => { p with pendingNonce := p.pendingNonce.setAll nonces }
    resetNonces entries nonces

def putEvent (events : BTreeMap Address TxSortedList) (tx : SignedTransaction) :
    BTreeMap Address TxSortedList :=
  events.insert tx.sender (((events.get? tx.sender).getD .empty).put tx)

def send (env : Env) (txs : List SignedTransaction) : M Unit := do
  match env.channel with
  | some e => Exec.err (.other e)
  | none => note (.send txs)

/-- `repack`, where the pool moves to a new head; the events that are left and the accounts to
promote. -/
def resetFor (env : Env) (request : ResetRequest) (events : BTreeMap Address TxSortedList) :
    M (BTreeMap Address TxSortedList × List Address) := do
  reset env request.oldHead request.newHead
  let p ← Exec.get
  let events ← forwardEvents ((env.iter p events).map Prod.fst) events
  let p ← Exec.get
  return (events.filter fun _ list => !list.entries.isEmpty, (env.iter p p.queue).map Prod.fst)

/-- `repack`, after a move to a new head. -/
def demote (env : Env) : M Unit := do
  demoteUnexecutable env
  let p ← Exec.get
  resetNonces (env.iter p p.pending) .empty

/-- `repack`, up to promotion: the events so far and the accounts to promote. -/
def prepare (env : Env) (dirtyAccounts : AccountSet) (events : BTreeMap Address TxSortedList) :
    Option ResetRequest → M (BTreeMap Address TxSortedList × List Address)
  | some request => resetFor env request events
  | none => return (events, dirtyAccounts.flatten)

/-- `repack`, from truncation on. -/
def finish (env : Env) (events : BTreeMap Address TxSortedList) : M Unit := do
  truncatePending env
  truncateQueue env
  Exec.modify fun p => { p with changesSinceRepack := 0 }
  if events.entries.isEmpty = false then
    let p ← Exec.get
    send env ((env.iter p events).flatMap fun e => e.2.flatten)

def repack (env : Env) (dirtyAccounts : AccountSet) (request : Option ResetRequest) : M Unit := do
  let start ← prepare env dirtyAccounts (← Exec.get).queuedEvents request
  let promoted ← promoteExecutable env start.2
  if request.isSome then demote env
  finish env (promoted.foldl putEvent start.1)

/-- The known transactions of a batch are reported, the others are new. -/
def knownErrors (p : TxPool) (txs : List SignedTransaction) : List String :=
  (txs.filter fun tx => p.all.contains tx.hash).map fun _ => "TransactionAlreadyKnown"

def addTxs (env : Env) (txs : List SignedTransaction) (asLocal : Bool) : M Unit := do
  let p ← Exec.get
  let errors := knownErrors p txs
  let news := txs.filter fun tx => !p.all.contains tx.hash
  ensure (news.isEmpty = false) (.compositeErrors errors)
  let added ← addTxsLocked env asLocal news 0 .empty []
  repack env added.1 none
  Exec.modify fun p => { p with queuedEvents := .empty }
  let errors := errors ++ added.2
  ensure (errors.isEmpty = true) (.compositeErrors errors)

/-- `pending_txs` of the miner: what `pending()` holds, in the order of its hash map. -/
def pendingTxs (env : Env) (p : TxPool) : List SignedTransaction :=
  (env.iter p p.pending).flatMap fun e => e.2.flatten

/-! ## Questions to the pool -/

/-- `status`, for one hash. A queued transaction is reported as a pending one. -/
def statusOf (p : TxPool) (hash : H256) : TransactionStatus :=
  match p.all.get hash with
  | none => .notFound
  | some tx =>
    match p.pending.get? tx.sender with
    | some list => if list.txs.contains tx.nonce then .pending else .notFound
    | none =>
      match p.queue.get? tx.sender with
      | some list => if list.txs.contains tx.nonce then .pending else .notFound
      | none => .notFound

def status (p : TxPool) (txs : List H256) : List TransactionStatus := txs.map p.statusOf

/-- `nonce`: the nonce that an account should use next. The noncer remembers it. -/
def nonce (a : Address) : M UInt64 := do
  let p ← Exec.get
  let sn := p.pendingNonce.get a
  Exec.modify fun p => { p with pendingNonce := sn.2 }
  let nonce := if sn.1 > (p.currentState a).nonce then sn.1 else (p.currentState a).nonce
  if sn.1 < nonce then
    Exec.modify fun p => { p with pendingNonce := p.pendingNonce.set a nonce }
  return nonce

/-! ## Runs -/

/-- A call from outside. -/
inductive Call where
  | addLocals (txs : List SignedTransaction)
  | addRemotes (txs : List SignedTransaction)
  | repack (dirtyAccounts : AccountSet) (request : Option ResetRequest)
  | nonce (address : Address)
  /-- No call, but a move of the chain: a pool that was not reset yet reads the live state. -/
  | moved (accounts : Address → AccountState)

def exec (env : Env) : Call → M Unit
  | .addLocals txs => addTxs env txs true
  | .addRemotes txs => addTxs env txs false
  | .repack dirtyAccounts request => repack env dirtyAccounts request
  | .nonce address => do let _ ← nonce address
  | .moved accounts => do
    if (← Exec.get).live then
      note (.moved accounts)
      Exec.modify fun p => { p with
        currentState := accounts, pendingNonce := { p.pendingNonce with fallback := accounts } }

/-- Calls one after the other. An error is the caller's; a panic ends the run. -/
def run (calls : List (Env × Call)) : M Unit :=
  Exec.forEach (fun c => do let _ ← Exec.attempt (exec c.1 c.2)) calls

end TxPool

end Uchain
