import Uchain.Blockchain.Proof.Steps
import Uchain.Blockchain.Sample
import Uchain.TxPool.Sample

/-!
# The miner

`block_template` fills in a header on the current head for the pending transactions. The worker then
looks for a nonce with which `verify_header` passes, and gives the block to the chain like one of
another node. It passes `process_block` there (`processBlock_template`).
-/

namespace Uchain

open Lib Exec

section Crypto

variable [Crypto] [Codec AccountState]

namespace BarossaProtocol

variable {p : BarossaProtocol} {h x : BlockHeader}

omit [Codec AccountState] in
/-- What `prepare_header` fills in follows from the parent, the level and the time. -/
theorem prepareHeader_congr {b : BlockStorage} (hx : (p.prepareHeader h b).res = .ok x)
    (h' : BlockHeader) (hparent : h'.parentHash = h.parentHash) (hlevel : h'.level = h.level)
    (htime : h'.time = h.time) : (p.prepareHeader h' b).res =
      .ok { h' with chainId := x.chainId, difficulty := x.difficulty } := by
  have hmap : p.prepareHeader h' = (fun x : BlockHeader =>
      { h' with chainId := x.chainId, difficulty := x.difficulty }) <$> p.prepareHeader h := by
    simp only [prepareHeader, hparent, hlevel, htime, map_bind, map_pure]
  rw [hmap, res_map, hx]
  rfl

/-- What `finalize` fills in follows from the coinbase and the level. -/
theorem finalize_congr {s : State} {txs : List SignedTransaction} {vm : Vm}
    (hx : (p.finalize vm h txs s).res = .ok x) (h' : BlockHeader)
    (hcoinbase : h'.coinbase = h.coinbase) (hlevel : h'.level = h.level) :
    (p.finalize vm h' txs s).res = .ok { h' with stateRoot := x.stateRoot, txRoot := x.txRoot } := by
  have hmap : p.finalize vm h' txs = (fun x : BlockHeader =>
      { h' with stateRoot := x.stateRoot, txRoot := x.txRoot }) <$> p.finalize vm h txs := by
    simp only [finalize, hcoinbase, hlevel, map_bind, map_pure]
  rw [hmap, res_map, hx]
  rfl

end BarossaProtocol

namespace ChainState

open BarossaProtocol BlockStorage

/-- The header of a new block; the other fields have their defaults. -/
def candidate (parent : BlockHeader) (coinbase : Address) (time : UInt32) : BlockHeader :=
  ⟨parent.hash, .zero, .zero, .zero, 0, coinbase, 0, 0, parent.level + 1, time, 0⟩

def blockTemplate (setup : Setup) (coinbase : Address) (time : UInt32) (env : TxPool.Env)
    (pool : TxPool) : M (BlockHeader × List SignedTransaction) := do
  let parentHeader := ((← currentHeader).map fun header => header.raw).getD
    setup.consensus.getGenesisHeader
  let state ← ofState ((← Exec.get).state.getStateAt parentHeader.stateRoot)
  let txs := pool.pendingTxs env
  let _ ← parentHeader.hashed
  let header ← onStorage (setup.consensus.prepareHeader (candidate parentHeader coinbase time))
  let (header, _) ← Exec.runOn state (setup.consensus.finalize setup.vm header txs)
  return (header, txs)

variable {c : ChainState} {coinbase : Address} {head template : BlockHeader} {pool : TxPool}
  {setup : Setup} {time : UInt32} {txs : List SignedTransaction}

theorem wp_blockTemplate {env : TxPool.Env} (hhead : c.header = some head) :
    wp Set.univ (blockTemplate setup coinbase time env pool) c fun res _ =>
      res = .ok (template, txs) → ∃ copy prepared, c.state.getStateAt head.stateRoot = .ok copy ∧
        (setup.consensus.prepareHeader (candidate head coinbase time) c.blockStorage).res =
          .ok prepared ∧
        (setup.consensus.finalize setup.vm prepared txs copy).res = .ok template := by
  obtain ⟨l, hcurrent⟩ := currentHeader_run hhead
  refine wp_bind_res hcurrent (wp_bind (wp_get ?_))
  show wp _ (ofState (c.state.getStateAt head.stateRoot) >>= _) c _
  cases c.state.getStateAt head.stateRoot with
  | error e => exact fun _ => nofun
  | ok copy =>
    refine wp_bind_run (a := copy) rfl (wp_bind (BlockHeader.wp_hashed fun _ => ?_))
    obtain ⟨l, hl⟩ := prepareHeader_run (s := c.blockStorage) (p := setup.consensus)
      (candidate head coinbase time)
    refine wp_bind_res (onStorage_run hl) ?_
    rw [hl]
    cases setup.consensus.prepareHeaderOn c.blockStorage.reader (candidate head coinbase time) with
    | error e => exact nofun
    | ok prepared =>
      refine wp_bind fun _ => ?_
      show cont _ _ _ (Except.map _ (setup.consensus.finalize _ _ _ copy).res) c
      cases hfinal : (setup.consensus.finalize setup.vm prepared (pool.pendingTxs env) copy).res with
      | error e => exact nofun
      | ok header =>
        refine wp_pure fun h => ?_
        cases h
        exact ⟨copy, prepared, rfl, rfl, hfinal⟩

/-- A block whose header is as `prepare_header` and `finalize` make it. -/
theorem processBlock_ok {block : Block} {copy : State} {env : Env}
    (hprepare : (setup.consensus.prepareHeader block.header c.blockStorage).res = .ok block.header)
    (hparent : c.blockStorage.headerByHash block.parentHash = some head)
    (hcopy : c.state.getStateAt head.stateRoot = .ok copy)
    (hfinal : (setup.consensus.finalize setup.vm block.header block.transactions copy).res =
      .ok block.header)
    (hverify : (setup.consensus.verifyHeader (env.now block.header) block.header
      c.blockStorage).res = .ok ()) : (processBlock setup env block c).res = .ok () := by
  suffices hwp : wp Set.univ (processBlock setup env block) c fun res _ => res = .ok () from
    hwp fun _ _ => trivial
  obtain ⟨l, hl⟩ := prepareHeader_run (s := c.blockStorage) (p := setup.consensus) block.header
  rw [show setup.consensus.prepareHeaderOn _ _ = _ from
    (congrArg (·.res) hl).symm.trans hprepare] at hl
  refine wp_bind_res (onStorage_run hl) (wp_bind_res (onStorage_run (getHeaderByHash_run _ _)) ?_)
  rw [hparent]
  refine wp_bind_run (a := IndexedBlockHeader.of head) rfl (wp_bind (wp_get ?_))
  show wp _ (ofState (c.state.getStateAt head.stateRoot) >>= _) c _
  rw [hcopy]
  refine wp_bind_run (a := copy) rfl (wp_bind fun _ => ?_)
  show cont _ _ _ (Except.map _ (setup.consensus.finalize _ _ _ copy).res) c
  rw [hfinal]
  rcases hv : setup.consensus.verifyHeader (env.now block.header) block.header c.blockStorage with
    ⟨r, b, l'⟩
  rw [hv] at hverify
  cases hverify
  refine wp_bind_res ((mapErr_run _ _ _).trans (by rw [onStorage_run hv])) ?_
  refine wp_bind (BlockHeader.wp_hashed fun _ => wp_bind (BlockHeader.wp_hashed fun _ => ?_))
  exact wp_ite (fun hne => absurd rfl hne) fun _ => wp_pure rfl

/-- **A mined block passes the checks of its own node**: with a nonce for which `verify_header`
passes, `process_block` accepts what `block_template` made of any pool. The head has to be stored,
which it is not after a failed event. -/
theorem processBlock_template {env : Env} {poolEnv : TxPool.Env} (hhead : c.header = some head)
    (hstored : c.blockStorage.headerByHash head.hash = some head)
    (h : (blockTemplate setup coinbase time poolEnv pool c).res = .ok (template, txs))
    (nonce : UInt64) (hverify : (setup.consensus.verifyHeader (env.now { template with nonce })
      { template with nonce } c.blockStorage).res = .ok ()) :
    (processBlock setup env ⟨{ template with nonce }, txs⟩ c).res = .ok () := by
  obtain ⟨copy, prepared, hcopy, hprepare, hfinal⟩ := wp_blockTemplate hhead (fun _ _ => trivial) h
  have hprepared := hprepare.symm.trans (prepareHeader_congr hprepare _ rfl rfl rfl)
  have htemplate := hfinal.symm.trans (finalize_congr hfinal _ rfl rfl)
  cases prepared
  cases hprepared
  cases template
  cases htemplate
  exact processBlock_ok (prepareHeader_congr hprepare _ rfl rfl rfl) hstored hcopy
    (finalize_congr hfinal _ rfl rfl) hverify

end ChainState

end Crypto

namespace ChainState

open SampleChain
open scoped Sample

/-- `d1` is what the miner makes on the genesis block. -/
theorem processBlock_template_sample : (processBlock setup env d1 (reached setup [])).res = .ok () := by
  have hsome : (reached setup []).header.isSome = true := by decide +kernel
  have hstored : ∀ head ∈ (reached setup []).header,
      (reached setup []).blockStorage.headerByHash head.hash = some head := by decide +kernel
  have h : (blockTemplate setup d1.header.coinbase 0 Sample.env (Sample.pool 4)
      (reached setup [])).res = .ok (d1.header, []) := by decide +kernel
  obtain ⟨head, hhead⟩ := Option.isSome_iff_exists.1 hsome
  exact processBlock_template hhead (hstored head hhead) h 0 (by decide +kernel)

end ChainState

end Uchain
