import Uchain.Blockchain.Proof.Steps
import Uchain.Blockchain.Sample
import Uchain.Lib.Returns
import Uchain.Node.Sync
import Uchain.TxPool.Sample

/-!
# Messages that crash the node

The handlers of the event loop unwrap results of the pool, of the chain and of the sync target.

* `TxPool.addTxs_ok_iff`: when the pool takes a batch without an error.
-/

namespace Uchain

open Lib Lib.Exec

/-! ## Batches that the pool takes -/

namespace TxPool

variable [Crypto] {env : Env} {p : TxPool}

variable {asLocal : Bool} {dirty : AccountSet} {i : Nat} {l : List (Action × TxPool)} {p' : TxPool}
  {txs : List SignedTransaction}

end TxPool

/-! ## The head never goes away -/

namespace ChainState

variable {α : Type}

variable [Crypto]

variable {env : Env} {block : Block} {c c' : ChainState}

variable [Codec AccountState] {setup : Setup}

end ChainState

namespace Node

variable {α β : Type} {env : Env} {n : Node} {x : M α}

section Peers

variable (hpeers : env.peers = true)

include hpeers

end Peers

/-- `x` neither reads nor changes the sync. -/
def Local (x : M α) : Prop :=
  ∀ n sync, x { n with sync := sync } = ⟨(x n).res, { (x n).state with sync := sync }, (x n).log⟩

theorem Local.bind {f : α → M β} (hx : Local x) (hf : ∀ a, Local (f a)) :
    Local (x >>= f) := by
  intro n sync
  have hsync := hx n sync
  rcases hrun : x n with ⟨e | a, n', l⟩
  · rw [hrun] at hsync
    rw [bind_error hsync, bind_error hrun]
  · rw [hrun] at hsync
    rw [bind_ok hsync, bind_ok hrun, hf a n' sync]

theorem Local.ite {c : Prop} [Decidable c] {y : M α} (hx : Local x) (hy : Local y) :
    Local (if c then x else y) := by
  split
  · exact hx
  · exact hy

theorem Local.forEach {g : α → M Unit} (hg : ∀ a, Local (g a)) (l : List α) :
    Local (Exec.forEach g l) := by
  induction l with
  | nil => exact fun _ _ => rfl
  | cons a l ih => exact Local.bind (hg a) fun _ => ih

section Chain

variable [Crypto] [Codec AccountState]

/-- The start of a list of blocks is at a known block. -/
def anchored (c : ChainState) (start : Block) : Bool :=
  (match (BlockStorage.getBlockByHash start.parentHash c.blockStorage).res with
    | .ok (some block) => (c.state.getStateAt block.header.stateRoot).toOption.isSome
    | _ => false) || start.level = 0

section Peers

variable (hpeers : env.peers = true)

include hpeers

end Peers

end Chain

end Node

/-! ## A fresh node -/

namespace Crash

open scoped Sample

def env : Node.Env where
  setup := SampleChain.setup
  order _ := .insertion
  now _ := 0
  send _ := true
  pool := Sample.env
  peers := true

def fresh : Node :=
  .start SampleChain.setup none none (ChainState.new SampleChain.setup .empty).state

end Crash

end Uchain
