import Uchain.Types.Sample
import Uchain.TxPool.Pool

/-!
# A concrete pool

A clock that stands still, hash maps in the order of their keys, a chain without blocks, and
accounts that all have the same money.
-/

namespace Uchain.Sample

open Lib

def env : TxPool.Env where
  keyOrder _ := .sorted
  now _ := 0
  channel := none
  getBlock _ _ := .ok none
  getStateAt _ := .ok fun _ => .new
  fuel := 0

/-- Every account has `1000` and the nonce `1`. -/
def rich : Address → AccountState := fun _ => ⟨1000, 0, 1, none⟩

/-- An empty pool for `globalSlots` pending and one queued transaction. -/
def pool (globalSlots : UInt64) : TxPool :=
  TxPool.new (some ⟨10, 1, globalSlots, 1, 1⟩) none rich

/-- A new head, without a block. -/
def head : BlockHeader := ⟨.zero, .zero, .zero, .zero, 0, .zero, 0, 0, 1, 0, 0⟩

/-- A call of `repack` that moves the pool to the new head. -/
def move : TxPool.Call := .repack .empty (some ⟨none, head⟩)

/-- Five senders fill a pool, a sixth one makes it evict four of them, and a local one comes after
that. -/
def crowd : List (TxPool.Env × TxPool.Call) :=
  [(env, .addRemotes [pay 1 9 1 1 10, pay 2 9 1 1 11, pay 3 9 1 1 12, pay 4 9 1 1 13,
      pay 5 9 1 1 14, pay 6 9 1 1 5]),
    (env, .addLocals [pay 7 9 1 1 10, pay 7 9 2 1 10])]

end Uchain.Sample
