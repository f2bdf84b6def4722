import Uchain.TxPool.Proof.Repack
import Uchain.TxPool.Sample

/-!
# The indexes of the pool agree

`IndexesAgree p`: the lookup has the transactions that are pending or queued and no others. It holds
after every run of a new pool in which no eviction hits a queued transaction of an account with a
pending list (`indexesAgree_of_run`). `TxList::remove` answers `false` when it removes, so that
`remove_tx` takes such a transaction for a pending one: it stays in the queue and is forgotten by
the lookup (`run_forgets_queued`).
-/

namespace Uchain.TxPool

open Lib

structure IndexesAgree [Crypto] (p : TxPool) : Prop where
  lookup : ∀ tx, p.all.get tx.hash = some tx ↔
    slotAt p.pending (slot tx) = some tx ∨ slotAt p.queue (slot tx) = some tx
  hash : ∀ h tx, p.all.get h = some tx → tx.hash = h
  pending : ∀ a n tx, slotAt p.pending (a, n) = some tx → tx.sender = a ∧ tx.nonce = n
  queue : ∀ a n tx, slotAt p.queue (a, n) = some tx → tx.sender = a ∧ tx.nonce = n
  apart : ∀ a n, slotAt p.pending (a, n) = none ∨ slotAt p.queue (a, n) = none

/-- What holds whatever is evicted: the lookup has a transaction that is pending or queued, but not
both, a listed one is at its account and nonce, and an account with a queue has a heartbeat. -/
structure Shelved [Crypto] (p : TxPool) : Prop where
  lookup : ∀ h tx, p.all.get h = some tx → tx.hash = h ∧
    Xor (slotAt p.pending (slot tx) = some tx) (slotAt p.queue (slot tx) = some tx)
  own : ∀ k tx, slotAt p.pending k = some tx ∨ slotAt p.queue k = some tx → (tx.sender, tx.nonce) = k
  apart : ∀ k, slotAt p.pending k = none ∨ slotAt p.queue k = none
  beats : ∀ a, p.queue.contains a = true → p.beats.contains a = true

section Agree

variable [Crypto]

theorem Tidy.indexesAgree {p : TxPool} (ht : Tidy [] p) (hi : Indexed [] p) : IndexesAgree p where
  lookup tx := by
    refine ⟨fun h => ?_, fun h => hi tx (h.imp_right .inl)⟩
    simpa using (ht.covered _ tx h).2
  hash h tx := ht.hash_eq
  pending a n tx htx := Prod.ext_iff.1 (ht.shelved.slot_fst (a, n) tx htx)
  queue a n tx htx := Prod.ext_iff.1 (ht.shelved.slot_snd (a, n) tx htx)
  apart a n := ht.shelved.apart (a, n)

/-- **The indexes agree** after every run from an empty pool in which every evicted transaction is
pending or has a sender without a pending list. -/
theorem indexesAgree_of_run (conf : Option TxPoolConfig) (accounts : Option (List Address))
    (state : Address → AccountState) (calls : List (Env × Call))
    (hrun : ∀ e ∈ (run calls (TxPool.new conf accounts state)).log, Removable e) :
    IndexesAgree (run calls (TxPool.new conf accounts state)).state := by
  obtain ⟨ht, hi⟩ := Inv.of_run False fun e he => ⟨hrun e he, False.elim⟩
  exact ht.indexesAgree hi.indexed

/-- **The lists are in order after every run**, whatever its calls return. -/
theorem shelved_of_run (conf : Option TxPoolConfig) (accounts : Option (List Address))
    (state : Address → AccountState) (calls : List (Env × Call)) :
    Shelved (run calls (TxPool.new conf accounts state)).state := by
  have ht := tidy_of_run conf accounts state calls
  refine ⟨fun h tx hget => ⟨ht.hash_eq hget, ?_⟩, fun k tx hk => ?_, ht.shelved.apart, ht.beating⟩
  · have hlisted := (ht.covered h tx hget).2
    rcases ht.shelved.apart (slot tx) with hnone | hnone <;> simpa [hnone, Xor] using hlisted
  · exact hk.elim (ht.shelved.slot_fst k tx) (ht.shelved.slot_snd k tx)

end Agree

open Sample

theorem indexesAgree_of_run_crowd :
    (∀ e ∈ (run crowd (pool 4)).log, Removable e) ∧
      IndexesAgree (run crowd (pool 4)).state := by
  have hrun : ∀ e ∈ (run crowd (pool 4)).log, Removable e := by decide +kernel
  exact ⟨hrun, indexesAgree_of_run _ _ _ crowd hrun⟩

/-- The account `1` has a pending transaction with the nonce `5` and a queued one with the nonce
`3`; the last transaction makes the pool evict both. -/
def evictingCalls : List (Env × Call) :=
  [(env, .addRemotes [pay 1 9 5 1 10]),
    (env, .addRemotes [pay 1 9 3 1 11, pay 2 9 1 1 50, pay 2 9 2 1 51,
      pay 2 9 3 1 52, pay 3 9 1 1 5])]

/-- **A listed transaction that the lookup does not have.** -/
theorem run_forgets_queued :
    (run evictingCalls (pool 4)).res.isOk = true ∧
      slotAt (run evictingCalls (pool 4)).state.pending (slot (pay 1 9 3 1 11)) =
        some (pay 1 9 3 1 11) ∧
      (run evictingCalls (pool 4)).state.all.get (pay 1 9 3 1 11).hash = none := by
  decide +kernel

end Uchain.TxPool
