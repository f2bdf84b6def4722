import Uchain.TxPool.Proof.Index

/-!
# Local transactions and the limits of the pool

A transaction that was submitted with `add_local(s)` and accepted is dropped only because it was
replaced, because the nonce of its account passed it, or because it cannot be paid any more
(`locals_survive`), in every run in which

* no eviction hits a queued transaction of an account with a pending list,
* a transaction accepted from a local submitter has a local sender then: `add` does not make the
  account local where it replaces a pending transaction (`run_evicts_local`),
* a new local transaction has no entry in the priced list from an earlier life.
-/

namespace Uchain.TxPool

open Lib

section Survive

variable [Crypto]

/-- **Local transactions survive**: every drop of a held transaction is fair, and one that is still
held is listed. -/
theorem locals_survive (conf : Option TxPoolConfig) (accounts : Option (List Address))
    (state : Address → AccountState) (calls : List (Env × Call))
    (hrun : ∀ e ∈ (run calls (TxPool.new conf accounts state)).log, Removable e ∧ KeepsLocals e) :
    Fair (run calls (TxPool.new conf accounts state)).log ∧
      ∀ h, held (run calls (TxPool.new conf accounts state)).log h = true →
        ∃ tx, tx.hash = h ∧
          (slotAt (run calls (TxPool.new conf accounts state)).state.pending (slot tx) = some tx ∨
            slotAt (run calls (TxPool.new conf accounts state)).state.queue (slot tx) = some tx) := by
  obtain ⟨ht, hi⟩ := Inv.of_run True fun e he => ⟨(hrun e he).1, fun _ => (hrun e he).2⟩
  have ho := hi.owned trivial
  refine ⟨ho.fair, fun h hh => ?_⟩
  obtain ⟨tx, htx⟩ := Option.isSome_iff_exists.1 (ho.kept h hh)
  have hget := TxLookup.get_of_local htx
  have hhash := ht.hash_eq hget
  refine ⟨tx, hhash, ((ht.indexesAgree hi.indexed).lookup tx).1 ?_⟩
  rw [hhash]
  exact hget

/-- The action at an index drops a held transaction for a cause that is not fair. -/
def unfairAt (log : History) (k : Nat) : Bool :=
  match log[k]? with
  | some (.drop cause tx, _) => held (log.take k) tx.hash && !cause.fair
  | _ => false

end Survive

open Sample

theorem locals_survive_crowd :
    (∀ e ∈ (run crowd (pool 4)).log, Removable e ∧ KeepsLocals e) ∧
      Fair (run crowd (pool 4)).log := by
  have hrun : ∀ e ∈ (run crowd (pool 4)).log, Removable e ∧ KeepsLocals e := by
    decide +kernel
  exact ⟨hrun, (locals_survive _ _ _ crowd hrun).1⟩

/-- A local transaction replaces the pending one of a remote sender, which stays remote. -/
def replacingCalls : List (Env × Call) :=
  [(env, .addRemotes [pay 1 9 1 1 10]),
    (env, .addLocals [pay 1 9 1 1 20]),
    (env, .addRemotes [pay 1 9 2 1 21])]

/-- **`truncate_pending` drops a local transaction.** -/
theorem run_evicts_local :
    (run replacingCalls (pool 1)).res.isOk = true ∧
      unfairAt (run replacingCalls (pool 1)).log 12 = true ∧
      (run replacingCalls (pool 1)).state.all.get (pay 1 9 1 1 20).hash = none := by
  decide +kernel

end Uchain.TxPool
