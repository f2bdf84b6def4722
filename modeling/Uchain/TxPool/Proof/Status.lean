import Uchain.TxPool.Proof.Invariant
import Uchain.TxPool.Sample

/-!
# What the status of a transaction says

`status` looks for a transaction by its sender and its nonce, and at one list only: at the pending list
if there is one, at the queue list otherwise. Both times it answers `pending`.

* `Reports p h s`: the answer `s` for the hash `h` says where the transaction is.
-/

namespace Uchain.TxPool

open Lib

section Status

variable [Crypto]

/-- The one list that is looked at has the nonce. -/
def Found (p : TxPool) (tx : SignedTransaction) : Prop :=
  match p.pending.get? tx.sender with
  | some list => list.txs.contains tx.nonce = true
  | none => (slotAt p.queue (tx.sender, tx.nonce)).isSome = true

variable {p : TxPool} {h : H256}

theorem statusOf_of_none (hget : p.all.get h = none) : p.statusOf h = .notFound := by
  rw [statusOf, hget]

theorem statusOf_of_found {tx : SignedTransaction} (hget : p.all.get h = some tx)
    (hfound : p.Found tx) : p.statusOf h = .pending := by
  unfold Found at hfound
  rw [statusOf, hget]
  dsimp only
  cases hpending : p.pending.get? tx.sender with
  | some list =>
    rw [hpending] at hfound
    exact if_pos hfound
  | none =>
    rw [hpending] at hfound
    cases hqueue : p.queue.get? tx.sender with
    | none =>
      rw [slotAt_of_none hqueue] at hfound
      cases hfound
    | some list =>
      rw [slotAt_of_get? hqueue] at hfound
      exact if_pos hfound

theorem statusOf_of_not_found {tx : SignedTransaction} (hget : p.all.get h = some tx)
    (hfound : ¬ p.Found tx) : p.statusOf h = .notFound := by
  unfold Found at hfound
  rw [statusOf, hget]
  dsimp only
  cases hpending : p.pending.get? tx.sender with
  | some list =>
    rw [hpending] at hfound
    exact if_neg hfound
  | none =>
    rw [hpending] at hfound
    cases hqueue : p.queue.get? tx.sender with
    | none => rfl
    | some list =>
      rw [slotAt_of_get? hqueue] at hfound
      exact if_neg hfound

/-- A transaction with the hash is in the list of its sender. -/
def Listed (m : BTreeMap Address TxList) (h : H256) : Prop :=
  ∃ tx : SignedTransaction, tx.hash = h ∧ slotAt m (slot tx) = some tx

def Holds (p : TxPool) (h : H256) : Prop :=
  p.all.contains h = true ∨ Listed p.pending h ∨ Listed p.queue h

structure Reports (p : TxPool) (h : H256) (s : TransactionStatus) : Prop where
  pending : s = .pending ↔ Listed p.pending h
  queued : s = .queued ↔ Listed p.queue h
  notFound : s = .notFound ↔ ¬ p.Holds h

/-- The transaction is nowhere; or the lookup has it, it is pending, it is not queued, and it is found
under its sender and nonce. -/
def Plain (p : TxPool) (h : H256) : Prop :=
  match p.all.get h with
  | none => ¬ Listed p.pending h ∧ ¬ Listed p.queue h
  | some tx => Listed p.pending h ∧ ¬ Listed p.queue h ∧ p.Found tx

theorem reports_pending_iff :
    Reports p h .pending ↔ Listed p.pending h ∧ ¬ Listed p.queue h := by
  constructor
  · intro hr
    refine ⟨hr.pending.1 rfl, fun hq => ?_⟩
    cases hr.queued.2 hq
  · rintro ⟨hp, hq⟩
    have hholds : p.Holds h := .inr (.inl hp)
    exact ⟨by simp [hp], by simp [hq], by simp [hholds]⟩

theorem reports_notFound_iff : Reports p h .notFound ↔ ¬ p.Holds h := by
  constructor
  · intro hr
    exact hr.notFound.1 rfl
  · intro hn
    have hp : ¬ Listed p.pending h := fun hp => hn (.inr (.inl hp))
    have hq : ¬ Listed p.queue h := fun hq => hn (.inr (.inr hq))
    exact ⟨by simp [hp], by simp [hq], by simp [hn]⟩

theorem reports_statusOf_iff : Reports p h (p.statusOf h) ↔ p.Plain h := by
  unfold Plain
  cases hget : p.all.get h with
  | none =>
    have hcontains : p.all.contains h = false := by rw [TxLookup.contains_eq, hget]; rfl
    rw [statusOf_of_none hget, reports_notFound_iff, Holds, hcontains]
    simp
  | some tx =>
    have hholds : p.Holds h := .inl (by rw [TxLookup.contains_eq, hget]; rfl)
    by_cases hfound : p.Found tx
    · rw [statusOf_of_found hget hfound, reports_pending_iff]
      simp [hfound]
    · rw [statusOf_of_not_found hget hfound, reports_notFound_iff]
      simp [hfound, hholds]

/-- **When `status` is right**, position by position: exactly if every hash is plain. -/
theorem status_right_iff (p : TxPool) (hashes : List H256) :
    (p.status hashes).length = hashes.length ∧
    ((∀ (i : Nat) h s, hashes[i]? = some h → (p.status hashes)[i]? = some s → Reports p h s) ↔
      ∀ h ∈ hashes, p.Plain h) := by
  refine ⟨List.length_map _, ?_⟩
  constructor
  · intro hright h hmem
    obtain ⟨i, hi⟩ := List.mem_iff_getElem?.1 hmem
    refine reports_statusOf_iff.1 (hright i h _ hi ?_)
    rw [status, List.getElem?_map, hi, Option.map_some]
  · intro hplain i h s hi hs
    rw [status, List.getElem?_map, hi, Option.map_some, Option.some_inj] at hs
    rw [← hs]
    exact reports_statusOf_iff.2 (hplain h (List.mem_of_getElem? hi))

end Status

open Sample

/-- The first transaction of an account has a nonce that is too high, and is promoted all the same. The
second one stays in the queue. -/
def queuedCalls : List (Env × Call) :=
  [(env, .addRemotes [pay 1 9 5 1 10]),
    (env, .addRemotes [pay 1 8 3 1 10])]

/-- A new head, after which the transaction goes back to the queue. -/
def demotedCalls : List (Env × Call) :=
  [(env, .addRemotes [pay 1 9 5 1 10]),
    (env, move)]

/-- A queued transaction is not found while its sender has a pending one, and pending otherwise. -/
theorem status_hides_queued :
    (run queuedCalls (pool 4)).res.isOk = true ∧
    slotAt (run queuedCalls (pool 4)).state.queue (slot (pay 1 8 3 1 10)) =
      some (pay 1 8 3 1 10) ∧
    (run queuedCalls (pool 4)).state.status [(pay 1 8 3 1 10).hash] = [.notFound] ∧
    (run demotedCalls (pool 4)).res.isOk = true ∧
    slotAt (run demotedCalls (pool 4)).state.queue (slot (pay 1 9 5 1 10)) =
      some (pay 1 9 5 1 10) ∧
    slotAt (run demotedCalls (pool 4)).state.pending (slot (pay 1 9 5 1 10)) = none ∧
    (run demotedCalls (pool 4)).state.status [(pay 1 9 5 1 10).hash] = [.pending] := by
  decide +kernel

end Uchain.TxPool
