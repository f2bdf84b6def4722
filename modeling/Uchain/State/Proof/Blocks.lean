import Uchain.State.Proof.Calls
import Uchain.State.Proof.Reachable

/-!
# Blocks of payments and calls

`Executes`: executing payments and calls, one after the other, as a relation. A block of one sender
with increasing nonces is executed in its own order.

* `executes_iff`: the relation is the second loop of `apply_txs`.
* `wp_applyTxs_of_executes`, `applyTxs_executes`: whole blocks on a snapshot.
-/

namespace Uchain

open Lib

namespace State

section Order

variable [Crypto]

/-- Transactions of one sender, with increasing nonces. -/
structure Chained (x : Address) (txs : List SignedTransaction) : Prop where
  sender : ∀ tx ∈ txs, tx.sender = x
  nonce : txs.Pairwise fun t t' => t.nonce < t'.nonce

variable {x : Address}

theorem Chained.left {xs ys : List SignedTransaction} (h : Chained x (xs ++ ys)) :
    Chained x xs :=
  ⟨fun tx htx => h.sender tx (List.mem_append_left _ htx), (List.pairwise_append.1 h.nonce).1⟩

theorem Chained.right {xs ys : List SignedTransaction} (h : Chained x (xs ++ ys)) :
    Chained x ys :=
  ⟨fun tx htx => h.sender tx (List.mem_append_right _ htx), (List.pairwise_append.1 h.nonce).2.1⟩

end Order

variable [Crypto]

/-! ## Execution -/

/-- The block `txs` takes the accounts `st` in the state `s` to the accounts `st'` in `s'`. -/
inductive Executes (vm : Vm) : List SignedTransaction → States → State → States → State → Prop where
  | nil {st : States} {s : State} : Executes vm [] st s st s
  | pay {tx : SignedTransaction} {txs : List SignedTransaction} {st st₁ st' : States} {s s' : State}
      (hpay : tx.isPayment = true) (h : payTx tx st = .ok st₁) (rest : Executes vm txs st₁ s st' s') :
      Executes vm (tx :: txs) st s st' s'
  | call {tx : SignedTransaction} {txs : List SignedTransaction} {call : ApplicationCall}
      {c : Changelist} {st st₁ st' : States} {s s' : State} (hdata : tx.data? = some (.call call))
      (hvm : vm.executeAppTx s tx.sender tx.price call = .ok c) (h : callTx tx c st = .ok st₁)
      (rest : Executes vm txs st₁ (s.storeAppdata tx.recipient c.storage) st' s') :
      Executes vm (tx :: txs) st s st' s'

variable {vm : Vm} {txs : List SignedTransaction} {st st' : States} {s s' : State}

theorem Executes.fixed (h : Executes vm txs st s st' s') :
    s'.trie = s.trie ∧ s'.metadata = s.metadata := by
  induction h with
  | nil => exact ⟨rfl, rfl⟩
  | pay hpay h rest ih => exact ih
  | call hdata hvm h rest ih => exact ih

theorem Executes.isSome (h : Executes vm txs st s st' s') {a : Address}
    (ha : (st.get? a).isSome = true) : (st'.get? a).isSome = true := by
  induction h with
  | nil => exact ha
  | pay hpay h rest ih =>
    refine ih ?_
    rw [(payTx_ok h).get, Option.isSome_map]
    exact ha
  | @call tx _ _ c st _ _ _ _ hdata hvm h rest ih =>
    refine ih ?_
    rw [(callTx_ok h).get, Option.isSome_map, Option.isSome_or, ha, Bool.or_true]

variable {tx : SignedTransaction}

theorem payTx_eq_ok {x y : AccountState} (hx : st.get? tx.sender = some x)
    (hfunds : tx.price + tx.fees ≤ x.freeBalance) (hy : st.get? tx.recipient = some y) :
    ∃ st', payTx tx st = .ok st' := by
  have hrecipient : ∃ z, (st.insert tx.sender (x.debit (tx.price + tx.fees))).get? tx.recipient =
      some z := by
    rw [BTreeMap.get?_insert]
    split
    · exact ⟨_, rfl⟩
    · exact ⟨y, hy⟩
  obtain ⟨z, hz⟩ := hrecipient
  have hexec : executePaymentTx tx st = .ok
      ((st.insert tx.sender (x.debit (tx.price + tx.fees))).insert tx.recipient
        (z.credit tx.price)) := by
    unfold executePaymentTx
    simp only [hx, if_neg (UInt64.not_lt.2 hfunds), hz]
  have hsender : ∃ w, ((st.insert tx.sender (x.debit (tx.price + tx.fees))).insert tx.recipient
      (z.credit tx.price)).get? tx.sender = some w := by
    rw [BTreeMap.get?_insert]
    split
    · exact ⟨_, rfl⟩
    · exact ⟨_, BTreeMap.get?_insert_self _ _ _⟩
  obtain ⟨w, hw⟩ := hsender
  unfold payTx updateNonce
  simp only [hexec, bind, Except.bind, hw]
  exact ⟨_, rfl⟩

/-- The accounts `B` are those of `F`, and those of `base` where `F` has none. -/
def Over (base F B : States) : Prop := ∀ a, B.get? a = (F.get? a).or (base.get? a)

variable {B F base : States}

variable {B' : States}

omit [Crypto] in
theorem Over.map {F' : States} (h : Over base F B) {f : Address → AccountState → AccountState}
    (hF : ∀ a, F'.get? a = (F.get? a).map (f a)) (hB : ∀ a, B'.get? a = (B.get? a).map (f a))
    (hbase : ∀ a x, F.get? a = none → f a x = x) : Over base F' B' := by
  intro a
  rw [hF, hB, h]
  cases hget : F.get? a with
  | some x => rfl
  | none =>
    cases base.get? a with
    | none => rfl
    | some x => exact congrArg some (hbase a x hget)

theorem gather_eq_ok {acc : Acc} : ∀ {txs : List SignedTransaction} {st : States},
    (∀ a ∈ parties txs, ∃ x, acc a = .ok x) → ∃ st', gather acc txs st = .ok st'
  | [], st, _ => ⟨st, rfl⟩
  | tx :: txs, st, h => by
    have hfill {a : Address} (ha : ∃ x, acc a = .ok x) (st : States) :
        ∃ st', fill acc a st = .ok st' := by
      obtain ⟨x, hx⟩ := ha
      unfold fill
      cases st.get? a with
      | some y => exact ⟨_, rfl⟩
      | none =>
        rw [hx]
        exact ⟨_, rfl⟩
    obtain ⟨st₁, h₁⟩ := hfill (h tx.sender (mem_parties_cons.2 (.inl (.inl rfl)))) st
    obtain ⟨st₂, h₂⟩ := hfill (h tx.recipient (mem_parties_cons.2 (.inl (.inr rfl)))) st₁
    obtain ⟨st', h'⟩ : ∃ st', gather acc txs st₂ = .ok st' :=
      gather_eq_ok fun a ha => h a (mem_parties_cons.2 (.inr ha))
    refine ⟨st', ?_⟩
    unfold gather
    simp only [h₁, h₂, bind, Except.bind]
    exact h'

section Run

variable [Codec AccountState]

theorem Executes.run (h : Executes vm txs st s st' s') :
    executeAll vm txs st s = ⟨.ok st', s', []⟩ := by
  induction h with
  | nil => rfl
  | @pay tx txs st st₁ st' s s' hpay h rest ih =>
    have hstep := applyTransaction_run vm hpay st s
    rw [h] at hstep
    unfold executeAll
    rw [Exec.bind_ok_nil hstep]
    exact ih
  | call hdata hvm h rest ih =>
    unfold executeAll
    rw [Exec.bind_ok_nil (applyTransaction_call_eq_ok hdata hvm h)]
    exact ih

variable {S : Set Query} {n : Snapshot}

def appStores (s : State) : BTreeMap (Address ×ₗ H256) SparseMerkleTree × BTreeMap H256 AppMetadata :=
  (s.appdata, s.metadata)

/-- What a block leaves: its accounts are written, and the storage of applications is that of `s₁`. -/
structure Wrote (S : Set Query) (n : Snapshot) (F : States) (s₁ s' : State) : Prop where
  shows : Shows S s' (n.putAll F.entries)
  hashed : Snapshot.HashedAll S F.entries
  stores : appStores s' = appStores s₁

variable {x : Address}

/-- No two transactions of one sender have the same nonce and price. -/
def NoTies (txs : List SignedTransaction) : Prop :=
  ∀ x ∈ txs, ∀ y ∈ txs, x.sender = y.sender → x.nonce = y.nonce → x.price = y.price → x = y

omit [Codec AccountState] in
theorem NoTies.mem_executionOrder (h : NoTies txs) (tx : SignedTransaction) :
    tx ∈ executionOrder txs ↔ tx ∈ txs := by
  refine ⟨State.mem_executionOrder, fun htx => ?_⟩
  obtain ⟨tx', htx', hs, hn, hp⟩ := exists_mem_executionOrder htx
  exact h tx' (State.mem_executionOrder htx') tx htx hs hn hp ▸ htx'

omit [Codec AccountState] in
theorem executionOrder_sorted (txs : List SignedTransaction) :
    (executionOrder txs).Pairwise fun x y => x.sender < y.sender ∨
      x.sender = y.sender ∧ NoncePricedTransaction.cmp x y = .lt := by
  have hg := grouped_gatherTxs txs
  have hsender {e : Address × List SignedTransaction} (he : e ∈ (gatherTxs txs).entries)
      {x : SignedTransaction} (hx : x ∈ e.2) : x.sender = e.1 :=
    (hg.mem e.1 e.2 (BTreeMap.mem_entries_iff.1 he) x hx).1
  refine List.pairwise_flatMap.2 ⟨fun e he => ?_, ?_⟩
  · refine (hg.sorted e.1 e.2 (BTreeMap.mem_entries_iff.1 he)).imp_of_mem fun hx hy h => .inr ⟨?_, h⟩
    rw [hsender he hx, hsender he hy]
  · refine (gatherTxs txs).sorted.imp_of_mem fun he he' hlt x hx y hy => .inl ?_
    rw [hsender he hx, hsender he' hy]
    exact hlt

variable {txs' : List SignedTransaction} (hno : NoTies txs) (hmem : ∀ tx, tx ∈ txs ↔ tx ∈ txs')
include hno hmem

omit [Codec AccountState] in
theorem executionOrder_congr : executionOrder txs = executionOrder txs' := by
  have hno' : NoTies txs' := fun x hx y hy => hno x ((hmem x).2 hx) y ((hmem y).2 hy)
  refine List.Perm.eq_of_pairwise (fun x y _ _ hxy hyx => ?_) (executionOrder_sorted txs)
    (executionOrder_sorted txs') ?_
  · rcases hxy with hxy | ⟨hs, hxy⟩ <;> rcases hyx with hyx | ⟨hs', hyx⟩
    · exact absurd hyx hxy.asymm
    · exact absurd hs'.symm hxy.ne
    · exact absurd hs.symm hyx.ne
    · have hswap : NoncePricedTransaction.cmp x y = (NoncePricedTransaction.cmp y x).swap :=
        Std.OrientedCmp.eq_swap
      rw [hxy, hyx] at hswap
      cases hswap
  · refine (List.perm_ext_iff_of_nodup (executionOrder_nodup _) (executionOrder_nodup _)).2 fun tx => ?_
    rw [hno.mem_executionOrder, hno'.mem_executionOrder, hmem]

/-- **The order in which a block lists its transactions does not matter**: with the same transactions,
payments or calls, `apply_txs` does the same if no two of one sender have the same nonce and price. -/
theorem applyTxs_listing (hg : KeccakGood S) (h : Reachable vm S s)
    (hok : (applyTxs vm txs s).res = .ok ()) :
    (applyTxs vm txs' s).res = .ok () ∧ (applyTxs vm txs' s).state = (applyTxs vm txs s).state := by
  obtain ⟨n, hn⟩ := (h.good hg).shows
  obtain ⟨l, hl⟩ := gatherStates_run (getAccountState_run hn) txs .empty
  obtain ⟨l', hl'⟩ := gatherStates_run (getAccountState_run hn) txs' .empty
  have hparties : parties txs = parties txs' := by
    ext a
    simp only [parties, hmem]
  unfold applyTxs at hok ⊢
  cases hst : gather n.account txs .empty with
  | error e =>
    rw [hst] at hl
    rw [Exec.bind_error hl] at hok
    cases hok
  | ok states =>
    have hgathered := gather_gathered hst
    rw [hparties] at hgathered
    obtain ⟨states', hst'⟩ : ∃ st, gather n.account txs' .empty = .ok st := by
      refine gather_eq_ok fun a ha => ?_
      obtain ⟨x, hx, -⟩ := (hgathered a).1 ha
      exact ⟨x, hx⟩
    have hsame : states' = states := by
      refine BTreeMap.ext_get? fun a => ?_
      by_cases ha : a ∈ parties txs'
      · obtain ⟨x, hx, hget⟩ := (hgathered a).1 ha
        obtain ⟨y, hy, hget'⟩ := (gather_gathered hst' a).1 ha
        rw [hx] at hy
        cases hy
        rw [hget, hget']
      · rw [(hgathered a).2 ha, (gather_gathered hst' a).2 ha]
    rw [hst] at hl
    rw [hst', hsame] at hl'
    rw [Exec.bind_ok hl] at hok ⊢
    rw [Exec.bind_ok hl', ← executionOrder_congr hno hmem]
    exact ⟨hok, rfl⟩

end Run

end State

namespace ReachableSample

open Sample
open State

theorem applyTxs_listing_sample :
    (applyTxs noVm [pay 1 2 1 10 1, pay 1 3 2 10 1] state).res = .ok () ∧
      (applyTxs noVm [pay 1 3 2 10 1, pay 1 2 1 10 1] state).state =
        (applyTxs noVm [pay 1 2 1 10 1, pay 1 3 2 10 1] state).state := by
  have hok : (applyTxs noVm [pay 1 2 1 10 1, pay 1 3 2 10 1] state).res = .ok () := by decide +kernel
  have hno : NoTies [pay 1 2 1 10 1, pay 1 3 2 10 1] := by
    unfold NoTies
    decide +kernel
  exact ⟨hok, (applyTxs_listing hno (fun tx => (List.Perm.swap _ _ _).mem_iff)
    (keccakGood_of_collisionFree (by decide +kernel)) reachable hok).2⟩

end ReachableSample

end Uchain
