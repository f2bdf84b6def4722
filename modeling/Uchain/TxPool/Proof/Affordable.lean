import Uchain.State.Proof.Blocks
import Uchain.TxPool.Sample
import Uchain.Vm.Environment

/-!
# Executing the pending payments

The pool looks at one transaction at a time, and a block executes them one after the other: each has
to be covered by what the ones before it leave.
-/

namespace Uchain

open Lib

namespace State

section Payments

variable [Crypto]

/-- Each payment is covered when it is its turn, from the accounts `acc`. -/
def Affordable (acc : Address → AccountState) : List SignedTransaction → Prop
  | [] => True
  | tx :: txs => tx.price + tx.fees ≤ (acc tx.sender).freeBalance ∧
      Affordable (fun a => payEffect tx a (acc a)) txs

instance Affordable.decidable : ∀ acc txs, Decidable (Affordable acc txs)
  | _, [] => isTrue trivial
  | acc, tx :: txs =>
    have : Decidable (Affordable (fun a => payEffect tx a (acc a)) txs) := Affordable.decidable _ txs
    inferInstanceAs (Decidable (_ ∧ _))

theorem payTx_eq_error {tx : SignedTransaction} {states : States} {x : AccountState}
    (hx : states.get? tx.sender = some x) (hfunds : ¬ tx.price + tx.fees ≤ x.freeBalance) :
    payTx tx states = .error .insufficientFunds := by
  have hexec : executePaymentTx tx states = .error .insufficientFunds := by
    unfold executePaymentTx
    simp only [hx, if_pos (UInt64.not_le.1 hfunds)]
  unfold payTx
  simp only [hexec, bind, Except.bind]

/-- **A list of payments** on accounts that have all their parties. -/
theorem payAll_affordable : ∀ {txs : List SignedTransaction} {states : States}
    {acc : Address → AccountState}, (∀ a ∈ parties txs, states.get? a = some (acc a)) →
    (Affordable acc txs → ∃ states', payAll txs states = .ok states') ∧
      (¬ Affordable acc txs → payAll txs states = .error .insufficientFunds)
  | [], states, acc, _ => ⟨fun _ => ⟨states, rfl⟩, fun h => absurd trivial h⟩
  | tx :: txs, states, acc, hacc => by
    have hsender := hacc tx.sender (mem_parties_cons.2 (.inl (.inl rfl)))
    have hrecipient := hacc tx.recipient (mem_parties_cons.2 (.inl (.inr rfl)))
    unfold payAll
    by_cases hfunds : tx.price + tx.fees ≤ (acc tx.sender).freeBalance
    · obtain ⟨states₁, h₁⟩ := payTx_eq_ok hsender hfunds hrecipient
      have hacc₁ : ∀ a ∈ parties txs, states₁.get? a = some (payEffect tx a (acc a)) := by
        intro a ha
        rw [(payTx_ok h₁).get a, hacc a (mem_parties_cons.2 (.inr ha))]
        rfl
      obtain ⟨hok, herror⟩ := payAll_affordable hacc₁
      simp only [h₁, bind, Except.bind]
      exact ⟨fun h => hok h.2, fun h => herror fun hrest => h ⟨hfunds, hrest⟩⟩
    · refine ⟨fun h => absurd h.1 hfunds, fun _ => ?_⟩
      simp only [payTx_eq_error hsender hfunds, bind, Except.bind]

end Payments

variable [Crypto] [Codec AccountState] {S : Set Query} {s : State} {n : Snapshot}

omit [Codec AccountState] in
theorem parties_executionOrder {txs : List SignedTransaction} {a : Address}
    (h : a ∈ parties (executionOrder txs)) : a ∈ parties txs := by
  obtain ⟨tx, htx, ha⟩ := h
  exact ⟨tx, mem_executionOrder htx, ha⟩

/-- **A block of payments** is executed exactly if each payment is covered when it is its turn. -/
theorem applyTxs_eq (hg : KeccakGood S) (h : Shows S s n) (vm : Vm) {txs : List SignedTransaction}
    (hpay : ∀ tx ∈ txs, tx.isPayment = true) {acc : Address → AccountState}
    (hacc : ∀ a ∈ parties txs, (getAccountState a s).res = .ok (acc a))
    (hlog : ∀ q ∈ (applyTxs vm txs s).log, q ∈ S) :
    (applyTxs vm txs s).res =
      if Affordable acc (executionOrder txs) then .ok () else .error (.err .insufficientFunds) := by
  have hread : ∀ a ∈ parties txs, n.account a = .ok (acc a) := by
    intro a ha
    obtain ⟨l, hl⟩ := getAccountState_run h a
    rw [← hacc a ha, hl]
  obtain ⟨states₀, hgather⟩ : ∃ states₀, gather n.account txs .empty = .ok states₀ :=
    gather_eq_ok fun a ha => ⟨acc a, hread a ha⟩
  have hstates : ∀ a ∈ parties (executionOrder txs), states₀.get? a = some (acc a) := by
    intro a ha
    obtain ⟨x, hx, hget⟩ := ((gather_gathered hgather) a).1 (parties_executionOrder ha)
    rw [hread a (parties_executionOrder ha)] at hx
    rw [hget, Except.ok.inj hx]
  obtain ⟨hok, herror⟩ := payAll_affordable hstates
  have hresults : n.results txs = ofRes (payAll (executionOrder txs) states₀) := by
    unfold Snapshot.results
    simp only [hgather, bind, Except.bind]
  have hpost := wp_applyTxs hg h vm hpay hlog
  by_cases haff : Affordable acc (executionOrder txs)
  · obtain ⟨states, hall⟩ := hok haff
    rw [hresults, hall] at hpost
    rw [if_pos haff]
    exact hpost.1
  · rw [hresults, herror haff] at hpost
    rw [if_neg haff]
    exact hpost.1

end State

namespace TxPool

open State

variable [Crypto] [Codec AccountState] {S : Set Query} {s : State} {n : Snapshot}

omit [Codec AccountState] in
/-- A pool that reads the live state is at the head after every move of the chain. -/
theorem currentState_run_moved {calls : List (Env × Call)} {p : TxPool}
    (hres : (run calls p).res = .ok ()) (hlive : (run calls p).state.live = true) (env : Env)
    (accounts : Address → AccountState) :
    (run (calls ++ [(env, .moved accounts)]) p).state.currentState = accounts := by
  have hstate (q : TxPool) :
      (run [(env, .moved accounts)] q).state = (exec env (.moved accounts) q).state := by
    have hrun : run [(env, .moved accounts)] =
        (Exec.attempt (exec env (.moved accounts)) >>= fun _ => pure ()) >>= fun _ => pure () := rfl
    rw [hrun, Exec.state_bind_pure, Exec.state_bind_pure, Exec.attempt_run]
  have hmoved : (exec env (.moved accounts) (run calls p).state).state.currentState = accounts := by
    rw [exec, Exec.get_bind,
      if_pos hlive]
    rfl
  have hrun : run (calls ++ [(env, .moved accounts)]) =
      run calls >>= fun _ => run [(env, .moved accounts)] := Exec.forEach_append _ _ _
  rw [hrun, Exec.bind_ok (Run.eq_of_res hres)]
  exact (congrArg currentState (hstate _)).trans hmoved

/-- The pending payments, as the miner takes them. -/
def pendingPayments (env : Env) (p : TxPool) : List SignedTransaction :=
  (p.pendingTxs env).filter fun tx => tx.isPayment

/-- **The pending payments of a pool** on the state that it reads: they can be executed exactly if each
of them is covered when it is its turn, and there is one other outcome. -/
theorem applyTxs_pendingPayments (hg : KeccakGood S) (h : Shows S s n) (vm : Vm) (env : Env)
    (p : TxPool)
    (hhead : ∀ a ∈ parties (p.pendingPayments env), (getAccountState a s).res = .ok (p.currentState a))
    (hlog : ∀ q ∈ (applyTxs vm (p.pendingPayments env) s).log, q ∈ S) :
    ((applyTxs vm (p.pendingPayments env) s).res = .ok () ↔
      Affordable p.currentState (executionOrder (p.pendingPayments env))) ∧
    ((applyTxs vm (p.pendingPayments env) s).res = .error (.err .insufficientFunds) ↔
      ¬ Affordable p.currentState (executionOrder (p.pendingPayments env))) := by
  have hpay : ∀ tx ∈ p.pendingPayments env, tx.isPayment = true := fun tx htx =>
    (List.mem_filter.1 htx).2
  rw [applyTxs_eq hg h vm hpay hhead hlog]
  by_cases haff : Affordable p.currentState (executionOrder (p.pendingPayments env))
  · simp [haff]
  · simp [haff]

end TxPool

namespace Affordable

open TxPool State
open Sample

/-- The account `1` has `100`. -/
def calls : List State.Call := [.creditBalance (address 1) 100]

@[irreducible] def state : State := (Call.runAll noVm calls State.new).state

/-- A pool at the head, after one batch. -/
def pool (txs : List SignedTransaction) : TxPool :=
  (run [(env, .addRemotes txs), (env, .moved state.accountState)]
    (TxPool.new none none state.accountState)).state

def one : List SignedTransaction := [pay 1 9 1 60 1]

def two : List SignedTransaction := [pay 1 9 1 60 1, pay 1 9 2 60 1]

@[irreducible] def log : List Query :=
  (Call.runAll noVm calls State.new).log ++
    (applyTxs noVm ((pool one).pendingPayments env) state).log

theorem applyTxs_pendingPayments_one :
    (pool one).pendingPayments env = one ∧
      (applyTxs noVm ((pool one).pendingPayments env) state).res = .ok () := by
  have hreach : Reachable noVm {q | q ∈ log} state := by
    unfold state
    refine ReachableBy.new.runAll calls (fun _ _ => trivial) fun q hq => ?_
    show q ∈ log
    rw [log]
    exact List.mem_append_left _ hq
  have hgood : KeccakGood {q | q ∈ log} :=
    keccakGood_of_collisionFree (by decide +kernel)
  have hlog : ∀ q ∈ (applyTxs noVm ((pool one).pendingPayments env) state).log,
      q ∈ {q | q ∈ log} := by
    intro q hq
    show q ∈ log
    rw [log]
    exact List.mem_append_right _ hq
  have hpayments : (pool one).pendingPayments env = one := by decide +kernel
  have hhead : ∀ tx ∈ (pool one).pendingPayments env,
      (getAccountState tx.sender state).res = .ok ((pool one).currentState tx.sender) ∧
      (getAccountState tx.recipient state).res = .ok ((pool one).currentState tx.recipient) := by
    decide +kernel
  obtain ⟨n, hn⟩ := (hreach.good hgood).shows
  refine ⟨hpayments, ((applyTxs_pendingPayments hgood hn noVm env (pool one) ?_ hlog).1).2
    (by decide +kernel)⟩
  intro a ha
  obtain ⟨tx, htx, rfl | rfl⟩ := ha
  · exact (hhead tx htx).1
  · exact (hhead tx htx).2

/-- Two payments of `60` by an account with `100`: both are pending, and no block can have them. -/
theorem pending_payments_insufficient :
    (pool two).currentState = state.accountState ∧
      (pool two).pendingPayments env = two ∧
      (applyTxs noVm ((pool two).pendingPayments env) state).res =
        .error (.err .insufficientFunds) := by
  refine ⟨?_, by decide +kernel, by decide +kernel⟩
  have hlive : (run [(env, .addRemotes two)]
      (TxPool.new none none state.accountState)).state.live = true := by decide +kernel
  exact currentState_run_moved (by decide +kernel) hlive env state.accountState

end Affordable

end Uchain
