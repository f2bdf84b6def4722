import Mathlib.Algebra.BigOperators.Group.Finset.Piecewise
import Mathlib.Algebra.Order.BigOperators.Group.Finset
import Mathlib.Data.UInt
import Uchain.State.Proof.Reachable

/-!
# Payments and the sum of balances

`total S s`: the free balances, as read, of all addresses that were ever hashed.
-/

namespace Uchain

open Lib

section Supply

variable [Crypto]

namespace State

def freeOf (o : Option AccountState) : Nat := (o.map fun x => x.freeBalance.toNat).getD 0

def supply (A : Finset Address) (states : States) : Nat := ∑ a ∈ A, freeOf (states.get? a)

/-- The sender has the value and the fee of a payment, and the credited balance does not wrap. -/
structure Covered (tx : SignedTransaction) (states : States) : Prop where
  funds : ∀ x ∈ states.get? tx.sender, tx.price.toNat + tx.fees.toNat ≤ x.freeBalance.toNat
  credit : ∀ y ∈ states.get? tx.recipient,
    (if tx.recipient = tx.sender then y.debit (tx.price + tx.fees) else y).freeBalance.toNat +
      tx.price.toNat < 2 ^ 64

instance (tx : SignedTransaction) (states : States) : Decidable (Covered tx states) :=
  decidable_of_iff (_ ∧ _) ⟨fun ⟨h₁, h₂⟩ => ⟨h₁, h₂⟩, fun h => ⟨h.funds, h.credit⟩⟩

omit [Crypto] in
theorem debit_freeBalance {x : AccountState} {amount : UInt64} (h : amount ≤ x.freeBalance) :
    (x.debit amount).freeBalance.toNat + amount.toNat = x.freeBalance.toNat := by
  have hle := UInt64.le_iff_toNat_le.1 h
  show (x.freeBalance - amount).toNat + amount.toNat = _
  rw [UInt64.toNat_sub_of_le _ _ h]
  omega

variable {states : States} {tx : SignedTransaction}

theorem Fits.amount_toNat (h : Fits tx states) :
    (tx.price + tx.fees).toNat = tx.price.toNat + tx.fees.toNat := toNat_add_of_lt h.amount

theorem freeOf_payEffect {states' : States} (hfits : Fits tx states) (hp : Paid tx states states')
    (a : Address) :
    freeOf (states'.get? a) + (if a = tx.sender then tx.price.toNat + tx.fees.toNat else 0) =
      freeOf (states.get? a) + (if a = tx.recipient then tx.price.toNat else 0) := by
  obtain ⟨x, hx, hfunds⟩ := hp.funds
  obtain ⟨y, hy⟩ := hp.recipient
  have hamount := hfits.amount_toNat
  have hdebit := debit_freeBalance hfunds
  have hcredit := hfits.credit y hy
  rw [hp.get a]
  unfold payEffect
  by_cases hs : a = tx.sender
  · subst hs
    by_cases hr : tx.sender = tx.recipient
    · rw [← hr] at hy hcredit
      rw [hx] at hy
      cases hy
      rw [if_pos rfl] at hcredit
      have hsum := toNat_add_of_lt hcredit
      simp only [hx, ← hr, freeOf, AccountState.credit, AccountState.bumpNonce, Option.map_some,
        Option.getD_some, if_true, hsum]
      omega
    · simp only [hx, hr, freeOf, AccountState.bumpNonce, Option.map_some, Option.getD_some, if_true,
        if_false]
      omega
  · by_cases hr : a = tx.recipient
    · subst hr
      rw [if_neg hs] at hcredit
      have hsum := toNat_add_of_lt hcredit
      simp only [hy, hs, freeOf, AccountState.credit, Option.map_some, Option.getD_some, if_true,
        if_false, hsum]
      omega
    · simp only [hs, hr, if_false]
      cases states.get? a <;> rfl

/-- **A payment that fits takes its fee out of the accounts.** -/
theorem supply_payTx {A : Finset Address} {states' : States} (hfits : Fits tx states)
    (h : payTx tx states = .ok states') (hs : tx.sender ∈ A) (hr : tx.recipient ∈ A) :
    supply A states' + tx.fees.toNat = supply A states := by
  have hsum := Finset.sum_congr rfl fun a (_ : a ∈ A) => freeOf_payEffect hfits (payTx_ok h) a
  rw [Finset.sum_add_distrib, Finset.sum_add_distrib, Finset.sum_ite_eq', Finset.sum_ite_eq',
    if_pos hs, if_pos hr] at hsum
  unfold supply
  omega

def feeSum (txs : List SignedTransaction) : Nat := (txs.map fun tx => tx.fees.toNat).sum

theorem supply_payAll {A : Finset Address} : ∀ {txs : List SignedTransaction}
    {states states' : States}, Along Fits txs states → payAll txs states = .ok states' →
    (∀ a ∈ parties txs, a ∈ A) → supply A states' + feeSum txs = supply A states
  | [], states, states', _, h, _ => by
    cases h
    rfl
  | tx :: txs, states, states', hfits, h, hA => by
    obtain ⟨states₁, h₁, h₂⟩ := payAll_cons_ok h
    have hstep := supply_payTx hfits.1 h₁ (hA _ (mem_parties_cons.2 (.inl (.inl rfl))))
      (hA _ (mem_parties_cons.2 (.inl (.inr rfl))))
    have hrest := supply_payAll (hfits.tail h₁) h₂ fun a ha => hA a (mem_parties_cons.2 (.inr ha))
    have hsum : feeSum (tx :: txs) = tx.fees.toNat + feeSum txs := List.sum_cons
    omega

theorem Covered.of_fits (hfits : Fits tx states)
    (hfunds : ∀ x ∈ states.get? tx.sender, tx.price + tx.fees ≤ x.freeBalance) :
    Covered tx states := by
  refine ⟨fun x hx => ?_, hfits.credit⟩
  rw [← hfits.amount_toNat]
  exact UInt64.le_iff_toNat_le.1 (hfunds x hx)

/-- In an execution that succeeds, the payments are covered exactly if they fit. -/
theorem along_covered_iff : ∀ {txs : List SignedTransaction} {states states' : States},
    payAll txs states = .ok states' → (Along Covered txs states ↔ Along Fits txs states)
  | [], _, _, _ => Iff.rfl
  | tx :: txs, states, states', h => by
    obtain ⟨states₁, h₁, h₂⟩ := payAll_cons_ok h
    obtain ⟨x, hx, hfunds⟩ := (payTx_ok h₁).funds
    have hstep : Covered tx states ↔ Fits tx states := by
      constructor
      · intro hc
        refine ⟨lt_of_le_of_lt (hc.funds x hx) x.freeBalance.toNat_lt, hc.credit⟩
      · intro hf
        refine .of_fits hf fun x' hx' => ?_
        rw [Option.mem_def, hx] at hx'
        cases hx'
        exact hfunds
    unfold Along
    rw [h₁, hstep]
    exact and_congr_right fun _ => along_covered_iff h₂

/-! ## All accounts -/

variable [Codec AccountState]

/-- The addresses that were ever hashed: every address with an account is one. -/
noncomputable def hashedAddresses (S : Set Query) : Finset Address :=
  open Classical in Finset.univ.filter fun a => .keccak256 (Codec.encode a) ∈ S

def balance (s : State) (a : Address) : Nat := freeOf (getAccountState a s).res.toOption

noncomputable def total (S : Set Query) (s : State) : Nat := ∑ a ∈ hashedAddresses S, balance s a

variable {S : Set Query} {s s' : State} {n : Snapshot}

variable {a : Address}

omit [Crypto] [Codec AccountState] in
theorem mem_hashedAddresses :
    a ∈ hashedAddresses S ↔ .keccak256 (Codec.encode a) ∈ S := by
  simp [hashedAddresses]

theorem balance_eq (h : Shows S s n) (a : Address) : balance s a = freeOf (n.account a).toOption := by
  obtain ⟨l, hl⟩ := getAccountState_run h a
  unfold balance
  rw [hl]

/-- The balance of an account that stays hidden when it is written. -/
noncomputable def hiddenBalance (n : Snapshot) (states : States) (a : Address) : Nat :=
  open Classical in
  if ∃ x, states.get? a = some x ∧ n.Hidden a x then freeOf (states.get? a) else 0

/-- The balance of an address that is not in the map. -/
noncomputable def otherBalance (n : Snapshot) (states : States) (a : Address) : Nat :=
  match states.get? a with
  | some _ => 0
  | none => freeOf (n.account a).toOption

theorem freeOf_putAll (hg : KeccakGood S) (hs : n.Sound S)
    (hmem : Snapshot.HashedAll S states.entries) (ha : .keccak256 (Codec.encode a) ∈ S) :
    freeOf ((n.putAll states.entries).account a).toOption + hiddenBalance n states a =
      freeOf (states.get? a) + otherBalance n states a := by
  unfold hiddenBalance otherBalance Snapshot.account
  cases hget : states.get? a with
  | none =>
    rw [Snapshot.found_putAll_of_none hg hmem ha hget, if_neg (by simp), Nat.add_comm]
    rfl
  | some x =>
    by_cases hh : n.Hidden a x
    · rw [Snapshot.found_putAll_of_hidden hg hs hmem hget hh, if_pos ⟨x, rfl, hh⟩]
      -- a hidden account reads as a new one
      have hzero : freeOf (accountOf (n.found a)).toOption = 0 := by
        rcases hf : n.found a with (e | _ | _) | _ | y
        · rfl
        · rfl
        · rfl
        · rfl
        · exact absurd hf (hh.2 y)
      rw [hzero, Nat.zero_add]
      rfl
    · rw [Snapshot.found_putAll_of_some hg hs hmem hget hh, if_neg]
      · rfl
      · rintro ⟨y, hy, hy'⟩
        cases hy
        exact hh hy'

variable {states₀ : States} {txs : List SignedTransaction}

theorem freeOf_gathered (hgather : gather n.account txs .empty = .ok states₀)
    (hpay : payAll (executionOrder txs) states₀ = .ok states) (a : Address) :
    freeOf (n.account a).toOption = freeOf (states₀.get? a) + otherBalance n states a := by
  obtain ⟨hin, hout⟩ := gather_gathered hgather a
  have hget := payAll_get hpay a
  unfold otherBalance
  by_cases hparty : a ∈ parties txs
  · obtain ⟨x, hx, hget₀⟩ := hin hparty
    rw [hget₀] at hget
    rw [hx, hget₀, hget]
    rfl
  · rw [hout hparty] at hget
    rw [hout hparty, hget]
    exact (Nat.zero_add _).symm

/-- The parties of a block were hashed, once its results are written. -/
theorem parties_hashed (hgather : gather n.account txs .empty = .ok states₀)
    (hpay : payAll (executionOrder txs) states₀ = .ok states)
    (hmem : Snapshot.HashedAll S states.entries) (ha : a ∈ parties txs) :
    .keccak256 (Codec.encode a) ∈ S := by
  obtain ⟨x, -, hget₀⟩ := (gather_gathered hgather a).1 ha
  have hget := payAll_get hpay a
  rw [hget₀] at hget
  exact (hmem _ (BTreeMap.mem_entries_iff.2 hget)).1

theorem total_advance (hg : KeccakGood S) (h : Shows S s n)
    (hgather : gather n.account txs .empty = .ok states₀)
    (hpay : payAll (executionOrder txs) states₀ = .ok states)
    (hmem : Snapshot.HashedAll S states.entries) (h' : Shows S s' (n.putAll states.entries))
    (hfits : Along Fits (executionOrder txs) states₀) :
    total S s' + feeSum (executionOrder txs) + ∑ a ∈ hashedAddresses S, hiddenBalance n states a =
      total S s := by
  have hsum := Finset.sum_congr rfl fun a (ha : a ∈ hashedAddresses S) =>
    freeOf_putAll hg (h.sound hg) hmem (mem_hashedAddresses.1 ha)
  have hsum₀ := Finset.sum_congr rfl fun a (_ : a ∈ hashedAddresses S) =>
    freeOf_gathered hgather hpay a
  rw [Finset.sum_add_distrib, Finset.sum_add_distrib] at hsum
  rw [Finset.sum_add_distrib] at hsum₀
  have hpaid := supply_payAll hfits hpay fun a ⟨tx, htx, hor⟩ => mem_hashedAddresses.2
    (parties_hashed hgather hpay hmem ⟨tx, mem_executionOrder htx, hor⟩)
  unfold total
  simp only [balance_eq h, balance_eq h']
  unfold supply at hpaid
  omega

/-- No account with a balance stays hidden when the results of the block are written. -/
def HidesNoBalance (S : Set Query) (s : State) (txs : List SignedTransaction) : Prop :=
  ∀ n states, Shows S s n → n.results txs = .ok states →
    ∀ a x, states.get? a = some x → n.Hidden a x → x.freeBalance = 0

theorem not_hidden_of_found (hn : Shows S s n) {x y : AccountState}
    (h : (onTrie (TreeDB.get a) s).res = .ok (some y)) : ¬ n.Hidden a x := by
  intro hh
  obtain ⟨l, hl⟩ := get_run hn a
  rw [hl] at h
  exact hh.2 y h

/-- Nothing is hidden if the account of every party is found. -/
theorem hidesNoBalance_of_found
    (h : ∀ tx ∈ txs, (∃ x : AccountState, (onTrie (TreeDB.get tx.sender) s).res = .ok (some x)) ∧ ∃ x : AccountState, (onTrie (TreeDB.get tx.recipient) s).res = .ok (some x))
    :
    HidesNoBalance S s txs := by
  intro n states hn hres a x hget hh
  obtain ⟨states₀, hgather, hpay⟩ := Snapshot.results_ok hres
  have hparty : a ∈ parties txs := by
    by_contra hout
    rw [payAll_get hpay a, (gather_gathered hgather a).2 hout] at hget
    cases hget
  have hfound : ∃ y : AccountState, (onTrie (TreeDB.get a) s).res = .ok (some y) := by
    obtain ⟨tx, htx, rfl | rfl⟩ := hparty
    · exact (h tx htx).1
    · exact (h tx htx).2
  obtain ⟨y, hy⟩ := hfound
  exact absurd hh (not_hidden_of_found hn hy)

theorem hiddenBalance_sum_eq_zero_iff (hmem : Snapshot.HashedAll S states.entries) :
    ∑ a ∈ hashedAddresses S, hiddenBalance n states a = 0 ↔
      ∀ a x, states.get? a = some x → n.Hidden a x → x.freeBalance = 0 := by
  rw [Finset.sum_eq_zero_iff]
  unfold hiddenBalance
  constructor
  · intro h a x hget hh
    have hkey := (hmem _ (BTreeMap.mem_entries_iff.2 hget)).1
    have hzero := h a (mem_hashedAddresses.2 hkey)
    rw [if_pos ⟨x, hget, hh⟩, hget] at hzero
    exact UInt64.toNat_inj.1 hzero
  · intro h a _
    split
    · rename_i hex
      obtain ⟨x, hget, hh⟩ := hex
      rw [hget]
      show x.freeBalance.toNat = 0
      rw [h a x hget hh]
      rfl
    · rfl

/-! ## The supply as a bound -/

/-- When value is conserved, in terms of a snapshot. -/
theorem conserved_iff (hg : KeccakGood S) (h : Shows S s n)
    (hgather : gather n.account txs .empty = .ok states₀)
    (hpay : payAll (executionOrder txs) states₀ = .ok states) (hres : n.results txs = .ok states)
    (hmem : Snapshot.HashedAll S states.entries) (h' : Shows S s' (n.putAll states.entries)) :
    (total S s' + feeSum (executionOrder txs) = total S s ∧ AlongFrom Covered txs s) ↔
      (AlongFrom Fits txs s ∧ HidesNoBalance S s txs) := by
  have hhides : HidesNoBalance S s txs ↔
      ∀ a x, states.get? a = some x → n.Hidden a x → x.freeBalance = 0 := by
    constructor
    · intro hh
      exact hh n states h hres
    · intro hh n' states' hn' hres'
      obtain rfl := h.unique hg hn'
      rw [hres] at hres'
      cases hres'
      exact hh
  rw [alongFrom_iff h hgather, alongFrom_iff h hgather, along_covered_iff hpay, hhides,
    ← hiddenBalance_sum_eq_zero_iff hmem, and_comm]
  refine and_congr_right fun hfits => ?_
  have htotal := total_advance hg h hgather hpay hmem h' hfits
  omega

/-- **A block of payments conserves value exactly if, at each payment, value and fee together and the
credited balance stay below `2 ^ 64`**, and no account with a balance stays hidden. -/
theorem applyTxs_conserves_iff (hg : KeccakGood S) {vm : Vm} (hs : Reachable vm S s)
    {txs : List SignedTransaction} (hpay : ∀ tx ∈ txs, tx.isPayment = true) {l : List Query}
    (hok : applyTxs vm txs s = ⟨.ok (), s', l⟩) (hlog : ∀ q ∈ l, q ∈ S) :
    (total S s' + feeSum (executed vm txs s) = total S s ∧ AlongFrom Covered txs s) ↔
      (AlongFrom Fits txs s ∧ HidesNoBalance S s txs) := by
  obtain ⟨n, hn⟩ := (hs.good hg).shows
  obtain ⟨states₀, states, hgather, hpayAll, hres, hshows, -, hmem⟩ :=
    applyTxs_ok hg hn hpay hok hlog
  rw [executed_of_ok hok]
  exact conserved_iff hg hn hgather hpayAll hres hmem hshows

end State

end Supply

namespace Supply

open Sample
open State

def sampleCalls : List Call :=
  [.creditBalance (address 1) 100, .creditBalance (address 9) 5]

@[irreducible] def sampleState : State := (Call.runAll noVm sampleCalls State.new).state

def sampleTxs : List SignedTransaction := [pay 1 9 1 10 1]

@[irreducible] def sampleLog : List Query :=
  (Call.runAll noVm sampleCalls State.new).log ++ (applyTxs noVm sampleTxs sampleState).log

theorem applyTxs_conserves_sample :
    total {q | q ∈ sampleLog} (applyTxs noVm sampleTxs sampleState).state + 1 =
      total {q | q ∈ sampleLog} sampleState := by
  have hok : (applyTxs noVm sampleTxs sampleState).res = .ok () := by decide +kernel
  have hreach : Reachable noVm {q | q ∈ sampleLog} sampleState := by
    unfold sampleState
    refine ReachableBy.new.runAll sampleCalls (fun _ _ => trivial) fun q hq => ?_
    show q ∈ sampleLog
    rw [sampleLog]
    exact List.mem_append_left _ hq
  have hgood : KeccakGood {q | q ∈ sampleLog} :=
    keccakGood_of_collisionFree (by decide +kernel)
  have hlog : ∀ q ∈ (applyTxs noVm sampleTxs sampleState).log, q ∈ {q | q ∈ sampleLog} := by
    intro q hq
    show q ∈ sampleLog
    rw [sampleLog]
    exact List.mem_append_right _ hq
  have hfound (k : Nat) (x : AccountState)
      (h : (onTrie (TreeDB.get (address k)) sampleState).res = .ok (some x)) :
      ∃ x : AccountState, (onTrie (TreeDB.get (address k)) sampleState).res = .ok (some x) :=
    ⟨x, h⟩
  have hhides : HidesNoBalance {q | q ∈ sampleLog} sampleState sampleTxs := by
    refine hidesNoBalance_of_found fun tx htx => ?_
    obtain rfl := List.mem_singleton.1 htx
    exact ⟨hfound 1 ⟨100, 0, 1, none⟩ (by decide +kernel),
      hfound 9 ⟨5, 0, 1, none⟩ (by decide +kernel)⟩
  have hiff := applyTxs_conserves_iff hgood hreach (by decide +kernel) (Run.eq_of_res hok) hlog
  have hfees : feeSum (executed noVm sampleTxs sampleState) = 1 := by decide +kernel
  rw [hfees] at hiff
  exact (hiff.2 ⟨by decide +kernel, hhides⟩).1

/-- A payment of `2 ^ 64 - 1` with a fee of `2` from an account with `10`: the sum wraps to `1`, which
is all that the sender pays. -/
theorem applyTxs_creates_value :
    let s := (creditBalance (address 1) 10 State.new).state
    let txs := [pay 1 2 1 (2 ^ 64 - 1) 2]
    let s' := (applyTxs noVm txs s).state
    (applyTxs noVm txs s).res = .ok () ∧ executed noVm txs s = txs ∧ ¬ AlongFrom Covered txs s ∧
      balance s (address 1) = 10 ∧ balance s (address 2) = 0 ∧
      balance s' (address 1) = 9 ∧ balance s' (address 2) = 2 ^ 64 - 1 := by
  decide +kernel

end Supply

end Uchain
