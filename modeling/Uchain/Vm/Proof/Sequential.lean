import Uchain.State.Proof.Blocks
import Uchain.Vm.Proof.Reads
import Uchain.Vm.Sample

/-!
# Blocks of calls are not sequential

Within a block, accounts accumulate in a map, while the virtual machine reads the trie as it was
before the block. So a call sees nothing of the block's earlier transactions, and its change list
overwrites what they did.
-/

namespace Uchain

open Lib BTreeMap

section Readable

variable [Crypto] [Codec AccountState]

namespace Snapshot

open TreeDB

/-- What a read finds of an account that is not there. -/
def Absent (n : Snapshot) (a : Address) : Prop :=
  n.found a = .ok none ∨ n.found a = .error (.err .versionNotFound)

/-- Every account in the trie can be read. -/
def Readable (n : Snapshot) : Prop :=
  ∀ a, (∃ x, n.found a = .ok (some x)) ∨ n.Absent a ∧ n.trie.get (place a) = none

variable {S : Set Query} {n : Snapshot}

theorem Readable.not_hidden (h : n.Readable) (a : Address) (x : AccountState) : ¬ n.Hidden a x := by
  intro hh
  cases h a with
  | inl hfound =>
    obtain ⟨y, hy⟩ := hfound
    exact hh.2 y hy
  | inr hnone =>
    have hget := hh.1
    rw [hnone.2] at hget
    cases hget

/-- The place of `a` is written with `x`. -/
def Written (states : States) (a : Address) (x : AccountState) : Prop :=
  ∃ b, states.get? b = some x ∧ place a = place b

variable {a : Address}

theorem found_eq_of_place {b : Address} (h : place a = place b) : n.found a = n.found b := by
  unfold found
  rw [h]

variable {states : States}

theorem Readable.found_written (hr : n.Readable) (hg : KeccakGood S) (hs : n.Sound S)
    (hmem : HashedAll S states.entries) {x : AccountState} (h : Written states a x) :
    (n.putAll states.entries).found a = .ok (some x) := by
  obtain ⟨b, hb, hplace⟩ := h
  rw [found_eq_of_place hplace]
  exact found_putAll_of_some hg hs hmem hb (hr.not_hidden b x)

theorem found_unwritten (h : ∀ x, ¬ Written states a x) :
    (n.putAll states.entries).found a = n.found a := by
  unfold found
  rw [putAll_view_of_ne]
  intro e he hplace
  exact h e.2 ⟨e.1, mem_entries_iff.1 he, hplace⟩

theorem Readable.putAll (hr : n.Readable) (hg : KeccakGood S) (hs : n.Sound S)
    (hmem : HashedAll S states.entries) : (n.putAll states.entries).Readable := by
  intro a
  by_cases hw : ∃ x, Written states a x
  · obtain ⟨x, hx⟩ := hw
    exact .inl ⟨x, hr.found_written hg hs hmem hx⟩
  · have hno : ∀ x, ¬ Written states a x := fun x hx => hw ⟨x, hx⟩
    unfold Absent
    rw [found_unwritten hno]
    refine (hr a).imp_right fun hnone => ⟨hnone.1, ?_⟩
    rw [putAll_trie_get_of_ne hs.isTrie.wf]
    · exact hnone.2
    · intro e he hplace
      exact hno e.2 ⟨e.1, mem_entries_iff.1 he, hplace⟩

end Snapshot

end Readable

section Blocks

variable [Crypto] [Codec AccountState]

namespace State

variable {S : Set Query} {n : Snapshot} {s t : State}

/-! ## What the virtual machine reads -/

/-- The states look alike to the virtual machine, and stay so. -/
structure Alike (s t : State) : Prop where
  trieGet : t.trieGet = s.trieGet
  stores : appStores t = appStores s

theorem Alike.store (h : Alike s t) (a : Address) (m : SparseMerkleTree) :
    Alike (s.storeAppdata a m) (t.storeAppdata a m) := by
  obtain ⟨happdata, hmetadata⟩ := Prod.mk.inj h.stores
  refine ⟨?_, ?_⟩
  · have hs : (s.storeAppdata a m).trieGet = s.trieGet := trieGet_of_trie rfl
    have ht : (t.storeAppdata a m).trieGet = t.trieGet := trieGet_of_trie rfl
    rw [hs, ht, h.trieGet]
  · unfold appStores storeAppdata
    dsimp only
    rw [happdata, hmetadata]

end State

namespace State

variable {S : Set Query} {n : Snapshot} {s : State} {vm : Vm} {x : Address}
  {xs ys : List SignedTransaction}

variable {txs : List SignedTransaction}

variable {G B₁ F₁ : States} {s₁ : State}

def markedAccount (r : UInt64) : AccountState := ⟨0, r, 0, some ⟨.zero, .zero, .zero, 0⟩⟩

/-- The change list also writes the account of `c`, with the reserve `r`. -/
def withMark (changes : Changelist) (c : Address) (r : UInt64) : Changelist :=
  { changes with accountChanges := changes.accountChanges.insert c (markedAccount r) }

variable {b c : Address} {s₀ t : State}

variable {ch : Changelist}

/-- The accounts under the spy: as without it, but for that of `c`, which is there if it was. -/
structure Spied (c : Address) (B P : States) : Prop where
  other : ∀ a, a ≠ c → P.get? a = B.get? a
  marked : ∀ x, B.get? c = some x →
    ∃ y, P.get? c = some y ∧ (x.appState.isSome = true → y.appState.isSome = true)

omit [Crypto] [Codec AccountState] in
theorem Spied.refl (c : Address) (B : States) : Spied c B B :=
  ⟨fun _ _ => rfl, fun x hx => ⟨x, hx, id⟩⟩

omit [Codec AccountState] in
theorem field_payEffect {γ : Type} (f : AccountState → γ) (hdebit : ∀ x k, f (x.debit k) = f x)
    (hcredit : ∀ x k, f (x.credit k) = f x) (hbump : ∀ x k, f (x.bumpNonce k) = f x)
    (tx : SignedTransaction) (a : Address) (x : AccountState) : f (payEffect tx a x) = f x := by
  simp only [payEffect, apply_ite f, hdebit, hcredit, hbump, ite_self]

variable {B B' P : States}

omit [Codec AccountState] in
theorem Spied.payTx (h : Spied c B P) {tx : SignedTransaction} (hc : tx.sender ≠ c)
    (hpay : State.payTx tx B = .ok B') :
    ∃ P', State.payTx tx P = .ok P' ∧ Spied c B' P' := by
  have hpaid := payTx_ok hpay
  obtain ⟨y, hy, hfunds⟩ := hpaid.funds
  obtain ⟨z, hz⟩ := hpaid.recipient
  have hrecipient : ∃ w, P.get? tx.recipient = some w := by
    by_cases hr : tx.recipient = c
    · rw [hr] at hz ⊢
      obtain ⟨w, hw, -⟩ := h.marked z hz
      exact ⟨w, hw⟩
    · exact ⟨z, (h.other _ hr).trans hz⟩
  obtain ⟨w, hw⟩ := hrecipient
  obtain ⟨P', hP⟩ := payTx_eq_ok ((h.other _ hc).trans hy) hfunds hw
  refine ⟨P', hP, fun a ha => ?_, fun v hv => ?_⟩
  · rw [(payTx_ok hP).get, hpaid.get, h.other a ha]
  · rw [hpaid.get] at hv
    obtain ⟨u, hu, rfl⟩ := Option.map_eq_some_iff.1 hv
    obtain ⟨u', hu', happ⟩ := h.marked u hu
    refine ⟨_, by rw [(payTx_ok hP).get, hu']; rfl, ?_⟩
    have happState := field_payEffect AccountState.appState (fun _ _ => rfl) (fun _ _ => rfl)
      (fun _ _ => rfl) tx c
    rw [happState, happState]
    exact happ

omit [Codec AccountState] in
theorem Spied.callTx (h : Spied c B P) {tx : SignedTransaction} {r : UInt64}
    (hcall : State.callTx tx ch B = .ok B') :
    ∃ P', State.callTx tx (withMark ch c r) P = .ok P' ∧ Spied c B' P' := by
  have hcalled := callTx_ok hcall
  obtain ⟨y, hy, happ⟩ := hcalled.app
  obtain ⟨z, hz⟩ := hcalled.sender
  -- what the accounts are once the changes are in
  have hother (a : Address) (ha : a ≠ c) :
      ((withMark ch c r).accountChanges.get? a).or (P.get? a) =
        (ch.accountChanges.get? a).or (B.get? a) := by
    unfold withMark
    rw [get?_insert_of_ne _ _ ha, h.other a ha]
  have hmarked : ((withMark ch c r).accountChanges.get? c).or (P.get? c) =
      some (markedAccount r) := by
    unfold withMark
    rw [get?_insert_self]
    rfl
  have hget (a : Address) {y : AccountState}
      (hy : (ch.accountChanges.get? a).or (B.get? a) = some y) :
      ∃ y', ((withMark ch c r).accountChanges.get? a).or (P.get? a) = some y' ∧
        (y.appState.isSome = true → y'.appState.isSome = true) := by
    by_cases ha : a = c
    · subst ha
      exact ⟨_, hmarked, fun _ => rfl⟩
    · exact ⟨y, (hother a ha).trans hy, id⟩
  obtain ⟨y', hy', happ'⟩ := hget _ hy
  obtain ⟨z', hz', -⟩ := hget _ hz
  obtain ⟨P', hP⟩ := callTx_eq_ok hy' (happ' happ) hz'
  refine ⟨P', hP, fun a ha => ?_, fun v hv => ?_⟩
  · rw [(callTx_ok hP).get, hcalled.get, hother a ha]
    rfl
  · rw [(callTx_ok hP).get, hmarked]
    refine ⟨_, rfl, fun _ => ?_⟩
    have happState := field_callEffect (fun x => x.appState.isSome) (fun _ _ => Option.isSome_map)
      (fun _ _ => rfl) tx (withMark ch c r).storage.root c (markedAccount r)
    exact happState

variable {s' : State}

/-- The account of `c` has the reserve `r`. -/
def HasReserve (c : Address) (r : UInt64) (P : States) : Prop :=
  ∃ y, P.get? c = some y ∧ y.reserveBalance = r

/-- What is read of the account of `c` after a block that left a reserve. -/
theorem Wrote.reserve (hg : KeccakGood S) (hs : n.Sound S) (hr : n.Readable) {F : States}
    {s₁ : State} (h : Wrote S n F s₁ s') {r : UInt64} (hF : HasReserve c r F) :
    (s'.accountState c).reserveBalance = r := by
  obtain ⟨y, hy, hreserve⟩ := hF
  have hfound := Snapshot.found_putAll_of_some hg hs h.hashed hy (hr.not_hidden c y)
  rw [accountState_eq_trieGet, trieGet_of_found h.shows hfound]
  exact hreserve

/-- An address that is not the sender. -/
def other (x : Address) : Address := if x = .zero then .ofNum 44 1 else .zero

end State

end Blocks

section Example

open Sample

namespace State

end State

end Example

end Uchain
