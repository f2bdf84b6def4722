import Uchain.State.Proof.Replay
import Uchain.State.Proof.Supply

/-!
# Nonces of senders

A payment moves the nonce of its sender past the larger of the two counters, in the arithmetic of
`u64`. At the largest number this is zero.

* `nonceAfter`: the nonce of an account after its transactions.
-/

namespace Uchain

open Lib

namespace State

/-! ## The counter -/

/-- What `apply_transaction` makes of the nonce `k` of an account and the nonce `n` of a transaction. -/
def nextNonce (k n : UInt64) : UInt64 := if n > k then n + 1 else k + 1

def nonceAfter (k : UInt64) (ns : List UInt64) : UInt64 := ns.foldl nextNonce k

/-- The larger of the two counters at the last transaction is not below the nonce before, and can be
counted up. -/
def Headroom (k : UInt64) (ns : List UInt64) : Prop :=
  k.toNat ≤ max (nonceAfter k ns.dropLast).toNat (ns.getLastD k).toNat ∧
    max (nonceAfter k ns.dropLast).toNat (ns.getLastD k).toNat + 1 < 2 ^ 64

instance (k : UInt64) (ns : List UInt64) : Decidable (Headroom k ns) :=
  inferInstanceAs (Decidable (_ ∧ _))

theorem nextNonce_toNat (k n : UInt64) :
    (nextNonce k n).toNat = (max k.toNat n.toNat + 1) % 2 ^ 64 := by
  unfold nextNonce
  split
  · rename_i h
    rw [UInt64.toNat_add, max_eq_right (Nat.le_of_lt (UInt64.lt_iff_toNat_lt.1 h))]
    rfl
  · rename_i h
    rw [UInt64.toNat_add, max_eq_left (UInt64.le_iff_toNat_le.1 (UInt64.not_lt.1 h))]
    rfl

/-- **When the nonce is past all counters.** The nonces of the transactions are in order. -/
theorem nonceAfter_past_iff {k : UInt64} {ns : List UInt64} (hsorted : ns.Pairwise (· ≤ ·))
    (hne : ns ≠ []) :
    (k < nonceAfter k ns ∧ ∀ n ∈ ns, n < nonceAfter k ns) ↔ Headroom k ns := by
  obtain ⟨init, n, rfl⟩ := (List.eq_nil_or_concat ns).resolve_left hne
  rw [List.concat_eq_append] at hsorted ⊢
  have hle : ∀ m ∈ init, m.toNat ≤ n.toNat := fun m hm =>
    UInt64.le_iff_toNat_le.1 ((List.pairwise_append.1 hsorted).2.2 m hm n (List.mem_singleton.2 rfl))
  have hafter : (nonceAfter k (init ++ [n])).toNat =
      (max (nonceAfter k init).toNat n.toNat + 1) % 2 ^ 64 := by
    rw [nonceAfter, List.foldl_append]
    exact nextNonce_toNat _ _
  have hlt := (nonceAfter k init).toNat_lt
  have hlt' := n.toNat_lt
  rw [Headroom, List.dropLast_concat, List.getLastD_concat]
  simp only [UInt64.lt_iff_toNat_lt, hafter]
  constructor
  · rintro ⟨hk, -⟩
    by_cases hroom : max (nonceAfter k init).toNat n.toNat + 1 < 2 ^ 64
    · rw [Nat.mod_eq_of_lt hroom] at hk
      exact ⟨by omega, hroom⟩
    · have hfull : max (nonceAfter k init).toNat n.toNat + 1 = 2 ^ 64 := by omega
      rw [hfull, Nat.mod_self] at hk
      omega
  · rintro ⟨hk, hroom⟩
    rw [Nat.mod_eq_of_lt hroom]
    refine ⟨by omega, fun m hm => ?_⟩
    rcases List.mem_append.1 hm with hm | hm
    · have := hle m hm
      omega
    · rw [List.mem_singleton.1 hm]
      omega

/-- Without a wrap each transaction counts up by one, from one of the counters. -/
theorem nonceAfter_bounds (ns : List UInt64) : ∀ {k : UInt64} {B : Nat}, k.toNat ≤ B →
    (∀ n ∈ ns, n.toNat ≤ B) → B + ns.length < 2 ^ 64 →
    k.toNat ≤ (nonceAfter k ns).toNat ∧ (nonceAfter k ns).toNat ≤ B + ns.length := by
  induction ns with
  | nil => exact fun hk _ _ => ⟨le_refl _, hk⟩
  | cons n ns ih =>
    intro k B hk hns hB
    rw [List.length_cons] at hB ⊢
    obtain ⟨hn, hrest⟩ := List.forall_mem_cons.1 hns
    have hnext := nextNonce_toNat k n
    rw [Nat.mod_eq_of_lt (by omega)] at hnext
    obtain ⟨h₁, h₂⟩ := ih (k := nextNonce k n) (B := B + 1) (by omega)
      (fun m hm => (hrest m hm).trans (Nat.le_succ _)) (by omega)
    have hcons : nonceAfter k (n :: ns) = nonceAfter (nextNonce k n) ns := rfl
    rw [hcons]
    exact ⟨by omega, by omega⟩

/-- There is room if no counter comes within the number of transactions of `2 ^ 64`. -/
theorem headroom_of_lt {k : UInt64} {ns : List UInt64} (hne : ns ≠ [])
    (hk : k.toNat + ns.length < 2 ^ 64) (hns : ∀ n ∈ ns, n.toNat + ns.length < 2 ^ 64) :
    Headroom k ns := by
  obtain ⟨init, n, rfl⟩ := (List.eq_nil_or_concat ns).resolve_left hne
  rw [List.concat_eq_append] at hk hns ⊢
  rw [List.length_append, List.length_singleton] at hk hns
  obtain ⟨h₁, h₂⟩ := nonceAfter_bounds init (k := k)
    (B := 2 ^ 64 - 2 - init.length) (by omega) (fun m hm => by have := hns m (List.mem_append_left _ hm); omega) (by omega)
  have hn := hns n (List.mem_append_right _ (List.mem_singleton.2 rfl))
  rw [Headroom, List.dropLast_concat, List.getLastD_concat]
  omega

/-! ## Blocks -/

section Blocks

variable [Crypto]

def sentNonces (a : Address) (txs : List SignedTransaction) : List UInt64 :=
  (txs.filter fun tx => tx.sender = a).map fun tx => tx.nonce

theorem sentNonces_cons (a : Address) (tx : SignedTransaction) (txs : List SignedTransaction) :
    sentNonces a (tx :: txs) =
      if tx.sender = a then tx.nonce :: sentNonces a txs else sentNonces a txs := by
  unfold sentNonces
  rw [List.filter_cons]
  split
  · rename_i h
    rw [if_pos (of_decide_eq_true h)]
    rfl
  · rename_i h
    rw [if_neg fun hs => h (decide_eq_true hs)]

theorem payEffect_nonce_sender (tx : SignedTransaction) (x : AccountState) :
    (payEffect tx tx.sender x).nonce = nextNonce x.nonce tx.nonce := by
  unfold payEffect
  simp only [if_true]
  split <;> rfl

theorem payEffects_nonce (a : Address) (txs : List SignedTransaction) :
    ∀ x : AccountState, (txs.foldl (fun x tx => payEffect tx a x) x).nonce =
      nonceAfter x.nonce (sentNonces a txs) := by
  induction txs with
  | nil => exact fun x => rfl
  | cons tx txs ih =>
    intro x
    rw [List.foldl_cons, ih, sentNonces_cons]
    split
    · rename_i hs
      subst hs
      rw [payEffect_nonce_sender]
      rfl
    · rename_i hs
      rw [payEffect_nonce_of_ne hs]

theorem sentNonces_sorted (a : Address) (txs : List SignedTransaction) :
    (sentNonces a (executionOrder txs)).Pairwise (· ≤ ·) := by
  refine List.pairwise_map.2 (List.pairwise_filter.2 ?_)
  refine (executionOrder_pairwise txs).imp fun {x y} h hx hy => ?_
  exact NoncePricedTransaction.nonce_le_of_lt
    (h ((of_decide_eq_true hx).trans (of_decide_eq_true hy).symm))

theorem sentNonces_eq_nil {a : Address} {txs : List SignedTransaction}
    (h : ∀ tx ∈ txs, tx.sender ≠ a) : sentNonces a txs = [] := by
  rw [sentNonces, List.map_eq_nil_iff, List.filter_eq_nil_iff]
  exact fun tx htx hs => h tx htx (of_decide_eq_true hs)

variable [Codec AccountState] {S : Set Query} {s s' : State} {n : Snapshot}
  {txs : List SignedTransaction} {states₀ states : States} {a : Address}

/-- The nonce that is read of an account is past the one that was read before, and past those of its
transactions. -/
def NonceGrows (s s' : State) (ran : List SignedTransaction) (a : Address) : Prop :=
  ∃ k ∈ readNonce s a, ∃ y ∈ readNonce s' a, k < y ∧ ∀ m ∈ sentNonces a ran, m < y

theorem nonceGrows_of_read {ran : List SignedTransaction} {k y : UInt64}
    (hread : readNonce s a = some k) (hread' : readNonce s' a = some y) :
    NonceGrows s s' ran a ↔ k < y ∧ ∀ m ∈ sentNonces a ran, m < y := by
  rw [NonceGrows, hread, hread']
  simp only [Option.mem_some_iff, exists_eq_left']

/-- No sender stays hidden when the results of the block are written. -/
def HidesNoSender (S : Set Query) (s : State) (txs : List SignedTransaction) : Prop :=
  ∀ n states, Shows S s n → n.results txs = .ok states →
    ∀ tx ∈ txs, ∀ x, states.get? tx.sender = some x → ¬ n.Hidden tx.sender x

theorem hidesNoSender_of_found (h : ∀ tx ∈ txs, ∃ x : AccountState,
    (onTrie (TreeDB.get tx.sender) s).res = .ok (some x)) : HidesNoSender S s txs := by
  intro n states hn _ tx htx x _
  obtain ⟨y, hy⟩ := h tx htx
  exact not_hidden_of_found hn hy

theorem readNonce_eq (h : Shows S s n) (a : Address) :
    readNonce s a = (n.account a).toOption.map fun x => x.nonce := by
  obtain ⟨l, hl⟩ := getAccountState_run h a
  unfold readNonce
  rw [hl]

theorem readNonce_written (hg : KeccakGood S) (hn : Shows S s n)
    (hmem : Snapshot.HashedAll S states.entries) (h' : Shows S s' (n.putAll states.entries))
    {z : AccountState} (hget : states.get? a = some z) :
    (n.Hidden a z → readNonce s' a = readNonce s a) ∧
      (¬ n.Hidden a z → readNonce s' a = some z.nonce) := by
  rw [readNonce_eq h', readNonce_eq hn, Snapshot.account, Snapshot.account]
  refine ⟨fun hh => ?_, fun hh => ?_⟩
  · rw [Snapshot.found_putAll_of_hidden hg (hn.sound hg) hmem hget hh]
  · rw [Snapshot.found_putAll_of_some hg (hn.sound hg) hmem hget hh]
    rfl

/-- **One sender.** -/
theorem nonceGrows_iff (hg : KeccakGood S) (hn : Shows S s n)
    (hgather : gather n.account txs .empty = .ok states₀)
    (hpay : payAll (executionOrder txs) states₀ = .ok states)
    (hmem : Snapshot.HashedAll S states.entries) (h' : Shows S s' (n.putAll states.entries))
    {tx : SignedTransaction} (htx : tx ∈ txs) :
    NonceGrows s s' (executionOrder txs) tx.sender ↔
      (∀ k ∈ readNonce s tx.sender, Headroom k (sentNonces tx.sender (executionOrder txs))) ∧
        ∀ z, states.get? tx.sender = some z → ¬ n.Hidden tx.sender z := by
  obtain ⟨x, hx, hget₀⟩ := (gather_gathered hgather tx.sender).1 ⟨tx, htx, .inl rfl⟩
  have hread : readNonce s tx.sender = some x.nonce := by
    rw [readNonce_eq hn, hx]
    rfl
  have hget := payAll_get hpay tx.sender
  rw [hget₀, Option.map_some] at hget
  have hne : sentNonces tx.sender (executionOrder txs) ≠ [] := by
    obtain ⟨tx', htx', hs, -⟩ := exists_mem_executionOrder htx
    refine List.ne_nil_of_mem (List.mem_map.2 ⟨tx', List.mem_filter.2 ⟨htx', ?_⟩, rfl⟩)
    exact decide_eq_true hs
  obtain ⟨hhidden, hshown⟩ := readNonce_written hg hn hmem h' hget
  rw [payEffects_nonce] at hshown
  by_cases hh : n.Hidden tx.sender
      ((executionOrder txs).foldl (fun x t => payEffect t tx.sender x) x)
  · -- what is read is what was read before
    rw [nonceGrows_of_read hread ((hhidden hh).trans hread)]
    exact ⟨fun hgrow => absurd hgrow.1 (UInt64.lt_irrefl _), fun h => absurd hh (h.2 _ hget)⟩
  · rw [nonceGrows_of_read hread (hshown hh), nonceAfter_past_iff (sentNonces_sorted _ txs) hne]
    refine ⟨fun hroom => ⟨fun k hk => ?_, fun z hz => ?_⟩, fun h => h.1 _ hread⟩
    · rw [hread] at hk
      cases hk
      exact hroom
    · rw [hget] at hz
      cases hz
      exact hh

/-- **An account that sends nothing** keeps its nonce. -/
theorem readNonce_of_not_sender (hg : KeccakGood S) (hn : Shows S s n)
    (hgather : gather n.account txs .empty = .ok states₀)
    (hpay : payAll (executionOrder txs) states₀ = .ok states)
    (hmem : Snapshot.HashedAll S states.entries) (h' : Shows S s' (n.putAll states.entries))
    (ha : .keccak256 (Codec.encode a) ∈ S) (hnot : ∀ tx ∈ txs, tx.sender ≠ a) :
    readNonce s' a = readNonce s a := by
  have hget := payAll_get hpay a
  by_cases hparty : a ∈ parties txs
  · obtain ⟨x, hx, hget₀⟩ := (gather_gathered hgather a).1 hparty
    rw [hget₀, Option.map_some] at hget
    obtain ⟨hhidden, hshown⟩ := readNonce_written hg hn hmem h' hget
    by_cases hh : n.Hidden a ((executionOrder txs).foldl (fun x t => payEffect t a x) x)
    · exact hhidden hh
    · rw [hshown hh, payEffects_nonce,
        sentNonces_eq_nil fun tx htx => hnot tx (mem_executionOrder htx), readNonce_eq hn, hx]
      rfl
  · rw [(gather_gathered hgather a).2 hparty, Option.map_none] at hget
    rw [readNonce_eq h', readNonce_eq hn, Snapshot.account, Snapshot.account,
      Snapshot.found_putAll_of_none hg hmem ha hget]

/-- **When nonces grow.** For every block of payments that succeeds: the nonce of every sender is past
its nonce before and those of its executed transactions, exactly if there is room above its last
transaction and it does not stay hidden. All other accounts keep their nonces in any case. -/
theorem applyTxs_nonces_grow_iff (hg : KeccakGood S) {vm : Vm} (hs : Reachable vm S s)
    (hpay : ∀ tx ∈ txs, tx.isPayment = true) {l : List Query}
    (hok : applyTxs vm txs s = ⟨.ok (), s', l⟩) (hlog : ∀ q ∈ l, q ∈ S) :
    ((∀ tx ∈ txs, NonceGrows s s' (executed vm txs s) tx.sender) ↔
      (∀ tx ∈ txs, ∀ k ∈ readNonce s tx.sender,
        Headroom k (sentNonces tx.sender (executed vm txs s))) ∧ HidesNoSender S s txs) ∧
    ∀ a, .keccak256 (Codec.encode a) ∈ S → (∀ tx ∈ txs, tx.sender ≠ a) →
      readNonce s' a = readNonce s a := by
  obtain ⟨n, hn⟩ := (hs.good hg).shows
  obtain ⟨states₀, states, hgather, hpayAll, hres, hshows, -, hmem⟩ :=
    applyTxs_ok hg hn hpay hok hlog
  rw [executed_of_ok hok]
  have hsender {tx : SignedTransaction} (htx : tx ∈ txs) :=
    nonceGrows_iff hg hn hgather hpayAll hmem hshows htx
  refine ⟨⟨fun hgrow => ⟨fun tx htx => ((hsender htx).1 (hgrow tx htx)).1, ?_⟩, fun h tx htx => ?_⟩,
    fun a ha hnot => readNonce_of_not_sender hg hn hgather hpayAll hmem hshows ha hnot⟩
  · intro n' states' hn' hres' tx htx
    obtain rfl := hn.unique hg hn'
    rw [hres] at hres'
    cases hres'
    exact ((hsender htx).1 (hgrow tx htx)).2
  · exact (hsender htx).2 ⟨h.1 tx htx, h.2 n states hn hres tx htx⟩

end Blocks

end State

namespace Nonces

open Sample
open State

def sampleCalls : List Call := [.creditBalance (address 1) 100]

@[irreducible] def sampleState : State := (Call.runAll noVm sampleCalls State.new).state

def sampleTxs : List SignedTransaction :=
  [pay 1 2 7 10 1, pay 1 2 3 10 1, pay 1 3 7 11 1]

@[irreducible] def sampleLog : List Query :=
  (Call.runAll noVm sampleCalls State.new).log ++ (applyTxs noVm sampleTxs sampleState).log

theorem applyTxs_nonces_grow_sample :
    NonceGrows sampleState (applyTxs noVm sampleTxs sampleState).state
      (executed noVm sampleTxs sampleState) (address 1) := by
  have hok : (applyTxs noVm sampleTxs sampleState).res = .ok () := by decide +kernel
  have hreach : Reachable noVm {q | q ∈ sampleLog} sampleState := by
    unfold sampleState
    refine ReachableBy.new.runAll sampleCalls (fun _ _ => trivial) fun q hq => ?_
    show q ∈ sampleLog
    rw [sampleLog]
    exact List.mem_append_left _ hq
  have hgood : KeccakGood {q | q ∈ sampleLog} :=
    keccakGood_of_collisionFree (by decide +kernel)
  have hlog : ∀ q ∈ (applyTxs noVm sampleTxs sampleState).log, q ∈ {q | q ∈ sampleLog} := by
    intro q hq
    show q ∈ sampleLog
    rw [sampleLog]
    exact List.mem_append_right _ hq
  have hsender : ∀ tx ∈ sampleTxs, tx.sender = address 1 := by decide +kernel
  have hfound : (onTrie (TreeDB.get (address 1)) sampleState).res =
      .ok (some (⟨100, 0, 1, none⟩ : AccountState)) := by decide +kernel
  have hread : readNonce sampleState (address 1) = some 1 := by decide +kernel
  have hsent : sentNonces (address 1) (executed noVm sampleTxs sampleState) = [3, 7, 7] := by
    decide +kernel
  have hiff := applyTxs_nonces_grow_iff hgood hreach (by decide +kernel) (Run.eq_of_res hok) hlog
  have hgrow := hiff.1.2 ⟨fun tx htx k hk => ?_, hidesNoSender_of_found fun tx htx => ?_⟩
  · rw [← hsender _ List.mem_cons_self]
    exact hgrow _ List.mem_cons_self
  · rw [hsender tx htx, hread] at hk
    cases hk
    rw [hsender tx htx, hsent]
    exact headroom_of_lt (by decide) (by decide) (by simp)
  · rw [hsender tx htx]
    exact ⟨_, hfound⟩

/-- A payment with the largest nonce: the nonce of its sender falls from one to zero. -/
theorem applyTxs_resets_nonce :
    let txs := [pay 1 2 (2 ^ 64 - 1) 10 1]
    (applyTxs noVm txs sampleState).res = .ok () ∧ executed noVm txs sampleState = txs ∧
      readNonce sampleState (address 1) = some 1 ∧
      readNonce (applyTxs noVm txs sampleState).state (address 1) = some 0 := by
  decide +kernel

end Nonces

end Uchain
