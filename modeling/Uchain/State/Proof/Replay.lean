import Uchain.State.Proof.Rooted

/-!
# Replays

`apply_txs` does not compare the nonce of a transaction with the nonce of its sender: it only moves
the sender's nonce past it. What protects against replays is therefore a check by the caller
(`Guarded`): in each block the nonces of a sender differ and are not below the sender's nonce.
-/

namespace Uchain

open Lib Exec

section Replay

variable [Crypto]

namespace State

variable {a : Address} {tx : SignedTransaction}

theorem payEffect_nonce_of_ne (h : tx.sender ≠ a) (x : AccountState) :
    (payEffect tx a x).nonce = x.nonce := by
  unfold payEffect
  simp only [if_neg h.symm]
  split <;> rfl

theorem payEffect_nonce {x : AccountState} (h : x.nonce ≤ tx.nonce) :
    (payEffect tx tx.sender x).nonce = tx.nonce + 1 := by
  have hbump (z : AccountState) (hz : z.nonce = x.nonce) :
      (z.bumpNonce tx.nonce).nonce = tx.nonce + 1 := by
    unfold AccountState.bumpNonce
    dsimp only
    split
    · rfl
    · rename_i hgt
      rw [hz] at hgt ⊢
      rw [UInt64.le_antisymm h (UInt64.not_lt.1 hgt)]
  unfold payEffect
  simp only [if_true]
  split
  · exact hbump _ rfl
  · exact hbump _ rfl

/-- Executed transactions of one sender have increasing nonces. -/
def Increasing (txs : List SignedTransaction) : Prop :=
  txs.Pairwise fun t t' => t.sender = t'.sender → t.nonce < t'.nonce

theorem nonce_payAll {a : Address} : ∀ {txs : List SignedTransaction} {states states' : States}
    {x y : AccountState}, payAll txs states = .ok states' → Increasing txs →
    (∀ tx ∈ txs, tx.sender = a → x.nonce ≤ tx.nonce ∧ tx.nonce.toNat + 1 < 2 ^ 64) →
    states.get? a = some x → states'.get? a = some y →
    x.nonce ≤ y.nonce ∧ ∀ tx ∈ txs, tx.sender = a → tx.nonce < y.nonce
  | [], states, states', x, y, h, _, _, hx, hy => by
    cases h
    rw [hx] at hy
    cases hy
    exact ⟨UInt64.le_refl _, nofun⟩
  | tx :: txs, states, states', x, y, h, hinc, hle, hx, hy => by
    obtain ⟨states₁, h₁, h₂⟩ := payAll_cons_ok h
    obtain ⟨hhead, htail⟩ := List.pairwise_cons.1 hinc
    have hx₁ : states₁.get? a = some (payEffect tx a x) := by
      rw [(payTx_ok h₁).get a, hx]
      rfl
    by_cases hs : tx.sender = a
    · subst hs
      obtain ⟨hxle, hbound⟩ := hle tx List.mem_cons_self rfl
      have hnonce := payEffect_nonce hxle
      have hsucc : (tx.nonce + 1).toNat = tx.nonce.toNat + 1 := toNat_add_of_lt hbound
      obtain ⟨hy₁, hall⟩ := nonce_payAll h₂ htail (fun t ht hts => by
        refine ⟨?_, (hle t (List.mem_cons_of_mem _ ht) hts).2⟩
        rw [hnonce, UInt64.le_iff_toNat_le, hsucc]
        exact UInt64.lt_iff_toNat_lt.1 (hhead t ht hts.symm)) hx₁ hy
      rw [hnonce, UInt64.le_iff_toNat_le, hsucc] at hy₁
      have hlt : tx.nonce < y.nonce := UInt64.lt_iff_toNat_lt.2 hy₁
      refine ⟨UInt64.le_of_lt (UInt64.lt_of_le_of_lt hxle hlt), fun t ht hts => ?_⟩
      rcases List.mem_cons.1 ht with rfl | ht
      · exact hlt
      · exact hall t ht hts
    · have hnonce := payEffect_nonce_of_ne hs x
      obtain ⟨hy₁, hall⟩ := nonce_payAll h₂ htail (fun t ht hts => by
        rw [hnonce]
        exact hle t (List.mem_cons_of_mem _ ht) hts) hx₁ hy
      rw [hnonce] at hy₁
      refine ⟨hy₁, fun t ht hts => ?_⟩
      rcases List.mem_cons.1 ht with rfl | ht
      · exact absurd hts hs
      · exact hall t ht hts

/-! ## Runs -/

variable [Codec AccountState]

/-- The nonce that a read of an account returns. -/
def readNonce (s : State) (a : Address) : Option UInt64 :=
  (getAccountState a s).res.toOption.map fun x => x.nonce

/-- A block of payments whose nonces are not below those of their senders, and differ. -/
structure Guarded (txs : List SignedTransaction) (s : State) : Prop where
  payments : ∀ tx ∈ txs, tx.isPayment = true
  nonce : ∀ tx ∈ txs, ∀ k ∈ readNonce s tx.sender, k ≤ tx.nonce
  bound : ∀ tx ∈ txs, tx.nonce.toNat + 1 < 2 ^ 64
  distinct : ∀ x ∈ txs, ∀ y ∈ txs, x.sender = y.sender → x.nonce = y.nonce → x = y

/-- A call of a guarded run: a guarded block, a change of a balance, or a commit. -/
def Call.Guarded (c : Call) (s : State) : Prop :=
  match c with
  | applyTxs txs => State.Guarded txs s
  | creditBalance _ _ => True
  | debitBalance _ _ => True
  | commit => True
  | _ => False

/-- Every call of the run is guarded, in the state in which it is made. -/
def GuardedRun (vm : Vm) : List Call → State → Prop
  | [], _ => True
  | c :: calls, s => c.Guarded s ∧ GuardedRun vm calls (c.run vm s).state

def runLog (vm : Vm) : List Call → State → List Query
  | [], _ => []
  | c :: calls, s => (c.run vm s).log ++ runLog vm calls (c.run vm s).state

/-- The transactions that a call executes and keeps. -/
def Call.executed (vm : Vm) (c : Call) (s : State) : List SignedTransaction :=
  match c with
  | applyTxs txs => match (State.applyTxs vm txs s).res with
    | .ok _ => State.executed vm txs s
    | .error _ => []
  | _ => []

def trace (vm : Vm) : List Call → State → List SignedTransaction
  | [], _ => []
  | c :: calls, s => c.executed vm s ++ trace vm calls (c.run vm s).state

/-- The trie has an account for the sender with a nonce past that of the transaction. -/
def Past (S : Set Query) (n : Snapshot) (tx : SignedTransaction) : Prop :=
  ∃ x : AccountState, n.trie.get (TreeDB.place tx.sender) = some (Crypto.keccak256 x.stored) ∧
    .keccak256 x.stored ∈ S ∧ .keccak256 (Codec.encode tx.sender) ∈ S ∧ tx.nonce < x.nonce

/-- The invariant of a guarded run: the nonces of the senders are past those executed so far. -/
structure Passed (S : Set Query) (done : List SignedTransaction) (s : State) : Prop where
  good : Good S s
  rooted : s.trie.Rooted
  past : ∃ n, Shows S s n ∧ ∀ tx ∈ done, Past S n tx

variable {S : Set Query} {s s' : State} {n : Snapshot} {vm : Vm} {done : List SignedTransaction}

theorem Past.put (hg : KeccakGood S) (hs : n.Sound S) (h : Past S n tx) {y : AccountState}
    (hkey : .keccak256 (Codec.encode a) ∈ S) (hval : .keccak256 y.stored ∈ S)
    (hle : ∀ x : AccountState, n.trie.get (TreeDB.place a) = some (Crypto.keccak256 x.stored) → .keccak256 x.stored ∈ S → x.nonce ≤ y.nonce) :
    Past S (n.put a y) tx := by
  obtain ⟨x, hget, hx, hsender, hlt⟩ := h
  by_cases ha : tx.sender = a
  · subst ha
    refine ⟨y, ?_, hval, hkey, UInt64.lt_of_lt_of_le hlt (hle x hget hx)⟩
    rw [Snapshot.put_trie_get hs.isTrie.wf, if_pos rfl]
  · refine ⟨x, ?_, hx, hsender, hlt⟩
    rw [Snapshot.put_trie_get hs.isTrie.wf, if_neg]
    · exact hget
    · exact fun he => ha (Snapshot.place_inj hg hsender hkey he)

theorem passed_adjust (hg : KeccakGood S) (h : Passed S done s) (a : Address)
    {f : AccountState → AccountState} (hf : ∀ x, (f x).nonce = x.nonce) :
    wp S (do
      let accountState ← getAccountState a
      onTrie (TreeDB.put a (f accountState))
      return (← Exec.get).root : M H256) s fun _ s' => Passed S done s' := by
  obtain ⟨n, hn, hpast⟩ := h.past
  refine wp_mono (wp_adjust hg hn a f) ?_
  intro res s' hpost
  cases hacc : n.account a with
  | error e =>
    rw [hacc] at hpost
    obtain ⟨-, rfl⟩ := hpost
    exact h
  | ok x =>
    rw [hacc] at hpost
    obtain ⟨-, hshows, hsame, hkey, hval⟩ := hpost
    have heffect : Effect S .commit s s' := .staged hsame hshows
    refine ⟨h.good.effect hg heffect, rooted_effect h.good h.rooted rfl heffect, _, hshows,
      fun tx htx => (hpast tx htx).put hg (hn.sound hg) hkey hval fun y hy hmem => ?_⟩
    rw [hf, account_of_trie hg hn h.rooted hacc hy hmem]
    exact UInt64.le_refl _

theorem passed_commit (hg : KeccakGood S) (h : Passed S done s) :
    Passed S done { s with trie := s.trie.committed true } := by
  obtain ⟨n, hn, hpast⟩ := h.past
  obtain ⟨rh, hinv⟩ := hn.inv
  have heffect : Effect S .commit s { s with trie := s.trie.committed true } := .committed rfl rfl
  exact ⟨h.good.effect hg heffect, rooted_effect h.good h.rooted rfl heffect,
    ⟨n.trie, (s.trie.committed true).view⟩, shows_of_inv (hinv.committed hg true), hpast⟩

variable {txs : List SignedTransaction}

theorem executionOrder_increasing (h : Guarded txs s) :
    Increasing (executionOrder txs) := by
  refine (executionOrder_pairwise txs).imp_of_mem fun {x y} hx hy hxy hs => ?_
  have hle := NoncePricedTransaction.nonce_le_of_lt (hxy hs)
  refine UInt64.lt_of_le_of_ne hle fun he => ?_
  have := h.distinct x (mem_executionOrder hx) y (mem_executionOrder hy) hs he
  subst this
  have hlt := hxy rfl
  rw [NoncePricedTransaction.cmp_eq_iff.2 ⟨rfl, rfl⟩] at hlt
  cases hlt

theorem Guarded.nonce_le (hguard : Guarded txs s) (hn : Shows S s n) {x : AccountState}
    (hx : n.account a = .ok x) :
    ∀ tx ∈ executionOrder txs, tx.sender = a → x.nonce ≤ tx.nonce ∧ tx.nonce.toNat + 1 < 2 ^ 64 := by
  intro tx htx hs
  subst hs
  refine ⟨hguard.nonce tx (mem_executionOrder htx) x.nonce ?_,
    hguard.bound tx (mem_executionOrder htx)⟩
  obtain ⟨l, hl⟩ := getAccountState_run hn tx.sender
  unfold readNonce
  rw [hl, hx]
  rfl

/-- A guarded block moves the nonces of its senders past those that it executes. -/
theorem Guarded.nonce_lt (hguard : Guarded txs s) (hn : Shows S s n) {states₀ states : States}
    (hgather : gather n.account txs .empty = .ok states₀)
    (hpay : payAll (executionOrder txs) states₀ = .ok states) (ha : a ∈ parties txs) :
    ∃ x y, n.account a = .ok x ∧ states.get? a = some y ∧ x.nonce ≤ y.nonce ∧
      ∀ tx ∈ executionOrder txs, tx.sender = a → tx.nonce < y.nonce := by
  obtain ⟨x, hx, hget₀⟩ := (gather_gathered hgather a).1 ha
  have hget := payAll_get hpay a
  rw [hget₀, Option.map_some] at hget
  exact ⟨x, _, hx, hget,
    nonce_payAll hpay (executionOrder_increasing hguard) (hguard.nonce_le hn hx) hget₀ hget⟩

/-- A guarded block that succeeds executes nonces past the earlier ones, and moves past its own. -/
theorem passed_applyTxs (hg : KeccakGood S) (h : Passed S done s) (hguard : Guarded txs s)
    {l : List Query} (hok : applyTxs vm txs s = ⟨.ok (), s', l⟩) (hlog : ∀ q ∈ l, q ∈ S) :
    (∀ t ∈ done, ∀ t' ∈ executionOrder txs, t.sender = t'.sender → t.nonce < t'.nonce) ∧
      Passed S (done ++ executionOrder txs) s' := by
  obtain ⟨n, hn, hpast⟩ := h.past
  have hsound := hn.sound hg
  obtain ⟨states₀, states, hgather, hpay, hres, hshows, hsame, hmem⟩ :=
    applyTxs_ok hg hn hguard.payments hok hlog
  have hnonce {a : Address} (ha : a ∈ parties txs) := hguard.nonce_lt hn hgather hpay ha
  refine ⟨fun t ht t' ht' hs => ?_, ?_⟩
  · obtain ⟨x, hx, hxmem, -, hlt⟩ := hpast t ht
    obtain ⟨x', y, hx', -, -, -⟩ := hnonce ⟨t', mem_executionOrder ht', .inl hs⟩
    have heq := account_of_trie hg hn h.rooted hx' hx hxmem
    subst heq
    exact UInt64.lt_of_lt_of_le hlt (hguard.nonce_le hn hx' t' ht' hs.symm).1
  · have heffect : Effect S .commit s s' := .staged hsame hshows
    refine ⟨h.good.effect hg heffect, rooted_effect h.good h.rooted rfl heffect, _, hshows,
      fun t ht => ?_⟩
    rcases List.mem_append.1 ht with ht | ht
    · obtain ⟨x, hx, hxmem, hkey, hlt⟩ := hpast t ht
      by_cases hparty : t.sender ∈ parties txs
      · obtain ⟨x', y, hx', hget, hle, -⟩ := hnonce hparty
        have heq := account_of_trie hg hn h.rooted hx' hx hxmem
        subst heq
        obtain ⟨h1, h2, h3⟩ := Snapshot.putAll_trie_get_of_some hg hsound hmem hget
        exact ⟨y, h1, h2, h3, UInt64.lt_of_lt_of_le hlt hle⟩
      · have hget : states.get? t.sender = none := by
          rw [payAll_get hpay, (gather_gathered hgather _).2 hparty]
          rfl
        refine ⟨x, ?_, hxmem, hkey, hlt⟩
        rw [Snapshot.putAll_trie_get_of_none hg hsound hmem hkey hget]
        exact hx
    · obtain ⟨x, y, -, hget, -, hall⟩ := hnonce ⟨t, mem_executionOrder ht, .inl rfl⟩
      obtain ⟨h1, h2, h3⟩ := Snapshot.putAll_trie_get_of_some hg hsound hmem hget
      exact ⟨y, h1, h2, h3, hall t ht rfl⟩

theorem passed_drop {α : Type} {x : M α} (hx : wp S x s fun _ s' => Passed S done s') :
    wp S (do let _ ← x) s fun _ s' => Passed S done s' := by
  refine wp_bind (wp_mono hx ?_)
  intro res s' h'
  cases res with
  | error e => exact h'
  | ok a => exact wp_pure h'

theorem passed_call (hg : KeccakGood S) (h : Passed S done s) {c : Call} (hc : c.Guarded s)
    (hlog : ∀ q ∈ (c.run vm s).log, q ∈ S) : Increasing (c.executed vm s) ∧
      (∀ t ∈ done, ∀ t' ∈ c.executed vm s, t.sender = t'.sender → t.nonce < t'.nonce) ∧
      Passed S (done ++ c.executed vm s) (c.run vm s).state := by
  -- the calls that are no block
  have hidle (h' : Passed S done (c.run vm s).state) (he : c.executed vm s = []) :
      Increasing (c.executed vm s) ∧
      (∀ t ∈ done, ∀ t' ∈ c.executed vm s, t.sender = t'.sender → t.nonce < t'.nonce) ∧
      Passed S (done ++ c.executed vm s) (c.run vm s).state := by
    rw [he, List.append_nil]
    exact ⟨.nil, nofun, h'⟩
  cases c with
  | applyTxs txs =>
    rcases hrun : applyTxs vm txs s with ⟨_ | ⟨⟨⟩⟩, s', l⟩
    · refine hidle ?_ (by simp only [Call.executed, hrun])
      obtain ⟨n, hn, -⟩ := h.past
      have hpost := wp_applyTxs hg hn vm hc.payments hlog
      rw [hrun] at hpost
      cases hres : n.results txs with
      | ok states =>
        rw [hres] at hpost
        cases hpost.1
      | error e =>
        rw [hres] at hpost
        show Passed S done (applyTxs vm txs s).state
        rw [hrun, hpost.2]
        exact h
    · have hexec : Call.executed vm (.applyTxs txs) s = executionOrder txs := by
        simp only [Call.executed, hrun]
        exact executed_of_ok hrun
      obtain ⟨hpast, hpassed⟩ := passed_applyTxs hg h hc hrun (by
        intro q hq
        refine hlog q ?_
        show q ∈ (applyTxs vm txs s).log
        rw [hrun]
        exact hq)
      rw [hexec]
      refine ⟨executionOrder_increasing hc, hpast, ?_⟩
      show Passed S _ (applyTxs vm txs s).state
      rw [hrun]
      exact hpassed
  | creditBalance a amount =>
    exact hidle (passed_drop (passed_adjust hg h a fun x => rfl) hlog) rfl
  | debitBalance a amount =>
    exact hidle (passed_drop (passed_adjust hg h a fun x => rfl) hlog) rfl
  | commit =>
    refine hidle ?_ rfl
    have hrun : (State.commit s).state = { s with trie := s.trie.committed true } := by
      rw [commit_run, h.good.readOnly]
      rfl
    show Passed S done (State.commit s).state
    rw [hrun]
    exact passed_commit hg h
  | applyTxsNoCommit => exact hc.elim
  | setAccountState => exact hc.elim
  | reset => exact hc.elim

theorem passed_run (hg : KeccakGood S) : ∀ {calls : List Call} {s : State}
    {done : List SignedTransaction}, Passed S done s → Increasing done → GuardedRun vm calls s →
    (∀ q ∈ runLog vm calls s, q ∈ S) → Increasing (done ++ trace vm calls s)
  | [], s, done, _, hinc, _, _ => by
    unfold trace
    rwa [List.append_nil]
  | c :: calls, s, done, h, hinc, hrun, hlog => by
    obtain ⟨hc, hrest⟩ := hrun
    obtain ⟨hexec, hpast, h'⟩ := passed_call hg h hc fun q hq => hlog q (List.mem_append_left _ hq)
    unfold trace
    rw [← List.append_assoc]
    exact passed_run hg h' (List.pairwise_append.2 ⟨hinc, hexec, hpast⟩) hrest
      fun q hq => hlog q (List.mem_append_right _ hq)

/-- **No replay in a guarded run**: the executed transactions of each sender have increasing nonces. -/
theorem guardedRun_increasing (hg : KeccakGood S)
    (hreach : ReachableBy vm S (fun c => c.forks = false) s) {calls : List Call}
    (hrun : GuardedRun vm calls s) (hlog : ∀ q ∈ runLog vm calls s, q ∈ S) :
    Increasing (trace vm calls s) := by
  have hgood := hreach.good hg
  obtain ⟨n, hn⟩ := hgood.shows
  have hpassed : Passed S [] s := ⟨hgood, hreach.rooted hg, n, hn, nofun⟩
  exact passed_run hg hpassed .nil hrun hlog

end State

end Replay

namespace Replay

open Sample
open State

def sampleCalls : List Call := [.creditBalance (address 1) 100, .commit]

@[irreducible] def sampleState : State := (Call.runAll noVm sampleCalls State.new).state

def sampleBlocks (nonce nonce' : UInt64) : List Call :=
  [.applyTxs [pay 1 2 nonce 10 1], .commit, .applyTxs [pay 1 2 nonce' 10 1], .commit]

@[irreducible] def sampleLog : List Query :=
  (Call.runAll noVm sampleCalls State.new).log ++ runLog noVm (sampleBlocks 1 2) sampleState

/-- A block of one payment of the account `1` is guarded if its nonce is not below the account's. -/
theorem guarded_pay {s : State} {k nonce : UInt64} (hread : readNonce s (address 1) = some k)
    (hk : k ≤ nonce) (hb : nonce.toNat + 1 < 2 ^ 64) : Guarded [pay 1 2 nonce 10 1] s := by
  refine ⟨List.forall_mem_singleton.2 rfl, List.forall_mem_singleton.2 ?_,
    List.forall_mem_singleton.2 hb, fun x hx y hy _ _ => ?_⟩
  · intro i hi
    have hsender : (pay 1 2 nonce 10 1).sender = address 1 := rfl
    rw [hsender, hread] at hi
    cases hi
    exact hk
  · rw [List.mem_singleton.1 hx, List.mem_singleton.1 hy]

theorem guardedRun_increasing_sample :
    Increasing (trace noVm (sampleBlocks 1 2) sampleState) ∧
      trace noVm (sampleBlocks 1 2) sampleState =
        [pay 1 2 1 10 1, pay 1 2 2 10 1] := by
  refine ⟨?_, by decide +kernel⟩
  have hreach : ReachableBy noVm {q | q ∈ sampleLog} (fun c => c.forks = false) sampleState := by
    unfold sampleState
    refine ReachableBy.new.runAll sampleCalls (by decide) fun q hq => ?_
    show q ∈ sampleLog
    rw [sampleLog]
    exact List.mem_append_left _ hq
  refine guardedRun_increasing (S := {q | q ∈ sampleLog})
    (keccakGood_of_collisionFree (by decide +kernel)) hreach ?_ fun q hq => ?_
  · exact ⟨guarded_pay (k := 1) (by decide +kernel) (by decide) (by decide), trivial,
      guarded_pay (k := 2) (by decide +kernel) (by decide) (by decide), trivial, trivial⟩
  · show q ∈ sampleLog
    rw [sampleLog]
    exact List.mem_append_right _ hq

/-- The same signed payment in two blocks: both calls succeed, and the money moves twice. -/
theorem applyTxs_replays_payment :
    trace noVm (sampleBlocks 1 1) sampleState =
        [pay 1 2 1 10 1, pay 1 2 1 10 1] ∧
      (getAccountState (address 2)
        (Call.runAll noVm (sampleBlocks 1 1) sampleState).state).res =
          .ok ⟨20, 0, 1, none⟩ := by
  decide +kernel

end Replay

end Uchain
