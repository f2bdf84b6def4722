import Uchain.State.Proof.Reachable

/-!
# The two ways to execute a block

A block on the head is executed by `apply_txs`, `credit_balance` and `commit` (`advance`); a block
elsewhere by `apply_txs_no_commit` on the stored version of its parent. Both write the same accounts
for the transactions. They differ in the account that the reward is added to: the first reads it
after the transactions, the second at the parent's root, where an address without an account counts
as `AccountState::default`.
-/

namespace Uchain

open Lib

section Paths

variable [Crypto] [Codec AccountState]

/-- The snapshot after a block: the results of its payments, and the reward. -/
def Snapshot.advance (n : Snapshot) (txs : List SignedTransaction) (coinbase : Address)
    (reward : UInt64) : Except (Fail StateError) Snapshot := do
  let states ← n.results txs
  let n := n.putAll states.entries
  return n.put coinbase ((← n.account coinbase).credit reward)

theorem Snapshot.advance_ok {n : Snapshot} {txs : List SignedTransaction} {coinbase : Address}
    {reward : UInt64} {states : States} {x : AccountState} (hres : n.results txs = .ok states)
    (hacc : (n.putAll states.entries).account coinbase = .ok x) :
    n.advance txs coinbase reward =
      .ok ((n.putAll states.entries).put coinbase (x.credit reward)) := by
  simp [Snapshot.advance, hres, hacc, bind, Except.bind, pure, Except.pure]

theorem Snapshot.advance_eq_ok {n n' : Snapshot} {txs : List SignedTransaction} {coinbase : Address}
    {reward : UInt64} (h : n.advance txs coinbase reward = .ok n') :
    ∃ states x, n.results txs = .ok states ∧ (n.putAll states.entries).account coinbase = .ok x ∧
      n' = (n.putAll states.entries).put coinbase (x.credit reward) := by
  cases hres : n.results txs with
  | error e => simp [Snapshot.advance, hres, bind, Except.bind] at h
  | ok states =>
    cases hacc : (n.putAll states.entries).account coinbase with
    | error e => simp [Snapshot.advance, hres, hacc, bind, Except.bind] at h
    | ok x =>
      rw [Snapshot.advance_ok hres hacc] at h
      cases h
      exact ⟨states, x, rfl, hacc, rfl⟩

namespace State

open Snapshot (HashedAll)

variable {S : Set Query} {s s' : State} {n : Snapshot}

def advance (vm : Vm) (txs : List SignedTransaction) (coinbase : Address) (reward : UInt64) :
    M Unit := do
  applyTxs vm txs
  let _ ← creditBalance coinbase reward
  commit

omit [Codec AccountState] in
theorem Shows.root (h : Shows S s n) : s.trie.staging.root = n.trie.hash := by
  obtain ⟨rh, hinv⟩ := h.inv
  exact hinv.staging.rep.root

omit [Crypto] [Codec AccountState] in
theorem accountOf_ne_err {r : Except (Fail StateError) (Option AccountState)} {e : StateError} :
    accountOf r ≠ .error (.err e) := by
  rcases r with (e | _ | _) | _ | a <;> simp [accountOf]

def AdvanceHashed (S : Set Query) (n : Snapshot) (txs : List SignedTransaction)
    (coinbase : Address) (reward : UInt64) : Prop :=
  ∀ states x, n.results txs = .ok states → (n.putAll states.entries).account coinbase = .ok x →
    HashedAll S (states.entries ++ [(coinbase, x.credit reward)])

variable {txs : List SignedTransaction}

/-- What executing a block leaves: a commit of a state that shows the new snapshot, or, if it
returned an error, no change. -/
theorem wp_advance (hg : KeccakGood S) (h : Shows S s n) (vm : Vm)
    (hpay : ∀ tx ∈ txs, tx.isPayment = true) (coinbase : Address) (reward : UInt64) :
    Exec.wp S (advance vm txs coinbase reward) s fun res s' =>
      match n.advance txs coinbase reward with
      | .ok n' => res = .ok () ∧ AdvanceHashed S n txs coinbase reward ∧
          ∃ s₁, Shows S s₁ n' ∧ SameBase s s₁ ∧
            s' = { s₁ with trie := s₁.trie.committed !s₁.readOnly }
      | .error e => res = .error e ∧ ∀ e', e = .err e' → s' = s := by
  refine Exec.wp_bind (Exec.wp_mono (wp_applyTxs hg h vm hpay) ?_)
  intro res s₁ hpost
  cases hres : n.results txs with
  | error e =>
    rw [hres] at hpost
    obtain ⟨rfl, rfl⟩ := hpost
    rw [show n.advance txs coinbase reward = .error e by simp [Snapshot.advance, hres, bind,
      Except.bind]]
    exact ⟨rfl, fun _ _ => rfl⟩
  | ok states =>
    rw [hres] at hpost
    obtain ⟨rfl, h₁, hsame₁, hmem⟩ := hpost
    refine Exec.wp_bind (Exec.wp_mono (wp_creditBalance hg h₁ coinbase reward) ?_)
    intro res s₂ hpost
    cases hacc : (n.putAll states.entries).account coinbase with
    | error e =>
      rw [hacc] at hpost
      obtain ⟨rfl, rfl⟩ := hpost
      rw [show n.advance txs coinbase reward = .error e by simp [Snapshot.advance, hres, hacc, bind,
        Except.bind]]
      refine ⟨rfl, fun e' he => ?_⟩
      subst he
      exact absurd hacc accountOf_ne_err
    | ok x =>
      rw [hacc] at hpost
      obtain ⟨rfl, h₂, hsame₂, hkey, hval⟩ := hpost
      have hall : AdvanceHashed S n txs coinbase reward := by
        intro states' x' hres' hacc'
        rw [hres] at hres'
        cases hres'
        rw [hacc] at hacc'
        cases hacc'
        exact List.forall_mem_append.2 ⟨hmem, List.forall_mem_singleton.2 ⟨hkey, hval⟩⟩
      rw [Snapshot.advance_ok hres hacc]
      intro _
      dsimp only
      rw [commit_run]
      exact ⟨rfl, hall, s₂, h₂, hsame₁.trans hsame₂, rfl⟩

/-! ## The second way -/

def Clean (s : State) : Prop := s.trie.staging = s.trie.head.subtree .partialCopy

omit [Codec AccountState] in
/-- A clean state shows the versions from its root on. -/
theorem Shows.clean_view (hg : KeccakGood S) (h : Shows S s n) (hc : s.Clean) (p : H256) :
    n.view p = lookup s.trie.db.trees p (s.trie.db.trees.entries.length + 1) s.root := by
  obtain ⟨rh, hinv⟩ := h.inv
  rw [← h.view, hinv.view_eq hg, hc]
  rfl

omit [Codec AccountState] in
theorem Shows.clean_trie (h : Shows S s n) (hc : s.Clean) :
    n.trie.hash = s.root := by
  rw [← h.root, hc]
  rfl

omit [Codec AccountState] in
/-- **A copy of a clean state** at its root shows the same snapshot. -/
theorem Shows.copy (hg : KeccakGood S) (h : Shows S s n) (hc : s.Clean) {copy : State}
    (hcopy : s.getStateAt s.root = .ok copy) : Shows S copy n := by
  obtain ⟨rh, hinv⟩ := h.inv
  unfold getStateAt at hcopy
  split at hcopy
  · cases hcopy
  · rename_i d hd
    cases hcopy
    obtain ⟨r, hinv', hroot, htrees, hstaging, hfound⟩ := TreeDB.inv_openReadOnly hinv.stored hd
    have hhead : d.head.root = s.root := hroot
    have hr : r = n.trie := by
      refine hinv'.head.isTrie.hash_inj hg hinv.staging.rep.isTrie ?_
      rw [h.clean_trie hc, ← hhead, hinv'.head.root]
    subst hr
    refine ⟨⟨_, hinv'⟩, funext fun p => ?_⟩
    show d.viewFrom d.staging d.head.root p = _
    rw [hstaging, TreeDB.viewFrom_stored d (by rw [hhead, htrees]; exact hfound), hhead, htrees,
      h.clean_view hg hc]

omit [Codec AccountState] in
theorem Good.committed (hg : KeccakGood S) (hgood : Good S s) (h : Shows S s n)
    (hne : s.root ≠ n.trie.hash) :
    Good S { s with trie := s.trie.committed !s.readOnly } ∧
      Clean { s with trie := s.trie.committed !s.readOnly } ∧
      State.root { s with trie := s.trie.committed !s.readOnly } = n.trie.hash := by
  refine ⟨hgood.effect (c := .commit) hg (.committed (by rw [hgood.readOnly]; rfl) rfl), ?_, ?_⟩
  · show (s.trie.committed !s.readOnly).staging = (s.trie.committed !s.readOnly).head.subtree _
    rw [← hgood.strategy]
    exact TreeDB.committed_clean (by rw [h.root]; exact hne)
  · exact (TreeDB.committed_root _ _).trans h.root

variable {tree : SparseMerkleTree}

omit [Codec AccountState] in
theorem Good.reset (hg : KeccakGood S) (hgood : Good S s) {root : H256}
    (found : s.trie.db.trees.get? root = some tree)
    (htrie : s'.trie = { s.trie with head := tree, staging := tree.subtree s.trie.strategy })
    (hmode : s'.readOnly = s.readOnly) : Good S s' ∧ s'.Clean ∧ s'.root = root := by
  refine ⟨hgood.effect (c := .reset root) hg (.reset found htrie hmode), ?_, ?_⟩
  · unfold Clean
    rw [htrie, hgood.strategy]
  · obtain ⟨n, hn⟩ := hgood.shows
    obtain ⟨rh, hinv⟩ := hn.inv
    unfold State.root TreeDB.root
    rw [htrie]
    exact (hinv.stored root tree found).1

theorem getAtRoot_run (hg : KeccakGood S) (h : Shows S s n) (hc : s.Clean)
    (ht : s.trie.db.trees.get? s.root = some tree) (a : Address) : ∃ l,
    onTrie (TreeDB.getAtRoot s.root a) s = ⟨n.found a, s, l⟩ := by
  obtain ⟨rh, hinv⟩ := h.inv
  have hroot : tree.root = s.root := (hinv.stored _ _ ht).1
  obtain ⟨l, hl⟩ := TreeDB.getAtRoot_run (V := AccountState) s.trie hinv.strategy ht a
  rw [TreeDB.viewFrom_stored s.trie (by rw [hroot]; exact ht), hroot,
    ← h.clean_view hg hc] at hl
  exact ⟨l, onTrie_run hl⟩

/-- The account that the second way adds the reward to. -/
def rewarded : Except (Fail StateError) (Option AccountState) → AccountState
  | .ok (some x) => x
  | _ => .default

theorem wp_batch (hg : KeccakGood S) (hgood : Good S s) (h : Shows S s n) (hc : s.Clean)
    (ht : s.trie.db.trees.get? s.root = some tree) (order : HashOrder)
    (l : List (Address × AccountState)) (coinbase : Address) (x : AccountState) :
    Exec.wp S (onTrie (TreeDB.applyNonCommit order s.root
      ((l.map fun e => Op.put e.1 e.2) ++ [Op.put coinbase x]))) s fun res _ =>
      res = .ok ((n.putAll l).put coinbase x).trie.hash ∧
      IsTrie S ((n.putAll l).put coinbase x).trie ∧ .keccak256 x.stored ∈ S := by
  obtain ⟨rh, hinv⟩ := h.inv
  obtain ⟨hroot, r, hv⟩ := hinv.stored _ _ ht
  -- the stored version is the one that the snapshot shows
  have hr : r = n.trie := by
    refine hv.rep.isTrie.hash_inj hg hinv.staging.rep.isTrie ?_
    rw [h.clean_trie hc, ← hroot]
    exact hv.rep.root.symm
  subst hr
  refine Exec.wp_zoom (Exec.wp_mono
    (TreeDB.wp_applyNonCommit hg hgood.dbReadOnly order ht hv _) ?_)
  intro res d' hpost
  obtain ⟨tree', rfl, hv', -, -, hmem⟩ := hpost
  have hentries : ((l.map fun e => Op.put e.1 e.2) ++ [Op.put coinbase x]).map TreeDB.encodeOp =
      (l.map fun e => (Codec.encode e.1, e.2.stored)) ++ [(Codec.encode coinbase, x.stored)] := by
    simp only [List.map_append, List.map_map, List.map_cons, List.map_nil]
    rfl
  unfold TreeDB.batchEntries at hmem hv'
  rw [hentries] at hmem hv'
  rw [insertAll_batch hg hv.rep.isTrie order fun e he => (hmem e he).1] at hv'
  have htrie : n.trie.insertAll ((l.map fun e => (Codec.encode e.1, e.2.stored)) ++
      [(Codec.encode coinbase, x.stored)]) = ((n.putAll l).put coinbase x).trie := by
    unfold Trie.insertAll
    rw [List.foldl_append]
    show Trie.insert (n.trie.insertAll _) _ _ = _
    rw [← Snapshot.putAll_trie]
    rfl
  rw [htrie] at hv'
  refine ⟨by rw [hv'.rep.root], hv'.rep.isTrie, ?_⟩
  exact (hmem _ ((order.perm _).mem_iff.2 (TreeDB.mem_collect_last _ _))).2

variable {states : States} {x : AccountState}

/-- **The second way** writes the same results, and the reward to the account found at the root. -/
theorem wp_applyTxsNoCommit (hg : KeccakGood S) (hgood : Good S s) (h : Shows S s n) (hc : s.Clean)
    (ht : s.trie.db.trees.get? s.root = some tree) (order : HashOrder) (vm : Vm)
    (hpay : ∀ tx ∈ txs, tx.isPayment = true) (coinbase : Address) (reward : UInt64)
    (hres : n.results txs = .ok states) (hacc : n.account coinbase = .ok x) :
    Exec.wp S (applyTxsNoCommit order vm s.root reward coinbase txs) s fun res _ =>
      res = .ok ((n.putAll states.entries).put coinbase
          ((rewarded (n.found coinbase)).credit reward)).trie.hash ∧
        IsTrie S ((n.putAll states.entries).put coinbase
          ((rewarded (n.found coinbase)).credit reward)).trie ∧
        .keccak256 ((rewarded (n.found coinbase)).credit reward).stored ∈ S := by
  have hbatch := wp_batch hg hgood h hc ht order states.entries coinbase
  have hread (a : Address) : ∃ l, getAccountStateAtRoot s.root a s = ⟨n.account a, s, l⟩ := by
    obtain ⟨l, hl⟩ := getAtRoot_run hg h hc ht a
    exact attempt_accountOf hl
  obtain ⟨l, hl⟩ := results_run hread vm hpay
  obtain ⟨l', hl'⟩ := getAtRoot_run hg h hc ht coinbase
  have hatt : Exec.attempt (onTrie (TreeDB.getAtRoot s.root coinbase)) s =
      ⟨Exec.caught (n.found coinbase), s, l'⟩ := by
    rw [Exec.attempt_run, hl']
  unfold applyTxsNoCommit
  rw [← bind_assoc]
  refine Exec.wp_bind_res hl ?_
  rw [hres]
  refine Exec.wp_bind_res hatt ?_
  unfold Snapshot.account at hacc
  rcases hfound : n.found coinbase with (e | _ | _) | _ | y
  · exact hbatch _
  · rw [hfound] at hacc
    cases hacc
  · rw [hfound] at hacc
    cases hacc
  · exact hbatch _
  · exact hbatch _


/-! ## Agreement -/

/-- The transactions leave the account of `c` as the read at the root finds it. -/
def Untouched (n : Snapshot) (txs : List SignedTransaction) (c : Address) : Prop :=
  (∃ x, n.found c = .ok (some x)) ∧ ∀ tx ∈ executionOrder txs, Neutral c tx

omit [Crypto] [Codec AccountState] in
/-- An account that is read was found, or it is the account of an address without one, for which
the second way takes `default`. -/
theorem accountOf_ok {r : Except (Fail StateError) (Option AccountState)}
    (h : accountOf r = .ok x) :
    r = .ok (some x) ∨ (∀ z, r ≠ .ok (some z)) ∧ x = .new ∧ rewarded r = .default := by
  rcases r with (e | _ | _) | _ | z
  · cases h
    exact .inr ⟨nofun, rfl, rfl⟩
  · cases h
  · cases h
  · cases h
    exact .inr ⟨nofun, rfl, rfl⟩
  · cases h
    exact .inl rfl

omit [Crypto] [Codec AccountState] in
theorem default_ne_of_nonce (h : 1 ≤ x.nonce.toNat) :
    AccountState.default ≠ x := by
  intro he
  subst he
  exact absurd h (by decide)

variable {c : Address}

/-- The two accounts that the reward is added to are the same exactly if the transactions leave the
coinbase account untouched. -/
theorem rewarded_eq_iff (hg : KeccakGood S) (hs : n.Sound S) {states₀ : States}
    (hgather : gather n.account txs .empty = .ok states₀)
    (hpay : payAll (executionOrder txs) states₀ = .ok states)
    (hno : Along NoOverflow (executionOrder txs) states₀) (hmem : HashedAll S states.entries)
    (hc : .keccak256 (Codec.encode c) ∈ S) (hx : (n.putAll states.entries).account c = .ok x) :
    rewarded (n.found c) = x ↔ Untouched n txs c := by
  have hgathered := gather_gathered hgather c
  by_cases hparty : c ∈ parties txs
  · -- a party: its account after the transactions was written
    obtain ⟨x₀, hx₀, hget₀⟩ := hgathered.1 hparty
    obtain ⟨y, hget⟩ : ∃ y, states.get? c = some y := by
      rw [payAll_get hpay c, hget₀]
      exact ⟨_, rfl⟩
    rcases accountOf_ok hx₀ with hz | ⟨hnone, rfl, hdef⟩
    · have hxy : x = y := by
        unfold Snapshot.account at hx
        rw [Snapshot.found_putAll_of_some hg hs hmem hget fun hh => hh.2 x₀ hz] at hx
        cases hx
        rfl
      rw [hz, hxy, show rewarded (.ok (some x₀)) = x₀ from rfl, eq_comm,
        payAll_unchanged_iff hpay hno hget₀ hget]
      exact ⟨fun h => ⟨⟨x₀, hz⟩, h⟩, fun h => h.2⟩
    · -- no account at the root: no account gets the nonce of `default`
      refine iff_of_false (fun he => ?_) fun hu => hnone _ hu.1.choose_spec
      rw [hdef] at he
      refine default_ne_of_nonce ?_ he
      unfold Snapshot.account at hx hx₀
      by_cases hh : n.Hidden c y
      · rw [Snapshot.found_putAll_of_hidden hg hs hmem hget hh, hx₀] at hx
        cases hx
        decide
      · rw [Snapshot.found_putAll_of_some hg hs hmem hget hh] at hx
        cases hx
        exact nonce_le_payAll hpay hno hget₀ hget
  · -- not a party: the same read
    have hget : states.get? c = none := by
      rw [payAll_get hpay c, hgathered.2 hparty]
      rfl
    have hneutral : ∀ tx ∈ executionOrder txs, Neutral c tx := by
      intro tx htx
      have hmem := mem_executionOrder htx
      refine ⟨fun he => hparty ⟨tx, hmem, .inl he.symm⟩, fun he => ?_⟩
      exact absurd ⟨tx, hmem, .inr he.symm⟩ hparty
    unfold Snapshot.account at hx
    rw [Snapshot.found_putAll_of_none hg hmem hc hget] at hx
    rcases accountOf_ok hx with hz | ⟨hnone, rfl, hdef⟩
    · rw [hz]
      exact iff_of_true rfl ⟨⟨x, hz⟩, hneutral⟩
    · rw [hdef]
      exact iff_of_false (default_ne_of_nonce (by decide)) fun hu => hnone _ hu.1.choose_spec

/-- The account of the coinbase can be read at the root if it can be read after the transactions. -/
theorem account_of_advance (hg : KeccakGood S) {states₀ : States}
    (hgather : gather n.account txs .empty = .ok states₀)
    (hpay : payAll (executionOrder txs) states₀ = .ok states) (hmem : HashedAll S states.entries)
    (hc : .keccak256 (Codec.encode c) ∈ S) (hx : (n.putAll states.entries).account c = .ok x) :
    ∃ x₀, n.account c = .ok x₀ := by
  have hgathered := gather_gathered hgather c
  by_cases hparty : c ∈ parties txs
  · obtain ⟨x₀, hx₀, -⟩ := hgathered.1 hparty
    exact ⟨x₀, hx₀⟩
  · have hget : states.get? c = none := by
      rw [payAll_get hpay c, hgathered.2 hparty]
      rfl
    unfold Snapshot.account at hx ⊢
    rw [Snapshot.found_putAll_of_none hg hmem hc hget] at hx
    exact ⟨x, hx⟩

omit [Crypto] [Codec AccountState] in
theorem credit_injective (reward : UInt64) :
    Function.Injective fun x : AccountState => x.credit reward := by
  rintro ⟨f, r, k, a⟩ ⟨f', r', k', a'⟩ h
  simp only [AccountState.credit, AccountState.mk.injEq] at h
  obtain ⟨hf, rfl, rfl, rfl⟩ := h
  rw [(UInt64.add_left_inj reward).1 hf]

theorem put_trie_eq_iff (hg : KeccakGood S) {n : Snapshot} {y : AccountState}
    (hx : .keccak256 x.stored ∈ S) (hy : .keccak256 y.stored ∈ S) (htx : IsTrie S (n.put c x).trie)
    (hty : IsTrie S (n.put c y).trie) (hwf : Radix.Wf bit 256 0 n.trie) :
    (n.put c x).trie.hash = (n.put c y).trie.hash ↔ x = y := by
  constructor
  · intro h
    have heq := htx.hash_inj hg hty h
    have hget := congrArg (fun t : Trie => t.get (TreeDB.place c)) heq
    simp only [Snapshot.put_trie_get hwf, if_true, Option.some.injEq] at hget
    exact AccountState.stored_injective (hg.inj _ _ hx hy hget)
  · rintro rfl
    rfl

/-- **The two ways agree exactly if the coinbase has an account at the root, sends none of the
executed transactions and receives nothing from them.** The second way always succeeds. -/
theorem applyTxsNoCommit_agrees_iff (hg : KeccakGood S) {vm : Vm} (hs : Reachable vm S s)
    (hclean : s.Clean) {tree : SparseMerkleTree} (hpersisted : s.trie.db.trees.get? s.root = some tree)
    {txs : List SignedTransaction} (hpay : ∀ tx ∈ txs, tx.isPayment = true) (order : HashOrder)
    (coinbase : Address) (reward : UInt64) (hfits : AlongFrom NoOverflow txs s) {l : List Query}
    (hok : advance vm txs coinbase reward s = ⟨.ok (), s', l⟩) (hlog : ∀ q ∈ l, q ∈ S)
    (hlog' : ∀ q ∈ (applyTxsNoCommit order vm s.root reward coinbase txs s).log, q ∈ S) :
    (∃ root, (applyTxsNoCommit order vm s.root reward coinbase txs s).res = .ok root) ∧
    ((applyTxsNoCommit order vm s.root reward coinbase txs s).res = .ok s'.root ↔
      (∃ x : AccountState, (onTrie (TreeDB.getAtRoot s.root coinbase) s).res = .ok (some x)) ∧
      ∀ tx ∈ executed vm txs s, tx.sender ≠ coinbase ∧ (tx.recipient = coinbase → tx.price = 0)) := by
  have hgood := hs.good hg
  obtain ⟨n, hn⟩ := hgood.shows
  have hsound := hn.sound hg
  -- the first way
  have hadv := wp_advance hg hn vm hpay coinbase reward (by rw [hok]; exact hlog)
  rw [hok] at hadv
  cases hn' : n.advance txs coinbase reward with
  | error e =>
    rw [hn'] at hadv
    cases hadv.1
  | ok n' =>
    rw [hn'] at hadv
    obtain ⟨-, hhashed, s₁, hshows, hsame, hs'⟩ := hadv
    obtain ⟨states, x, hres, hx, rfl⟩ := Snapshot.advance_eq_ok hn'
    obtain ⟨hmem, hcoin⟩ := List.forall_mem_append.1 (hhashed states x hres hx)
    obtain ⟨hkey, hval⟩ := List.forall_mem_singleton.1 hcoin
    obtain ⟨states₀, hgather, hpayAll⟩ := Snapshot.results_ok hres
    have hroot : s'.root = ((n.putAll states.entries).put coinbase (x.credit reward)).trie.hash := by
      rw [← hshows.root, show s' = _ from hs']
      exact TreeDB.committed_root _ _
    -- the second way
    obtain ⟨x₀, hx₀⟩ := account_of_advance hg hgather hpayAll hmem hkey hx
    obtain ⟨hres', htrie', hval'⟩ :=
      wp_applyTxsNoCommit hg hgood hn hclean hpersisted order vm hpay coinbase reward hres hx₀ hlog'
    refine ⟨⟨_, hres'⟩, ?_⟩
    have hwf := Snapshot.wf_putAll hsound.isTrie.wf states.entries
    rw [hres', hroot, Except.ok.injEq,
      put_trie_eq_iff hg hval' hval htrie' (hshows.sound hg).isTrie hwf,
      (credit_injective reward).eq_iff]
    rw [rewarded_eq_iff hg hsound hgather hpayAll ((alongFrom_iff hn hgather).1 hfits) hmem hkey hx]
    obtain ⟨⟨⟩, s₂, l₁, l₂, happly, -, -⟩ := Exec.bind_eq_ok hok
    obtain ⟨l₃, hl₃⟩ := getAtRoot_run hg hn hclean hpersisted coinbase
    rw [executed_of_ok happly, hl₃]
    exact Iff.rfl

end State

end Paths

namespace Paths

open Sample
open State

def sampleCalls : List Call :=
  [.creditBalance (address 1) 100, .creditBalance (address 9) 5, .commit]

@[irreducible] def sampleState : State := (Call.runAll noVm sampleCalls State.new).state

def insertionOrder : HashOrder := .insertion

def sampleTxs : List SignedTransaction := [pay 1 2 1 10 1]

@[irreducible] def sampleLog : List Query :=
  (Call.runAll noVm sampleCalls State.new).log ++
  (advance noVm sampleTxs (address 9) 50 sampleState).log ++
  (applyTxsNoCommit insertionOrder noVm sampleState.root 50 (address 9) sampleTxs
    sampleState).log

theorem applyTxsNoCommit_agrees_sample :
    (applyTxsNoCommit insertionOrder noVm sampleState.root 50 (address 9) sampleTxs
      sampleState).res = .ok (advance noVm sampleTxs (address 9) 50 sampleState).state.root := by
  have hok : (advance noVm sampleTxs (address 9) 50 sampleState).res = .ok () := by
    decide +kernel
  have hstored : (sampleState.trie.db.trees.get? sampleState.root).isSome = true := by
    decide +kernel
  obtain ⟨tree, htree⟩ := Option.isSome_iff_exists.1 hstored
  have hclean : sampleState.trie.staging = sampleState.trie.head.subtree .partialCopy := by
    decide +kernel
  have hfits : AlongFrom NoOverflow sampleTxs sampleState := by decide +kernel
  have hlog (q : Query) (h : (q ∈ (Call.runAll noVm sampleCalls State.new).log ∨
      q ∈ (advance noVm sampleTxs (address 9) 50 sampleState).log) ∨
      q ∈ (applyTxsNoCommit insertionOrder noVm sampleState.root 50 (address 9) sampleTxs
        sampleState).log) : q ∈ sampleLog := by
    rw [sampleLog, List.mem_append, List.mem_append]
    exact h
  have hreach : Reachable noVm {q | q ∈ sampleLog} sampleState := by
    unfold sampleState
    refine ReachableBy.new.runAll sampleCalls (fun _ _ => trivial) ?_
    intro q hq
    exact hlog q (.inl (.inl hq))
  have hfound : (onTrie (TreeDB.getAtRoot sampleState.root (address 9)) sampleState).res =
      .ok (some (⟨5, 0, 1, none⟩ : AccountState)) := by
    decide +kernel
  have hgood : KeccakGood {q | q ∈ sampleLog} :=
    keccakGood_of_collisionFree (by decide +kernel)
  have hiff := applyTxsNoCommit_agrees_iff hgood hreach hclean htree
    (by decide +kernel) insertionOrder (address 9) 50 hfits (Run.eq_of_res hok)
    (fun q hq => hlog q (.inl (.inr hq))) (fun q hq => hlog q (.inr hq))
  exact hiff.2.2 ⟨⟨_, hfound⟩, by decide +kernel⟩

/-- Both ways succeed on the sample block, with different roots. -/
def sampleDisagrees (coinbase : Address) : Bool :=
  (advance noVm sampleTxs coinbase 50 sampleState).res = .ok () &&
    (applyTxsNoCommit insertionOrder noVm sampleState.root 50 coinbase sampleTxs sampleState).res ≠
      .ok (advance noVm sampleTxs coinbase 50 sampleState).state.root

/-- The roots differ when the coinbase has no account, when it is the sender, and when it is paid. -/
theorem applyTxsNoCommit_disagrees :
    sampleState.trie.staging = sampleState.trie.head.subtree .partialCopy ∧
    (sampleState.trie.db.trees.get? sampleState.root).isSome = true ∧
    AlongFrom NoOverflow sampleTxs sampleState ∧ sampleDisagrees (address 8) = true ∧
    sampleDisagrees (address 1) = true ∧ sampleDisagrees (address 2) = true := by
  decide +kernel

end Paths

end Uchain
