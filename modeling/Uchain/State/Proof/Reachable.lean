import Uchain.State.Proof.Frames
import Uchain.State.Proof.Snapshot

/-!
# Reachable states

`Reachable vm S s`: the state `s` is reached from the empty state by calls of its methods, with any
transactions and whether or not a call succeeds, all hash inputs being in `S`.

* `wp_applyTxsNoCommit_beside`: a block beside the head stores one version, or nothing.
-/

namespace Uchain

open Lib Exec

namespace State

section Reachable

variable [Crypto] [Codec AccountState]

/-- A call of a method that changes the accounts. -/
inductive Call where
  | applyTxs (txs : List SignedTransaction)
  | applyTxsNoCommit (order : HashOrder) (atRoot : H256) (reward : UInt64) (coinbase : Address)
      (txs : List SignedTransaction)
  | creditBalance (address : Address) (amount : UInt64)
  | debitBalance (address : Address) (amount : UInt64)
  | setAccountState (address : Address) (accountState : AccountState)
  | commit
  | reset (root : H256)

def Call.run (vm : Vm) : Call → M Unit
  | applyTxs txs => State.applyTxs vm txs
  | applyTxsNoCommit order atRoot reward coinbase txs => do
    let _ ← State.applyTxsNoCommit order vm atRoot reward coinbase txs
  | creditBalance address amount => do
    let _ ← State.creditBalance address amount
  | debitBalance address amount => do
    let _ ← State.debitBalance address amount
  | setAccountState address accountState => do
    let _ ← State.setAccountState address accountState
  | commit => State.commit
  | reset root => State.reset root

/-- Reached from the empty state by calls that satisfy `P`. -/
inductive ReachableBy (vm : Vm) (S : Set Query) (P : Call → Prop) : State → Prop where
  | new : ReachableBy vm S P State.new
  | call {s : State} (c : Call) : ReachableBy vm S P s → P c → (∀ q ∈ (c.run vm s).log, q ∈ S) →
      ReachableBy vm S P (c.run vm s).state

abbrev Reachable (vm : Vm) (S : Set Query) : State → Prop := ReachableBy vm S fun _ => True

/-- Calls one after the other, up to the first failure. -/
def Call.runAll (vm : Vm) (calls : List Call) : M Unit := forEach (Call.run vm) calls

theorem ReachableBy.runAll {vm : Vm} {S : Set Query} {P : Call → Prop} :
    ∀ (calls : List Call) {s : State}, ReachableBy vm S P s → (∀ c ∈ calls, P c) →
    (∀ q ∈ (Call.runAll vm calls s).log, q ∈ S) → ReachableBy vm S P (Call.runAll vm calls s).state
  | [], _, h, _, _ => h
  | c :: calls, s, h, hP, hlog => by
    obtain ⟨hc₀, hP⟩ := List.forall_mem_cons.1 hP
    have hrun : Call.runAll vm (c :: calls) s =
        (c.run vm >>= fun _ => Call.runAll vm calls) s := rfl
    rw [hrun] at hlog ⊢
    rcases hc : c.run vm s with ⟨_ | a, s₁, l⟩
    · rw [bind_error hc] at hlog ⊢
      have := h.call c hc₀ (by rw [hc]; exact hlog)
      rwa [hc] at this
    · rw [bind_ok hc] at hlog ⊢
      have h₁ := h.call c hc₀ (by rw [hc]; exact fun q hq => hlog q (List.mem_append_left _ hq))
      rw [hc] at h₁
      exact h₁.runAll calls hP fun q hq => hlog q (List.mem_append_right _ hq)

/-- The invariant of a state that is not a read-only copy. -/
structure Good (S : Set Query) (s : State) : Prop where
  shows : ∃ n, Shows S s n
  readOnly : s.readOnly = false
  dbReadOnly : s.trie.db.readOnly = false

variable {S : Set Query} {s s' : State} {rh rs : Trie}

omit [Codec AccountState] in
theorem shows_of_inv (h : TreeDB.Inv S s.trie rh rs) : Shows S s ⟨rs, s.trie.view⟩ :=
  ⟨⟨rh, h⟩, rfl⟩

omit [Codec AccountState] in
theorem Shows.congr {n : Snapshot} (h : Shows S s n) (ht : s'.trie = s.trie) : Shows S s' n := by
  obtain ⟨rh, hinv⟩ := h.inv
  exact ⟨⟨rh, by rw [ht]; exact hinv⟩, by rw [ht]; exact h.view⟩

omit [Codec AccountState] in
theorem Good.strategy (h : Good S s) : s.trie.strategy = .partialCopy := by
  obtain ⟨n, hn⟩ := h.shows
  obtain ⟨rh, hinv⟩ := hn.inv
  exact hinv.strategy

/-! ## What a call does -/

/-- The call that stores versions beside the head. -/
def Call.forks : Call → Bool
  | applyTxsNoCommit .. => true
  | _ => false

/-- All that a call can do to the trie. -/
inductive Effect (S : Set Query) (c : Call) (s s' : State) : Prop where
  /-- Writes to the staged version, or nothing. -/
  | staged {n : Snapshot} (same : SameBase s s') (shows : Shows S s' n)
  | committed (trie : s'.trie = s.trie.committed true) (mode : s'.readOnly = s.readOnly)
  | reset {root : H256} {tree : SparseMerkleTree} (found : s.trie.db.trees.get? root = some tree)
      (trie : s'.trie = { s.trie with head := tree, staging := tree.subtree s.trie.strategy })
      (mode : s'.readOnly = s.readOnly)
  /-- A further version, derived from a stored one. -/
  | stored {root : H256} {tree tree' : SparseMerkleTree} {r : Trie} (forks : c.forks = true)
      (found : s.trie.db.trees.get? root = some tree) (version : Version S tree' r)
      (parent : tree'.parent = tree.parent)
      (trie : s'.trie = { s.trie with
        db := { s.trie.db with trees := s.trie.db.trees.insert tree'.root tree' } })
      (mode : s'.readOnly = s.readOnly)

variable {c : Call}

omit [Codec AccountState] in
theorem Effect.of_leaves (h : Good S s) (ht : s'.trie = s.trie) (hro : s'.readOnly = s.readOnly) :
    Effect S c s s' := by
  obtain ⟨n, hn⟩ := h.shows
  exact .staged ⟨by rw [ht], by rw [ht], by rw [ht], hro⟩ (hn.congr ht)

omit [Codec AccountState] in
theorem Effect.of_fixed (h : Good S s) (hf : s'.fixed = s.fixed) : Effect S c s s' :=
  .of_leaves h (congrArg Prod.fst hf) (congrArg Prod.snd hf)

omit [Crypto] [Codec AccountState] in
theorem SameBase.of_fixed {s₁ s₂ : State} (hf : s₁.fixed = s.fixed) (h : SameBase s₁ s₂) :
    SameBase s s₂ := by
  have ht : s₁.trie = s.trie := congrArg Prod.fst hf
  exact ⟨h.db.trans (by rw [ht]), h.head.trans (by rw [ht]), h.parent.trans (by rw [ht]),
    h.readOnly.trans (congrArg Prod.snd hf)⟩

theorem effect_applyTxs (hg : KeccakGood S) (h : Good S s) (vm : Vm)
    (txs : List SignedTransaction) :
    wp S (applyTxs vm txs) s fun _ s' => Effect S c s s' := by
  refine wp_bind_keeps (keeps_gatherStates keeps_getAccountState _ _) rfl
    (fun _ _ hf => .of_fixed h hf) fun states s₁ hf₁ => ?_
  refine wp_bind_keeps (keeps_executeAll vm _ _) hf₁ (fun _ _ hf => .of_fixed h hf)
    fun states s₂ hf₂ => ?_
  obtain ⟨n, hn⟩ := h.shows
  refine wp_mono (wp_putAll hg states.entries (hn.congr (congrArg Prod.fst hf₂))) ?_
  intro res s' hput
  obtain ⟨-, hshows, hsame, -⟩ := hput
  exact .staged (hsame.of_fixed hf₂) hshows

/-- A block beside the head: a version derived from the one at the root is stored, or nothing
changes. -/
inductive Beside (S : Set Query) (atRoot : H256) (s : State) :
    Except (Fail StateError) H256 → State → Prop where
  | failed {e : Fail StateError} {s' : State} (fixed : s'.fixed = s.fixed) :
      Beside S atRoot s (.error e) s'
  | stored {tree tree' : SparseMerkleTree} {r : Trie} {s' : State}
      (found : s.trie.db.trees.get? atRoot = some tree) (version : Version S tree' r)
      (parent : tree'.parent = tree.parent)
      (trie : s'.trie = { s.trie with
        db := { s.trie.db with trees := s.trie.db.trees.insert tree'.root tree' } })
      (mode : s'.readOnly = s.readOnly) : Beside S atRoot s (.ok tree'.root) s'

theorem wp_applyTxsNoCommit_beside (hg : KeccakGood S) (h : Good S s) (order : HashOrder) (vm : Vm)
    (atRoot : H256) (reward : UInt64) (coinbase : Address) (txs : List SignedTransaction) :
    wp S (applyTxsNoCommit order vm atRoot reward coinbase txs) s (Beside S atRoot s) := by
  refine wp_bind_keeps (keeps_gatherStates (keeps_getAccountStateAtRoot atRoot) _ _) rfl
    (fun _ _ hf => .failed hf) fun states s₁ hf₁ => ?_
  refine wp_bind_keeps (keeps_executeAll vm _ _) hf₁ (fun _ _ hf => .failed hf)
    fun states s₂ hf₂ => ?_
  refine wp_bind_keeps
    (keeps_attempt (keeps_onTrie (TreeDB.keeps_treeGetAtRoot atRoot coinbase))) hf₂
    (fun _ _ hf => .failed hf) fun found s₃ hf₃ => ?_
  have ht₃ : s₃.trie = s.trie := congrArg Prod.fst hf₃
  have hro₃ : s₃.readOnly = s.readOnly := congrArg Prod.snd hf₃
  obtain ⟨n, hn⟩ := h.shows
  obtain ⟨rh, hinv⟩ := hn.inv
  refine wp_zoom ?_
  rw [ht₃]
  cases ht : s.trie.db.trees.get? atRoot with
  | none =>
    have hget := TreeDB.dbGet_run atRoot s.trie
    rw [ht] at hget
    refine wp_bind_res hget ?_
    exact .failed (Prod.ext rfl hro₃)
  | some tree =>
    obtain ⟨hroot, r, hv⟩ := hinv.stored atRoot tree ht
    refine wp_mono (TreeDB.wp_applyNonCommit hg h.dbReadOnly order ht hv _) ?_
    intro res d' hpost
    obtain ⟨tree', rfl, hv', hparent, rfl, -⟩ := hpost
    exact .stored ht hv' hparent rfl hro₃

theorem effect_applyTxsNoCommit (hg : KeccakGood S) (h : Good S s) (order : HashOrder) (vm : Vm)
    (atRoot : H256) (reward : UInt64) (coinbase : Address) (txs : List SignedTransaction)
    (hc : c.forks = true) :
    wp S (applyTxsNoCommit order vm atRoot reward coinbase txs) s
      fun _ s' => Effect S c s s' := by
  refine wp_mono (wp_applyTxsNoCommit_beside hg h order vm atRoot reward coinbase txs) ?_
  intro res s' hbeside
  cases hbeside with
  | failed hf => exact .of_fixed h hf
  | stored found version parent trie mode => exact .stored hc found version parent trie mode

theorem effect_adjust (hg : KeccakGood S) (h : Good S s) (a : Address)
    (f : AccountState → AccountState) :
    wp S (do
      let accountState ← getAccountState a
      onTrie (TreeDB.put a (f accountState))
      return (← Exec.get).root : M H256) s fun _ s' => Effect S c s s' := by
  obtain ⟨n, hn⟩ := h.shows
  refine wp_mono (wp_adjust hg hn a f) ?_
  intro res s' hpost
  cases hacc : n.account a with
  | error e =>
    rw [hacc] at hpost
    obtain ⟨-, rfl⟩ := hpost
    exact .of_leaves h rfl rfl
  | ok x =>
    rw [hacc] at hpost
    obtain ⟨-, hshows, hsame, -, -⟩ := hpost
    exact .staged hsame hshows

/-- **Inversion**: what any call does. -/
theorem effect_call (hg : KeccakGood S) (h : Good S s) (vm : Vm) (c : Call) :
    wp S (c.run vm) s fun _ s' => Effect S c s s' := by
  -- a call whose value is dropped
  have hdrop {α : Type} {x : M α} (hx : wp S x s fun _ s' => Effect S c s s') :
      wp S (do let _ ← x) s fun _ s' => Effect S c s s' := by
    refine wp_bind (wp_mono hx ?_)
    intro res s' h'
    cases res with
    | error e => exact h'
    | ok a => exact wp_pure h'
  cases c with
  | applyTxs txs => exact effect_applyTxs hg h vm txs
  | applyTxsNoCommit order atRoot reward coinbase txs =>
    exact hdrop (effect_applyTxsNoCommit hg h order vm atRoot reward coinbase txs rfl)
  | creditBalance a amount => exact hdrop (effect_adjust hg h a fun x => x.credit amount)
  | debitBalance a amount => exact hdrop (effect_adjust hg h a fun x => x.debit amount)
  | setAccountState a x =>
    refine hdrop ?_
    obtain ⟨n, hn⟩ := h.shows
    refine wp_bind (wp_mono (wp_putAccount hg hn a x) ?_)
    intro res s' hput
    obtain ⟨rfl, hshows, hsame, -, -⟩ := hput
    exact wp_bind (wp_get (wp_pure (.staged hsame hshows)))
  | commit =>
    intro _
    show Effect S Call.commit s (State.commit s).state
    rw [commit_run, h.readOnly]
    exact .committed rfl h.readOnly.symm
  | reset root =>
    intro _
    show Effect S (Call.reset root) s (State.reset root s).state
    rw [reset_run]
    cases ht : s.trie.db.trees.get? root with
    | none => exact .of_leaves h rfl rfl
    | some tree => exact .reset ht rfl rfl

omit [Codec AccountState] in
theorem Good.effect (hg : KeccakGood S) (h : Good S s) (he : Effect S c s s') : Good S s' := by
  obtain ⟨n, hn⟩ := h.shows
  obtain ⟨rh, hinv⟩ := hn.inv
  cases he with
  | staged same shows =>
    exact ⟨⟨_, shows⟩, same.readOnly.trans h.readOnly, by rw [same.db]; exact h.dbReadOnly⟩
  | committed trie mode =>
    refine ⟨⟨_, shows_of_inv (by rw [trie]; exact hinv.committed hg true)⟩, mode.trans h.readOnly, ?_⟩
    rw [trie, TreeDB.committed_readOnly]
    exact h.dbReadOnly
  | reset found trie mode =>
    obtain ⟨-, r, hinv'⟩ := hinv.reset found
    refine ⟨⟨_, shows_of_inv (by rw [trie]; exact hinv')⟩, mode.trans h.readOnly, ?_⟩
    rw [trie]
    exact h.dbReadOnly
  | stored forks found version parent trie mode =>
    refine ⟨⟨_, shows_of_inv (by rw [trie]; exact hinv.store version)⟩, mode.trans h.readOnly, ?_⟩
    rw [trie]
    exact h.dbReadOnly

/-- **Every reachable state keeps the invariant.** -/
theorem ReachableBy.good (hg : KeccakGood S) {vm : Vm} {P : Call → Prop}
    (h : ReachableBy vm S P s) : Good S s := by
  induction h with
  | new =>
    have hst : Stored S (BTreeMap.empty : BTreeMap H256 SparseMerkleTree) := nofun
    exact ⟨⟨_, shows_of_inv (TreeDB.inv_open S hst)⟩, rfl, rfl⟩
  | call c _ _ hlog ih => exact ih.effect hg (effect_call hg ih vm c hlog)

/-! ## Hash maps -/

theorem agree_applyTxsNoCommit (hg : KeccakGood S) (h : Good S s) (vm : Vm) (atRoot : H256)
    (reward : UInt64) (coinbase : Address) (txs : List SignedTransaction) :
    Agree S (fun order => applyTxsNoCommit order vm atRoot reward coinbase txs) s := by
  refine agree_bind_keeps (g := State.fixed)
    (keeps_gatherStates (keeps_getAccountStateAtRoot atRoot) _ _) rfl fun states s₁ hf₁ => ?_
  refine agree_bind_keeps (keeps_executeAll vm _ _) hf₁ fun states s₂ hf₂ => ?_
  refine agree_bind_keeps
    (keeps_attempt (keeps_onTrie (TreeDB.keeps_treeGetAtRoot atRoot coinbase))) hf₂
    fun found s₃ hf₃ => ?_
  have ht₃ : s₃.trie = s.trie := congrArg Prod.fst hf₃
  obtain ⟨n, hn⟩ := h.shows
  obtain ⟨rh, hinv⟩ := hn.inv
  refine agree_zoom ?_
  rw [ht₃]
  exact TreeDB.agree_applyNonCommit hg h.dbReadOnly hinv.stored atRoot _

/-- **The order of hash maps does not matter**: the root of a block beside the head, or the error, is
the same on all nodes, for transactions of any kind. -/
theorem applyTxsNoCommit_order (hg : KeccakGood S) {vm : Vm} (h : Reachable vm S s)
    (order order' : HashOrder) (atRoot : H256) (reward : UInt64) (coinbase : Address)
    (txs : List SignedTransaction)
    (hlog : ∀ q ∈ (applyTxsNoCommit order vm atRoot reward coinbase txs s).log, q ∈ S)
    (hlog' : ∀ q ∈ (applyTxsNoCommit order' vm atRoot reward coinbase txs s).log, q ∈ S) :
    (applyTxsNoCommit order vm atRoot reward coinbase txs s).res =
      (applyTxsNoCommit order' vm atRoot reward coinbase txs s).res := by
  obtain ⟨res, hres⟩ := agree_applyTxsNoCommit hg (h.good hg) vm atRoot reward coinbase txs
  exact (hres order hlog).trans (hres order' hlog').symm

end Reachable

end State

namespace ReachableSample

open Sample
open State

def calls : List Call := [.creditBalance (address 1) 100, .commit]

@[irreducible] def state : State := (Call.runAll noVm calls State.new).state

def rotated : HashOrder :=
  ⟨fun l => l.drop 1 ++ l.take 1,
    fun l => List.perm_append_comm.trans (.of_eq (List.take_append_drop 1 l))⟩

def beside (order : HashOrder) : Run StateError Query State H256 :=
  applyTxsNoCommit order noVm state.root 5 (address 3) [pay 1 2 1 10 1] state

@[irreducible] def log : List Query :=
  (Call.runAll noVm calls State.new).log ++ ((beside .insertion).log ++ (beside rotated).log)

theorem mem_log {q : Query} (hq : q ∈ (Call.runAll noVm calls State.new).log ++
    ((beside .insertion).log ++ (beside rotated).log)) : q ∈ {q | q ∈ log} := by
  show q ∈ log
  rw [log]
  exact hq

theorem reachable : Reachable noVm {q | q ∈ log} state := by
  unfold state
  exact ReachableBy.new.runAll calls (fun _ _ => trivial) fun q hq =>
    mem_log (List.mem_append_left _ hq)

theorem applyTxsNoCommit_order_sample : (beside .insertion).res.toOption.isSome = true ∧
    (beside .insertion).res = (beside rotated).res :=
  ⟨by decide +kernel, applyTxsNoCommit_order (keccakGood_of_collisionFree (by decide +kernel))
    reachable _ _ _ _ _ _
    (fun _ hq => mem_log (List.mem_append_right _ (List.mem_append_left _ hq)))
    fun _ hq => mem_log (List.mem_append_right _ (List.mem_append_right _ hq))⟩

end ReachableSample

end Uchain
