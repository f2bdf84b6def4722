import Uchain.State.Proof.Reachable

/-!
# Complete reads

A read follows the parents of stored versions. It finds every value that the trie commits to if the
parents lead to the empty version: every parent is stored, and no version is its own parent
(`TreeDB.Rooted`). `apply_txs_no_commit` can break that, when the accounts return to those of the
parent's version; no other call does.
-/

namespace Uchain

open Lib

section Rooted

variable [Crypto] {S : Set Query}

/-- A root from which a read can start. -/
def HasVersion (trees : BTreeMap H256 SparseMerkleTree) (root : H256) : Prop :=
  root = .zero ∨ ∃ tree, trees.get? root = some tree

omit [Crypto] in
theorem HasVersion.insert {trees : BTreeMap H256 SparseMerkleTree} {root : H256}
    (h : HasVersion trees root) (k : H256) (tree : SparseMerkleTree) :
    HasVersion (trees.insert k tree) root := by
  rcases h with h | ⟨t, ht⟩
  · exact .inl h
  · refine .inr ?_
    rw [BTreeMap.get?_insert]
    split
    · exact ⟨tree, rfl⟩
    · exact ⟨t, ht⟩

/-- Every parent has a version, and no version is its own parent. -/
def ParentsStored (trees : BTreeMap H256 SparseMerkleTree) : Prop :=
  ∀ h t, trees.get? h = some t → HasVersion trees t.parent ∧ t.root ≠ t.parent

/-- **Where nothing is found, the trie has nothing.** -/
theorem lookup_complete (hg : KeccakGood S) {trees : BTreeMap H256 SparseMerkleTree}
    (hst : Stored S trees) (hp : ParentsStored trees) {p : H256} : ∀ {n : Nat} {root : H256}
    {r : Trie}, IsTrie S r → r.hash = root → HasVersion trees root →
    lookup trees p n root ≠ .error .diverge → (∀ b, lookup trees p n root ≠ .ok (some b)) →
    r.get p = none
  | 0, _, _, _, _, _, hdiv, _ => absurd rfl hdiv
  | n + 1, root, r, hr, hroot, hversion, hdiv, hnone => by
    unfold lookup at hdiv hnone
    cases ht : trees.get? root with
    | none =>
      -- only the empty version is not stored
      have hzero : root = .zero := by
        rcases hversion with h | ⟨t, ht'⟩
        · exact h
        · rw [ht] at ht'
          cases ht'
      have hempty : r = .empty :=
        hr.hash_inj hg IsTrie.empty (by rw [hroot, hzero]; rfl)
      rw [hempty]
      rfl
    | some tree =>
      obtain ⟨hkey, r', hv⟩ := hst root tree ht
      obtain rfl : r' = r := hv.rep.isTrie.hash_inj hg hr (by rw [hroot, ← hkey, hv.rep.root])
      obtain ⟨hparent, hne⟩ := hp root tree ht
      simp only [ht, hv.held_isEmpty hg] at hdiv hnone
      cases hval : tree.values.get? p with
      | some c =>
        rw [hval] at hnone
        exact absurd rfl (hnone (tree.held p))
      | none =>
        simp only [hval, Option.isNone_none, ne_eq, hne, not_false_eq_true, and_self, if_true]
          at hdiv hnone
        obtain ⟨rp, hrp, hhash, hin⟩ := hv.inherits
        rw [hin p hval]
        exact lookup_complete hg hst hp hrp hhash hparent hdiv hnone

namespace TreeDB

/-- Reads lead to the empty version. -/
structure Rooted (d : TreeDB) : Prop where
  head : HasVersion d.db.trees d.head.root
  parent : d.staging.parent = d.head.root
  stored : ParentsStored d.db.trees

variable {d : TreeDB} {rh rs : Trie}

omit [Crypto] in
theorem Rooted.committed (h : Rooted d) (hro : d.db.readOnly = false)
    (hs : d.strategy = .partialCopy) : Rooted (d.committed true) := by
  unfold TreeDB.committed
  by_cases heq : d.head.root = d.staging.root
  · rw [if_pos heq]
    exact h
  · rw [if_neg heq, if_pos ⟨rfl, hro⟩]
    refine ⟨.inr ⟨d.staging, BTreeMap.get?_insert_self _ _ _⟩, ?_, fun k t ht => ?_⟩
    · rw [hs]
      rfl
    · rw [BTreeMap.get?_insert] at ht
      split at ht
      · cases ht
        rw [h.parent]
        exact ⟨h.head.insert _ _, Ne.symm heq⟩
      · obtain ⟨h1, h2⟩ := h.stored k t ht
        exact ⟨h1.insert _ _, h2⟩

theorem Inv.view_complete (hg : KeccakGood S) (h : Inv S d rh rs) (hr : Rooted d) {p : H256}
    (hdiv : d.view p ≠ .error .diverge) (hnone : ∀ b, d.view p ≠ .ok (some b)) :
    rs.get p = none := by
  rw [h.view_eq hg] at hdiv hnone
  cases hval : d.staging.values.get? p with
  | some b =>
    rw [hval] at hnone
    exact absurd rfl (hnone b)
  | none =>
    rw [hval] at hdiv hnone
    rw [h.fresh p hval]
    exact lookup_complete hg h.stored hr.stored h.head.isTrie h.head.root.symm hr.head hdiv hnone

end TreeDB

namespace State

variable {s s' : State} {n : Snapshot} {c : Call}

theorem rooted_effect (h : Good S s) (hr : s.trie.Rooted) (hc : c.forks = false)
    (he : Effect S c s s') : s'.trie.Rooted := by
  obtain ⟨n, hn⟩ := h.shows
  obtain ⟨rh, hinv⟩ := hn.inv
  cases he with
  | staged same shows =>
    refine ⟨?_, ?_, ?_⟩
    · rw [same.db, same.head]
      exact hr.head
    · rw [same.parent, same.head]
      exact hr.parent
    · rw [same.db]
      exact hr.stored
  | committed trie mode =>
    rw [trie]
    exact hr.committed h.dbReadOnly h.strategy
  | reset found trie mode =>
    rw [trie]
    have hroot := (hinv.stored _ _ found).1
    exact ⟨.inr ⟨_, by rw [hroot]; exact found⟩, by rw [hinv.strategy]; rfl, hr.stored⟩
  | stored forks found version parent trie mode =>
    rw [hc] at forks
    cases forks

/-- **States reached without `apply_txs_no_commit` are rooted.** -/
theorem ReachableBy.rooted [Codec AccountState] (hg : KeccakGood S) {vm : Vm}
    (h : ReachableBy vm S (fun c => c.forks = false) s) : s.trie.Rooted := by
  induction h with
  | new => exact ⟨.inl rfl, rfl, nofun⟩
  | call c hs hc hlog ih =>
    exact rooted_effect (hs.good hg) ih hc (effect_call hg (hs.good hg) vm c hlog)

/-- In a rooted state an account that is read is the one that the trie commits to. -/
theorem account_of_trie [Codec AccountState] (hg : KeccakGood S) (h : Shows S s n)
    (hr : s.trie.Rooted) {a : Address} {x y : AccountState} (hx : n.account a = .ok x)
    (hy : n.trie.get (TreeDB.place a) = some (Crypto.keccak256 y.stored))
    (hmem : .keccak256 y.stored ∈ S) : x = y := by
  obtain ⟨rh, hinv⟩ := h.inv
  have hcomplete := hinv.view_complete hg hr (p := TreeDB.place a)
  rw [h.view, hy] at hcomplete
  unfold Snapshot.account Snapshot.found at hx
  rcases hv : n.view (TreeDB.place a) with (e | _ | _) | _ | b
  · cases hcomplete (by rw [hv]; nofun) (by rw [hv]; nofun)
  · rw [hv] at hx
    cases hx
  · rw [hv] at hx
    cases hx
  · cases hcomplete (by rw [hv]; nofun) (by rw [hv]; nofun)
  · obtain ⟨hb, hget⟩ := (h.sound hg).view _ b hv
    rw [hy] at hget
    have := hg.inj _ _ hmem hb (Option.some.inj hget)
    subst this
    rw [hv, y.decoded_stored] at hx
    cases hx
    rfl

/-- An account that is read was found, or nothing was found and the account is `new`. -/
theorem view_of_account [Codec AccountState] {a : Address} {x : AccountState}
    (hx : n.account a = .ok x) : (∃ b, n.view (TreeDB.place a) = .ok (some b)) ∨
      (n.view (TreeDB.place a) ≠ .error .diverge ∧ ∀ b, n.view (TreeDB.place a) ≠ .ok (some b)) ∧
        x = .new := by
  unfold Snapshot.account Snapshot.found at hx
  generalize n.view (TreeDB.place a) = v at hx ⊢
  rcases v with (e | _ | _) | _ | b
  · exact .inr ⟨⟨nofun, nofun⟩, (Except.ok.inj hx).symm⟩
  · cases hx
  · cases hx
  · exact .inr ⟨⟨nofun, nofun⟩, (Except.ok.inj hx).symm⟩
  · exact .inl ⟨b, rfl⟩

/-- **The root determines the accounts**: states without pending writes and with the same root,
reached in any two ways without `apply_txs_no_commit`, have the same account for every address. -/
theorem account_of_root [Codec AccountState] (hg : KeccakGood S) {vm vm' : Vm}
    (h : ReachableBy vm S (fun c => c.forks = false) s)
    (h' : ReachableBy vm' S (fun c => c.forks = false) s') (hs : s.trie.staging.root = s.root)
    (hs' : s'.trie.staging.root = s'.root) (hroot : s.root = s'.root) (a : Address)
    {x y : AccountState} (hx : (getAccountState a s).res = .ok x)
    (hy : (getAccountState a s').res = .ok y) : x = y := by
  obtain ⟨n, hn⟩ := (h.good hg).shows
  obtain ⟨n', hn'⟩ := (h'.good hg).shows
  obtain ⟨rh, hinv⟩ := hn.inv
  obtain ⟨rh', hinv'⟩ := hn'.inv
  have htrie : n.trie = n'.trie := by
    refine hinv.staging.rep.isTrie.hash_inj hg hinv'.staging.rep.isTrie ?_
    rw [← hinv.staging.rep.root, ← hinv'.staging.rep.root, hs, hs', hroot]
  obtain ⟨l, hl⟩ := getAccountState_run hn a
  obtain ⟨l', hl'⟩ := getAccountState_run hn' a
  rw [hl] at hx
  rw [hl'] at hy
  have hnone := hinv.view_complete hg (h.rooted hg) (p := TreeDB.place a)
  have hnone' := hinv'.view_complete hg (h'.rooted hg) (p := TreeDB.place a)
  rw [hn.view] at hnone
  rw [hn'.view, ← htrie] at hnone'
  have hsome := (hn.sound hg).view (TreeDB.place a)
  have hsome' := (hn'.sound hg).view (TreeDB.place a)
  rw [← htrie] at hsome'
  rcases view_of_account hx with ⟨b, hb⟩ | ⟨hv, rfl⟩ <;>
    rcases view_of_account hy with ⟨b', hb'⟩ | ⟨hv', rfl⟩
  · -- both found: the trie has the hash of what was found
    obtain ⟨hmem, hget⟩ := hsome b hb
    obtain ⟨hmem', hget'⟩ := hsome' b' hb'
    rw [hget] at hget'
    obtain rfl := hg.inj _ _ hmem hmem' (Option.some.inj hget')
    change accountOf (TreeDB.decoded (n.view _)) = _ at hx
    change accountOf (TreeDB.decoded (n'.view _)) = _ at hy
    rw [hb] at hx
    rw [hb', hx] at hy
    exact Except.ok.inj hy
  · cases (hsome b hb).2.symm.trans (hnone' hv'.1 hv'.2)
  · cases (hsome' b' hb').2.symm.trans (hnone hv.1 hv.2)
  · rfl

end State

end Rooted

namespace Rooted

open Sample
open State

/-- A credit in several calls. -/
def calls (amounts : List UInt64) : List Call :=
  amounts.map (.creditBalance (address 1)) ++ [.commit]

def credited (amounts : List UInt64) : Run StateError Query State Unit :=
  Call.runAll noVm (calls amounts) State.new

@[irreducible] def log : List Query := (credited [5]).log ++ (credited [2, 3]).log

theorem account_of_root_sample : ∃ x y, (getAccountState (address 1) (credited [5]).state).res = .ok x ∧
    (getAccountState (address 1) (credited [2, 3]).state).res = .ok y ∧ x = y := by
  have hx : (getAccountState (address 1) (credited [5]).state).res = .ok ⟨5, 0, 1, none⟩ := by
    decide +kernel
  have hy : (getAccountState (address 1) (credited [2, 3]).state).res = .ok ⟨5, 0, 1, none⟩ := by
    decide +kernel
  refine ⟨_, _, hx, hy, account_of_root (S := {q | q ∈ log})
    (keccakGood_of_collisionFree (by decide +kernel)) (ReachableBy.new.runAll _ (by decide) ?_)
    (ReachableBy.new.runAll _ (by decide) ?_) (by decide +kernel) (by decide +kernel)
    (by decide +kernel) _ hx hy⟩
  all_goals
    intro q hq
    show q ∈ log
    rw [log]
  · exact List.mem_append_left _ hq
  · exact List.mem_append_right _ hq

end Rooted

end Uchain
