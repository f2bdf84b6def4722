import Uchain.Lib.Chain
import Uchain.State.Proof.Versions
import Uchain.Types.Sample

/-!
# Stored versions and how they change

A version is stored under its root, with the values written since its parent. Two histories that
come to the same contents store different records under one root, and the later one replaces the
earlier. `Fresh` excludes that: a tree is stored under a root that stands nowhere in the database,
or is the record that is there.

* `Call.trees_run`: what a call stores.
-/

namespace Uchain

open Lib Exec BTreeMap

/-! ## Following the parents -/

/-- Where a read at the path `p` goes on, from the version `root`. -/
def nextVersion (trees : BTreeMap H256 SparseMerkleTree) (p root : H256) : Option H256 :=
  match trees.get? root with
  | none => none
  | some tree =>
    if (tree.held p).isEmpty ∧ tree.root ≠ tree.parent then some tree.parent else none

theorem nextVersion_eq_some {trees : BTreeMap H256 SparseMerkleTree} {p root root' : H256} :
    nextVersion trees p root = some root' ↔ ∃ tree, trees.get? root = some tree ∧
      ((tree.held p).isEmpty ∧ tree.root ≠ tree.parent) ∧ tree.parent = root' := by
  unfold nextVersion
  cases trees.get? root with
  | none => exact ⟨nofun, fun ⟨_, h, _⟩ => nomatch h⟩
  | some tree =>
    dsimp only
    split
    · rename_i hc
      exact ⟨fun h => ⟨tree, rfl, hc, Option.some.inj h⟩, fun ⟨_, h, _, he⟩ => by cases h; rw [he]⟩
    · rename_i hc
      exact ⟨nofun, fun ⟨_, h, hc', _⟩ => by cases h; exact absurd hc' hc⟩

/-- A lookup runs out of steps exactly if the parents lead further. -/
theorem lookup_eq_diverge_iff {trees : BTreeMap H256 SparseMerkleTree} {p : H256} {n : Nat} :
    ∀ {root : H256}, lookup trees p (n + 1) root = .error .diverge ↔
      Chain.endsIn (nextVersion trees p) n root = false := by
  induction n with
  | zero =>
    intro root
    unfold lookup Chain.endsIn nextVersion
    cases trees.get? root with
    | none => exact ⟨fun h => (by cases h), fun h => (by cases h)⟩
    | some tree =>
      dsimp only
      by_cases hc : (tree.held p).isEmpty = true ∧ tree.root ≠ tree.parent
      · rw [if_pos hc, if_pos hc]
        exact ⟨fun _ => rfl, fun _ => rfl⟩
      · rw [if_neg hc, if_neg hc]
        split
        · exact ⟨fun h => (by cases h), fun h => (by cases h)⟩
        · exact ⟨fun h => (by cases h), fun h => (by cases h)⟩
  | succ n ih =>
    intro root
    unfold Chain.endsIn
    rw [lookup]
    cases hnext : nextVersion trees p root with
    | some parent =>
      obtain ⟨tree, htree, hc, rfl⟩ := nextVersion_eq_some.1 hnext
      rw [htree]
      dsimp only
      rw [if_pos hc]
      exact ih
    | none =>
      refine ⟨fun h => ?_, fun h => by cases h⟩
      unfold nextVersion at hnext
      cases htree : trees.get? root with
      | none =>
        rw [htree] at h
        cases h
      | some tree =>
        rw [htree] at h hnext
        dsimp only at h hnext
        by_cases hc : (tree.held p).isEmpty = true ∧ tree.root ≠ tree.parent
        · rw [if_pos hc] at hnext
          cases hnext
        · rw [if_neg hc] at h
          split at h <;> cases h

/-- **The allowance of steps is exact**: a lookup diverges if and only if following the parents never
ends. -/
theorem lookup_diverges_iff (trees : BTreeMap H256 SparseMerkleTree) (p root : H256) :
    lookup trees p (trees.entries.length + 1) root = .error .diverge ↔
      ¬ Chain.Ends (nextVersion trees p) root := by
  have hdomain : ∀ x, (nextVersion trees p x).isSome → x ∈ trees.entries.map Prod.fst := by
    intro x hx
    obtain ⟨y, hy⟩ := Option.isSome_iff_exists.1 hx
    obtain ⟨tree, htree, -⟩ := nextVersion_eq_some.1 hy
    exact List.mem_map.2 ⟨(x, tree), mem_entries_iff.2 htree, rfl⟩
  rw [lookup_eq_diverge_iff, ← Chain.endsIn_iff_ends hdomain, List.length_map, Bool.not_eq_true]

theorem lookup_mono {trees : BTreeMap H256 SparseMerkleTree} {p : H256} :
    ∀ {m n : Nat} {root : H256}, m ≤ n → lookup trees p m root ≠ .error .diverge →
      lookup trees p n root = lookup trees p m root := by
  intro m
  induction m with
  | zero => exact fun _ h => absurd rfl h
  | succ m ih =>
    intro n root hmn h
    obtain ⟨n, rfl⟩ := Nat.exists_eq_add_of_lt hmn
    unfold lookup at h ⊢
    cases htree : trees.get? root with
    | none => rfl
    | some tree =>
      rw [htree] at h
      dsimp only at h ⊢
      by_cases hc : (tree.held p).isEmpty = true ∧ tree.root ≠ tree.parent
      · rw [if_pos hc] at h ⊢
        rw [if_pos hc]
        exact ih (by omega) h
      · rw [if_neg hc, if_neg hc]

/-! ## Storing trees -/

def storeAll (trees : BTreeMap H256 SparseMerkleTree) (ts : List SparseMerkleTree) :
    BTreeMap H256 SparseMerkleTree := ts.foldl (fun m t => m.insert t.root t) trees

/-- The tree is the record under its root, or its root stands nowhere in the database. -/
def Fresh (trees : BTreeMap H256 SparseMerkleTree) (t : SparseMerkleTree) : Prop :=
  trees.get? t.root = some t ∨
    trees.get? t.root = none ∧ ∀ e ∈ trees.entries, e.2.parent ≠ t.root

instance (trees : BTreeMap H256 SparseMerkleTree) (t : SparseMerkleTree) :
    Decidable (Fresh trees t) := inferInstanceAs (Decidable (_ ∨ _))

/-- Each tree is fresh when it is stored. -/
def FreshAll : BTreeMap H256 SparseMerkleTree → List SparseMerkleTree → Prop
  | _, [] => True
  | trees, t :: ts => Fresh trees t ∧ FreshAll (trees.insert t.root t) ts

instance decidableFreshAll : ∀ trees ts, Decidable (FreshAll trees ts)
  | _, [] => isTrue trivial
  | trees, t :: ts =>
    have := decidableFreshAll (trees.insert t.root t) ts
    inferInstanceAs (Decidable (_ ∧ _))

/-- Every version is stored under its root, and following the parents ends. -/
structure Grounded (trees : BTreeMap H256 SparseMerkleTree) : Prop where
  root : ∀ h t, trees.get? h = some t → t.root = h
  ends : ∀ p root, Chain.Ends (nextVersion trees p) root

/-- The later database has every version of the earlier one, and lacks the parents it lacked. -/
structure Extends (trees trees' : BTreeMap H256 SparseMerkleTree) : Prop where
  kept : ∀ h t, trees.get? h = some t → trees'.get? h = some t
  missing : ∀ h t, trees.get? h = some t → trees.get? t.parent = none → trees'.get? t.parent = none

theorem grounded_empty : Grounded .empty := ⟨nofun, fun _ _ => .stop rfl⟩

theorem Extends.refl (trees : BTreeMap H256 SparseMerkleTree) : Extends trees trees :=
  ⟨fun _ _ h => h, fun _ _ _ h => h⟩

theorem Extends.trans {m m' m'' : BTreeMap H256 SparseMerkleTree} (h : Extends m m')
    (h' : Extends m' m'') : Extends m m'' :=
  ⟨fun i t ht => h'.kept i t (h.kept i t ht),
    fun i t ht hp => h'.missing i t (h.kept i t ht) (h.missing i t ht hp)⟩

variable {trees trees' : BTreeMap H256 SparseMerkleTree} {t : SparseMerkleTree}

theorem Fresh.insert (hf : Fresh trees t) (h : Grounded trees) :
    Grounded (trees.insert t.root t) ∧ Extends trees (trees.insert t.root t) := by
  rcases hf with hsame | ⟨hnone, hparent⟩
  · have heq : trees.insert t.root t = trees := by
      refine ext_get? fun k => ?_
      rw [get?_insert]
      split
      · rename_i hk
        rw [hk, hsame]
      · rfl
    rw [heq]
    exact ⟨h, .refl trees⟩
  · have hold {i : H256} {u : SparseMerkleTree} (hi : trees.get? i = some u) : i ≠ t.root := by
      rintro rfl
      rw [hnone] at hi
      cases hi
    have hpar {i : H256} {u : SparseMerkleTree} (hi : trees.get? i = some u) :
        u.parent ≠ t.root := hparent (i, u) (mem_entries_iff.2 hi)
    have hget {i : H256} (hi : i ≠ t.root) : (trees.insert t.root t).get? i = trees.get? i :=
      get?_insert_of_ne _ _ hi
    have hnext {p i : H256} (hi : i ≠ t.root) :
        nextVersion (trees.insert t.root t) p i = nextVersion trees p i := by
      unfold nextVersion
      rw [hget hi]
    -- a walk that starts at another root never comes to the new one
    have hends {p i : H256} (hi : i ≠ t.root) :
        Chain.Ends (nextVersion (trees.insert t.root t) p) i := by
      refine (h.ends p i).congr (P := fun i => i ≠ t.root) (fun x hx => hnext hx)
        (fun x y _ hxy => ?_) hi
      obtain ⟨u, hu, -, rfl⟩ := nextVersion_eq_some.1 hxy
      exact hpar hu
    refine ⟨⟨fun i u hi => ?_, fun p i => ?_⟩, fun i u hi => ?_, fun i u hi hp => ?_⟩
    · rw [get?_insert] at hi
      split at hi
      · rename_i he
        cases hi
        exact he.symm
      · exact h.root i u hi
    · by_cases hi : i = t.root
      · cases hn : nextVersion (trees.insert t.root t) p i with
        | none => exact .stop hn
        | some j =>
          refine .step hn (hends ?_)
          obtain ⟨u, hu, ⟨-, hne⟩, rfl⟩ := nextVersion_eq_some.1 hn
          rw [hi, get?_insert_self] at hu
          cases hu
          exact hne.symm
      · exact hends hi
    · rw [hget (hold hi), hi]
    · rw [hget (hpar hi), hp]

theorem FreshAll.store {ts : List SparseMerkleTree} : ∀ {trees}, FreshAll trees ts → Grounded trees →
    Grounded (storeAll trees ts) ∧ Extends trees (storeAll trees ts) := by
  induction ts with
  | nil => exact fun _ h => ⟨h, .refl _⟩
  | cons t ts ih =>
    intro trees hf h
    obtain ⟨h₁, he₁⟩ := hf.1.insert h
    obtain ⟨h₂, he₂⟩ := ih hf.2 h₁
    exact ⟨h₂, he₁.trans he₂⟩

/-- Lookups from a stored version do not see later versions. -/
theorem Extends.lookup_eq (h : Extends trees trees') {p : H256} : ∀ {n : Nat} {root : H256} {tree},
    trees.get? root = some tree → lookup trees' p n root = lookup trees p n root := by
  intro n
  induction n with
  | zero => exact fun _ => rfl
  | succ n ih =>
    intro root tree htree
    unfold lookup
    rw [htree, h.kept root tree htree]
    dsimp only
    by_cases hc : (tree.held p).isEmpty = true ∧ tree.root ≠ tree.parent
    · rw [if_pos hc, if_pos hc]
      cases hparent : trees.get? tree.parent with
      | some parent => exact ih hparent
      | none =>
        cases n with
        | zero => rfl
        | succ n => rw [lookup, lookup, hparent, h.missing root tree htree hparent]
    · rw [if_neg hc, if_neg hc]

theorem Extends.lookup_full (h : Extends trees trees') (hs : Grounded trees) {p root : H256}
    {tree : SparseMerkleTree} (htree : trees.get? root = some tree)
    (hlen : trees.entries.length ≤ trees'.entries.length) :
    lookup trees' p (trees'.entries.length + 1) root =
      lookup trees p (trees.entries.length + 1) root := by
  rw [h.lookup_eq htree]
  refine lookup_mono (by omega) fun hdiv => ?_
  exact (lookup_diverges_iff trees p root).1 hdiv (hs.ends p root)

theorem Extends.length_le (h : Extends trees trees') :
    trees.entries.length ≤ trees'.entries.length := by
  have hsub : trees.entries ⊆ trees'.entries := fun ⟨k, v⟩ hkv =>
    mem_entries_iff.2 (h.kept k v (mem_entries_iff.1 hkv))
  exact (trees.nodup_entries.subperm hsub).length_le

/-! ## Calls -/

namespace TreeDB

def commits (persist : Bool) (d : TreeDB) : List SparseMerkleTree :=
  if persist ∧ d.db.readOnly = false ∧ d.head.root ≠ d.staging.root then [d.staging] else []

/-- A tree that is stored, unless the store is read-only. -/
def written (d : TreeDB) (tree : Option SparseMerkleTree) : List SparseMerkleTree :=
  if d.db.readOnly then [] else tree.toList

/-- The database of `d'` is that of `d` with trees stored. -/
structure Stores (d d' : TreeDB) (ts : List SparseMerkleTree) : Prop where
  db : d'.db = { d.db with trees := storeAll d.db.trees ts }
  strategy : d'.strategy = d.strategy

theorem Stores.refl {d d' : TreeDB} (hdb : d'.db = d.db) (hs : d'.strategy = d.strategy) :
    Stores d d' [] := ⟨hdb, hs⟩

theorem Stores.trans {d d' d'' : TreeDB} {ts ts' : List SparseMerkleTree} (h : Stores d d' ts)
    (h' : Stores d' d'' ts') : Stores d d'' (ts ++ ts') := by
  refine ⟨?_, h'.strategy.trans h.strategy⟩
  rw [h'.db, h.db, storeAll, storeAll, storeAll, List.foldl_append]

theorem onStaging_state {α : Type} (x : Smt α) (d : TreeDB) :
    (onStaging x d).state = { d with staging := (x d.staging).state } := by
  rw [onStaging, mapErr_state]
  rfl

theorem stores_committed (persist : Bool) (d : TreeDB) :
    Stores d (d.committed persist) (d.commits persist) := by
  unfold committed commits
  by_cases heq : d.head.root = d.staging.root
  · rw [if_pos heq, if_neg fun hc => hc.2.2 heq]
    exact .refl rfl rfl
  · rw [if_neg heq]
    by_cases hp : persist = true ∧ d.db.readOnly = false
    · rw [if_pos hp, if_pos ⟨hp.1, hp.2, heq⟩]
      exact ⟨rfl, rfl⟩
    · rw [if_neg hp, if_neg fun hc => hp ⟨hc.1, hc.2.1⟩]
      exact .refl rfl rfl

theorem dbPut_run (tree : SparseMerkleTree) (d : TreeDB) : dbPut tree.root tree d =
    if d.db.readOnly then ⟨.error (.err .storeReadOnly), d, []⟩
    else ⟨.ok (), { d with db := { d.db with trees := d.db.trees.insert tree.root tree } }, []⟩ := by
  unfold dbPut
  rw [get_bind]
  split <;> rfl

theorem stores_dbPut (tree : SparseMerkleTree) (d : TreeDB) :
    Stores d (dbPut tree.root tree d).state (d.written (some tree)) := by
  rw [dbPut_run, written]
  split
  · exact .refl rfl rfl
  · exact ⟨rfl, rfl⟩

section Crypto

variable [Crypto] {K V : Type} [Codec K] [Codec V]

/-- A call that may change the database. -/
inductive Call (K V : Type) where
  | put (key : K) (value : V)
  | delete (key : K)
  | commit (persist : Bool)
  | apply (batch : List (Op K V)) (persist : Bool)
  | applyNonCommit (atRoot : H256) (batch : List (Op K V))
  | rollback
  | reset (root : H256)

def Call.run (order : HashOrder) : Call K V → M Unit
  | put key value => TreeDB.put key value
  | delete key => TreeDB.delete (K := K) key
  | commit persist => do let _ ← TreeDB.commit persist
  | apply batch persist => do let _ ← TreeDB.apply order batch persist
  | applyNonCommit atRoot batch => do let _ ← TreeDB.applyNonCommit order atRoot batch
  | rollback => TreeDB.rollback
  | reset root => TreeDB.reset root

def after (order : HashOrder) (d : TreeDB) (calls : List (Call K V)) : TreeDB :=
  calls.foldl (fun d c => (c.run order d).state) d

/-- The batch applied to a tree, if no write fails. -/
def batched (order : HashOrder) (batch : List (Op K V)) (tree : SparseMerkleTree) :
    Option SparseMerkleTree :=
  match updates (order.order (collect (batch.map encodeOp))) tree with
  | ⟨.ok _, tree, _⟩ => some tree
  | _ => none

def Call.stored (order : HashOrder) : Call K V → TreeDB → List SparseMerkleTree
  | .commit persist, d => d.commits persist
  | .apply batch persist, d =>
    d.commits persist ++ d.written (batched order batch (d.committed persist).head)
  | .applyNonCommit atRoot batch, d =>
    d.written ((d.db.trees.get? atRoot).bind (batched order batch))
  | _, _ => []

theorem stores_apply (order : HashOrder) (batch : List (Op K V)) (persist : Bool) (d : TreeDB) :
    Stores d (TreeDB.apply order batch persist d).state
      ((Call.apply batch persist).stored order d) := by
  have hcommit := stores_committed persist d
  have hro : (d.committed persist).db.readOnly = d.db.readOnly := committed_readOnly persist d
  unfold TreeDB.apply Call.stored
  rw [bind_ok_nil (commit_run persist d)]
  refine hcommit.trans ?_
  generalize d.committed persist = c at hro
  unfold batched written
  rcases hu : updates (order.order (collect (batch.map encodeOp))) c.head with ⟨e | a, h, l⟩
  · -- a write failed: the head has changed, nothing was stored
    have hrun : ∃ e', onHead (updates (order.order (collect (batch.map encodeOp)))) c =
        ⟨.error e', { c with head := h }, l⟩ := by
      unfold onHead mapErr zoom
      rw [hu]
      rcases e with e | _ | _
      · exact ⟨_, rfl⟩
      · exact ⟨_, rfl⟩
      · exact ⟨_, rfl⟩
    obtain ⟨e', hrun⟩ := hrun
    rw [bind_error hrun]
    rw [show (if d.db.readOnly = true then [] else (none : Option SparseMerkleTree).toList) = [] by
      split <;> rfl]
    exact .refl rfl rfl
  · have hrun : onHead (updates (order.order (collect (batch.map encodeOp)))) c =
        ⟨.ok a, { c with head := h }, l⟩ := by
      unfold onHead mapErr zoom
      rw [hu]
    rw [bind_ok hrun]
    dsimp only
    rw [bind_ok_nil (show (Exec.get : M TreeDB) { c with head := h } =
      ⟨.ok { c with head := h }, { c with head := h }, []⟩ from rfl)]
    dsimp only
    by_cases hr : c.db.readOnly = true
    · have hput : dbPut h.root h { c with head := h } =
          ⟨.error (.err .storeReadOnly), { c with head := h }, []⟩ := by
        rw [dbPut_run, if_pos hr]
      rw [bind_error hput, ← hro, if_pos hr]
      exact .refl rfl rfl
    · have hput := dbPut_run h { c with head := h }
      rw [if_neg hr] at hput
      rw [bind_ok_nil hput, ← hro, if_neg hr]
      exact ⟨rfl, rfl⟩

theorem stores_applyNonCommit (order : HashOrder) (atRoot : H256) (batch : List (Op K V))
    (d : TreeDB) : Stores d (TreeDB.applyNonCommit order atRoot batch d).state
      ((Call.applyNonCommit atRoot batch).stored order d) := by
  have hget := dbGet_run atRoot d
  show Stores d _ (d.written ((d.db.trees.get? atRoot).bind (batched order batch)))
  unfold TreeDB.applyNonCommit
  cases ht : d.db.trees.get? atRoot with
  | none =>
    rw [ht] at hget
    rw [bind_error hget, Option.bind_none, written]
    split
    · exact .refl rfl rfl
    · exact .refl rfl rfl
  | some tree =>
    rw [ht] at hget
    rw [bind_ok_nil hget, Option.bind_some]
    unfold batched
    rcases hu : updates (order.order (collect (batch.map encodeOp))) tree with ⟨e | a, h, l⟩
    · have hrun : ∃ e', onTree tree (updates (order.order (collect (batch.map encodeOp)))) d =
          ⟨.error e', d, l⟩ := by
        unfold onTree mapErr runOn
        rw [hu]
        rcases e with e | _ | _
        · exact ⟨_, rfl⟩
        · exact ⟨_, rfl⟩
        · exact ⟨_, rfl⟩
      obtain ⟨e', hrun⟩ := hrun
      rw [bind_error hrun, written]
      split
      · exact .refl rfl rfl
      · exact .refl rfl rfl
    · have hrun : onTree tree (updates (order.order (collect (batch.map encodeOp)))) d =
          ⟨.ok (a, h), d, l⟩ := by
        unfold onTree mapErr runOn
        rw [hu]
        rfl
      rw [bind_ok hrun]
      dsimp only
      have : ∀ s, ((do dbPut h.root h; return h.root : M H256) s).state = (dbPut h.root h s).state :=
        state_bind_pure _ _
      rw [this]
      exact stores_dbPut h d

/-- **What a call stores.** -/
theorem Call.stores_run (order : HashOrder) (c : Call K V) (d : TreeDB) :
    Stores d (c.run order d).state (c.stored order d) := by
  cases c with
  | put key value =>
    show Stores d (TreeDB.put key value d).state []
    rw [TreeDB.put, state_bind_pure _ (fun _ => ()), onStaging_state]
    exact .refl rfl rfl
  | delete key =>
    show Stores d (TreeDB.delete key d).state []
    rw [TreeDB.delete, state_bind_pure _ (fun _ => ()), onStaging_state]
    exact .refl rfl rfl
  | commit persist =>
    have : (Call.run order (.commit persist : Call K V) d).state = (TreeDB.commit persist d).state :=
      state_bind_pure _ (fun _ => ()) _
    rw [this, commit_run]
    exact stores_committed persist d
  | apply batch persist =>
    have : (Call.run order (.apply batch persist) d).state =
        (TreeDB.apply order batch persist d).state := state_bind_pure _ (fun _ => ()) _
    rw [this]
    exact stores_apply order batch persist d
  | applyNonCommit atRoot batch =>
    have : (Call.run order (.applyNonCommit atRoot batch) d).state =
        (TreeDB.applyNonCommit order atRoot batch d).state := state_bind_pure _ (fun _ => ()) _
    rw [this]
    exact stores_applyNonCommit order atRoot batch d
  | rollback => exact .refl rfl rfl
  | reset root =>
    show Stores d (TreeDB.reset root d).state []
    rw [reset_run]
    cases d.db.trees.get? root with
    | none => exact .refl rfl rfl
    | some tree => exact .refl rfl rfl

/-! ## Runs -/

/-- Every tree that the calls store is fresh when it is stored. -/
def FreshRun (order : HashOrder) : List (Call K V) → TreeDB → Prop
  | [], _ => True
  | c :: calls, d =>
    FreshAll d.db.trees (c.stored order d) ∧ FreshRun order calls (c.run order d).state

instance decidableFreshRun (order : HashOrder) : ∀ (calls : List (Call K V)) (d : TreeDB),
    Decidable (FreshRun order calls d)
  | [], _ => isTrue trivial
  | c :: calls, d =>
    have := decidableFreshRun order calls (c.run order d).state
    inferInstanceAs (Decidable (_ ∧ _))

theorem FreshRun.append {order : HashOrder} {l l' : List (Call K V)} {d : TreeDB}
    (h : FreshRun order (l ++ l') d) : FreshRun order l d ∧ FreshRun order l' (d.after order l) := by
  induction l generalizing d with
  | nil => exact ⟨trivial, h⟩
  | cons c l ih =>
    obtain ⟨h₁, h₂⟩ := ih h.2
    exact ⟨⟨h.1, h₁⟩, h₂⟩

/-- A run that stores fresh trees only keeps every version, and the parents end. -/
theorem FreshRun.extends {order : HashOrder} {calls : List (Call K V)} {d : TreeDB}
    (h : FreshRun order calls d) (hd : Grounded d.db.trees) :
    Grounded (d.after order calls).db.trees ∧
      Extends d.db.trees (d.after order calls).db.trees ∧
      (d.after order calls).strategy = d.strategy := by
  induction calls generalizing d with
  | nil => exact ⟨hd, .refl _, rfl⟩
  | cons c calls ih =>
    have hstep := c.stores_run order d
    obtain ⟨hd₁, he₁⟩ := h.1.store hd
    have htrees : (c.run order d).state.db.trees = storeAll d.db.trees (c.stored order d) := by
      rw [hstep.db]
    rw [← htrees] at hd₁ he₁
    obtain ⟨hd₂, he₂, hs₂⟩ := ih h.2 hd₁
    exact ⟨hd₂, he₁.trans he₂, hs₂.trans hstep.strategy⟩

def opened : TreeDB := openDb ⟨.empty, false⟩

/-- **Stored versions are immutable**, in every run that stores only fresh trees. -/
theorem versions_immutable (order : HashOrder) (earlier later : List (Call K V))
    (hfresh : FreshRun order (earlier ++ later) opened) (root : H256)
    (hroot : ((opened.after order earlier).db.trees.get? root).isSome) (key : K) :
    (getAtRoot root key (opened.after order (earlier ++ later)) : Run _ _ _ (Option V)).res =
      (getAtRoot root key (opened.after order earlier) : Run _ _ _ (Option V)).res := by
  obtain ⟨h₁, h₂⟩ := hfresh.append
  obtain ⟨hg₁, -, hs₁⟩ := h₁.extends grounded_empty
  obtain ⟨-, he, hs₂⟩ := h₂.extends hg₁
  obtain ⟨tree, htree⟩ := Option.isSome_iff_exists.1 hroot
  have happend : opened.after order (earlier ++ later) =
      (opened.after order earlier).after order later := by
    rw [after, after, after, List.foldl_append]
  rw [happend]
  generalize opened.after order earlier = d at hg₁ he hs₁ hs₂ htree
  generalize d.after order later = d' at he hs₂
  have htree' : d'.db.trees.get? root = some tree := he.kept root tree htree
  have hr : tree.root = root := hg₁.root root tree htree
  obtain ⟨l, hrun⟩ := getAtRoot_run (V := V) d hs₁ htree key
  obtain ⟨l', hrun'⟩ := getAtRoot_run (V := V) d' (hs₂.trans hs₁) htree' key
  rw [hrun, hrun']
  subst hr
  rw [viewFrom_stored d htree, viewFrom_stored d' htree', he.lookup_full hg₁ htree he.length_le]

/-- **Lookups end**, in every run that stores only fresh trees: following the parents from any root,
for any key. -/
theorem lookup_ends (order : HashOrder) (calls : List (Call K V))
    (hfresh : FreshRun order calls opened) (root : H256) (key : Bytes) :
    Chain.Ends (nextVersion (opened.after order calls).db.trees (Crypto.keccak256 key)) root ∧
      (getDescend key root (opened.after order calls)).res ≠ .error .diverge := by
  obtain ⟨hg, -, -⟩ := hfresh.extends grounded_empty
  generalize opened.after order calls = d at hg
  refine ⟨hg.ends _ root, fun hdiv => ?_⟩
  obtain ⟨l, hrun⟩ := getDescendLoop_run key d (d.db.trees.entries.length + 1) root
  have hdesc : getDescend key root d = _ := hrun
  rw [hdesc] at hdiv
  exact (lookup_diverges_iff _ _ _).1 hdiv (hg.ends _ root)

end Crypto

end TreeDB

namespace Immutable

open Sample
open TreeDB

def order : HashOrder := .insertion

def firstCalls : List (Call Address Address) :=
  [.put (address 1) (address 10), .put (address 2) (address 20),
    .commit true]

def secondCalls : List (Call Address Address) :=
  [.put (address 1) (address 11), .commit true]

def rootAfter (calls : List (Call Address Address)) : H256 := (opened.after order calls).root

theorem versions_immutable_sample :
    (getAtRoot (rootAfter firstCalls) (address 2)
      (opened.after order (firstCalls ++ secondCalls)) : Run _ _ _ (Option Address)).res =
        .ok (some (address 20)) := by
  rw [versions_immutable order firstCalls secondCalls (by decide +kernel) _ (by decide +kernel)]
  decide +kernel

/-- A batch at the second version that sets the key `1` back to `10`. -/
def backCalls : List (Call Address Address) :=
  [.applyNonCommit (rootAfter (firstCalls ++ secondCalls))
    [.put (address 1) (address 10)]]

/-- It brings back the contents of the first version, and replaces that version: a read of the key
`2` at its root finds nothing afterwards. -/
theorem applyNonCommit_replaces_version :
    (getAtRoot (rootAfter firstCalls) (address 2)
      (opened.after order (firstCalls ++ secondCalls)) : Run _ _ _ (Option Address)).res =
        .ok (some (address 20)) ∧
    (getAtRoot (rootAfter firstCalls) (address 2)
      (opened.after order (firstCalls ++ secondCalls ++ backCalls)) :
        Run _ _ _ (Option Address)).res = .ok none := by
  decide +kernel

theorem lookup_ends_sample :
    (getDescend [9] (rootAfter (firstCalls ++ secondCalls))
      (opened.after order (firstCalls ++ secondCalls))).res ≠ .error .diverge :=
  (lookup_ends order (firstCalls ++ secondCalls) (by decide +kernel) _ [9]).2

/-- The key `1` is set back to `10` and committed. -/
def circleCalls : List (Call Address Address) :=
  firstCalls ++ secondCalls ++ [.put (address 1) (address 10), .commit true]

/-- The first and the second version are each other's parent: a lookup of a key that neither holds
goes round for ever. -/
theorem commit_makes_circle :
    ¬ Chain.Ends (nextVersion (opened.after order circleCalls).db.trees (Crypto.keccak256 [9]))
        (rootAfter circleCalls) ∧
      (getDescend [9] (rootAfter circleCalls) (opened.after order circleCalls)).res =
        .error .diverge := by
  refine ⟨?_, by decide +kernel⟩
  exact Chain.not_ends_of_circle (b := rootAfter (firstCalls ++ secondCalls)) (by decide +kernel)
    (by decide +kernel)

end Immutable

end Uchain
