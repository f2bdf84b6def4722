import Uchain.Smt.Proof.Branch
import Uchain.Smt.Proof.Copies
import Uchain.Smt.Proof.MerkleProof
import Uchain.Smt.Proof.Partial

/-!
# Imported branches

`add_branch` with an updatable proof of a tree takes over the nodes on the way to a key, the deepest
side node and the value.
-/

namespace Uchain

open Lib Lib.Exec SparseMerkleTree BTreeMap

section Branches

variable [Crypto] {S : Set Query} {s s' t t' : SparseMerkleTree} {r : Trie} {m : KvMap} {p : H256}

/-! ## Nodes of another store -/

/-- Each node is as it was, or as it is in `t`. -/
def Taken (t : SparseMerkleTree) (nodes nodes' : MemoryStorage) : Prop :=
  ∀ h, nodes'.get? h = nodes.get? h ∨ nodes'.get? h = t.nodes.get? h

variable {nodes nodes' nodes'' : MemoryStorage}

omit [Crypto] in
theorem Taken.refl (t : SparseMerkleTree) (nodes : MemoryStorage) : Taken t nodes nodes :=
  fun _ => .inl rfl

omit [Crypto] in
theorem Taken.trans (h : Taken t nodes nodes') (h' : Taken t nodes' nodes'') :
    Taken t nodes nodes'' := by
  intro k
  rcases h' k with h' | h'
  · rw [h']
    exact h k
  · exact .inr h'

omit [Crypto] in
theorem Taken.insert {h : H256} {x : Bytes} (hget : t.nodes.get? h = some x) :
    Taken t nodes (nodes.insert h x) := by
  intro k
  rw [get?_insert]
  split
  · rename_i hk
    rw [hk, hget]
    exact .inr rfl
  · exact .inl rfl

omit [Crypto] in
theorem Taken.keeps (h : Taken t nodes nodes') {k : H256} (hk : nodes.get? k = t.nodes.get? k) :
    nodes'.get? k = t.nodes.get? k := by
  rcases h k with h | h
  · rw [h, hk]
  · exact h

theorem taken_putAll (updates : List (Bytes × Bytes))
    (h : ∀ u ∈ updates, t.nodes.get? (Crypto.keccak256 u.2) = some u.2) :
    ∀ nodes, Taken t nodes (putAll nodes updates) ∧
      ∀ u ∈ updates, (putAll nodes updates).get? (Crypto.keccak256 u.2) = some u.2 := by
  induction updates with
  | nil => exact fun nodes => ⟨.refl t nodes, fun u hu => by cases hu⟩
  | cons update updates ih =>
    intro nodes
    have hget := h update List.mem_cons_self
    obtain ⟨htaken, hputs⟩ := ih (fun u hu => h u (List.mem_cons_of_mem _ hu))
      (nodes.insert (Crypto.keccak256 update.2) update.2)
    refine ⟨(Taken.insert hget).trans htaken, fun u hu => ?_⟩
    rcases List.mem_cons.1 hu with rfl | hu
    · refine (htaken.keeps ?_).trans hget
      rw [get?_insert, if_pos rfl, hget]
    · exact hputs u hu

/-! ## One branch -/

/-- What a tree `s` has after the branches at `paths` of a tree `t` with the trie `r`. -/
structure Imported (t : SparseMerkleTree) (r : Trie) (paths : List H256) (s s' : SparseMerkleTree) :
    Prop where
  root : s'.root = s.root
  nodes : Taken t s.nodes s'.nodes
  held : ∀ p ∈ paths, Walkable s' p 0 r ∧ SiblingHeld s' p r
  values : ∀ j, s'.values.get? j =
    if j ∈ paths then (t.values.get? j).or (s.values.get? j) else s.values.get? j

theorem keeps_getValue (key : Bytes) : Keeps id (SparseMerkleTree.get key) :=
  keeps_bind keeps_get fun _ => keeps_ite (keeps_pure _)
    (keeps_bind (keeps_keccak256 _) fun _ => keeps_pure _)

/-- The proof of a path that a tree with the trie `r` makes. -/
def honestProof (p : H256) (r : Trie) (isUpdatable : Bool) : Proof :=
  ⟨(Radix.sides bit p 0 r).reverse.map merkle.hash, foundLeafData p (Radix.terminal bit p 0 r),
    siblingData p r isUpdatable⟩

theorem getAndProve_run (hg : KeccakGood S) (h : Refines S t r m) (key : Bytes)
    (isUpdatable : Bool) : ∃ log, getAndProve key isUpdatable t =
      ⟨.ok ((t.values.get? (Crypto.keccak256 key)).getD [],
        honestProof (Crypto.keccak256 key) r isUpdatable), t, log⟩ := by
  have hget := Run.eq_of_res (get_run hg h key)
  rw [show (SparseMerkleTree.get key t).state = t from keeps_getValue key t] at hget
  rw [getAndProve, bind_ok hget, get_bind,
    bind_ok (doProofForRoot_run hg h.rep key isUpdatable)]
  exact ⟨_, rfl⟩

theorem mem_nodeUpdates {us : List Trie} {u : Trie} {x : Bytes} (hu : u ∈ us)
    (hx : merkle.data u = some x) : ((merkle.hash u).bytes, x) ∈ us.reverse.filterMap nodeUpdate := by
  refine List.mem_filterMap.2 ⟨u, List.mem_reverse.2 hu, ?_⟩
  rw [nodeUpdate, hx, Option.map_some]

theorem get?_of_mem_nodeUpdates (h : Rep S t r) {u : Bytes × Bytes}
    (hu : u ∈ (Radix.path bit p 0 r).reverse.filterMap nodeUpdate) :
    t.nodes.get? (Crypto.keccak256 u.2) = some u.2 := by
  obtain ⟨w, hw, hupdate⟩ := List.mem_filterMap.1 hu
  rw [nodeUpdate, Option.map_eq_some_iff] at hupdate
  obtain ⟨x, hx, rfl⟩ := hupdate
  have hne : w ≠ .empty := by
    rintro rfl
    cases hx
  have hmem : w ∈ r.subtrees :=
    (Radix.mem_subtrees_iff 0 r).2 (.inl ⟨List.mem_reverse.1 hw, hne⟩)
  have hhash : merkle.hash w = Crypto.keccak256 x := Merkle.hash_of_data hx
  rw [← hhash]
  exact h.nodes.get hmem hx

theorem withSibling_taken (h : Rep S t r) (p : H256) (nodes : MemoryStorage) :
    Taken t nodes (withSibling nodes (honestProof p r true)) ∧
      ∀ u ∈ (Radix.sides bit p 0 r).getLast?, ∀ x, merkle.data u = some x →
        (withSibling nodes (honestProof p r true)).get? (merkle.hash u) = some x := by
  cases hlast : (Radix.sides bit p 0 r).getLast? with
  | none =>
    rw [withSibling, honestProof, siblingData, hlast]
    exact ⟨.refl t nodes, fun u hu => (by cases hu)⟩
  | some u =>
    obtain ⟨ss, hss⟩ := List.getLast?_eq_some_iff.1 hlast
    obtain ⟨-, x, hx⟩ := last_side_data h.wf hlast
    have hget := h.held.siblingHeld p u hlast x hx
    have hside : withSibling nodes (honestProof p r true) = nodes.insert (merkle.hash u) x := by
      rw [withSibling, honestProof, siblingData, hlast, hss, List.reverse_append, List.reverse_singleton,
        Option.map_some, hx]
      rfl
    rw [hside]
    refine ⟨.insert hget, fun w hw y hy => ?_⟩
    cases hw
    rw [hx] at hy
    rw [get?_insert, if_pos rfl, hy]

/-- **One branch.** -/
theorem importBranch_imported (hg : KeccakGood S) (h : Refines S t r m) (key : Bytes)
    (s : SparseMerkleTree) : ∃ s' log, importBranch t key s = ⟨.ok (), s', log⟩ ∧
      Imported t r [Crypto.keccak256 key] s s' := by
  obtain ⟨log, hprove⟩ := getAndProve_run hg h key true
  obtain ⟨log', hverify⟩ := verifyProofWithUpdates_accepts h.rep s
    (h.hasAt (Crypto.keccak256 key)) (siblingData (Crypto.keccak256 key) r true)
  obtain ⟨log'', hadd⟩ := addBranch_run hverify
  have hrunOn : (runOn t (getWithProofUpdatable key) : Smt _) s =
      ⟨.ok (((t.values.get? (Crypto.keccak256 key)).getD [],
        honestProof (Crypto.keccak256 key) r true), t), s, log⟩ := by
    rw [runOn, getWithProofUpdatable, hprove]
    rfl
  obtain ⟨htaken, hputs⟩ := taken_putAll
    ((Radix.path bit (Crypto.keccak256 key) 0 r).reverse.filterMap nodeUpdate)
    (fun u hu => get?_of_mem_nodeUpdates h.rep hu) s.nodes
  obtain ⟨htaken', hsib⟩ := withSibling_taken h.rep (Crypto.keccak256 key)
    (putAll s.nodes ((Radix.path bit (Crypto.keccak256 key) 0 r).reverse.filterMap nodeUpdate))
  have hrun := bind_ok (f := fun x => addBranch x.1.2 t.root key x.1.1) hrunOn
  dsimp only [honestProof] at hrun
  rw [hadd] at hrun
  refine ⟨_, _, hrun, rfl, htaken.trans htaken', fun p hp => ?_, fun j => ?_⟩
  · cases List.mem_singleton.1 hp
    refine ⟨fun u hu x hx => ?_, hsib⟩
    have hhash : merkle.hash u = Crypto.keccak256 x := Merkle.hash_of_data hx
    have hput := hputs _ (mem_nodeUpdates hu hx)
    have hget := get?_of_mem_nodeUpdates h.rep (mem_nodeUpdates hu hx)
    rw [hhash]
    exact (htaken'.keeps (hput.trans hget.symm)).trans hget
  · dsimp only
    cases hvalue : t.values.get? (Crypto.keccak256 key) with
    | none =>
      rw [Option.getD_none, if_pos rfl]
      split
      · rename_i hj
        rw [List.mem_singleton.1 hj, hvalue, Option.none_or]
      · rfl
    | some v =>
      obtain ⟨k, hk, hm⟩ := (h.values _ v).1 hvalue
      rw [Option.getD_some, if_neg (h.hashed k v hm).2.2, get?_insert]
      simp only [List.mem_singleton]
      split
      · rename_i hj
        rw [hj, hvalue, Option.some_or]
      · rfl

/-! ## All branches -/

theorem Walkable.taken (h : Rep S t r) (hwalk : Walkable s p 0 r) (htaken : Taken t s.nodes s'.nodes) :
    Walkable s' p 0 r := by
  intro u hu x hx
  have hne : u ≠ .empty := by
    rintro rfl
    cases hx
  have hget := h.nodes.get ((Radix.mem_subtrees_iff 0 r).2 (.inl ⟨hu, hne⟩)) hx
  exact (htaken.keeps ((hwalk u hu x hx).trans hget.symm)).trans hget

theorem SiblingHeld.taken (h : Rep S t r) (hsib : SiblingHeld s p r)
    (htaken : Taken t s.nodes s'.nodes) : SiblingHeld s' p r := by
  intro u hu x hx
  have hget := h.held.siblingHeld p u hu x hx
  exact (htaken.keeps ((hsib u hu x hx).trans hget.symm)).trans hget

theorem Imported.trans {s₁ s₂ : SparseMerkleTree} {paths paths' : List H256} (h : Rep S t r)
    (h₁ : Imported t r paths s s₁) (h₂ : Imported t r paths' s₁ s₂) :
    Imported t r (paths ++ paths') s s₂ where
  root := h₂.root.trans h₁.root
  nodes := h₁.nodes.trans h₂.nodes
  held p hp := by
    rcases List.mem_append.1 hp with hp | hp
    · obtain ⟨hwalk, hsib⟩ := h₁.held p hp
      exact ⟨hwalk.taken h h₂.nodes, hsib.taken h h₂.nodes⟩
    · exact h₂.held p hp
  values j := by
    rw [h₂.values j, h₁.values j]
    simp only [List.mem_append]
    by_cases hj : j ∈ paths <;> by_cases hj' : j ∈ paths' <;> simp only [hj, hj', if_true, if_false,
      or_true, true_or, or_self]
    cases t.values.get? j <;> rfl

/-- **The branches of a list of keys.** None of them fails. -/
theorem importBranches_imported (hg : KeccakGood S) (h : Refines S t r m) (keys : List Bytes) :
    ∀ s, ∃ s' log, importBranches t keys s = ⟨.ok (), s', log⟩ ∧
      Imported t r (keys.map Crypto.keccak256) s s' := by
  induction keys with
  | nil =>
    intro s
    exact ⟨s, [], rfl, rfl, .refl t s.nodes, fun p hp => (by cases hp), fun j => rfl⟩
  | cons key keys ih =>
    intro s
    obtain ⟨s₁, log₁, hrun₁, h₁⟩ := importBranch_imported hg h key s
    obtain ⟨s₂, log₂, hrun₂, h₂⟩ := ih s₁
    refine ⟨s₂, log₁ ++ log₂, ?_, h₁.trans h.rep h₂⟩
    show (importBranch t key >>= fun _ => importBranches t keys) s = _
    rw [bind_ok hrun₁, hrun₂]

omit [Crypto] in
theorem Imported.view {paths : List H256} [Crypto] (h : Imported t r paths s s') (hv : View s t) :
    View s' t where
  root := h.root.trans hv.root
  nodes k x hget := by
    rcases h.nodes k with hk | hk
    · exact hv.nodes k x (hk ▸ hget)
    · exact hk ▸ hget
  values j v hget := by
    rw [h.values j] at hget
    split at hget
    · cases hvalue : t.values.get? j with
      | none =>
        rw [hvalue, Option.none_or] at hget
        rw [hv.values j v hget] at hvalue
        cases hvalue
      | some w =>
        rw [hvalue, Option.some_or] at hget
        exact hget
    · exact hv.values j v hget

/-! ## Deletions from partial copies -/

def partialSubtree (t : SparseMerkleTree) (importKeys : List Bytes) : SparseMerkleTree :=
  (subtreeImporting t .partialCopy importKeys .new).state

theorem partialSubtree_imported (hg : KeccakGood S) (h : Refines S t r m) (importKeys : List Bytes) :
    (subtreeImporting t .partialCopy importKeys .new).res = .ok () ∧
      Imported t r (importKeys.map Crypto.keccak256) (t.subtree .partialCopy)
        (partialSubtree t importKeys) := by
  obtain ⟨s', log, hrun, himported⟩ :=
    importBranches_imported hg h importKeys (t.subtree .partialCopy)
  have hset : (set (t.subtree .partialCopy) : Smt Unit) .new = ⟨.ok (), t.subtree .partialCopy, []⟩ := rfl
  have hsubtree : subtreeImporting t .partialCopy importKeys .new = ⟨.ok (), s', log⟩ := by
    rw [subtreeImporting, bind_ok_nil hset]
    exact hrun
  rw [partialSubtree, hsubtree]
  exact ⟨rfl, himported⟩

/-- The nodes of a partial copy are those of the tree, whatever is imported. -/
theorem Imported.walkable_of_partial {paths : List H256} (h : Rep S t r)
    (himported : Imported t r paths (t.subtree .partialCopy) s') (p : H256) :
    Walkable s' p 0 r ∧ SiblingHeld s' p r := by
  have hnodes (k : H256) : s'.nodes.get? k = t.nodes.get? k := himported.nodes.keeps rfl
  have hheld : Held s' r := by
    intro u hu x hx
    rw [hnodes]
    exact h.nodes.get hu hx
  exact ⟨hheld.walkable p 0, hheld.siblingHeld p⟩

/-- **When a key is deleted from a partial copy** as from the tree: exactly if its branch was
imported. -/
theorem partialCopy_deletes_iff (hg : KeccakGood S) (calls : List (Bytes × Bytes))
    (hlog : ∀ q ∈ queries calls, q ∈ S) (importKeys : List Bytes) (key : Bytes)
    (hkey : (contents calls).get? key ≠ none)
    (htree : ∀ q ∈ (update key [] (after calls)).log, q ∈ S)
    (hcopy : ∀ q ∈ (update key [] (partialSubtree (after calls) importKeys)).log, q ∈ S) :
    (subtreeImporting (after calls) .partialCopy importKeys .new).res = .ok () ∧
      ((∃ root, (update key [] (partialSubtree (after calls) importKeys)).res = .ok root ∧
        (update key [] (after calls)).res = .ok root) ↔
          Crypto.keccak256 key ∈ importKeys.map Crypto.keccak256) := by
  obtain ⟨r, h⟩ := exists_refines hg hlog
  obtain ⟨hok, himported⟩ := partialSubtree_imported hg h importKeys
  have hmem : .keccak256 key ∈ S := wp_update_key S key [] (after calls) htree
  have hview := himported.view (view_subtree (after calls) .partialCopy)
  have hvalues : (partialSubtree (after calls) importKeys).values.contains (Crypto.keccak256 key) =
      decide (Crypto.keccak256 key ∈ importKeys.map Crypto.keccak256) := by
    obtain ⟨v, hv⟩ := Option.ne_none_iff_exists'.1 hkey
    rw [contains, himported.values, h.values_path hg hmem, hv]
    split
    · rename_i hin
      simp [hin]
    · rename_i hin
      simp only [hin, decide_false]
      rfl
  refine ⟨hok, fun hdel => ?_, fun hin => ?_⟩
  · by_contra hin
    rw [decide_eq_false hin] at hvalues
    have hrep : Rep S (partialSubtree (after calls) importKeys) r := by
      refine ⟨h.rep.wf, h.rep.dataIn, hview.root.trans h.rep.root, ?_⟩
      rw [show (partialSubtree (after calls) importKeys).nodes.get? = (after calls).nodes.get? from
        funext fun k => himported.nodes.keeps rfl]
      exact h.rep.nodes
    obtain ⟨root, hroot, -⟩ := hdel
    obtain ⟨herr, -⟩ := wp_update_absent hg hrep key hvalues hcopy
    rw [herr] at hroot
    cases hroot
  · rw [decide_eq_true hin] at hvalues
    obtain ⟨hwalk, hsib⟩ := himported.walkable_of_partial h.rep (Crypto.keccak256 key)
    obtain ⟨hres, -, -⟩ := delete_lockstep hg h.rep hview hwalk hvalues hsib
    obtain ⟨hout, -⟩ := wp_update_refines hg h key [] htree
    rw [Outcome, if_neg fun hc => hkey hc.2] at hout
    obtain ⟨root, hroot⟩ := hout
    exact ⟨root, hres.trans hroot, hroot⟩

/-! ## Updates at imported keys -/

/-- **An update leaves the ways to all keys whole.** The way to a key is new where it is the way to
the updated key, and both trees have the new nodes; elsewhere it is the old one. -/
theorem Walkable.updated (hg : KeccakGood S) (h : Rep S t r) {k v : H256}
    (h' : Rep S t' (r.insert k v)) (hbeside : Beside s t s' t') (hwalk : Walkable s p 0 r) :
    Walkable s' p 0 (r.insert k v) := by
  intro u hu x hx
  have hne : u ≠ .empty := by
    rintro rfl
    cases hx
  have hmem : u ∈ (r.insert k v).subtrees := (Radix.mem_subtrees_iff 0 _).2 (.inl ⟨hu, hne⟩)
  have hnew := h'.nodes.get hmem hx
  rcases hbeside.frame (merkle.hash u) with ⟨hs, ht⟩ | hsame
  · -- the node was there before, so it is a subtree of the old trie
    rw [hs]
    obtain ⟨w, hw, hhash, -⟩ := (h.nodes _ _).1 (ht ▸ hnew)
    obtain rfl : w = u := hg.merkle.hash_inj (h.dataIn.of_mem_subtrees hw)
      (h'.dataIn.of_mem_subtrees hmem) hhash
    refine hwalk w ?_ x hx
    rcases Radix.mem_path_insert hne 0 r hu with hnewpath | hold
    · -- a node of the new way in the old trie: nothing was inserted
      have hentry := Radix.entries_subset_of_mem_subtrees hw
        (Radix.mem_entries_of_mem_path_insert hnewpath)
      have hget : r.get k = some v := h.wf.get_eq_some_iff.2 hentry
      have hself : r.insert k v = r := Radix.insert_self 0 r (Radix.terminal_of_get hget)
      rwa [hself] at hu
    · exact hold
  · rw [hsame]
    exact hnew

theorem updateEach_lockstep (hg : KeccakGood S) (paths : List H256) (es : List (Bytes × Bytes)) :
    ∀ {s t : SparseMerkleTree} {r : Trie}, Rep S t r → View s t →
      (∀ p ∈ paths, Walkable s p 0 r) → (∀ e ∈ es, Crypto.keccak256 e.1 ∈ paths ∧ e.2 ≠ []) →
      (∀ q ∈ (updateEach es t).log, q ∈ S) →
      ∃ roots, (updateEach es t).res = .ok roots ∧ (updateEach es s).res = .ok roots := by
  induction es with
  | nil => exact fun _ _ _ _ _ => ⟨[], rfl, rfl⟩
  | cons e es ih =>
    intro s t r h hview hwalk hes hlog
    obtain ⟨hpath, hvalue⟩ := hes e List.mem_cons_self
    have hcall : ∀ q ∈ (update e.1 e.2 t).log, q ∈ S := fun q hq =>
      hlog q (log_subset_bind _ _ t hq)
    obtain ⟨root, hroot, -, hupdated⟩ := wp_update hg h e.1 hvalue hcall
    obtain ⟨hres, -, hbeside⟩ := update_lockstep hg h hview (hwalk _ hpath) hvalue
    have hrun := Run.eq_of_res hroot
    have hrun' := Run.eq_of_res (hres.trans hroot)
    rw [updateEach, bind_ok hrun] at hlog
    obtain ⟨roots, ht, hs⟩ := ih hupdated.rep hbeside.toView
      (fun p hp => (hwalk p hp).updated hg h hupdated.rep hbeside)
      (fun e' he' => hes e' (List.mem_cons_of_mem _ he'))
      fun q hq => hlog q (List.mem_append_right _ (log_subset_bind _ _ _ hq))
    refine ⟨root :: roots, ?_, ?_⟩
    · rw [updateEach, bind_ok hrun, bind_ok (Run.eq_of_res ht)]
      rfl
    · rw [updateEach, bind_ok hrun', bind_ok (Run.eq_of_res hs)]
      rfl

/-- The tree that has only the branches of some keys of `t`. -/
def branchesOf (t : SparseMerkleTree) (keys : List Bytes) : SparseMerkleTree :=
  (importBranches t keys (t.subtree .none)).state

/-- **Branches suffice for updates.** For every tree of a run and every list of keys, present or not:
all branches are added to an empty copy, and no list of updates of these keys with values fails
there; the roots after each are those of the tree. -/
theorem branches_suffice (hg : KeccakGood S) (calls : List (Bytes × Bytes))
    (hlog : ∀ q ∈ queries calls, q ∈ S) (keys : List Bytes) (es : List (Bytes × Bytes))
    (hes : ∀ e ∈ es, e.1 ∈ keys ∧ e.2 ≠ [])
    (htree : ∀ q ∈ (updateEach es (after calls)).log, q ∈ S) :
    (importBranches (after calls) keys ((after calls).subtree .none)).res = .ok () ∧
      ∃ roots, (updateEach es (after calls)).res = .ok roots ∧
        (updateEach es (branchesOf (after calls) keys)).res = .ok roots := by
  obtain ⟨r, h⟩ := exists_refines hg hlog
  obtain ⟨s, log, hrun, himported⟩ :=
    importBranches_imported hg h keys ((after calls).subtree .none)
  have hview := himported.view (view_subtree (after calls) .none)
  rw [branchesOf, hrun]
  refine ⟨rfl, updateEach_lockstep hg (keys.map Crypto.keccak256) es h.rep hview
    (fun p hp => (himported.held p hp).1) (fun e he => ?_) htree⟩
  exact ⟨List.mem_map_of_mem (hes e he).1, (hes e he).2⟩

end Branches

namespace Branches

open scoped Sample
open Contents (sampleCalls)

def keys : List Bytes := [[1], [4], [5]]

def updates : List (Bytes × Bytes) := [([4], [40]), ([1], [12]), ([5], [50]), ([4], [41])]

@[irreducible] def sampleLog : List Query :=
  queries sampleCalls ++ ((updateEach updates (after sampleCalls)).log ++
    ((update [1] [] (after sampleCalls)).log ++
      (update [1] [] (partialSubtree (after sampleCalls) [[1]])).log))

theorem sampleLog_good : KeccakGood {q | q ∈ sampleLog} :=
  Sample.keccakGood_of_collisionFree (by decide +kernel)

theorem queries_mem {q : Query} (h : q ∈ queries sampleCalls) : q ∈ sampleLog := by
  rw [sampleLog]
  exact List.mem_append_left _ h

theorem branches_suffice_sample :
    (importBranches (after sampleCalls) keys ((after sampleCalls).subtree .none)).res = .ok () ∧
      ∃ roots, (updateEach updates (after sampleCalls)).res = .ok roots ∧
        (updateEach updates (branchesOf (after sampleCalls) keys)).res = .ok roots := by
  refine branches_suffice sampleLog_good sampleCalls (fun _ => queries_mem) keys updates (by decide)
    fun q hq => ?_
  show q ∈ sampleLog
  rw [sampleLog]
  exact List.mem_append_right _ (List.mem_append_left _ hq)

theorem partialCopy_deletes_iff_imported :
    ∃ root, (update [1] [] (partialSubtree (after sampleCalls) [[1]])).res = .ok root ∧
      (update [1] [] (after sampleCalls)).res = .ok root := by
  refine (partialCopy_deletes_iff sampleLog_good sampleCalls (fun _ => queries_mem) [[1]] [1]
    (by decide +kernel) (fun q hq => ?_) fun q hq => ?_).2.2 (by decide +kernel)
  all_goals
    show q ∈ sampleLog
    rw [sampleLog]
    refine List.mem_append_right _ (List.mem_append_right _ ?_)
  · exact List.mem_append_left _ hq
  · exact List.mem_append_right _ hq

/-- The key is deleted from the tree, and not from its partial copy. -/
theorem partialCopy_cannot_delete :
    (contents sampleCalls).get? [1] = some [11] ∧
    (update [1] [] (after sampleCalls)).res.isOk = true ∧
    (update [1] [] ((after sampleCalls).subtree .partialCopy)).res = .error (.err .storageError) :=
  ⟨by decide +kernel, by decide +kernel, by decide +kernel⟩

end Branches

end Uchain
