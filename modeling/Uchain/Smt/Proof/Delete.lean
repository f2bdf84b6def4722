import Uchain.Lib.Radix.Erase
import Uchain.Smt.Proof.Update

/-!
# `SparseMerkleTree::update` with an empty value erases from the trie

The loop of `delete_with_sides_nodes` climbs from the place of the deleted leaf. As long as a single
leaf is left below, it carries that leaf up; then it joins it, and everything above, with the side
nodes. `loopState` says what the loop's variables are for the subtree that it has put together.

* `wp_deleteWithSidesNodes`: afterwards the tree represents the trie without the key.
-/

namespace Uchain

open Lib Exec SparseMerkleTree Radix

def Trie.erase (r : Trie) (k : H256) : Trie := Radix.erase bit k 0 r

variable [Crypto] {S : Set Query} {t₀ t : SparseMerkleTree} {T : Set Trie} {r : Trie} {p : H256}

/-- The variables of the loop when the subtree `cur` is what it has put together. -/
def loopState : Trie → DeleteLoop
  | .empty => {}
  | .leaf k v => ⟨merkle.hash (.leaf k v), some (merkle.hash (.leaf k v)), false⟩
  | .node l r => ⟨merkle.hash (.node l r), some (merkle.hash (.node l r)), true⟩

theorem currentHash_loopState (cur : Trie) : (loopState cur).currentHash = merkle.hash cur := by
  cases cur <;> rfl

theorem loopState_join (b : Bool) (x y : Trie) : loopState (join b x y) =
    ⟨merkle.hash (join b x y), some (merkle.hash (join b x y)), true⟩ := by
  cases b <;> rfl

/-- While the loop runs: the subtree put together and the side nodes are in the store. -/
structure Pruning (S : Set Query) (t₀ t : SparseMerkleTree) (T : Set Trie) (cur : Trie) :
    Prop where
  rebuilding : Rebuilding S t₀ t (cur.subtrees ∪ T)
  dataIn : merkle.DataIn (hashed S) cur

theorem wp_join (hg : KeccakGood S) {cur side : Trie} (h : Pruning S t₀ t T cur)
    (hT : side.subtrees ⊆ T) (hside : merkle.DataIn (hashed S) side) (i : Nat)
    {values : MemoryStorage} (hv : t.values = values) :
    wp S (do let currentHash ← putParent p i (merkle.hash cur) (merkle.hash side)
                  return (⟨currentHash, some currentHash, true⟩ : DeleteLoop)) t fun res t' =>
      ∃ st, res = .ok st ∧ st = loopState (join (bit p i) cur side) ∧
        Pruning S t₀ t' T (join (bit p i) cur side) ∧ t'.values = values := by
  refine wp_bind_ok (wp_putParent hg h.rebuilding p i h.dataIn hside) ?_
  rintro _ t' ⟨rfl, h', hd, hv'⟩
  refine wp_pure ⟨_, rfl, (loopState_join _ _ _).symm, ⟨?_, hd⟩, hv'.trans hv⟩
  have hset : {join (bit p i) cur side} ∪ (cur.subtrees ∪ T) =
      (join (bit p i) cur side).subtrees ∪ T := by
    rw [subtrees_join, Set.union_assoc, Set.union_assoc, Set.union_left_comm side.subtrees,
      Set.union_eq_self_of_subset_left hT]
  rwa [hset] at h'

/-- **One iteration of the loop** puts the side node over what there is. -/
theorem wp_deleteLoopBody (hg : KeccakGood S) {cur side : Trie} (h : Pruning S t₀ t T cur)
    (hT : side.subtrees ⊆ T) (hside : merkle.DataIn (hashed S) side)
    (hne : cur = .empty → side ≠ .empty) (i : Nat) :
    wp S (deleteLoopBody p i (merkle.hash side) (loopState cur)) t fun res t' =>
      ∃ st, res = .ok st ∧ st = loopState (shrink (bit p i) cur side) ∧
        Pruning S t₀ t' T (shrink (bit p i) cur side) ∧ t'.values = t.values := by
  have hget {x : Bytes} (hne : side ≠ .empty) (hx : merkle.data side = some x) :
      getNode (merkle.hash side) t = ⟨.ok x, t, []⟩ :=
    getNode_run (h.rebuilding.stores.get (.inr (hT (mem_subtrees_self hne))) hx)
  have hplaceholder (hne : side ≠ .empty) : merkle.hash side ≠ TreeHasher.placeholder :=
    hg.merkle.hash_ne hside hne
  cases cur with
  | empty =>
    cases side with
    | empty => exact absurd rfl (hne rfl)
    | leaf k v =>
      refine wp_bind_run (hget (fun h => by cases h) rfl) (wp_bind_run (isLeaf_run_leaf k v t) ?_)
      refine wp_pure ⟨_, rfl, rfl, ⟨?_, hside⟩, rfl⟩
      have := h.rebuilding
      rwa [subtrees, Set.empty_union, ← Set.union_eq_self_of_subset_left hT] at this
    | node l r =>
      refine wp_bind_run (hget (fun h => by cases h) rfl) (wp_bind_run (isLeaf_run_node _ _ t) ?_)
      exact wp_join hg h hT hside i rfl
  | leaf k v =>
    by_cases hempty : side = .empty
    · subst hempty
      exact wp_pure ⟨_, rfl, rfl, h, rfl⟩
    · rw [shrink_of_ne_empty (t := .leaf k v) (fun h => by cases h) hempty]
      refine wp_ite (fun hc => ?_) fun _ => wp_join hg h hT hside i rfl
      simp only [loopState, Bool.not_false, Bool.true_and, decide_eq_true_eq] at hc
      exact absurd hc (hplaceholder hempty)
  | node l r =>
    rw [shrink_node]
    exact wp_join hg h hT hside i rfl

/-- **The loop** climbs from `cur` over the side nodes. The source takes them deepest first. -/
theorem wp_deleteLoop (hg : KeccakGood S) (ss : List Trie) {cur : Trie} (h : Pruning S t₀ t T cur)
    (hss : ∀ u ∈ ss, u.subtrees ⊆ T ∧ merkle.DataIn (hashed S) u)
    (hlast : cur = .empty → ∀ u ∈ ss.getLast?, u ≠ .empty) :
    wp S (deleteLoop p (ss.reverse.map merkle.hash) (loopState cur)) t fun res t' =>
      ∃ st, res = .ok st ∧ st = loopState (prune bit p 0 ss cur) ∧
        Pruning S t₀ t' T (prune bit p 0 ss cur) ∧ t'.values = t.values := by
  induction ss using List.reverseRecOn generalizing cur t with
  | nil => exact wp_pure ⟨_, rfl, rfl, h, rfl⟩
  | append_singleton ss u ih =>
    rw [List.reverse_append, prune_append, Nat.zero_add]
    obtain ⟨hT, hside⟩ := hss u (List.mem_append_right _ (List.mem_singleton.2 rfl))
    have hu : cur = .empty → u ≠ .empty := fun hcur => hlast hcur u (by simp)
    have hbody := wp_deleteLoopBody (p := p) hg h hT hside hu ss.length
    have hlen : (ss.reverse.map merkle.hash).length = ss.length := by simp
    rw [← hlen] at hbody
    refine wp_bind_ok hbody ?_
    rintro _ t' ⟨rfl, h', hv⟩
    rw [hlen] at h' ⊢
    have hne : shrink (bit p ss.length) cur u ≠ .empty := by
      refine shrink_ne_empty ?_
      by_cases hcur : cur = .empty
      · exact .inr (hu hcur)
      · exact .inl hcur
    refine wp_mono (ih h' (fun w hw => hss w (List.mem_append_left _ hw))
      fun he => absurd he hne) ?_
    rintro _ t'' ⟨st, rfl, hst, h'', hv'⟩
    exact ⟨st, rfl, hst, h'', hv'.trans hv⟩

/-- What `update` with an empty value did to `t`, which represented `r`. -/
structure Erased (S : Set Query) (t t' : SparseMerkleTree) (r : Trie) (p : H256) : Prop where
  rep : Rep S t' (r.erase p)
  parent : t'.parent = t.parent

theorem wp_deleteWithSidesNodes (hg : KeccakGood S) (h : Rep S t₀ r) (hreb : Rebuilding S t₀ t r.subtrees)
    {v : H256} (hterm : terminal bit p 0 r = .leaf p v) :
    wp S (deleteWithSidesNodes p ((sides bit p 0 r).reverse.map merkle.hash)
      ((Radix.path bit p 0 r).reverse.map merkle.hash) (merkle.leafData p v)) t fun res t' =>
      ∃ a, res = .ok a ∧ Erased S t₀ { t' with root := a } r p ∧ t'.values = t.values := by
  have hleaf : leaf p v ∈ r.subtrees :=
    hterm ▸ terminal_mem_subtrees (by rw [hterm]; nofun)
  have hz : (merkle.hash (leaf p v)).isZero = false :=
    FixedBytes.isZero_eq_false_iff.2 (hg.merkle.hash_ne (h.dataIn.of_mem_subtrees hleaf) nofun)
  rw [deleteWithSidesNodes, pathNodes_head, hterm, hz, if_neg Bool.false_ne_true]
  refine wp_bind_run (parseLeaf_run p v t) ?_
  refine wp_ite (fun hne => absurd rfl hne) fun _ => ?_
  have hne : ∀ s ∈ Radix.path bit p 0 r, s ≠ .empty := by
    intro s hs
    rcases List.mem_append.1 hs with hs | hs
    · exact (ne_terminal_of_mem_above hs).1
    · rw [List.mem_singleton.1 hs, hterm]; nofun
  refine wp_bind_ok (wp_deleteNodes hg hreb (List.nodup_reverse.2 (path_nodup p 0 r))
    fun s hs => ⟨(mem_subtrees_iff 0 r).2 (.inl ⟨List.mem_reverse.1 hs,
      hne s (List.mem_reverse.1 hs)⟩), hne s (List.mem_reverse.1 hs)⟩) ?_
  rintro _ t₁ ⟨h₁, hv₁⟩
  simp only [List.mem_reverse] at h₁
  have hpruning : Pruning S t₀ t₁ (r.subtrees \ { s | s ∈ Radix.path bit p 0 r }) .empty :=
    ⟨by rwa [subtrees, Set.empty_union], Merkle.dataIn_empty⟩
  refine wp_bind_ok (wp_deleteLoop (p := p) hg (sides bit p 0 r) hpruning ?_ ?_) ?_
  · exact fun u hu => ⟨fun s hs => h.wf.mem_sdiff_path.2 ⟨u, hu, hs⟩, h.sides_dataIn hu⟩
  · intro _ u hu
    obtain ⟨ss, hss⟩ := List.getLast?_eq_some_iff.1 (Option.mem_def.1 hu)
    exact h.wf.last_side_ne_empty hss
  · rintro _ t₂ ⟨rfl, h₂, hv₂⟩
    rw [← erase_eq_prune 0 r hterm] at h₂ ⊢
    refine wp_pure ⟨_, rfl, ⟨⟨h.wf.wf_erase, h₂.dataIn, currentHash_loopState _, ?_⟩,
      h₂.rebuilding.parent⟩, hv₂.trans hv₁⟩
    have hset : (Radix.erase bit p 0 r).subtrees ∪ (r.subtrees \ { s | s ∈ Radix.path bit p 0 r }) =
        (Radix.erase bit p 0 r).subtrees := by
      refine Set.union_eq_self_of_subset_right fun s hs => ?_
      obtain ⟨u, hu, hsu⟩ := h.wf.mem_sdiff_path.1 hs
      rw [erase_eq_prune 0 r hterm]
      exact subtrees_subset_prune hu hsu
    have := h₂.rebuilding.stores
    rwa [hset] at this

/-- **`update` with an empty value erases from the trie**, if the value store has the key. -/
theorem wp_update_empty (hg : KeccakGood S) (h : Rep S t r) (key : Bytes)
    (hget : r.get (Crypto.keccak256 key) ≠ none)
    (hvalue : t.values.contains (Crypto.keccak256 key) = true) :
    wp S (update key []) t fun res t' => ∃ a, res = .ok a ∧
      Erased S t t' r (Crypto.keccak256 key) ∧
      t'.values = t.values.erase (Crypto.keccak256 key) := by
  refine wp_bind (wp_get ?_)
  generalize hp : Crypto.keccak256 key = p at hget hvalue ⊢
  obtain ⟨v, hv⟩ := Option.ne_none_iff_exists'.1 hget
  have hterm : terminal bit p 0 r = .leaf p v := terminal_of_get hv
  have hroot : wp S (updateForRoot key [] t.root) t fun res t' => ∃ a, res = .ok a ∧
      Erased S t { t' with root := a } r p ∧ t'.values = t.values.erase p := by
    refine wp_bind (wp_keccak256 fun _ => ?_)
    have hrun := sideNodesForRoot_run hg h (Crypto.keccak256 key) false
    refine wp_bind_run hrun ?_
    rw [hp]
    refine wp_bind (wp_bind (wp_get (wp_ite (fun _ => ?_)
      fun hn => absurd hvalue hn)))
    refine wp_modify ?_
    have hreb : Rebuilding S t { t with values := t.values.erase p } r.subtrees :=
      ⟨h.nodes, h.rebuilding.dataIn, rfl, rfl⟩
    have := wp_deleteWithSidesNodes hg h hreb hterm
    rwa [hterm]
  refine wp_bind_ok hroot ?_
  intro a t' hpost
  obtain ⟨he, hv⟩ := hpost
  exact wp_bind (wp_modify (wp_pure ⟨a, rfl, he, hv⟩))

theorem wp_update_absent (hg : KeccakGood S) (h : Rep S t r) (key : Bytes)
    (hvalue : t.values.contains (Crypto.keccak256 key) = false) :
    wp S (update key []) t fun res t' => res = .error (.err .storageError) ∧ t' = t := by
  refine wp_bind (wp_get (wp_bind (wp_bind (wp_keccak256 fun _ => ?_))))
  have hrun := sideNodesForRoot_run hg h (Crypto.keccak256 key) false
  refine wp_bind_run hrun (wp_bind (wp_bind (wp_get (wp_ite
    (fun hc => ?_) fun _ => wp_err ⟨rfl, rfl⟩))))
  rw [hvalue] at hc
  cases hc

end Uchain
