import Uchain.Smt.Proof.Contents

/-!
# Partial copies

A partial copy has the nodes of a tree and none of its values. `update` reads old leaves from the
nodes only, so that it does the same to both.
-/

namespace Uchain

open Lib Exec SparseMerkleTree

section Copies

variable [Crypto] {S : Set Query}

/-- A partial copy of `t`, or of such a copy. -/
inductive PartialCopy (t : SparseMerkleTree) : SparseMerkleTree → Prop
  | copy : PartialCopy t (t.subtree .partialCopy)
  | again {s : SparseMerkleTree} (h : PartialCopy t s) : PartialCopy t (s.subtree .partialCopy)

/-- `update` for each key and value, with the root after each. -/
def updateEach : List (Bytes × Bytes) → Smt (List H256)
  | [] => return []
  | e :: es => do
    let root ← update e.1 e.2
    let roots ← updateEach es
    return root :: roots

def insertRoots : Trie → List (Bytes × Bytes) → List H256
  | _, [] => []
  | r, e :: es =>
    (r.insert (Crypto.keccak256 e.1) (Crypto.keccak256 e.2)).hash ::
      insertRoots (r.insert (Crypto.keccak256 e.1) (Crypto.keccak256 e.2)) es

/-- **A list of updates with values** gives the roots of the tries, whatever values the tree has. -/
theorem wp_updateEach (hg : KeccakGood S) (es : List (Bytes × Bytes)) :
    ∀ {t : SparseMerkleTree} {r : Trie}, Rep S t r → (∀ e ∈ es, e.2 ≠ []) →
      wp S (updateEach es) t fun res _ => res = .ok (insertRoots r es) := by
  induction es with
  | nil => exact fun _ _ => wp_pure rfl
  | cons e es ih =>
    intro t r h hne
    refine wp_bind_ok (wp_update hg h e.1 (hne e List.mem_cons_self)) ?_
    rintro _ t' ⟨rfl, hu⟩
    refine wp_bind (wp_mono (ih hu.rep fun e' he' => hne e' (List.mem_cons_of_mem _ he')) ?_)
    rintro _ t'' rfl
    refine wp_pure ?_
    rw [insertRoots, hu.rep.root]

omit [Crypto] in
theorem PartialCopy.eq {t s : SparseMerkleTree} (h : PartialCopy t s) :
    s.nodes = t.nodes ∧ s.root = t.root ∧ s.values = .empty := by
  induction h with
  | copy => exact ⟨rfl, rfl, rfl⟩
  | again _ ih => exact ⟨ih.1, ih.2.1, rfl⟩

theorem PartialCopy.rep {t s : SparseMerkleTree} {r : Trie} (hs : PartialCopy t s) (h : Rep S t r) :
    Rep S s r := by
  obtain ⟨hnodes, hroot, -⟩ := hs.eq
  exact ⟨h.wf, h.dataIn, hroot.trans h.root, by rw [hnodes]; exact h.nodes⟩

/-- **Partial copies track the tree.** For every tree of a run, every partial copy of it and every
list of updates with values: none of them fails on either, and the roots after each are the same. -/
theorem partialCopy_tracks (hg : KeccakGood S) (calls : List (Bytes × Bytes))
    (hlog : ∀ q ∈ queries calls, q ∈ S) {s : SparseMerkleTree} (hs : PartialCopy (after calls) s)
    (es : List (Bytes × Bytes)) (hne : ∀ e ∈ es, e.2 ≠ [])
    (htree : ∀ q ∈ (updateEach es (after calls)).log, q ∈ S)
    (hcopy : ∀ q ∈ (updateEach es s).log, q ∈ S) :
    s.values = .empty ∧ ∃ roots, (updateEach es (after calls)).res = .ok roots ∧
      (updateEach es s).res = .ok roots := by
  obtain ⟨r, h⟩ := exists_refines hg hlog
  exact ⟨hs.eq.2.2, insertRoots r es, wp_updateEach hg es h.rep hne htree,
    wp_updateEach hg es (hs.rep h.rep) hne hcopy⟩

end Copies

namespace Copies

open scoped Sample
open Contents (sampleCalls)

def updates : List (Bytes × Bytes) := [([4], [40]), ([1], [12])]

def copy : SparseMerkleTree := ((after sampleCalls).subtree .partialCopy).subtree .partialCopy

@[irreducible] def sampleLog : List Query :=
  queries sampleCalls ++ ((updateEach updates (after sampleCalls)).log ++ (updateEach updates copy).log)

theorem partialCopy_tracks_sample : copy.values = .empty ∧
    ∃ roots, (updateEach updates (after sampleCalls)).res = .ok roots ∧
      (updateEach updates copy).res = .ok roots := by
  have hS : KeccakGood {q | q ∈ sampleLog} :=
    Sample.keccakGood_of_collisionFree (by decide +kernel)
  refine partialCopy_tracks hS sampleCalls (fun q hq => ?_) (.again .copy) updates (by decide)
    (fun q hq => ?_) fun q hq => ?_
  all_goals
    show q ∈ sampleLog
    rw [sampleLog]
  · exact List.mem_append_left _ hq
  · exact List.mem_append_right _ (List.mem_append_left _ hq)
  · exact List.mem_append_right _ (List.mem_append_right _ hq)

end Copies

end Uchain
