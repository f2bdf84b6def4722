import Uchain.Lib.Returns
import Uchain.Smt.MerkleProof
import Uchain.Types.Sample

/-!
# When a proof can be checked

A `Proof` is decoded from bytes of another party, and nothing bounds its side nodes or its leaf data.
`verify_proof` takes one bit of a path of 256 bits for each side node, and slices the leaf data at
fixed offsets.

* `verifyLoop_returns_iff`: the loop has a bit for each side node.
-/

namespace Uchain

open Lib Lib.Exec

section Total

variable [Crypto] {σ : Type}

/-- The leaf data, if they are read, have a whole path. -/
def Proof.LeafReadable (proof : Proof) (value : Bytes) : Prop :=
  value = [] → ∀ data, proof.nonMembershipLeafData = some data → 33 ≤ data.length

/-- The leaf data are read, and are those of the path itself. The check ends there. -/
def Proof.Contradicts (proof : Proof) (path : H256) (value : Bytes) : Prop :=
  value = [] ∧ ∃ data, proof.nonMembershipLeafData = some data ∧ (data.drop 1).take 32 = path.bytes

theorem digestNode_run (left right : Bytes) (s : σ) :
    (TreeHasher.digestNode left right : Exec SmtError Query σ (H256 × Bytes)) s =
      ⟨.ok (Crypto.keccak256 (TreeHasher.nodePrefix ++ left ++ right),
        TreeHasher.nodePrefix ++ left ++ right), s,
        [.keccak256 (TreeHasher.nodePrefix ++ left ++ right)]⟩ := rfl

theorem verifyLoop_returns_iff (path : H256) (sideNodes : List H256) :
    ∀ (currentHash : H256) (updates : List (Bytes × Bytes)) (s : σ),
      Returns (verifyLoop path sideNodes currentHash updates) s ↔ sideNodes.length ≤ 256 := by
  induction sideNodes with
  | nil =>
    intro currentHash updates s
    exact iff_of_true (returns_pure _) (Nat.zero_le _)
  | cons node nodes ih =>
    intro currentHash updates s
    unfold verifyLoop
    by_cases hlen : nodes.length < 256
    · have hbit : (pathBit path nodes.length : Exec SmtError Query σ Bool) s =
          ⟨.ok (getBitsAtFromMsb path.bytes nodes.length), s, []⟩ := by
        rw [pathBit, if_pos hlen]
        rfl
      rw [returns_bind_ok hbit]
      dsimp only
      rw [returns_bind_ok (digestNode_run _ _ s), ih, List.length_cons]
      omega
    · have hbit : (pathBit path nodes.length : Exec SmtError Query σ Bool) s =
          ⟨.error .panic, s, []⟩ := by
        rw [pathBit, if_neg hlen]
        rfl
      rw [returns_bind_error hbit, Returns, hbit, List.length_cons]
      exact iff_of_false (by simp [returned]) (by omega)

/-- The start of the loop: a hash, the error for the leaf of the path itself, or a panic. -/
theorem verifyStart_cases (proof : Proof) (path : H256) (value : Bytes) (s : σ) :
    (¬ proof.LeafReadable value ∧ (verifyStart proof path value s).res = .error .panic) ∨
    (proof.LeafReadable value ∧ proof.Contradicts path value ∧
      ∃ e, (verifyStart proof path value s).res = .error (.err e)) ∨
    (proof.LeafReadable value ∧ ¬ proof.Contradicts path value ∧
      ∃ a, (verifyStart proof path value s).res = .ok a) := by
  by_cases hvalue : value = []
  · subst hvalue
    cases hleaf : proof.nonMembershipLeafData with
    | none =>
      refine .inr (.inr ⟨fun _ data hdata => ?_, fun hc => ?_, ?_⟩)
      · rw [hleaf] at hdata
        cases hdata
      · obtain ⟨data, hdata, -⟩ := hc.2
        rw [hleaf] at hdata
        cases hdata
      · unfold verifyStart
        rw [hleaf]
        exact ⟨_, rfl⟩
    | some data =>
      have hread : proof.LeafReadable [] ↔ 33 ≤ data.length := by
        simp [Proof.LeafReadable, hleaf]
      have hcon : proof.Contradicts path [] ↔ (data.drop 1).take 32 = path.bytes := by
        simp [Proof.Contradicts, hleaf]
      rw [hread, hcon]
      unfold verifyStart
      rw [hleaf]
      dsimp only [List.isEmpty_nil, if_true]
      by_cases hlen : 33 ≤ data.length
      · have hparse : (TreeHasher.parseLeaf data : Exec SmtError Query σ (Bytes × Bytes)) s =
            ⟨.ok ((data.drop 1).take 32, data.drop 33), s, []⟩ := by
          exact congrFun (if_pos hlen) s
        rw [if_pos rfl, bind_ok_nil hparse]
        dsimp only
        by_cases hpath : (data.drop 1).take 32 = path.bytes
        · rw [if_pos hpath]
          exact .inr (.inl ⟨hlen, hpath, _, rfl⟩)
        · rw [if_neg hpath]
          exact .inr (.inr ⟨hlen, hpath, _, rfl⟩)
      · have hparse : (TreeHasher.parseLeaf data : Exec SmtError Query σ (Bytes × Bytes)) s =
            ⟨.error .panic, s, []⟩ := by
          exact congrFun (if_neg hlen) s
        rw [if_pos rfl, bind_error hparse]
        exact .inl ⟨hlen, rfl⟩
  · refine .inr (.inr ⟨fun h => absurd h hvalue, fun hc => hvalue hc.1, ?_⟩)
    unfold verifyStart
    rw [if_neg (by simpa using hvalue)]
    exact ⟨_, rfl⟩

theorem verifyProofWithUpdates_returns_iff (proof : Proof) (root : H256) (key value : Bytes) (s : σ) :
    Returns (verifyProofWithUpdates proof root key value) s ↔
      proof.LeafReadable value ∧
        (proof.sideNodes.length ≤ 256 ∨ proof.Contradicts (Crypto.keccak256 key) value) := by
  rw [verifyProofWithUpdates, returns_bind_ok (TreeHasher.path_run key s)]
  rcases verifyStart_cases proof (Crypto.keccak256 key) value s with
    ⟨hread, hstart⟩ | ⟨hread, hcon, e, hstart⟩ | ⟨hread, hcon, a, hstart⟩
  · rw [returns_bind_error (Run.eq_of_res hstart), Returns, hstart]
    exact iff_of_false (by simp [returned]) fun h => hread h.1
  · rw [returns_bind_error (Run.eq_of_res hstart), Returns, hstart]
    exact iff_of_true rfl ⟨hread, .inr hcon⟩
  · rw [returns_bind_ok (Run.eq_of_res hstart), returns_bind_iff, verifyLoop_returns_iff]
    · exact ⟨fun h => ⟨hread, .inl h⟩, fun h => h.2.resolve_right hcon⟩
    · intro b s'
      exact returns_ite rfl (returns_pure _)

/-- **When a proof can be checked**: exactly if the leaf data, where they are read, have at least 33
bytes, and there are at most 256 side nodes or the leaf data already settle the matter. -/
theorem verifyProof_total_iff (proof : Proof) (root : H256) (key value : Bytes) (s : σ) :
    (∃ accepted, (verifyProof proof root key value s).res = .ok accepted) ↔
      proof.LeafReadable value ∧
        (proof.sideNodes.length ≤ 256 ∨ proof.Contradicts (Crypto.keccak256 key) value) := by
  rw [← verifyProofWithUpdates_returns_iff proof root key value s, verifyProof]
  rcases hrun : verifyProofWithUpdates proof root key value s with ⟨(e | _ | _) | updates, s', l⟩
  all_goals
    have hcaught := attempt_run (verifyProofWithUpdates proof root key value) s
    rw [hrun] at hcaught
    rw [Returns, hrun]
  · rw [bind_ok hcaught]
    exact iff_of_true ⟨_, rfl⟩ rfl
  · rw [bind_error hcaught]
    exact iff_of_false (fun h => by cases h.choose_spec) (by simp [returned])
  · rw [bind_error hcaught]
    exact iff_of_false (fun h => by cases h.choose_spec) (by simp [returned])
  · rw [bind_ok hcaught]
    exact iff_of_true ⟨_, rfl⟩ rfl

end Total

namespace Total

open scoped Sample

/-- A proof with 257 side nodes, and one with leaf data of a single byte. -/
theorem verifyProof_panics :
    (verifyProof ⟨List.replicate 257 FixedBytes.zero, none, none⟩ FixedBytes.zero [1] [2] ()).res =
        .error .panic ∧
      (verifyProof ⟨[], some [0], none⟩ FixedBytes.zero [1] [] ()).res = .error .panic :=
  ⟨by decide +kernel, by decide +kernel⟩

end Total

end Uchain
