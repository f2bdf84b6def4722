import Uchain.Smt.Branch

/-!
# What the tree's methods leave alone

The hasher, the walk to a path and the verifier change nothing.
-/

namespace Uchain

open Lib Lib.Exec TreeHasher

section Hasher

variable [Crypto] {ε σ : Type}

theorem keeps_keccak256 (data : Bytes) : Keeps id (keccak256 data : Exec ε Query σ H256) :=
  fun _ => rfl

theorem keeps_digestLeaf (path leafData : Bytes) :
    Keeps id (digestLeaf path leafData : Exec ε Query σ (H256 × Bytes)) :=
  keeps_bind (keeps_keccak256 _) fun _ => keeps_pure _

theorem keeps_digestNode (leftData rightData : Bytes) :
    Keeps id (digestNode leftData rightData : Exec ε Query σ (H256 × Bytes)) :=
  keeps_bind (keeps_keccak256 _) fun _ => keeps_pure _

omit [Crypto] in
theorem keeps_parse (data : Bytes) : Keeps id (parse data : Exec ε Query σ (Bytes × Bytes)) :=
  keeps_ite (keeps_pure _) (keeps_fail _)

omit [Crypto] in
theorem keeps_isLeaf (data : Bytes) : Keeps id (isLeaf data : Exec ε Query σ Bool) :=
  keeps_ite (keeps_pure _) (keeps_fail _)

omit [Crypto] in
theorem keeps_fromSlice (b : Bytes) : Keeps id (H256.fromSlice b : Exec ε Query σ H256) :=
  keeps_orPanic _

end Hasher

section Verifier

variable [Crypto] {σ : Type}

omit [Crypto] in
theorem keeps_pathBit (path : H256) (position : Nat) :
    Keeps id (pathBit path position : Exec SmtError Query σ Bool) :=
  keeps_ite (keeps_pure _) (keeps_fail _)

theorem keeps_verifyLoop (path : H256) (nodes : List H256) :
    ∀ (currentHash : H256) (updates : List (Bytes × Bytes)),
      Keeps id (verifyLoop path nodes currentHash updates : Exec SmtError Query σ _) := by
  induction nodes with
  | nil => exact fun currentHash updates => keeps_pure _
  | cons node nodes ih =>
    intro currentHash updates
    exact keeps_bind (keeps_pathBit _ _) fun _ => keeps_bind (keeps_digestNode _ _) fun _ => ih _ _

theorem keeps_verifyStart (proof : Proof) (path : H256) (value : Bytes) :
    Keeps id (verifyStart proof path value : Exec SmtError Query σ _) := by
  refine keeps_ite ?_ (keeps_bind (keeps_keccak256 _) fun _ =>
    keeps_bind (keeps_digestLeaf _ _) fun _ => keeps_pure _)
  cases proof.nonMembershipLeafData with
  | none => exact keeps_pure _
  | some data =>
    exact keeps_bind (keeps_parse _) fun _ => keeps_ite (keeps_fail _)
      (keeps_bind (keeps_digestLeaf _ _) fun _ => keeps_pure _)

theorem keeps_verifyProofWithUpdates (proof : Proof) (root : H256) (key value : Bytes) :
    Keeps id (verifyProofWithUpdates proof root key value : Exec SmtError Query σ _) :=
  keeps_bind (keeps_keccak256 _) fun _ => keeps_bind (keeps_verifyStart _ _ _) fun _ =>
    keeps_bind (keeps_verifyLoop _ _ _ _) fun _ => keeps_ite (keeps_fail _) (keeps_pure _)

end Verifier

namespace SparseMerkleTree

theorem keeps_getNode (key : H256) : Keeps id (getNode key) :=
  keeps_bind keeps_get fun _ => keeps_ofOption _ _

theorem keeps_sideNodesLoop (path : H256) (n : Nat) :
    ∀ (data : Bytes) (sideNodes pathNodes : List H256),
      Keeps id (sideNodesLoop path n data sideNodes pathNodes) := by
  induction n with
  | zero => exact fun data sideNodes pathNodes => keeps_pure _
  | succ n ih =>
    intro data sideNodes pathNodes
    refine keeps_bind (keeps_parse _) fun _ => keeps_bind (keeps_fromSlice _) fun _ =>
      keeps_bind (keeps_fromSlice _) fun _ => keeps_ite (keeps_pure _) ?_
    exact keeps_bind (keeps_getNode _) fun _ => keeps_bind (keeps_isLeaf _) fun _ =>
      keeps_ite (keeps_pure _) (ih _ _ _)

theorem keeps_sideNodesForRoot (path root : H256) (getSiblingData : Bool) :
    Keeps id (sideNodesForRoot path root getSiblingData) := by
  refine keeps_ite (keeps_pure _) (keeps_bind (keeps_getNode _) fun _ =>
    keeps_bind (keeps_isLeaf _) fun _ => keeps_ite (keeps_pure _) ?_)
  exact keeps_bind (keeps_sideNodesLoop _ _ _ _ _) fun _ => keeps_ite
    (keeps_bind (keeps_getNode _) fun _ => keeps_pure _) (keeps_bind (keeps_pure _) fun _ => keeps_pure _)

theorem keeps_commonPrefix (path : H256) (pathNodes : List H256) (oldLeafData : Bytes) :
    Keeps id (commonPrefix path pathNodes oldLeafData) :=
  keeps_ite (keeps_pure _) (keeps_bind (keeps_parse _) fun _ =>
    keeps_bind (keeps_fromSlice _) fun _ => keeps_bind (keeps_fromSlice _) fun _ => keeps_pure _)

end SparseMerkleTree

end Uchain
