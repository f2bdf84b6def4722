import Uchain.Lib.Returns
import Uchain.Smt.Proof.Frames
import Uchain.Smt.Proof.Rep

/-!
# What `add_branch` writes

* `yields_verifyProofWithUpdates`: the verifier hands out each node under its hash.
-/

namespace Uchain

open Lib Lib.Exec

variable [Crypto] {σ : Type}

/-- A node of the verifier: the key is the hash of the data. -/
def Filed (update : Bytes × Bytes) : Prop := update.1 = (Crypto.keccak256 update.2).bytes

theorem yields_digestLeaf (path leafData : Bytes) :
    Yields (fun r => r.1 = Crypto.keccak256 r.2)
      (TreeHasher.digestLeaf path leafData : Exec SmtError Query σ _) := by
  intro s a h
  cases h
  rfl

theorem yields_digestNode (left right : Bytes) :
    Yields (fun r => r.1 = Crypto.keccak256 r.2)
      (TreeHasher.digestNode left right : Exec SmtError Query σ _) := by
  intro s a h
  cases h
  rfl

theorem filed_append (updates : List (Bytes × Bytes)) (h : ∀ u ∈ updates, Filed u)
    {r : H256 × Bytes} (hr : r.1 = Crypto.keccak256 r.2) :
    ∀ u ∈ updates ++ [(r.1.bytes, r.2)], Filed u := by
  intro u hu
  rcases List.mem_append.1 hu with hu | hu
  · exact h u hu
  · rw [List.mem_singleton.1 hu]
    exact congrArg FixedBytes.bytes hr

theorem yields_verifyLoop (path : H256) (nodes : List H256) :
    ∀ (currentHash : H256) (updates : List (Bytes × Bytes)), (∀ u ∈ updates, Filed u) →
      Yields (fun r => ∀ u ∈ r.2, Filed u)
        (verifyLoop path nodes currentHash updates : Exec SmtError Query σ _) := by
  induction nodes with
  | nil => exact fun currentHash updates h => yields_pure h
  | cons node nodes ih =>
    intro currentHash updates h
    refine yields_bind (P := fun _ => True) (fun _ _ _ => trivial) fun b _ => ?_
    exact yields_bind (yields_digestNode _ _) fun r hr => ih _ _ (filed_append updates h hr)

theorem yields_verifyStart (proof : Proof) (path : H256) (value : Bytes) :
    Yields (fun r => ∀ u ∈ r.2, Filed u)
      (verifyStart proof path value : Exec SmtError Query σ _) := by
  have hleaf (path leafData : Bytes) : Yields (fun r => ∀ u ∈ r.2, Filed u) (do
      let current ← TreeHasher.digestLeaf path leafData
      return (current.1, [(current.1.bytes, current.2)]) : Exec SmtError Query σ _) :=
    yields_bind (yields_digestLeaf _ _) fun r hr =>
      yields_pure (filed_append [] (by simp) hr)
  refine yields_ite ?_ (yields_bind (P := fun _ => True) (fun _ _ _ => trivial) fun _ _ => hleaf _ _)
  cases proof.nonMembershipLeafData with
  | none => exact yields_pure (by simp)
  | some data =>
    exact yields_bind (P := fun _ => True) (fun _ _ _ => trivial) fun _ _ =>
      yields_ite (yields_fail _) (hleaf _ _)

theorem yields_verifyProofWithUpdates (proof : Proof) (root : H256) (key value : Bytes) :
    Yields (fun updates => ∀ u ∈ updates, Filed u)
      (verifyProofWithUpdates proof root key value : Exec SmtError Query σ _) := by
  refine yields_bind (P := fun _ => True) (fun _ _ _ => trivial) fun _ _ => ?_
  refine yields_bind (yields_verifyStart _ _ _) fun r hr => ?_
  refine yields_bind (yields_verifyLoop _ _ _ _ hr) fun r' hr' => ?_
  exact yields_ite (yields_fail _) (yields_pure hr')

namespace SparseMerkleTree

/-- The node store with the nodes of the verifier. -/
def putAll (nodes : MemoryStorage) (updates : List (Bytes × Bytes)) : MemoryStorage :=
  updates.foldl (fun nodes update => nodes.insert (Crypto.keccak256 update.2) update.2) nodes

/-- The node store with the sibling data of a proof. -/
def withSibling (nodes : MemoryStorage) (proof : Proof) : MemoryStorage :=
  match proof.siblingData, proof.sideNodes with
  | some siblingData, sideNode :: _ => nodes.insert sideNode siblingData
  | _, _ => nodes

theorem forEach_putUpdate_run (updates : List (Bytes × Bytes)) (h : ∀ u ∈ updates, Filed u) :
    ∀ t : SparseMerkleTree, forEach putUpdate updates t =
      ⟨.ok (), { t with nodes := putAll t.nodes updates }, []⟩ := by
  induction updates with
  | nil => exact fun t => rfl
  | cons update updates ih =>
    intro t
    have hput : putUpdate update t =
        ⟨.ok (), { t with nodes := t.nodes.insert (Crypto.keccak256 update.2) update.2 }, []⟩ := by
      rw [putUpdate, show update.1 = _ from h update List.mem_cons_self,
        bind_ok_nil (fromSlice_run _ t)]
      rfl
    have hrest := ih (fun u hu => h u (List.mem_cons_of_mem _ hu))
      { t with nodes := t.nodes.insert (Crypto.keccak256 update.2) update.2 }
    show (putUpdate update >>= fun _ => forEach putUpdate updates) t = _
    rw [bind_ok_nil hput, hrest]
    rfl

omit [Crypto] in
theorem putSibling_run (proof : Proof) (t : SparseMerkleTree) :
    putSibling proof t = ⟨.ok (), { t with nodes := withSibling t.nodes proof }, []⟩ := by
  unfold putSibling withSibling
  cases proof.siblingData with
  | none => rfl
  | some data =>
    cases proof.sideNodes with
    | nil => rfl
    | cons h rest => rfl

/-- **The tree after an accepted proof.** -/
theorem addBranch_run {proof : Proof} {root : H256} {key value : Bytes} {t : SparseMerkleTree}
    {updates : List (Bytes × Bytes)} {log : List Query}
    (h : verifyProofWithUpdates proof root key value t = ⟨.ok updates, t, log⟩) :
    ∃ log', addBranch proof root key value t = ⟨.ok (),
      { t with
        nodes := withSibling (putAll t.nodes updates) proof
        values := if value = [] then t.values else t.values.insert (Crypto.keccak256 key) value },
      log'⟩ := by
  have hfiled : ∀ u ∈ updates, Filed u :=
    yields_verifyProofWithUpdates proof root key value t updates (by rw [h])
  have hputs (t' : SparseMerkleTree) : (do forEach putUpdate updates; putSibling proof : Smt Unit) t' =
      ⟨.ok (), { t' with nodes := withSibling (putAll t'.nodes updates) proof }, []⟩ := by
    rw [bind_ok_nil (forEach_putUpdate_run updates hfiled t'), putSibling_run]
  rw [addBranch, bind_ok h]
  by_cases hvalue : value = []
  · subst hvalue
    simp only [List.isEmpty_nil, Bool.not_true, Bool.false_eq_true, if_false, if_true]
    rw [hputs]
    exact ⟨_, rfl⟩
  · have hput : putValue (Crypto.keccak256 key) value t =
        ⟨.ok (), { t with values := t.values.insert (Crypto.keccak256 key) value }, []⟩ := rfl
    have hne : (!value.isEmpty) = true := by simpa using hvalue
    rw [if_pos hne, if_neg hvalue, bind_ok (TreeHasher.path_run key t),
      bind_ok_nil hput]
    dsimp only
    rw [hputs]
    exact ⟨_, rfl⟩

theorem addBranch_error {proof : Proof} {root : H256} {key value : Bytes} {t : SparseMerkleTree}
    {e : Fail SmtError} (h : (verifyProofWithUpdates proof root key value t).res = .error e) :
    ∃ log, addBranch proof root key value t = ⟨.error e, t, log⟩ := by
  have hstate : (verifyProofWithUpdates proof root key value t).state = t :=
    keeps_verifyProofWithUpdates proof root key value t
  have hrun := Run.eq_of_res h
  rw [hstate] at hrun
  exact ⟨_, bind_error hrun⟩

end SparseMerkleTree

end Uchain
