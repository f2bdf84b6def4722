import Uchain.Smt.Proof.Branch
import Uchain.Types.Sample

/-!
# A content-addressed node store

Every method that hashes a node writes it under its hash. `add_branch` also writes the sibling data
of a proof, under the side node that the proof names, and does not hash them.

* `preserves_update`: `update` keeps the store content-addressed, however it ends.
-/

namespace Uchain

open Lib Lib.Exec

namespace SparseMerkleTree

section Addressed

variable [Crypto] {α : Type}

/-- Every node is filed under the hash of its data. -/
def ContentAddressed (t : SparseMerkleTree) : Prop :=
  ∀ hash data, t.nodes.get? hash = some data → Crypto.keccak256 data = hash

/-! ## `update` -/

variable {nodes : MemoryStorage}

theorem ContentAddressed.insert {hash : H256} {data : Bytes}
    (h : ∀ hash data, nodes.get? hash = some data → Crypto.keccak256 data = hash)
    (hdata : Crypto.keccak256 data = hash) (hash' : H256) (data' : Bytes)
    (hget : (nodes.insert hash data).get? hash' = some data') : Crypto.keccak256 data' = hash' := by
  rw [BTreeMap.get?_insert] at hget
  split at hget
  · rename_i heq
    cases hget
    rw [heq, hdata]
  · exact h hash' data' hget

theorem preserves_of_keeps {x : Smt α} (hx : Keeps id x) : Preserves ContentAddressed x := by
  intro t ht
  rw [show (x t).state = t from hx t]
  exact ht

theorem preserves_putNode (data : Bytes) :
    Preserves ContentAddressed (putNode (Crypto.keccak256 data) data) :=
  fun _ ht => ContentAddressed.insert ht rfl

theorem preserves_deleteNode (hash : H256) : Preserves ContentAddressed (deleteNode hash) := by
  refine preserves_bind (preserves_of_keeps keeps_get) fun t => preserves_ite ?_ (preserves_fail _)
  intro t ht hash' data hget
  rw [show ((modify fun t : SparseMerkleTree => { t with nodes := t.nodes.erase hash }) t).state.nodes =
    t.nodes.erase hash from rfl, BTreeMap.get?_erase] at hget
  split at hget
  · cases hget
  · exact ht hash' data hget

theorem preserves_deleteValue (path : H256) : Preserves ContentAddressed (deleteValue path) :=
  preserves_bind (preserves_of_keeps keeps_get) fun _ => preserves_ite (fun _ h => h) (preserves_fail _)

theorem preserves_digest_bind {x : Smt (H256 × Bytes)} {f : H256 × Bytes → Smt α}
    (hx : Keeps id x) (hyields : Yields (fun r => r.1 = Crypto.keccak256 r.2) x)
    (hf : ∀ data, Preserves ContentAddressed (f (Crypto.keccak256 data, data))) :
    Preserves ContentAddressed (x >>= f) := by
  intro t ht
  have hstate : (x t).state = t := hx t
  rcases hrun : x t with ⟨e | ⟨hash, data⟩, t', l⟩
  · rw [hrun] at hstate
    rw [bind_error hrun, show t' = t from hstate]
    exact ht
  · rw [hrun] at hstate
    obtain rfl : hash = Crypto.keccak256 data := hyields t (hash, data) (by rw [hrun])
    rw [bind_ok hrun, show t' = t from hstate]
    exact hf data t ht

theorem preserves_putParent (path : H256) (i : Nat) (current sideNode : H256) :
    Preserves ContentAddressed (putParent path i current sideNode) :=
  preserves_digest_bind (keeps_digestNode _ _) (yields_digestNode _ _) fun data =>
    preserves_bind (preserves_putNode data) fun _ => preserves_pure _

theorem preserves_updateLoop (path : H256) (sideNodes : List H256) (count n : Nat) :
    ∀ current, Preserves ContentAddressed (updateLoop path sideNodes count n current) := by
  induction n with
  | zero => exact fun current => preserves_pure _
  | succ n ih =>
    intro current
    unfold updateLoop
    dsimp only
    cases sideNodeAt sideNodes count (depth - (n + 1)) with
    | none => exact ih current
    | some sideNode => exact preserves_bind (preserves_putParent _ _ _ _) fun current => ih current

theorem preserves_rehash (path : H256) (value : Bytes) (sideNodes pathNodes : List H256)
    (count : Nat) (current : H256) :
    Preserves ContentAddressed (rehash path value sideNodes pathNodes count current) :=
  preserves_bind (preserves_forEach preserves_deleteNode _) fun _ =>
    preserves_bind (preserves_updateLoop _ _ _ _ _) fun _ =>
      preserves_bind (fun _ h => h) fun _ => preserves_pure _

theorem preserves_updateWithSidesNodes (path : H256) (value : Bytes)
    (sideNodes pathNodes : List H256) (oldLeafData : Bytes) : Preserves ContentAddressed
      (updateWithSidesNodes path value sideNodes pathNodes oldLeafData) := by
  refine preserves_bind (preserves_of_keeps (keeps_keccak256 _)) fun valueHash => ?_
  refine preserves_digest_bind (keeps_digestLeaf _ _) (yields_digestLeaf _ _) fun data => ?_
  refine preserves_bind (preserves_putNode data) fun _ =>
    preserves_bind (preserves_of_keeps (keeps_commonPrefix _ _ _)) fun common => ?_
  refine preserves_ite (preserves_bind (preserves_putParent _ _ _ _) fun _ =>
    preserves_rehash _ _ _ _ _ _) ?_
  obtain ⟨count, old⟩ := common
  cases old with
  | none => exact preserves_rehash _ _ _ _ _ _
  | some oldValueHash =>
    refine preserves_ite (preserves_bind (preserves_of_keeps keeps_get) fun _ => preserves_pure _) ?_
    exact preserves_bind (preserves_deleteNode _) fun _ =>
      preserves_bind (preserves_attempt (preserves_deleteValue _)) fun _ =>
        preserves_rehash _ _ _ _ _ _

theorem preserves_deleteLoopBody (path : H256) (i : Nat) (sideNode : H256) (st : DeleteLoop) :
    Preserves ContentAddressed (deleteLoopBody path i sideNode st) := by
  have hjoin (current : H256) : Preserves ContentAddressed (do
      let currentHash ← putParent path i current sideNode
      return (⟨currentHash, some currentHash, true⟩ : DeleteLoop)) :=
    preserves_bind (preserves_putParent _ _ _ _) fun _ => preserves_pure _
  unfold deleteLoopBody
  cases st.currentData with
  | none =>
    exact preserves_bind (preserves_of_keeps (keeps_getNode _)) fun _ =>
      preserves_bind (preserves_of_keeps (keeps_isLeaf _)) fun _ =>
        preserves_ite (preserves_pure _) (hjoin _)
  | some current => exact preserves_ite (preserves_pure _) (hjoin _)

theorem preserves_deleteLoop (path : H256) (sideNodes : List H256) :
    ∀ st, Preserves ContentAddressed (deleteLoop path sideNodes st) := by
  induction sideNodes with
  | nil => exact fun st => preserves_pure _
  | cons sideNode sideNodes ih =>
    intro st
    exact preserves_bind (preserves_deleteLoopBody _ _ _ _) fun st => ih st

theorem preserves_deleteWithSidesNodes (path : H256) (sideNodes pathNodes : List H256)
    (oldLeafData : Bytes) : Preserves ContentAddressed
      (deleteWithSidesNodes path sideNodes pathNodes oldLeafData) := by
  refine preserves_ite (preserves_fail _)
    (preserves_bind (preserves_of_keeps (keeps_parse _)) fun _ => ?_)
  exact preserves_ite (preserves_fail _) (preserves_bind (preserves_forEach preserves_deleteNode _)
    fun _ => preserves_bind (preserves_deleteLoop _ _ _) fun _ => preserves_pure _)

theorem preserves_update (key value : Bytes) : Preserves ContentAddressed (update key value) := by
  refine preserves_bind (preserves_of_keeps keeps_get) fun t => preserves_bind ?_ fun _ =>
    preserves_bind (fun _ h => h) fun _ => preserves_pure _
  refine preserves_bind (preserves_of_keeps (keeps_keccak256 _)) fun _ =>
    preserves_bind (preserves_of_keeps (keeps_sideNodesForRoot _ _ _)) fun _ => preserves_ite ?_ ?_
  · exact preserves_bind (preserves_deleteValue _) fun _ => preserves_deleteWithSidesNodes _ _ _ _
  · exact preserves_updateWithSidesNodes _ _ _ _ _

/-! ## `add_branch` -/

/-- The sibling data of a proof are those of its deepest side node. -/
def SiblingFits (proof : Proof) : Prop :=
  ∀ siblingData sideNode rest, proof.siblingData = some siblingData →
    proof.sideNodes = sideNode :: rest → Crypto.keccak256 siblingData = sideNode

theorem ContentAddressed.putAll (updates : List (Bytes × Bytes)) :
    ∀ {nodes : MemoryStorage}, (∀ hash data, nodes.get? hash = some data →
      Crypto.keccak256 data = hash) → ∀ hash data, (putAll nodes updates).get? hash = some data →
        Crypto.keccak256 data = hash := by
  induction updates with
  | nil => exact fun h => h
  | cons update updates ih => exact fun h => ih (ContentAddressed.insert h rfl)

omit [Crypto] in
theorem withSibling_none {proof : Proof} (h : proof.siblingData = none ∨ proof.sideNodes = []) :
    withSibling nodes proof = nodes := by
  unfold SparseMerkleTree.withSibling
  rcases h with h | h
  · rw [h]
  · rw [h]
    cases proof.siblingData <;> rfl

omit [Crypto] in
theorem withSibling_cons {proof : Proof} {siblingData : Bytes} {sideNode : H256} {rest : List H256}
    (hdata : proof.siblingData = some siblingData) (hside : proof.sideNodes = sideNode :: rest) :
    withSibling nodes proof = nodes.insert sideNode siblingData := by
  unfold withSibling
  rw [hdata, hside]

theorem ContentAddressed.withSibling {nodes : MemoryStorage} {proof : Proof}
    (h : ∀ hash data, nodes.get? hash = some data → Crypto.keccak256 data = hash)
    (hfits : SiblingFits proof) : ∀ hash data, (withSibling nodes proof).get? hash = some data →
      Crypto.keccak256 data = hash := by
  cases hdata : proof.siblingData with
  | none =>
    rw [withSibling_none (.inl hdata)]
    exact h
  | some siblingData =>
    cases hside : proof.sideNodes with
    | nil =>
      rw [withSibling_none (.inr hside)]
      exact h
    | cons sideNode rest =>
      rw [withSibling_cons hdata hside]
      exact ContentAddressed.insert h (hfits siblingData sideNode rest hdata hside)

variable {t : SparseMerkleTree}

/-- An accepted branch keeps the store content-addressed exactly if its sibling data fit. -/
theorem contentAddressed_addBranch_iff (h : ContentAddressed t) (proof : Proof) (root : H256)
    (key value : Bytes) :
    ContentAddressed (addBranch proof root key value t).state ↔
      ((addBranch proof root key value t).res = .ok () → SiblingFits proof) := by
  have hstate : (verifyProofWithUpdates proof root key value t).state = t :=
    keeps_verifyProofWithUpdates proof root key value t
  rcases hverify : verifyProofWithUpdates proof root key value t with ⟨e | updates, t', l⟩
  · obtain ⟨log, hrun⟩ := addBranch_error (e := e) (by rw [hverify])
    rw [hrun]
    refine iff_of_true h fun he => ?_
    cases he
  · rw [hverify] at hstate
    obtain rfl : t' = t := hstate
    obtain ⟨log, hrun⟩ := addBranch_run hverify
    rw [hrun]
    have hputs : ∀ hash data, (putAll t'.nodes updates).get? hash = some data →
      Crypto.keccak256 data = hash := ContentAddressed.putAll updates h
    constructor
    · intro haddr _ siblingData sideNode rest hdata hside
      refine haddr sideNode siblingData ?_
      rw [withSibling_cons hdata hside, BTreeMap.get?_insert, if_pos rfl]
    · intro hfits
      exact ContentAddressed.withSibling hputs (hfits rfl)

/-! ## Runs -/

/-- A call that changes the node store. -/
inductive Call where
  | update (key value : Bytes)
  | addBranch (proof : Proof) (root : H256) (key value : Bytes)

/-- The tree after a call, however it ends. -/
def Call.after (t : SparseMerkleTree) : Call → SparseMerkleTree
  | .update key value => (SparseMerkleTree.update key value t).state
  | .addBranch proof root key value => (SparseMerkleTree.addBranch proof root key value t).state

/-- If the call is an `add_branch` with a proof that is accepted, the sibling data fit. -/
def Call.Fits (t : SparseMerkleTree) : Call → Prop
  | .update _ _ => True
  | .addBranch proof root key value =>
    (SparseMerkleTree.addBranch proof root key value t).res = .ok () → SiblingFits proof

/-- The store is content-addressed before, between and after the calls. -/
def AddressedAlong : List Call → SparseMerkleTree → Prop
  | [], t => ContentAddressed t
  | call :: calls, t => ContentAddressed t ∧ AddressedAlong calls (call.after t)

/-- Every call fits the tree that it meets. -/
def FitAlong : List Call → SparseMerkleTree → Prop
  | [], _ => True
  | call :: calls, t => call.Fits t ∧ FitAlong calls (call.after t)

theorem contentAddressed_after_iff (h : ContentAddressed t) (call : Call) :
    ContentAddressed (call.after t) ↔ call.Fits t := by
  cases call with
  | update key value => exact iff_of_true (preserves_update key value t h) trivial
  | addBranch proof root key value => exact contentAddressed_addBranch_iff h proof root key value

theorem AddressedAlong.head {calls : List Call} (h : AddressedAlong calls t) :
    ContentAddressed t := by
  cases calls with
  | nil => exact h
  | cons call calls => exact h.1

/-- **When a run keeps the store content-addressed**: exactly if the sibling data of each accepted
proof hash to its deepest side node. -/
theorem contentAddressed_along_iff {t : SparseMerkleTree} (h : ContentAddressed t)
    (calls : List Call) : AddressedAlong calls t ↔ FitAlong calls t := by
  induction calls generalizing t with
  | nil => exact iff_of_true h trivial
  | cons call calls ih =>
    constructor
    · intro halong
      have hafter := halong.2.head
      exact ⟨(contentAddressed_after_iff h call).1 hafter, (ih hafter).1 halong.2⟩
    · intro hfit
      have hafter := (contentAddressed_after_iff h call).2 hfit.1
      exact ⟨h, (ih hafter).2 hfit.2⟩

theorem contentAddressed_new : ContentAddressed .new := by
  intro hash data h
  cases h

end Addressed

end SparseMerkleTree

namespace Addressed

open scoped Sample
open SparseMerkleTree

def tree : SparseMerkleTree := (update [2] [20] (update [1] [10] .new).state).state

/-- The proof of the first key, with and without the data of the sibling. -/
def proofOf (isUpdatable : Bool) : Proof :=
  match (getAndProve [1] isUpdatable tree).res with
  | .ok r => r.2
  | .error _ => ⟨[], none, none⟩

/-- Two updates, and the branch of a key with its updatable proof. -/
theorem contentAddressed_along_iff_updatable :
    (addBranch (proofOf true) tree.root [1] [10] .new).res = .ok () ∧
    AddressedAlong [.addBranch (proofOf true) tree.root [1] [10], .update [1] [11]] .new := by
  have hfits : SiblingFits (proofOf true) := by
    intro siblingData sideNode rest hdata hside
    have hboth : (proofOf true).siblingData.map Crypto.keccak256 = (proofOf true).sideNodes.head? := by
      decide +kernel
    rw [hdata, hside] at hboth
    exact Option.some.inj hboth
  exact ⟨by decide +kernel,
    (contentAddressed_along_iff contentAddressed_new _).2 ⟨fun _ => hfits, trivial, trivial⟩⟩

/-- The proof of `get_with_proof` is accepted, and empty data are filed under its side node. -/
theorem plain_proof_breaks_addressing :
    (getWithProof [1] tree).res = .ok ([10], proofOf false) ∧
    (addBranch (proofOf false) tree.root [1] [10] .new).res = .ok () ∧
    ¬ AddressedAlong [.addBranch (proofOf false) tree.root [1] [10]] .new := by
  refine ⟨by decide +kernel, by decide +kernel, fun h => ?_⟩
  have hget : (Call.after .new (.addBranch (proofOf false) tree.root [1] [10])).nodes.get?
      ((proofOf false).sideNodes.headD FixedBytes.zero) = some [] := by
    decide +kernel
  exact absurd (h.2.head _ _ hget) (by decide +kernel)

end Addressed

end Uchain
