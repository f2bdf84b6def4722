import Uchain.Smt.Proof.MerkleProof
import Uchain.State.Proof.Handles
import Uchain.State.Verifier

/-!
# Reads around a commit, and reads with proofs

A read looks into the staged version, then into the stored versions from the root of the head on.
-/

namespace Uchain

open Lib BTreeMap

/-- The root is neither stored nor the parent of a stored version. -/
def NewRoot (trees : BTreeMap H256 SparseMerkleTree) (root : H256) : Prop :=
  trees.get? root = none ∧ ∀ e ∈ trees.entries, e.2.parent ≠ root

instance decidableNewRoot (trees : BTreeMap H256 SparseMerkleTree) (root : H256) :
    Decidable (NewRoot trees root) := inferInstanceAs (Decidable (_ ∧ _))

/-- What a lookup finds is a value of a stored version. -/
theorem lookup_mem_values {trees : BTreeMap H256 SparseMerkleTree} {p : H256} {b : Bytes} :
    ∀ {n : Nat} {root : H256}, lookup trees p n root = .ok (some b) →
      ∃ h t, trees.get? h = some t ∧ t.values.get? p = some b
  | n + 1, root, h => by
    rw [lookup] at h
    split at h
    · cases h
    · rename_i tree htree
      split at h
      · exact lookup_mem_values h
      · split at h
        · cases h
        · rename_i hne
          cases h
          refine ⟨root, tree, htree, ?_⟩
          unfold SparseMerkleTree.held at hne ⊢
          split
          · rename_i hz
            rw [if_pos hz] at hne
            exact absurd rfl hne
          · rename_i hz
            rw [if_neg hz] at hne
            cases hv : tree.values.get? p with
            | none =>
              rw [hv] at hne
              exact absurd rfl hne
            | some c => rfl

namespace TreeDB

section Crypto

variable [Crypto] {K V : Type} [Codec K] [Codec V] {S : Set Query} {d : TreeDB} {rh rs : Trie}

theorem Handle.view_eq (hg : KeccakGood S) (h : Handle V S d rh rs) (p : H256) :
    d.view p = match d.staging.values.get? p with
      | some b => .ok (some b)
      | none => lookup d.db.trees p (d.db.trees.entries.length + 1) d.head.root := by
  rw [view, viewFrom, h.staging.held_isEmpty hg, h.staging.held hg]
  cases d.staging.values.get? p <;> rfl

/-- A value that is read is that of the staged version, or that of the head. -/
theorem Handle.get_ok (hg : KeccakGood S) (h : Handle V S d rh rs) {key : K} {value : V}
    (hget : (get key d : Run _ _ _ (Option V)).res = .ok (some value)) :
    d.staging.values.get? (place key) = some (itemBytes (some value)) ∨
      d.staging.values.get? (place key) = none ∧
        HasAt S rh (place key) (itemBytes (some value)) := by
  obtain ⟨l, hrun⟩ := get_run (V := V) d h.strategy key
  rw [hrun, show Crypto.keccak256 (Codec.encode key) = place key from rfl, h.view_eq hg] at hget
  cases hstaged : d.staging.values.get? (place key) with
  | some b =>
    rw [hstaged] at hget
    obtain ⟨x, rfl⟩ := h.staging.items _ b hstaged
    have hx : (.ok x : Except (Fail StateError) (Option V)) = .ok (some value) :=
      (decoded_itemBytes x).symm.trans hget
    cases hx
    exact .inl rfl
  | none =>
    rw [hstaged] at hget
    dsimp only at hget
    refine .inr ⟨rfl, ?_⟩
    cases hlook : lookup d.db.trees (place key) (d.db.trees.entries.length + 1) d.head.root with
    | error e =>
      rw [hlook] at hget
      cases hget
    | ok o =>
      cases o with
      | none =>
        rw [hlook] at hget
        cases hget
      | some b =>
        obtain ⟨i, t, ht, hb⟩ := lookup_mem_values hlook
        obtain ⟨-, r, hw⟩ := h.stored i t ht
        obtain ⟨x, rfl⟩ := hw.items _ b hb
        rw [hlook, decoded_itemBytes] at hget
        cases hget
        have hstored : Stored S d.db.trees := fun i t ht =>
          ⟨(h.stored i t ht).1, (h.stored i t ht).2.imp fun _ hw => hw.toVersion⟩
        obtain ⟨hne, hmem, hat⟩ :=
          lookup_sound hg hstored h.head.rep.isTrie h.head.rep.root.symm hlook
        rw [HasAt, if_neg hne]
        exact ⟨hmem, hat⟩

/-- The proof that comes with a value is the head's. -/
theorem Handle.getWithProof_ok (hg : KeccakGood S) (h : Handle V S d rh rs) {key : K} {value : V}
    {proof : Proof} (hres : (getWithProof key d).res = .ok (value, proof)) :
    (get key d : Run _ _ _ (Option V)).res = .ok (some value) ∧
      ∃ sib, proof = ⟨(Radix.sides bit (place key) 0 rh).reverse.map merkle.hash,
        foundLeafData (place key) (Radix.terminal bit (place key) 0 rh), sib⟩ := by
  obtain ⟨l, hrun⟩ := get_run (V := V) d h.strategy key
  have hproof := doProofForRoot_run hg h.head.rep (Codec.encode key) false
  rw [getWithProof, Exec.get_bind] at hres
  dsimp only at hres
  rw [hrun]
  cases hdec : (decoded (d.view (Crypto.keccak256 (Codec.encode key))) :
      Except (Fail StateError) (Option V)) with
  | error e =>
    rw [hdec] at hrun
    rw [Exec.bind_error hrun] at hres
    cases hres
  | ok o =>
    rw [hdec] at hrun
    rw [Exec.bind_ok hrun] at hres
    cases o with
    | none => cases hres
    | some v =>
      have hmade : onTree d.head (SparseMerkleTree.proof (Codec.encode key)) d =
          ⟨.ok (⟨(Radix.sides bit (place key) 0 rh).reverse.map merkle.hash,
            foundLeafData (place key) (Radix.terminal bit (place key) 0 rh),
            siblingData (place key) rh false⟩, d.head), d,
            [.keccak256 (Codec.encode key)]⟩ := by
        have hhead : SparseMerkleTree.proof (Codec.encode key) d.head = _ := hproof
        rw [onTree, Exec.mapErr, Exec.runOn, hhead]
        rfl
      rw [Exec.bind_ok_nil (show (Exec.ofOption (.invalidKey (hexEncode (Codec.encode key))) (some v) :
        M V) d = ⟨.ok v, d, []⟩ from rfl), Exec.bind_ok hmade] at hres
      cases hres
      exact ⟨rfl, _, rfl⟩

/-- What the verifier runs, and when it accepts. -/
theorem verifier_run {σ : Type} (proof : Proof) (root : H256) (key : K) (value : V) (s : σ) :
    (Verifier.verifyProof proof root key value s).log =
        (verifyProofWithUpdates proof root (Codec.encode key) (itemBytes (some value)) s).log ∧
      ((Verifier.verifyProof proof root key value s).res = .ok () ↔ ∃ updates,
        (verifyProofWithUpdates proof root (Codec.encode key) (itemBytes (some value)) s).res =
          .ok updates) := by
  show (Exec.mapErr StateError.smt (verifyProofWithUpdates proof root (Codec.encode key)
      (itemBytes (some value)) >>= fun _ => pure ()) s).log = _ ∧
    ((Exec.mapErr StateError.smt (verifyProofWithUpdates proof root (Codec.encode key)
      (itemBytes (some value)) >>= fun _ => pure ()) s).res = .ok () ↔ _)
  rw [Exec.mapErr_run]
  rcases hx : verifyProofWithUpdates proof root (Codec.encode key) (itemBytes (some value)) s with
    ⟨e | updates, s', l⟩
  · rw [Exec.bind_error hx]
    refine ⟨rfl, fun he => ?_, fun he => ?_⟩
    · rcases e with e | _ | _ <;> cases he
    · obtain ⟨_, he⟩ := he
      cases he
  · rw [Exec.bind_ok hx]
    exact ⟨List.append_nil l, fun _ => ⟨updates, rfl⟩, fun _ => rfl⟩

/-- **Reads with proofs.** The proof that comes with a value is accepted against the root exactly if
the head has this value for the key; so it is if the key has no staged value. -/
theorem getWithProof_verifies_iff {σ : Type} {s : σ} (hg : KeccakGood S) (hd : Reached K V S d)
    (key : K) (value : V) (proof : Proof) (hres : (getWithProof key d).res = .ok (value, proof))
    (hlog : ∀ q ∈ (Verifier.verifyProof proof d.root key value s).log, q ∈ S) :
    ∃ rh, Rep S d.head rh ∧
      ((Verifier.verifyProof proof d.root key value s).res = .ok () ↔
        rh.get (place key) = some (valueHash value)) ∧
      (d.staging.values.get? (place key) = none →
        (Verifier.verifyProof proof d.root key value s).res = .ok ()) := by
  obtain ⟨rh, rs, h⟩ := hd.handle hg
  obtain ⟨hget, sib, hproof⟩ := h.getWithProof_ok hg hres
  have hne : itemBytes (some value) ≠ [] := itemBytes_ne_nil _
  obtain ⟨hqueries, haccepts⟩ := verifier_run proof d.root key value s
  rw [hqueries] at hlog
  have hsound := wp_verifyProofWithUpdates hg h.head.rep _ _ _ hlog
  have hcomplete : HasAt S rh (place key) (itemBytes (some value)) →
      (Verifier.verifyProof proof d.root key value s).res = .ok () := by
    intro hat
    obtain ⟨log, hrun⟩ := verifyProofWithUpdates_accepts h.head.rep s hat sib
    rw [show Crypto.keccak256 (Codec.encode key) = place key from rfl, ← hproof] at hrun
    exact haccepts.2 ⟨_, congrArg Run.res hrun⟩
  have hread := h.get_ok hg hget
  have hmem : .keccak256 (itemBytes (some value)) ∈ S := by
    rcases hread with hstaged | ⟨-, hat⟩
    · exact (h.staging.values _ _ hstaged).2.1
    · rw [HasAt, if_neg hne] at hat
      exact hat.1
  refine ⟨rh, h.head.rep, ⟨fun hok => ?_, fun hhead => ?_⟩, fun hnone => ?_⟩
  · obtain ⟨updates, hupdates⟩ := haccepts.1 hok
    obtain ⟨-, hat⟩ := hsound updates hupdates
    rw [HasAt, if_neg hne] at hat
    exact hat.2
  · apply hcomplete
    rw [HasAt, if_neg hne]
    exact ⟨hmem, hhead⟩
  · apply hcomplete
    rcases hread with hstaged | ⟨-, hat⟩
    · rw [hnone] at hstaged
      cases hstaged
    · exact hat

end Crypto

end TreeDB

namespace Readback

open Sample
open TreeDB Immutable

def stagedCalls : List (Call Address Address) :=
  firstCalls ++ [.put (address 1) (address 11)]

def staged : TreeDB := opened.after order stagedCalls

@[irreducible] def sampleLog : List Query := queries order stagedCalls opened

theorem sampleLog_good : KeccakGood {q | q ∈ sampleLog} :=
  keccakGood_of_collisionFree (by decide +kernel)

def proofOf (key : Address) : Proof :=
  match (getWithProof key staged : Run _ _ _ (Address × Proof)).res with
  | .ok a => a.2
  | .error _ => ⟨[], none, none⟩

@[irreducible] def proofLog : List Query :=
  queries order stagedCalls opened ++
    (Verifier.verifyProof (proofOf (address 2)) staged.root (address 2)
      (address 20) ()).log

/-- The key `2` has no staged value: its proof is accepted. -/
theorem getWithProof_verifies_iff_unstaged :
    (getWithProof (address 2) staged).res =
        .ok (address 20, proofOf (address 2)) ∧
      (Verifier.verifyProof (proofOf (address 2)) staged.root (address 2)
        (address 20) ()).res = .ok () := by
  have hS : KeccakGood {q | q ∈ proofLog} :=
    keccakGood_of_collisionFree (by decide +kernel)
  have hmem : ∀ q, q ∈ queries order stagedCalls opened ++
      (Verifier.verifyProof (proofOf (address 2)) staged.root (address 2)
        (address 20) ()).log → q ∈ {q | q ∈ proofLog} := by
    intro q hq
    show q ∈ proofLog
    rw [proofLog]
    exact hq
  have hreached : Reached Address Address {q | q ∈ proofLog} staged :=
    Reached.opened.after order stagedCalls fun q hq => hmem q (List.mem_append_left _ hq)
  have hres : (getWithProof (address 2) staged).res =
      .ok (address 20, proofOf (address 2)) := by decide +kernel
  obtain ⟨rh, -, -, hok⟩ := getWithProof_verifies_iff (s := ()) hS hreached (address 2)
    (address 20) (proofOf (address 2)) hres
    fun q hq => hmem q (List.mem_append_right _ hq)
  exact ⟨hres, hok (by decide +kernel)⟩

/-- The key `1` has a staged value, which is returned with a proof for the value of the head. -/
theorem getWithProof_staged_rejected :
    (getWithProof (address 1) staged).res =
        .ok (address 11, proofOf (address 1)) ∧
      (Verifier.verifyProof (proofOf (address 1)) staged.root (address 1)
        (address 11) ()).res ≠ .ok () := by
  decide +kernel

end Readback

end Uchain
