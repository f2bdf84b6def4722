import Uchain.Consensus.Barossa
import Uchain.Smt.Proof.Canonical
import Uchain.State.Proof.Paths

/-!
# What a finished header commits to

`finalize` executes the transactions as `advance` does, and files the hash of each one under itself
in a tree that starts empty. The tree is a map, so its root does not depend on the order of the
transactions or on how often one occurs.
-/

namespace Uchain

open Lib Exec

namespace BarossaProtocol

open SparseMerkleTree

section Crypto

variable [Crypto] {S : Set Query}

/-! ## The tree of the transactions -/

def txMap (txs : List SignedTransaction) (m : KvMap) : KvMap :=
  txs.foldl (fun m tx => m.update (tx.hash.bytes, tx.hash.bytes)) m

theorem get?_txMap (txs : List SignedTransaction) (k : Bytes) : ∀ m : KvMap,
    (txMap txs m).get? k = if k ∈ txs.map (fun tx => tx.hash.bytes) then some k else m.get? k := by
  induction txs with
  | nil => exact fun _ => rfl
  | cons tx txs ih =>
    intro m
    have hne : tx.hash.bytes ≠ [] := fun h => by
      have := congrArg List.length h
      simp at this
    show (txMap txs (m.update (tx.hash.bytes, tx.hash.bytes))).get? k = _
    rw [ih, KvMap.get?_update, if_neg hne, List.map_cons]
    by_cases hin : k ∈ txs.map fun tx => tx.hash.bytes
    · rw [if_pos hin, if_pos (List.mem_cons_of_mem _ hin)]
    · rw [if_neg hin]
      by_cases hk : k = tx.hash.bytes
      · rw [if_pos hk, if_pos (List.mem_cons.2 (.inl hk)), hk]
      · rw [if_neg hk, if_neg fun hmem => (List.mem_cons.1 hmem).elim hk hin]

/-- The map has the hash of each transaction under itself, and nothing else. -/
theorem txMap_get? (txs : List SignedTransaction) (x : H256) :
    (txMap txs .empty).get? x.bytes ≠ none ↔ x ∈ txs.map fun tx => tx.hash := by
  have hmem : x.bytes ∈ txs.map (fun tx => tx.hash.bytes) ↔ x ∈ txs.map fun tx => tx.hash := by
    simp only [List.mem_map, FixedBytes.bytes_inj]
  rw [get?_txMap, ← hmem]
  by_cases hin : x.bytes ∈ txs.map fun tx => tx.hash.bytes
  · rw [if_pos hin]
    exact ⟨fun _ => hin, fun _ hnone => by cases hnone⟩
  · rw [if_neg hin]
    exact ⟨fun h => absurd rfl h, fun h => absurd h hin⟩

theorem txMap_congr {txs txs' : List SignedTransaction}
    (h : ∀ x, x ∈ txs.map (fun tx => tx.hash) ↔ x ∈ txs'.map fun tx => tx.hash) :
    txMap txs .empty = txMap txs' .empty := by
  have hmem (k : Bytes) : k ∈ txs.map (fun tx => tx.hash.bytes) ↔
      k ∈ txs'.map fun tx => tx.hash.bytes := by
    have hbytes (txs : List SignedTransaction) : txs.map (fun tx => tx.hash.bytes) =
        (txs.map fun tx => tx.hash).map fun x => x.bytes := by
      rw [List.map_map]
      rfl
    rw [hbytes, hbytes, List.mem_map, List.mem_map]
    exact exists_congr fun x => and_congr_left fun _ => h x
  refine BTreeMap.ext_get? fun k => ?_
  rw [get?_txMap, get?_txMap]
  simp only [hmem k]

theorem wp_txTree (hg : KeccakGood S) (txs : List SignedTransaction) : ∀ {t r m}, Refines S t r m →
    wp S (txTree txs) t fun res t' => res = .ok () → ∃ r', Refines S t' r' (txMap txs m) := by
  induction txs with
  | nil => exact fun h => wp_forEach_nil fun _ => ⟨_, h⟩
  | cons tx txs ih =>
    intro t r m h
    refine wp_forEach_cons (wp_bind (wp_mono (wp_update_refines hg h _ _) ?_))
    intro res t₁ hpost
    obtain ⟨-, r₁, h₁⟩ := hpost
    cases res with
    | error e => exact nofun
    | ok root => exact wp_pure (ih h₁)

/-- **The root of the tree of the transactions** is that of another list exactly if the two have the
same hashes. -/
theorem txTree_root_eq_iff (hg : KeccakGood S) {txs txs' : List SignedTransaction}
    {t t' : SparseMerkleTree} {l l' : List Query} (h : txTree txs .new = ⟨.ok (), t, l⟩)
    (h' : txTree txs' .new = ⟨.ok (), t', l'⟩) (hl : ∀ q ∈ l, q ∈ S) (hl' : ∀ q ∈ l', q ∈ S) :
    t.root = t'.root ↔ ∀ x, x ∈ txs.map (fun tx => tx.hash) ↔ x ∈ txs'.map fun tx => tx.hash := by
  have hrefines {txs : List SignedTransaction} {t : SparseMerkleTree} {l : List Query}
      (h : txTree txs .new = ⟨.ok (), t, l⟩) (hl : ∀ q ∈ l, q ∈ S) :
      ∃ r, Refines S t r (txMap txs .empty) := by
    have hwp := wp_txTree hg txs (.new S) (by rw [h]; exact hl)
    rw [h] at hwp
    exact hwp rfl
  obtain ⟨r, hr⟩ := hrefines h hl
  obtain ⟨r', hr'⟩ := hrefines h' hl'
  constructor
  · intro hroot x
    rw [← txMap_get?, ← txMap_get?, hr.contents_inj hg hr' hroot]
  · intro hsame
    rw [hr.root_eq hg, hr'.root_eq hg, txMap_congr hsame]

/-! ## Finished headers -/

variable [Codec AccountState]

theorem finalize_eq (p : BarossaProtocol) (vm : Vm) (header : BlockHeader)
    (txs : List SignedTransaction) : p.finalize vm header txs = (do
      let (_, merkle) ← mapErr (fun e => ChainError.state (.smt e))
        (runOn SparseMerkleTree.new (txTree txs))
      mapErr ChainError.state
        (State.advance vm txs header.coinbase (p.minerReward header.level))
      let state ← Exec.get
      return { header with stateRoot := state.root, txRoot := merkle.root }) := by
  unfold finalize State.advance
  simp only [mapErr_bind, bind_assoc]

/-- **A run of `finalize` that succeeds**: the tree of the transactions, their execution, and a
header with both roots. -/
theorem finalize_ok {p : BarossaProtocol} {vm : Vm} {header header' : BlockHeader}
    {txs : List SignedTransaction} {s s' : State} {l : List Query}
    (h : p.finalize vm header txs s = ⟨.ok header', s', l⟩) : ∃ t l₁ l₂,
      txTree txs .new = ⟨.ok (), t, l₁⟩ ∧
      State.advance vm txs header.coinbase (p.minerReward header.level) s = ⟨.ok (), s', l₂⟩ ∧
      header' = { header with stateRoot := s'.root, txRoot := t.root } ∧
      ∀ q, q ∈ l₁ ∨ q ∈ l₂ → q ∈ l := by
  rw [finalize_eq] at h
  obtain ⟨⟨u, t⟩, s₁, l₁, l₂, htree, hrest, rfl⟩ := bind_eq_ok h
  obtain ⟨u', s₂, l₃, l₄, hadvance, hlast, rfl⟩ := bind_eq_ok hrest
  cases hlast
  have hrun := mapErr_eq_ok htree
  unfold runOn at hrun
  rcases htx : txTree txs .new with ⟨e | u₂, t₂, l₅⟩
  · rw [htx] at hrun
    cases hrun
  · rw [htx] at hrun
    cases hrun
    refine ⟨t₂, l₅, l₃, rfl, mapErr_eq_ok hadvance, rfl, fun q hq => ?_⟩
    rcases hq with hq | hq
    · exact List.mem_append_left _ hq
    · exact List.mem_append_right _ (List.mem_append_left _ hq)

/-- **Two lists of transactions give the same header hash exactly if** they have the same set of
transaction hashes and lead to the same state root. Neither the order nor the number of occurrences
of a transaction is committed to. -/
theorem finalize_hash_eq_iff (hg : KeccakGood S) (hsha : Sha256Good S) (p : BarossaProtocol)
    (vm : Vm) (header : BlockHeader) (s : State) (txs txs' : List SignedTransaction)
    (h h' : BlockHeader) (hok : (p.finalize vm header txs s).res = .ok h)
    (hok' : (p.finalize vm header txs' s).res = .ok h')
    (hlog : ∀ q ∈ (p.finalize vm header txs s).log, q ∈ S)
    (hlog' : ∀ q ∈ (p.finalize vm header txs' s).log, q ∈ S) (hhash : h.HashedIn S)
    (hhash' : h'.HashedIn S) :
    h.hash = h'.hash ↔
      (∀ x, x ∈ txs.map (fun tx => tx.hash) ↔ x ∈ txs'.map fun tx => tx.hash) ∧
        h.stateRoot = h'.stateRoot := by
  obtain ⟨t, l₁, l₂, htree, -, hheader, hsub⟩ := finalize_ok (Run.eq_of_res hok)
  obtain ⟨t', l₁', l₂', htree', -, hheader', hsub'⟩ := finalize_ok (Run.eq_of_res hok')
  rw [← txTree_root_eq_iff hg htree htree' (fun q hq => hlog q (hsub q (.inl hq)))
    fun q hq => hlog' q (hsub' q (.inl hq))]
  constructor
  · intro he
    have heq := BlockHeader.hash_inj hsha hhash hhash' he
    refine ⟨?_, congrArg BlockHeader.stateRoot heq⟩
    have htx := congrArg BlockHeader.txRoot heq
    rw [hheader, hheader'] at htx
    exact htx
  · intro ⟨hroot, hstate⟩
    rw [hheader, hheader'] at hstate ⊢
    have hstate : ((p.finalize vm header txs s).state).root =
        ((p.finalize vm header txs' s).state).root := hstate
    rw [hroot, hstate]

end Crypto

end BarossaProtocol

namespace Finalize

open Sample
open BarossaProtocol
open State (noVm)

@[irreducible] def sampleState : State :=
  (State.creditBalance (address 1) 100 State.new).state

def template : BlockHeader := (getGenesisHeader ⟨.mainnet⟩)

def finished (txs : List SignedTransaction) : BlockHeader :=
  ((finalize ⟨.mainnet⟩ noVm template txs sampleState).res.toOption).getD template

def payment : SignedTransaction := pay 1 2 1 10 1

def other : SignedTransaction := pay 1 2 1 20 1

@[irreducible] def sampleLog : List Query :=
  (finalize ⟨.mainnet⟩ noVm template [payment] sampleState).log ++
    ((finalize ⟨.mainnet⟩ noVm template [other] sampleState).log ++
      ((finished [payment]).queries ++ (finished [other]).queries))

theorem finalize_hash_eq_sample :
    payment.hash ≠ other.hash ∧ (finished [payment]).hash ≠ (finished [other]).hash := by
  have hg : KeccakGood {q | q ∈ sampleLog} :=
    keccakGood_of_collisionFree (by decide +kernel)
  have hsha : Sha256Good {q | q ∈ sampleLog} := fun a b ha hb =>
    sha256_inj_of_distinct (by decide +kernel) ha hb
  have hmem {q : Query}
      (hq : q ∈ (finalize ⟨.mainnet⟩ noVm template [payment] sampleState).log ∨
        q ∈ (finalize ⟨.mainnet⟩ noVm template [other] sampleState).log ∨
        q ∈ (finished [payment]).queries ∨ q ∈ (finished [other]).queries) :
      q ∈ sampleLog := by
    rw [sampleLog]
    simpa only [List.mem_append] using hq
  have hiff := finalize_hash_eq_iff hg hsha ⟨.mainnet⟩ noVm template sampleState [payment] [other]
    (finished [payment]) (finished [other]) (by decide +kernel) (by decide +kernel)
    (fun q hq => hmem (.inl hq)) (fun q hq => hmem (.inr (.inl hq)))
    (fun q hq => hmem (.inr (.inr (.inl hq)))) fun q hq => hmem (.inr (.inr (.inr hq)))
  have hne : payment.hash ≠ other.hash := by decide +kernel
  refine ⟨hne, fun he => hne ?_⟩
  have hin : payment.hash ∈ [payment].map fun tx => tx.hash := List.mem_singleton.2 rfl
  exact List.mem_singleton.1 (((hiff.1 he).1 payment.hash).1 hin)

/-- A payment listed twice gives the header of the payment listed once. -/
theorem finalize_ignores_duplicate :
    [payment] ≠ [payment, payment] ∧
      (finalize ⟨.mainnet⟩ noVm template [payment] sampleState).res = .ok (finished [payment]) ∧
      (finalize ⟨.mainnet⟩ noVm template [payment, payment] sampleState).res =
        .ok (finished [payment]) := by
  decide +kernel

end Finalize

end Uchain
