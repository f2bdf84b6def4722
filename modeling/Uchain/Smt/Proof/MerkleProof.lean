import Uchain.Smt.MerkleProof
import Uchain.Smt.Proof.Contents

/-!
# Merkle proofs are sound and complete
-/

namespace Uchain

open Lib Exec SparseMerkleTree Radix

section Crypto

variable [Crypto] {S : Set Query} {σ : Type} {s : σ} {t : SparseMerkleTree} {r : Trie} {m : KvMap}
  {p : H256}

/-! ## Soundness -/

omit [Crypto] in
theorem pathBit_run {i : Nat} (hi : i < 256) (s : σ) : pathBit p i s = ⟨.ok (bit p i), s, []⟩ := by
  rw [pathBit, if_pos hi]
  rfl

/-- A node hash among the subtrees: the subtree is a node with these children. -/
theorem eq_join_of_hash (hg : KeccakGood S) {u : Trie} (hu : merkle.DataIn (hashed S) u) {b : Bool}
    {x y : H256} (hmem : joinData b x y ∈ hashed S)
    (h : merkle.hash u = Crypto.keccak256 (joinData b x y)) :
    ∃ c side, u = join b c side ∧ merkle.hash c = x ∧ merkle.DataIn (hashed S) c := by
  have hnode : ∃ l r, joinData b x y = merkle.nodeData l r := by
    cases b
    · exact ⟨x, y, rfl⟩
    · exact ⟨y, x, rfl⟩
  cases u with
  | empty => exact absurd h.symm (hg.ne _ hmem)
  | leaf k v =>
    obtain ⟨l, r, hlr⟩ := hnode
    have := hg.inj _ _ (Merkle.dataIn_leaf.1 hu) hmem h
    exact absurd (this.trans hlr) merkle.leafData_ne
  | node l r =>
    obtain ⟨hd, hl, hr⟩ := Merkle.dataIn_node.1 hu
    have hdata := hg.inj _ _ hd hmem h
    cases b with
    | false => exact ⟨l, r, rfl, (merkle.nodeData_inj hdata).1, hl⟩
    | true => exact ⟨r, l, rfl, (merkle.nodeData_inj hdata).2, hr⟩

/-- **The loop, read backwards.** -/
theorem wp_verifyLoop (hg : KeccakGood S) (hr : merkle.DataIn (hashed S) r) (nodes : List H256) :
    ∀ (h : H256) (updates : List (Bytes × Bytes)),
      wp S (verifyLoop p nodes h updates) s fun res _ =>
        ∀ updates', res = .ok (merkle.hash r, updates') →
          ∃ u, merkle.DataIn (hashed S) u ∧ merkle.hash u = h ∧
            Radix.get bit p nodes.length u = r.get p := by
  induction nodes with
  | nil =>
    intro h updates
    refine wp_pure fun updates' hres => ?_
    obtain ⟨rfl, -⟩ := Prod.mk.inj (Except.ok.inj hres)
    exact ⟨r, hr, rfl, rfl⟩
  | cons node nodes ih =>
    intro h updates
    by_cases hlen : nodes.length < 256
    · have hrest : wp S (do
          let current ← (do
            let value := joinData (bit p nodes.length) h node
            return (← TreeHasher.digest value, value))
          verifyLoop p nodes current.1 (updates ++ [(current.1.bytes, current.2)])) s
          fun res _ => ∀ updates', res = .ok (merkle.hash r, updates') →
            ∃ u, merkle.DataIn (hashed S) u ∧ merkle.hash u = h ∧
              Radix.get bit p (nodes.length + 1) u = r.get p := by
        refine wp_bind (wp_bind (wp_keccak256 fun hmem => wp_pure ?_))
        refine wp_mono (ih _ _) fun res s' hres updates' he => ?_
        obtain ⟨u', hu', hh', hget⟩ := hres updates' he
        obtain ⟨c, side, rfl, hc, hdc⟩ := eq_join_of_hash hg hu' hmem hh'
        exact ⟨c, hdc, hc, by rw [← hget, get_join]⟩
      refine wp_bind_run (pathBit_run hlen s) ?_
      cases hb : bit p nodes.length with
      | false => rwa [hb] at hrest
      | true => rwa [hb] at hrest
    · have hpanic : (pathBit p nodes.length : Exec SmtError Query σ Bool) s = ⟨.error .panic, s, []⟩ := by
        rw [pathBit, if_neg hlen]
        rfl
      exact wp_bind_res hpanic fun _ he => by cases he

theorem wp_verifyStart (hg : KeccakGood S) (proof : Proof) (value : Bytes) (d : Nat) :
    wp S (verifyStart proof p value) s fun res _ =>
      ∀ h updates, res = .ok (h, updates) → ∀ u : Trie, merkle.DataIn (hashed S) u →
        merkle.hash u = h →
          if value = [] then Radix.get bit p d u = none
          else .keccak256 value ∈ S ∧ Radix.get bit p d u = some (Crypto.keccak256 value) := by
  refine wp_ite (fun hempty => ?_) fun hne => ?_
  · simp only [if_pos (List.isEmpty_iff.1 hempty)]
    cases proof.nonMembershipLeafData with
    | none =>
      refine wp_pure fun h updates he u hu hh => ?_
      obtain ⟨rfl, -⟩ := Prod.mk.inj (Except.ok.inj he)
      have : u = .empty := by
        by_contra hne
        exact hg.merkle.hash_ne hu hne hh
      rw [this]
      rfl
    | some data =>
      refine wp_bind (wp_ite (fun hlen => wp_pure ?_) fun _ =>
        wp_fail fun _ _ he => by cases he)
      refine wp_ite (fun _ => wp_err fun _ _ he => by cases he) fun hpath => ?_
      refine wp_bind (wp_bind (wp_keccak256 fun hmem => wp_pure
        (wp_pure fun h updates he u hu hh => ?_)))
      obtain ⟨rfl, -⟩ := Prod.mk.inj (Except.ok.inj he)
      cases u with
      | empty => exact absurd hh.symm (hg.ne _ hmem)
      | leaf k w =>
        have hdata := hg.inj _ _ (Merkle.dataIn_leaf.1 hu) hmem hh
        simp only [merkle, List.append_assoc, List.append_cancel_left_eq] at hdata
        have hk := (List.append_inj hdata (by
          have : 1 + 32 ≤ data.length := hlen
          simp only [FixedBytes.length_bytes, List.length_take, List.length_drop,
            TreeHasher.hashLen]
          omega)).1
        rw [Radix.get, if_neg]
        rintro rfl
        exact hpath hk.symm
      | node l r =>
        have hdata := hg.inj _ _ (Merkle.dataIn_node.1 hu).1 hmem hh
        have := congrArg (List.take 1) hdata
        simp [merkle, TreeHasher.nodePrefix, TreeHasher.leafPrefix] at this
  · have hvalue : value ≠ [] := fun he => hne (by rw [he]; rfl)
    simp only [if_neg hvalue]
    refine wp_bind (wp_keccak256 fun hvalue => wp_bind (wp_digestLeaf fun hleaf =>
      wp_pure fun h updates he u hu hh => ⟨hvalue, ?_⟩))
    obtain ⟨rfl, -⟩ := Prod.mk.inj (Except.ok.inj he)
    rw [hg.merkle.hash_inj hu (Merkle.dataIn_leaf.2 hleaf) hh, Radix.get, if_pos rfl]

/-- A trie has a value at a path; nothing, if the value is empty. -/
def HasAt (S : Set Query) (r : Trie) (p : H256) (value : Bytes) : Prop :=
  if value = [] then r.get p = none
  else .keccak256 value ∈ S ∧ r.get p = some (Crypto.keccak256 value)

theorem wp_verifyProofWithUpdates (hg : KeccakGood S) (h : Rep S t r) (proof : Proof)
    (key value : Bytes) :
    wp S (verifyProofWithUpdates proof t.root key value) s fun res _ => ∀ updates,
      res = .ok updates → .keccak256 key ∈ S ∧ HasAt S r (Crypto.keccak256 key) value := by
  refine wp_bind (wp_keccak256 fun hkey => ?_)
  refine wp_bind (wp_mono (wp_verifyStart hg proof value proof.sideNodes.length) ?_)
  intro res s₁ hstart
  cases res with
  | error e => exact fun updates he => by cases he
  | ok a =>
    obtain ⟨h₀, updates₀⟩ := a
    refine wp_bind (wp_mono (wp_verifyLoop hg h.dataIn proof.sideNodes h₀ updates₀) ?_)
    intro res s₂ hloop
    cases res with
    | error e => exact fun updates he => by cases he
    | ok a =>
      obtain ⟨h₁, updates₁⟩ := a
      refine wp_ite (fun _ => wp_err fun _ he => by cases he) fun heq => ?_
      refine wp_pure fun _ _ => ⟨hkey, ?_⟩
      have hroot : h₁ = merkle.hash r := (not_not.1 heq).trans h.root
      obtain ⟨u, hu, hh, hget⟩ := hloop updates₁ (by rw [hroot])
      have hat := hstart h₀ updates₀ rfl u hu hh
      rwa [hget] at hat

theorem wp_verifyProof (hg : KeccakGood S) (h : Refines S t r m) (proof : Proof) (key value : Bytes) :
    wp S (verifyProof proof t.root key value) s fun res _ => res = .ok true →
      .keccak256 key ∈ S ∧ m.get? key = if value = [] then none else some value := by
  refine wp_bind (wp_attempt ?_)
  refine wp_mono (wp_verifyProofWithUpdates hg h.rep proof key value) ?_
  intro res s₁ hres
  rcases res with (e | _ | _) | updates
  · exact wp_pure fun he => by cases he
  · exact fun he => by cases he
  · exact fun he => by cases he
  · refine wp_pure fun _ => ?_
    obtain ⟨hkey, hat⟩ := hres updates rfl
    refine ⟨hkey, ?_⟩
    rw [HasAt, h.trie_path hg hkey] at hat
    by_cases hvalue : value = []
    · rw [if_pos hvalue] at hat ⊢
      exact Option.map_eq_none_iff.1 hat
    · rw [if_neg hvalue] at hat ⊢
      obtain ⟨v, hv, hkv⟩ := Option.map_eq_some_iff.1 hat.2
      rw [hv, hg.inj _ _ (h.hashed key v hv).2.1 hat.1 hkv]

/-- **Proofs are sound.** A proof that is accepted against the root of a tree with the value of a
key has the value that `get` returns; with the empty value, the key is absent. -/
theorem verifyProof_sound (hg : KeccakGood S) (calls : List (Bytes × Bytes))
    (hlog : ∀ q ∈ queries calls, q ∈ S) (proof : Proof) (key value : Bytes)
    (hproof : ∀ q ∈ (verifyProof proof (after calls).root key value s).log, q ∈ S)
    (haccept : (verifyProof proof (after calls).root key value s).res = .ok true) :
    (value ≠ [] → (get key (after calls)).res = .ok value) ∧
      (value = [] → (contents calls).get? key = none) := by
  obtain ⟨r, h⟩ := exists_refines hg hlog
  obtain ⟨hkey, hm⟩ := wp_verifyProof hg h proof key value hproof haccept
  refine ⟨fun hvalue => ?_, fun hvalue => by rw [hm, if_pos hvalue]⟩
  have hget : ∀ q ∈ (get key (after calls)).log, q ∈ S := by
    intro q hq
    rw [SparseMerkleTree.get, get_bind] at hq
    split at hq
    · cases hq
    · rw [List.mem_singleton.1 hq]
      exact hkey
  rw [(wp_get_refines hg h key hget).1, hm, if_neg hvalue]
  rfl

/-! ## Completeness -/

/-- The node that the verifier hands out for a subtree. -/
def nodeUpdate (u : Trie) : Option (Bytes × Bytes) :=
  (merkle.data u).map fun x => ((merkle.hash u).bytes, x)

theorem verifyLoop_run (s : σ) (ss : List Trie) : ∀ (cur : Trie) (updates : List (Bytes × Bytes)),
    ss.length ≤ 256 → ∃ log,
      verifyLoop p (ss.reverse.map merkle.hash) (merkle.hash cur) updates s =
        ⟨.ok (merkle.hash (climb bit p 0 ss cur),
          updates ++ (climbs bit p 0 ss cur).reverse.filterMap nodeUpdate), s, log⟩ := by
  induction ss using List.reverseRecOn with
  | nil =>
    intro cur updates _
    refine ⟨[], ?_⟩
    rw [show climbs bit p 0 [] cur = [] from rfl, List.reverse_nil, List.filterMap_nil,
      List.append_nil]
    rfl
  | append_singleton ss u ih =>
    intro cur updates hlen
    rw [List.length_append, List.length_singleton] at hlen
    have hbit : (ss.reverse.map merkle.hash).length = ss.length := by simp
    rw [List.reverse_append, climb_append, climbs_append, Nat.zero_add]
    -- the node over `cur` and `u`, and the rest of the loop from it
    obtain ⟨data, hdata⟩ : ∃ data, merkle.data (join (bit p ss.length) cur u) = some data :=
      ⟨_, data_join _ _ _⟩
    have hdigest : (TreeHasher.digestNode
          (if bit p ss.length then (merkle.hash u, merkle.hash cur)
            else (merkle.hash cur, merkle.hash u)).1.bytes
          (if bit p ss.length then (merkle.hash u, merkle.hash cur)
            else (merkle.hash cur, merkle.hash u)).2.bytes :
          Exec SmtError Query σ (H256 × Bytes)) s =
        ⟨.ok (merkle.hash (join (bit p ss.length) cur u), data), s, [.keccak256 data]⟩ := by
      rw [data_join, Option.some.injEq] at hdata
      subst hdata
      cases bit p ss.length <;> rfl
    obtain ⟨log, hrest⟩ := ih (join (bit p ss.length) cur u)
      (updates ++ [((merkle.hash (join (bit p ss.length) cur u)).bytes, data)]) (by omega)
    refine ⟨[.keccak256 data] ++ log, ?_⟩
    have hb := pathBit_run (p := p) (by omega : ss.length < 256) s
    have hupdate : nodeUpdate (join (bit p ss.length) cur u) =
        some ((merkle.hash (join (bit p ss.length) cur u)).bytes, data) := by
      rw [nodeUpdate, hdata, Option.map_some]
    have hlist (above : List Trie) :
        updates ++ (above ++ [join (bit p ss.length) cur u]).reverse.filterMap nodeUpdate =
          updates ++ [((merkle.hash (join (bit p ss.length) cur u)).bytes, data)] ++
            above.reverse.filterMap nodeUpdate := by
      rw [List.reverse_append, List.reverse_singleton, List.singleton_append,
        List.filterMap_cons_some hupdate, List.append_assoc, List.singleton_append]
    rw [← hbit] at hb
    show verifyLoop p (merkle.hash u :: ss.reverse.map merkle.hash) _ _ s = _
    rw [verifyLoop, bind_ok_nil hb, hbit]
    dsimp only
    rw [bind_ok hdigest]
    dsimp only
    rw [hrest, hlist]

/-- The leaf data of a proof: those of another key's leaf at the end of the path. -/
def foundLeafData (p : H256) : Trie → Option Bytes
  | .leaf k v => if k = p then none else some (merkle.leafData k v)
  | _ => none

/-- **The proof that the tree makes.** -/
theorem doProofForRoot_run (hg : KeccakGood S) (h : Rep S t r) (key : Bytes) (isUpdatable : Bool) :
    doProofForRoot key t.root isUpdatable t =
      ⟨.ok ⟨(sides bit (Crypto.keccak256 key) 0 r).reverse.map merkle.hash,
        foundLeafData (Crypto.keccak256 key) (terminal bit (Crypto.keccak256 key) 0 r),
        siblingData (Crypto.keccak256 key) r isUpdatable⟩, t, [.keccak256 key]⟩ := by
  generalize hp : Crypto.keccak256 key = p
  have hrun := sideNodesForRoot_run hg h p isUpdatable
  rw [doProofForRoot, bind_ok (TreeHasher.path_run key t), hp, bind_ok_nil hrun]
  dsimp only
  rw [pathNodes_head]
  rcases (terminal_cases p 0 r : terminal bit p 0 r = .empty ∨ _) with ht | ⟨k, w, ht⟩
  · rw [ht]
    rfl
  · have hmem : leaf k w ∈ r.subtrees :=
      ht ▸ terminal_mem_subtrees (by rw [ht]; nofun)
    have hz : (merkle.hash (leaf k w)).isZero = false :=
      FixedBytes.isZero_eq_false_iff.2 (hg.merkle.hash_ne (h.dataIn.of_mem_subtrees hmem) nofun)
    have hdata : (merkle.data (leaf k w)).getD [] = merkle.leafData k w := rfl
    rw [ht, hz, if_neg Bool.false_ne_true, hdata, bind_ok_nil (parseLeaf_run k w t)]
    simp only [pure_run, foundLeafData, FixedBytes.bytes_inj, List.append_nil]

theorem verifyStart_run {value : Bytes} (hget : HasAt S r p value) (s : σ) (sideNodes : List H256)
    (sib : Option Bytes) : ∃ log,
    verifyStart ⟨sideNodes, foundLeafData p (terminal bit p 0 r), sib⟩ p value s =
      ⟨.ok (merkle.hash (terminal bit p 0 r),
        (nodeUpdate (terminal bit p 0 r)).toList), s, log⟩ := by
  rw [HasAt] at hget
  rcases (terminal_cases p 0 r : terminal bit p 0 r = .empty ∨ _) with ht | ⟨k, w, ht⟩
  · have hnone : r.get p = none := get_eq_none_of_terminal 0 r ht
    by_cases hvalue : value = []
    · rw [ht, hvalue]
      exact ⟨_, rfl⟩
    · rw [if_neg hvalue, hnone] at hget
      cases hget.2
  · have hterm : r.get p = _ := get_eq_some_of_terminal 0 r ht
    rw [hterm] at hget
    rw [ht]
    by_cases hk : p = k
    · subst hk
      rw [if_pos rfl] at hget
      by_cases hvalue : value = []
      · rw [if_pos hvalue] at hget
        cases hget
      · rw [if_neg hvalue] at hget
        obtain ⟨-, hw⟩ := hget
        cases hw
        rw [verifyStart, if_neg (by simpa using hvalue)]
        exact ⟨_, rfl⟩
    · rw [if_neg hk] at hget
      have hpath : k.bytes ≠ p.bytes := fun he => hk (FixedBytes.bytes_injective he).symm
      by_cases hvalue : value = []
      · rw [hvalue, foundLeafData, if_neg (Ne.symm hk)]
        simp only [verifyStart, List.isEmpty_nil, if_true]
        rw [bind_ok_nil (parseLeaf_run k w s)]
        dsimp only
        rw [if_neg hpath]
        exact ⟨_, rfl⟩
      · rw [if_neg hvalue] at hget
        cases hget.2

/-- A proof that the tree makes is accepted with the value that the trie has. -/
theorem verifyProofWithUpdates_accepts (h : Rep S t r) (s : σ) {key value : Bytes}
    (hget : HasAt S r (Crypto.keccak256 key) value) (sib : Option Bytes) : ∃ log,
    verifyProofWithUpdates ⟨(sides bit (Crypto.keccak256 key) 0 r).reverse.map merkle.hash,
      foundLeafData (Crypto.keccak256 key) (terminal bit (Crypto.keccak256 key) 0 r), sib⟩
      t.root key value s =
        ⟨.ok ((Radix.path bit (Crypto.keccak256 key) 0 r).reverse.filterMap nodeUpdate), s, log⟩ := by
  generalize hp : Crypto.keccak256 key = p at hget
  have hpath : (TreeHasher.path key : Exec SmtError Query σ H256) s = ⟨.ok p, s, [.keccak256 key]⟩ := by
    rw [← hp]
    rfl
  obtain ⟨log, hstart⟩ := verifyStart_run hget s
    ((sides bit p 0 r).reverse.map merkle.hash) sib
  have hlen : (sides bit p 0 r).length ≤ 256 := by
    have := h.wf.length_sides_le (k := p) (Nat.zero_le _)
    omega
  obtain ⟨log', hloop⟩ := verifyLoop_run (p := p) s (sides bit p 0 r)
    (terminal bit p 0 r) (nodeUpdate (terminal bit p 0 r)).toList hlen
  have hupdates : (nodeUpdate (terminal bit p 0 r)).toList ++
      (above bit p 0 r).reverse.filterMap nodeUpdate =
      (Radix.path bit p 0 r).reverse.filterMap nodeUpdate := by
    rw [Radix.path, List.reverse_append, List.reverse_singleton, List.singleton_append,
      List.filterMap_cons]
    cases nodeUpdate (terminal bit p 0 r) <;> rfl
  rw [climb_sides_terminal, climbs_sides_terminal, hupdates,
    show merkle.hash r = t.root from h.root.symm] at hloop
  rw [verifyProofWithUpdates, bind_ok hpath, bind_ok hstart]
  dsimp only
  rw [bind_ok hloop]
  dsimp only
  rw [if_neg fun hne => hne rfl]
  exact ⟨_, rfl⟩

theorem SparseMerkleTree.Refines.hasAt (h : Refines S t r m) (p : H256) :
    HasAt S r p ((t.values.get? p).getD []) := by
  cases hv : t.values.get? p with
  | none =>
    rw [Option.getD_none, HasAt, if_pos rfl]
    cases hget : r.get p with
    | none => rfl
    | some x =>
      obtain ⟨key, v, hkey, -, hm⟩ := (h.trie p x).1 hget
      rw [(h.values p v).2 ⟨key, hkey, hm⟩] at hv
      cases hv
  | some v =>
    obtain ⟨key, hkey, hm⟩ := (h.values p v).1 hv
    obtain ⟨-, hvalue, hne⟩ := h.hashed key v hm
    rw [Option.getD_some, HasAt, if_neg hne]
    exact ⟨hvalue, (h.trie p _).2 ⟨key, v, hkey, rfl, hm⟩⟩

theorem verifyProof_accepts (h : Refines S t r m) (s : σ) (key : Bytes) (sib : Option Bytes) :
    (verifyProof ⟨(sides bit (Crypto.keccak256 key) 0 r).reverse.map merkle.hash,
      foundLeafData (Crypto.keccak256 key) (terminal bit (Crypto.keccak256 key) 0 r), sib⟩
      t.root key ((t.values.get? (Crypto.keccak256 key)).getD []) s).res = .ok true := by
  obtain ⟨log, hverify⟩ :=
    verifyProofWithUpdates_accepts h.rep s (h.hasAt (Crypto.keccak256 key)) sib
  have hattempt : attempt (verifyProofWithUpdates
      ⟨(sides bit (Crypto.keccak256 key) 0 r).reverse.map merkle.hash,
        foundLeafData (Crypto.keccak256 key) (terminal bit (Crypto.keccak256 key) 0 r), sib⟩
      t.root key ((t.values.get? (Crypto.keccak256 key)).getD [])) s =
        ⟨.ok (.ok ((Radix.path bit (Crypto.keccak256 key) 0 r).reverse.filterMap nodeUpdate)), s,
          log⟩ := by
    rw [attempt_run, hverify]
    rfl
  rw [verifyProof, bind_ok hattempt]
  rfl

theorem get_run (hg : KeccakGood S) (h : Refines S t r m) (key : Bytes) :
    (get key t).res = .ok ((t.values.get? (Crypto.keccak256 key)).getD []) := by
  rw [SparseMerkleTree.get, get_bind]
  split
  · rename_i hz
    have hr : r = .empty := (h.rep.root_eq_zero_iff hg).1 (FixedBytes.isZero_iff.1 hz)
    cases hv : t.values.get? (Crypto.keccak256 key) with
    | none => rfl
    | some v =>
      obtain ⟨k, hk, hm⟩ := (h.values _ v).1 hv
      have := (h.trie _ _).2 ⟨k, v, hk, rfl, hm⟩
      rw [hr] at this
      cases this
  · rfl

/-- **Proofs are complete.** For every tree of a run and every key, both kinds of proof are made
and accepted against the root with the value that `get` returns. -/
theorem proof_complete (hg : KeccakGood S) (calls : List (Bytes × Bytes))
    (hlog : ∀ q ∈ queries calls, q ∈ S) (key : Bytes) (s : σ) :
    ∃ value p p', (get key (after calls)).res = .ok value ∧
      (proof key (after calls)).res = .ok p ∧ (proofUpdatable key (after calls)).res = .ok p' ∧
      (verifyProof p (after calls).root key value s).res = .ok true ∧
      (verifyProof p' (after calls).root key value s).res = .ok true := by
  obtain ⟨r, h⟩ := exists_refines hg hlog
  have hproof := doProofForRoot_run hg h.rep key false
  have hproof' := doProofForRoot_run hg h.rep key true
  refine ⟨_, _, _, get_run hg h key, congrArg Run.res hproof, congrArg Run.res hproof', ?_, ?_⟩
  · exact verifyProof_accepts h s key _
  · exact verifyProof_accepts h s key _

end Crypto

namespace MerkleProof

open scoped Sample
open Contents (sampleCalls)

def sampleProof : Proof :=
  match (proof [1] (after sampleCalls)).res with
  | .ok p => p
  | .error _ => ⟨[], none, none⟩

@[irreducible] def sampleLog : List Query :=
  queries sampleCalls ++
    ((verifyProof sampleProof (after sampleCalls).root [1] [11] ()).log ++ [.keccak256 [9]])

theorem sampleLog_good : KeccakGood {q | q ∈ sampleLog} :=
  Sample.keccakGood_of_collisionFree (by decide +kernel)

theorem queries_mem_sampleLog {q : Query} (h : q ∈ queries sampleCalls) : q ∈ sampleLog := by
  rw [sampleLog]
  exact List.mem_append_left _ h

theorem verifyProof_sound_sample :
    (verifyProof sampleProof (after sampleCalls).root [1] [11] ()).res = .ok true ∧
      (get [1] (after sampleCalls)).res = .ok [11] := by
  have haccept : (verifyProof sampleProof (after sampleCalls).root [1] [11] ()).res = .ok true := by
    decide +kernel
  refine ⟨haccept, (verifyProof_sound sampleLog_good sampleCalls (fun _ => queries_mem_sampleLog)
    sampleProof [1] [11] (fun q hq => ?_) haccept).1 (by decide)⟩
  show q ∈ sampleLog
  rw [sampleLog]
  exact List.mem_append_right _ (List.mem_append_left _ hq)

theorem proof_complete_sample : ∃ value p p', (get [9] (after sampleCalls)).res = .ok value ∧
    (proof [9] (after sampleCalls)).res = .ok p ∧
    (proofUpdatable [9] (after sampleCalls)).res = .ok p' ∧
    (verifyProof p (after sampleCalls).root [9] value ()).res = .ok true ∧
    (verifyProof p' (after sampleCalls).root [9] value ()).res = .ok true :=
  proof_complete sampleLog_good sampleCalls (fun _ => queries_mem_sampleLog) [9] ()

end MerkleProof

end Uchain
