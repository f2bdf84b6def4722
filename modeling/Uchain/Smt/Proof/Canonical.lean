import Uchain.Smt.Proof.Contents

/-!
# The root and the node store of a run

Both are determined by the map that the `update` calls of the run describe.
-/

namespace Uchain

open Lib SparseMerkleTree BTreeMap

section Crypto

variable [Crypto] {S : Set Query}

/-! ## The root of a map -/

/-- The root of the entries (paths and hashed values) below depth `d`, with `n` bits left: nothing, a
leaf, or a node over the two halves. -/
def entriesRoot : Nat → Nat → List (H256 × H256) → H256
  | _, _, [] => TreeHasher.placeholder
  | _, _, [e] => Crypto.keccak256 (TreeHasher.leafPrefix ++ e.1.bytes ++ e.2.bytes)
  -- two paths differ in one of their bits
  | 0, _, _ :: _ :: _ => TreeHasher.placeholder
  | n + 1, d, e :: e' :: l => Crypto.keccak256 (TreeHasher.nodePrefix ++
      (entriesRoot n (d + 1) ((e :: e' :: l).filter fun e => !bit e.1 d)).bytes ++
      (entriesRoot n (d + 1) ((e :: e' :: l).filter fun e => bit e.1 d)).bytes)

def mapRoot (m : KvMap) : H256 :=
  entriesRoot 256 0 (m.entries.map fun e => (Crypto.keccak256 e.1, Crypto.keccak256 e.2))

omit [Crypto] in
theorem filter_entries_join {d : Nat} {l r : Trie} (h : Radix.Wf bit 256 d (.node l r))
    {es : List (H256 × H256)} (he : es.Perm (Radix.node l r).entries) :
    (es.filter fun e => !bit e.1 d).Perm l.entries ∧ (es.filter fun e => bit e.1 d).Perm r.entries := by
  obtain ⟨-, hl, hr, -⟩ := h
  have hall (b : Bool) (u : Trie) (f : H256 × H256 → Bool) (hu : ∀ p ∈ u.entries, f p = b) :
      u.entries.filter f = if b then u.entries else [] := by
    cases b with
    | true => exact List.filter_eq_self.2 hu
    | false => exact List.filter_eq_nil_iff.2 fun p hp => by simp [hu p hp]
  constructor
  · refine (he.filter _).trans ?_
    rw [Radix.entries, List.filter_append, hall true l _ fun p hp => by simp [hl p hp],
      hall false r _ fun p hp => by simp [hr p hp]]
    simp
  · refine (he.filter _).trans ?_
    rw [Radix.entries, List.filter_append, hall false l _ hl, hall true r _ hr]
    simp

/-- The hash of a trie, from its entries in any order. -/
theorem hash_eq_entriesRoot (u : Trie) : ∀ {d n : Nat} {es : List (H256 × H256)}, d + n = 256 →
    Radix.Wf bit 256 d u → es.Perm u.entries → merkle.hash u = entriesRoot n d es := by
  induction u with
  | empty =>
    intro d n es _ _ he
    rw [he.eq_nil, entriesRoot]
    rfl
  | leaf k v =>
    intro d n es _ _ he
    rw [List.perm_singleton.1 he, entriesRoot]
    rfl
  | node l r ihl ihr =>
    intro d n es hd hwf he
    have hlen : 2 ≤ es.length := by
      rw [he.length_eq]
      exact hwf.two_le_of_node
    obtain ⟨hhalfl, hhalfr⟩ := filter_entries_join hwf he
    obtain ⟨hdN, -, -, -, hwl, hwr⟩ := hwf
    match n, es, hlen with
    | 0, _, _ => omega
    | n + 1, e :: e' :: es, _ =>
      rw [entriesRoot, ← ihl (by omega) hwl hhalfl, ← ihr (by omega) hwr hhalfr]
      rfl

theorem SparseMerkleTree.Refines.entries_perm (hg : KeccakGood S) {t : SparseMerkleTree} {r : Trie} {m : KvMap}
    (h : Refines S t r m) :
    (m.entries.map fun e => (Crypto.keccak256 e.1, Crypto.keccak256 e.2)).Perm r.entries := by
  have hnodup : (m.entries.map fun e => (Crypto.keccak256 e.1, Crypto.keccak256 e.2)).Nodup := by
    refine List.Nodup.map_on (fun a ha b hb hab => ?_) m.nodup_entries
    have ha' := h.hashed _ _ (mem_entries_iff.1 ha)
    have hb' := h.hashed _ _ (mem_entries_iff.1 hb)
    exact Prod.ext (hg.inj _ _ ha'.1 hb'.1 (Prod.mk.inj hab).1)
      (hg.inj _ _ ha'.2.1 hb'.2.1 (Prod.mk.inj hab).2)
  refine (List.perm_ext_iff_of_nodup hnodup h.rep.wf.nodup).2 fun ⟨p, x⟩ => ?_
  rw [← h.rep.wf.get_eq_some_iff, ← Trie.get, h.trie, List.mem_map]
  constructor
  · rintro ⟨⟨k, v⟩, hkv, he⟩
    obtain ⟨rfl, rfl⟩ := Prod.mk.inj he
    exact ⟨k, v, rfl, rfl, mem_entries_iff.1 hkv⟩
  · rintro ⟨k, v, rfl, rfl, hkv⟩
    exact ⟨(k, v), mem_entries_iff.2 hkv, rfl⟩

theorem SparseMerkleTree.Refines.root_eq (hg : KeccakGood S) {t : SparseMerkleTree} {r : Trie} {m : KvMap}
    (h : Refines S t r m) : t.root = mapRoot m := by
  rw [h.rep.root, mapRoot]
  exact hash_eq_entriesRoot r rfl h.rep.wf (h.entries_perm hg)

theorem SparseMerkleTree.Refines.contents_inj (hg : KeccakGood S) {t t' : SparseMerkleTree} {r r' : Trie}
    {m m' : KvMap} (h : Refines S t r m) (h' : Refines S t' r' m') (he : t.root = t'.root) :
    m = m' := by
  have hr : r = r' := h.rep.root_inj hg h'.rep he
  have hsub {t t' : SparseMerkleTree} {r : Trie} {m m' : KvMap} (h : Refines S t r m)
      (h' : Refines S t' r m') {k v : Bytes} (hk : m.get? k = some v) : m'.get? k = some v := by
    obtain ⟨k', v', hk', hv', hm'⟩ := (h'.trie _ _).1 ((h.trie _ _).2 ⟨k, v, rfl, rfl, hk⟩)
    obtain ⟨hkS, hvS, -⟩ := h.hashed k v hk
    obtain ⟨hkS', hvS', -⟩ := h'.hashed k' v' hm'
    rwa [hg.inj _ _ hkS' hkS hk', hg.inj _ _ hvS' hvS hv'] at hm'
  subst hr
  refine ext_get? fun k => ?_
  ext v
  exact ⟨hsub h h', hsub h' h⟩

/-- **The root is canonical.** -/
theorem SparseMerkleTree.root_canonical (hg : KeccakGood S) (calls calls' : List (Bytes × Bytes))
    (hlog : ∀ q ∈ queries calls, q ∈ S) (hlog' : ∀ q ∈ queries calls', q ∈ S) :
    (after calls).root = mapRoot (contents calls) ∧
      ((after calls).root = (after calls').root ↔ contents calls = contents calls') := by
  obtain ⟨r, h⟩ := exists_refines hg hlog
  obtain ⟨r', h'⟩ := exists_refines hg hlog'
  refine ⟨h.root_eq hg, fun he => h.contents_inj hg h' he, fun he => ?_⟩
  rw [h.root_eq hg, h'.root_eq hg, he]

end Crypto

namespace Canonical

open scoped Sample
open Contents (sampleCalls)

def directCalls : List (Bytes × Bytes) := [([3], [30]), ([1], [11])]

@[irreducible] def sampleLog : List Query := queries sampleCalls ++ queries directCalls

theorem sampleLog_good : KeccakGood {q | q ∈ sampleLog} :=
  Sample.keccakGood_of_collisionFree (by decide +kernel)

theorem mem_sampleLog {q : Query} (h : q ∈ queries sampleCalls ∨ q ∈ queries directCalls) :
    q ∈ sampleLog := by
  rw [sampleLog]
  exact List.mem_append.2 h

theorem root_canonical_sample : (after sampleCalls).root = (after directCalls).root :=
  (root_canonical sampleLog_good sampleCalls directCalls (fun _ h => mem_sampleLog (.inl h))
    fun _ h => mem_sampleLog (.inr h)).2.2 (by decide +kernel)

end Canonical

/-! ## The nodes in the store -/

section Crypto

variable [Crypto] {S : Set Query}

/-- The hashes that the data of an inner node name, without placeholders. -/
def children (data : Bytes) : List H256 :=
  if data.take 1 = TreeHasher.nodePrefix then
    ([(data.drop 1).take 32, data.drop 33].filterMap (FixedBytes.fromSlice? 32)).filter fun h =>
      !h.isZero
  else []

/-- The nodes that a walk from the root can reach. -/
inductive SparseMerkleTree.Reachable (t : SparseMerkleTree) : H256 → Prop
  | root : t.root ≠ FixedBytes.zero → Reachable t t.root
  | child {h x c} : Reachable t h → t.nodes.get? h = some x → c ∈ children x → Reachable t c

theorem children_leafData (k v : H256) : children (merkle.leafData k v) = [] :=
  if_neg (by simp [merkle, TreeHasher.leafPrefix, TreeHasher.nodePrefix])

theorem mem_children_nodeData {l r c : H256} :
    c ∈ children (merkle.nodeData l r) ↔ c ≠ FixedBytes.zero ∧ (c = l ∨ c = r) := by
  have h1 : ((merkle.nodeData l r).drop 1).take 32 = l.bytes := by
    simp [merkle, TreeHasher.nodePrefix]
  have h2 : (merkle.nodeData l r).drop 33 = r.bytes := by
    simp [merkle, TreeHasher.nodePrefix]
  rw [children, if_pos (by simp [merkle, TreeHasher.nodePrefix]), h1, h2]
  simp [List.mem_filter, FixedBytes.isZero, and_comm]

theorem reachable_of_mem_subtrees (hg : KeccakGood S) {t : SparseMerkleTree} (u : Trie) :
    merkle.DataIn (hashed S) u → Held t u → (u ≠ .empty → Reachable t (merkle.hash u)) →
      ∀ s ∈ u.subtrees, Reachable t (merkle.hash s) := by
  induction u with
  | empty => exact fun _ _ _ s hs => hs.elim
  | leaf k v =>
    rintro - - hreach s rfl
    exact hreach nofun
  | node l r ihl ihr =>
    intro hdata hheld hreach
    have hnode := hreach nofun
    have hget := hheld (.node l r) (.inl rfl) _ rfl
    obtain ⟨-, hdl, hdr⟩ := Merkle.dataIn_node.1 hdata
    rintro s (rfl | hs | hs)
    · exact hnode
    · refine ihl hdl (fun s hs => hheld s (.inr (.inl hs))) (fun hne => ?_) s hs
      exact .child hnode hget (mem_children_nodeData.2 ⟨hg.merkle.hash_ne hdl hne, .inl rfl⟩)
    · refine ihr hdr (fun s hs => hheld s (.inr (.inr hs))) (fun hne => ?_) s hs
      exact .child hnode hget (mem_children_nodeData.2 ⟨hg.merkle.hash_ne hdr hne, .inr rfl⟩)

theorem Rep.mem_subtrees_of_reachable (hg : KeccakGood S) {t : SparseMerkleTree} {r : Trie}
    (h : Rep S t r) {i : H256} (hi : Reachable t i) : ∃ s ∈ r.subtrees, merkle.hash s = i := by
  induction hi with
  | root hne =>
    refine ⟨r, Radix.mem_subtrees_self fun he => hne ?_, h.root.symm⟩
    exact (h.root_eq_zero_iff hg).2 he
  | child _ hget hc _ =>
    obtain ⟨s, hs, -, hdata⟩ := (h.nodes _ _).1 hget
    cases s with
    | empty => cases hdata
    | leaf k v =>
      cases hdata
      rw [children_leafData] at hc
      cases hc
    | node l r =>
      cases hdata
      obtain ⟨hne, rfl | rfl⟩ := mem_children_nodeData.1 hc
      · have hl : l ≠ .empty := by
          rintro rfl
          exact hne rfl
        exact ⟨l, Radix.subtrees_subset_of_mem hs (.inr (.inl (Radix.mem_subtrees_self hl))), rfl⟩
      · have hr : r ≠ .empty := by
          rintro rfl
          exact hne rfl
        exact ⟨r, Radix.subtrees_subset_of_mem hs (.inr (.inr (Radix.mem_subtrees_self hr))), rfl⟩

/-- **The node store holds exactly the live tree.** -/
theorem SparseMerkleTree.nodes_live (hg : KeccakGood S) (calls : List (Bytes × Bytes))
    (hlog : ∀ q ∈ queries calls, q ∈ S) :
    (∀ h, (after calls).nodes.contains h = true ↔ Reachable (after calls) h) ∧
      ∀ h x, (after calls).nodes.get? h = some x → Crypto.keccak256 x = h := by
  obtain ⟨r, hrefines⟩ := exists_refines hg hlog
  have hrep := hrefines.rep
  refine ⟨fun h => ⟨fun hc => ?_, fun hr => ?_⟩, fun h x hx => ?_⟩
  · obtain ⟨x, hx⟩ := Option.isSome_iff_exists.1 hc
    obtain ⟨s, hs, rfl, -⟩ := (hrep.nodes _ _).1 hx
    refine reachable_of_mem_subtrees hg r hrep.dataIn (fun s hs x hx => hrep.nodes.get hs hx)
      (fun hne => ?_) s hs
    rw [← Trie.hash, ← hrep.root]
    exact .root fun hz => hne ((hrep.root_eq_zero_iff hg).1 hz)
  · obtain ⟨s, hs, rfl⟩ := hrep.mem_subtrees_of_reachable hg hr
    obtain ⟨x, hx⟩ := Merkle.data_isSome (M := merkle) (Radix.ne_empty_of_mem_subtrees hs)
    rw [contains, hrep.nodes.get hs hx]
    rfl
  · obtain ⟨s, -, rfl, hdata⟩ := (hrep.nodes _ _).1 hx
    exact (Merkle.hash_of_data hdata).symm

end Crypto

namespace Canonical

open scoped Sample
open Contents (sampleCalls)

theorem nodes_live_sample : Reachable (after sampleCalls) (after sampleCalls).root :=
  ((nodes_live sampleLog_good sampleCalls fun _ h => mem_sampleLog (.inl h)).1 _).1
    (by decide +kernel)

end Canonical

end Uchain
