import Uchain.Smt.Proof.Rep

/-!
# `SparseMerkleTree::update` inserts into the trie

* `wp_updateLoop`: the loop writes the nodes above the new leaf, from the deepest up.
-/

namespace Uchain

open Lib Exec SparseMerkleTree Radix BTreeMap

variable [Crypto] {S : Set Query}

theorem wp_digestNode {ε σ : Type} {s : σ} {l r : H256}
    {Q : Except (Fail ε) (H256 × Bytes) → σ → Prop}
    (h : merkle.nodeData l r ∈ hashed S →
      Q (.ok (merkle.digest (merkle.nodeData l r), merkle.nodeData l r)) s) :
    wp S (TreeHasher.digestNode l.bytes r.bytes) s Q :=
  wp_bind (wp_keccak256 fun hm => wp_pure (h hm))

variable {v : H256}

theorem wp_digestLeaf {ε σ : Type} {s : σ} {k : H256}
    {Q : Except (Fail ε) (H256 × Bytes) → σ → Prop}
    (h : merkle.leafData k v ∈ hashed S → Q (.ok (merkle.digest (merkle.leafData k v), merkle.leafData k v)) s)
    :
    wp S (TreeHasher.digestLeaf k.bytes v.bytes) s Q :=
  wp_bind (wp_keccak256 fun hm => wp_pure (h hm))

/-- While an update rebuilds `t₀`: the nodes in the store are `T`, nothing else has changed. -/
structure Rebuilding (S : Set Query) (t₀ t : SparseMerkleTree) (T : Set Trie) : Prop where
  stores : merkle.Stores t.nodes.get? T
  dataIn : ∀ u ∈ T, merkle.DataIn (hashed S) u
  root : t.root = t₀.root
  parent : t.parent = t₀.parent

theorem Rep.rebuilding {t : SparseMerkleTree} {r : Trie} (h : Rep S t r) :
    Rebuilding S t t r.subtrees :=
  ⟨h.nodes, fun _ hu => h.dataIn.of_mem_subtrees hu, rfl, rfl⟩

variable {t₀ t : SparseMerkleTree} {T : Set Trie}

theorem wp_putNode (hg : KeccakGood S) (h : Rebuilding S t₀ t T) {s : Trie} {x : Bytes}
    (hs : merkle.DataIn (hashed S) s) (hx : merkle.data s = some x) :
    wp S (putNode (merkle.hash s) x) t fun r t' =>
      ∃ a, r = .ok a ∧ Rebuilding S t₀ t' ({s} ∪ T) ∧ t'.values = t.values := by
  refine wp_modify ⟨(), rfl, ⟨?_, ?_, h.root, h.parent⟩, rfl⟩
  · exact h.stores.put hg.merkle h.dataIn hs hx fun i => get?_insert _ _ _ _
  · rintro u (rfl | hu)
    · exact hs
    · exact h.dataIn u hu

theorem wp_deleteNode (hg : KeccakGood S) (h : Rebuilding S t₀ t T) {s : Trie} (hs : s ∈ T)
    (hne : s ≠ .empty) :
    wp S (deleteNode (merkle.hash s)) t fun r t' =>
      ∃ a, r = .ok a ∧ Rebuilding S t₀ t' (T \ {s}) ∧ t'.values = t.values := by
  obtain ⟨x, hx⟩ := Merkle.data_isSome (M := merkle) hne
  have hc : t.nodes.contains (merkle.hash s) = true := by
    rw [contains, h.stores.get hs hx]; rfl
  refine wp_bind (wp_get ?_)
  refine wp_ite (fun _ => wp_modify ⟨(), rfl, ⟨?_, ?_, h.root, h.parent⟩, rfl⟩)
    fun hn => absurd hc hn
  · exact h.stores.delete hg.merkle h.dataIn (h.dataIn s hs) fun i => get?_erase _ _ _
  · exact fun u hu => h.dataIn u hu.1

theorem wp_deleteNodes (hg : KeccakGood S) : ∀ {D : List Trie} {t : SparseMerkleTree} {T : Set Trie},
    Rebuilding S t₀ t T → D.Nodup → (∀ s ∈ D, s ∈ T ∧ s ≠ .empty) →
    wp S (forEach deleteNode (D.map merkle.hash)) t fun r t' =>
      ∃ a, r = .ok a ∧ Rebuilding S t₀ t' (T \ { s | s ∈ D }) ∧ t'.values = t.values
  | [], t, T, h, _, _ => by
    refine wp_forEach_nil ⟨(), rfl, ?_, rfl⟩
    simpa using h
  | s :: D, t, T, h, hnd, hD => by
    obtain ⟨hsD, hnd⟩ := List.nodup_cons.1 hnd
    obtain ⟨hsT, hne⟩ := hD s List.mem_cons_self
    refine wp_forEach_cons (wp_mono (wp_deleteNode hg h hsT hne) ?_)
    rintro r t' ⟨a, rfl, h', hv⟩
    have hD' : ∀ u ∈ D, u ∈ T \ {s} ∧ u ≠ .empty := fun u hu =>
      ⟨⟨(hD u (List.mem_cons_of_mem _ hu)).1, fun e => hsD (e ▸ hu)⟩,
        (hD u (List.mem_cons_of_mem _ hu)).2⟩
    refine wp_mono (wp_deleteNodes hg h' hnd hD') ?_
    rintro r t'' ⟨b, rfl, h'', hv'⟩
    refine ⟨b, rfl, ?_, hv'.trans hv⟩
    have hset : (T \ {s}) \ { u | u ∈ D } = T \ { u | u ∈ s :: D } := by
      ext u
      simp only [Set.mem_sdiff, Set.mem_singleton_iff, Set.mem_ofPred_eq, List.mem_cons, not_or,
        and_assoc]
    rwa [hset] at h''

variable {cur : Trie}

theorem wp_putParent (hg : KeccakGood S) (h : Rebuilding S t₀ t T) {side : Trie} (p : H256)
    (i : Nat) (hcur : merkle.DataIn (hashed S) cur) (hside : merkle.DataIn (hashed S) side) :
    wp S (putParent p i (merkle.hash cur) (merkle.hash side)) t fun r t' =>
      ∃ a, r = .ok a ∧ a = merkle.hash (join (bit p i) cur side) ∧
        Rebuilding S t₀ t' ({join (bit p i) cur side} ∪ T) ∧
        merkle.DataIn (hashed S) (join (bit p i) cur side) ∧ t'.values = t.values := by
  have hput {t' : SparseMerkleTree} (ht : t' = t) (b : Bool)
      (hd : merkle.DataIn (hashed S) (join b cur side)) :
      wp S (do putNode (merkle.hash (join b cur side))
                      (joinData b (merkle.hash cur) (merkle.hash side))
                    return merkle.hash (join b cur side)) t' fun r t' =>
        ∃ a, r = .ok a ∧ a = merkle.hash (join b cur side) ∧
          Rebuilding S t₀ t' ({join b cur side} ∪ T) ∧
          merkle.DataIn (hashed S) (join b cur side) ∧ t'.values = t.values := by
    subst ht
    refine wp_bind_ok (wp_putNode hg h hd (data_join _ _ _)) ?_
    rintro _ t'' ⟨h'', hv⟩
    exact wp_pure ⟨_, rfl, rfl, h'', hd, hv⟩
  have hb : getBitsAtFromMsb p.bytes i = bit p i := rfl
  rw [putParent, hb]
  cases bit p i
  · exact wp_bind (wp_digestNode fun hm =>
      hput rfl false (Merkle.dataIn_node.2 ⟨hm, hcur, hside⟩))
  · exact wp_bind (wp_digestNode fun hm =>
      hput rfl true (Merkle.dataIn_node.2 ⟨hm, hside, hcur⟩))

/-! ## The loop -/

variable {c m : Nat}

/-- The side nodes of the loop are the sides of the way, continued by placeholders up to the bit at
which the path leaves the leaf that was found. -/
theorem sideNodeAt_eq {ss : List Trie} {n : Nat} (hlen : ss.length ≤ 256) (hn : n < 256)
    (hm : c = 256 ∧ m = 0 ∨ c < 256 ∧ ss.length + m = c) :
    sideNodeAt (ss.reverse.map merkle.hash) c (depth - (n + 1)) =
      (ss ++ List.replicate m .empty)[n]?.map merkle.hash := by
  have hi : depth - 1 - (depth - (n + 1)) = n := by simp only [depth, TreeHasher.hashLen]; omega
  have hoff : ∀ k, depth - (n + 1) < depth - k ↔ k < n + 1 := by
    intro k; simp only [depth, TreeHasher.hashLen]; omega
  simp only [sideNodeAt, List.length_map, List.length_reverse, hi, hoff]
  by_cases h : n < ss.length
  · have hidx : depth - (n + 1) - (depth - ss.length) = ss.length - 1 - n := by
      simp only [depth, TreeHasher.hashLen]; omega
    rw [if_neg (by omega), hidx, List.getElem?_map, List.getElem?_reverse (by omega),
      List.getElem?_append_left h, show ss.length - 1 - (ss.length - 1 - n) = n by omega,
      List.getElem?_eq_getElem h]
    rfl
  · rw [if_pos (by omega), List.getElem?_append_right (by omega), List.getElem?_replicate]
    have hdepth : depth = 256 := rfl
    rcases hm with ⟨rfl, rfl⟩ | ⟨hc, hm⟩
    · rw [if_neg fun hc : 256 ≠ depth ∧ _ => hc.1 hdepth.symm]; rfl
    · by_cases hcn : n < c
      · rw [if_pos (show c ≠ depth ∧ c > n from ⟨by rw [hdepth]; omega, hcn⟩),
          if_pos (show n - ss.length < m by omega)]
        rfl
      · rw [if_neg fun hc : c ≠ depth ∧ c > n => hcn hc.2,
          if_neg (show ¬ n - ss.length < m by omega)]
        rfl

theorem wp_updateLoop (hg : KeccakGood S) {p : H256} {sideNodes : List H256} {c : Nat}
    {ss : List Trie} (hss : ∀ u ∈ ss, merkle.DataIn (hashed S) u)
    (hside : ∀ n < 256, sideNodeAt sideNodes c (depth - (n + 1)) = ss[n]?.map merkle.hash) :
    ∀ (n : Nat) {cur : Trie} {t : SparseMerkleTree} {T : Set Trie}, n ≤ 256 →
      Rebuilding S t₀ t T → merkle.DataIn (hashed S) cur →
      wp S (updateLoop p sideNodes c n (merkle.hash cur)) t fun r t' =>
        ∃ a, r = .ok a ∧ a = merkle.hash (climb bit p 0 (ss.take n) cur) ∧
          Rebuilding S t₀ t' ({ s | s ∈ climbs bit p 0 (ss.take n) cur } ∪ T) ∧
          merkle.DataIn (hashed S) (climb bit p 0 (ss.take n) cur) ∧ t'.values = t.values
  | 0, cur, t, T, _, h, hcur => by
    refine wp_pure ⟨_, rfl, rfl, ?_, hcur, rfl⟩
    simpa [climbs] using h
  | n + 1, cur, t, T, hn, h, hcur => by
    rw [updateLoop, hside n (by omega)]
    by_cases hlt : n < ss.length
    · have hi : depth - 1 - (depth - (n + 1)) = n := by
        simp only [depth, TreeHasher.hashLen]; omega
      have htake : ss.take (n + 1) = ss.take n ++ [ss[n]] := (List.take_append_getElem hlt).symm
      have hlen : (ss.take n).length = n := List.length_take_of_le hlt.le
      rw [List.getElem?_eq_getElem hlt, hi, htake, climb_append, climbs_append,
        Nat.zero_add, hlen]
      refine wp_bind_ok (wp_putParent hg h p n hcur (hss _ (List.getElem_mem hlt))) ?_
      rintro _ t' ⟨rfl, h', hjoin, hv⟩
      refine wp_mono (wp_updateLoop hg hss hside n (by omega) h' hjoin) ?_
      rintro r t'' ⟨a, rfl, ha, h'', hd, hv'⟩
      refine ⟨a, rfl, ha, ?_, hd, hv'.trans hv⟩
      have hset : ∀ (A : List Trie) (x : Trie), { s | s ∈ A } ∪ ({x} ∪ T) =
          { s | s ∈ A ++ [x] } ∪ T := by
        intro A x
        ext s
        simp only [Set.mem_union, Set.mem_ofPred_eq, Set.mem_singleton_iff, List.mem_append,
          List.mem_singleton, or_assoc]
      rwa [hset] at h''
    · have htake : ss.take (n + 1) = ss.take n := by
        rw [List.take_of_length_le (by omega), List.take_of_length_le (by omega)]
      rw [List.getElem?_eq_none (by omega), htake]
      exact wp_updateLoop hg hss hside n (by omega) h hcur

/-! ## The update -/

variable {r : Trie} {p : H256}

theorem Rep.sides_dataIn (h : Rep S t r) {u : Trie} (hu : u ∈ sides bit p 0 r) :
    merkle.DataIn (hashed S) u := fun s hs =>
  h.dataIn s ((mem_subtrees_iff 0 r).2 (.inr ⟨u, hu, hs⟩))

theorem pathNodes_drop :
    ((Radix.path bit p 0 r).reverse.map merkle.hash).drop 1 =
      (above bit p 0 r).reverse.map merkle.hash := by
  rw [Radix.path, List.reverse_append]; rfl

theorem pathNodes_head :
    ((Radix.path bit p 0 r).reverse.map merkle.hash).headD FixedBytes.zero =
      merkle.hash (terminal bit p 0 r) := by
  rw [Radix.path, List.reverse_append]; rfl

/-- The sides of the way to `p` in `r`, continued by `m` placeholders. -/
def newSides (p : H256) (r : Trie) (m : Nat) : List Trie :=
  sides bit p 0 r ++ List.replicate m .empty

theorem wp_rehash (hg : KeccakGood S) (hrep : Rep S t₀ r) (h : Rebuilding S t₀ t T)
    (habove : ∀ s ∈ above bit p 0 r, s ∈ T) (hcur : merkle.DataIn (hashed S) cur)
    (hm : c = 256 ∧ m = 0 ∨ c < 256 ∧ (sides bit p 0 r).length + m = c) (value : Bytes) :
    wp S (rehash p value ((sides bit p 0 r).reverse.map merkle.hash)
      ((Radix.path bit p 0 r).reverse.map merkle.hash) c (merkle.hash cur)) t fun res t' =>
      ∃ a, res = .ok a ∧
        a = merkle.hash (climb bit p 0 (newSides p r m) cur) ∧
        Rebuilding S t₀ t' ({ s | s ∈ climbs bit p 0 (newSides p r m) cur } ∪
          (T \ { s | s ∈ above bit p 0 r })) ∧
        merkle.DataIn (hashed S) (climb bit p 0 (newSides p r m) cur) ∧
        t'.values = t.values.insert p value := by
  have hlen : (sides bit p 0 r).length ≤ 256 := by
    have := hrep.wf.length_sides_le (k := p) (Nat.zero_le _)
    omega
  have hfull : (newSides p r m).take depth =
      newSides p r m := by
    refine List.take_of_length_le ?_
    rw [newSides, List.length_append, List.length_replicate]
    show _ ≤ 256
    omega
  rw [rehash, pathNodes_drop]
  refine wp_bind_ok (wp_deleteNodes hg h (List.nodup_reverse.2 (above_nodup p 0 r))
    fun s hs => ⟨habove s (List.mem_reverse.1 hs),
      (ne_terminal_of_mem_above (List.mem_reverse.1 hs)).1⟩) ?_
  rintro _ t' ⟨h', hv⟩
  have hss : ∀ u ∈ newSides p r m,
      merkle.DataIn (hashed S) u := by
    intro u hu
    rcases List.mem_append.1 hu with hu | hu
    · exact hrep.sides_dataIn hu
    · rw [List.eq_of_mem_replicate hu]
      exact Merkle.dataIn_empty
  refine wp_bind_ok (wp_updateLoop hg hss (fun n hn => sideNodeAt_eq hlen hn hm) depth
    (le_refl _) h' hcur) ?_
  rintro _ t'' ⟨rfl, h'', hd, hv'⟩
  rw [hfull] at h'' hd ⊢
  simp only [List.mem_reverse] at h''
  refine wp_bind (wp_modify (wp_pure ⟨_, rfl, rfl, ?_, hd, ?_⟩))
  · exact ⟨h''.stores, h''.dataIn, h''.root, h''.parent⟩
  · rw [← hv, ← hv']

/-- What `update key value` did to `t`, which represented `r`. -/
structure Updated (S : Set Query) (t t' : SparseMerkleTree) (r : Trie) (key value : Bytes) :
    Prop where
  key_mem : .keccak256 key ∈ S
  value_mem : .keccak256 value ∈ S
  rep : Rep S t' (r.insert (Crypto.keccak256 key) (Crypto.keccak256 value))
  parent : t'.parent = t.parent
  values : ∀ j, t'.values.get? j =
    if r.get (Crypto.keccak256 key) ≠ some (Crypto.keccak256 value) ∧ j = Crypto.keccak256 key then
      some value
    else t.values.get? j

theorem commonPrefix_run_empty (hterm : terminal bit p 0 r = .empty) (data : Bytes)
    (t : SparseMerkleTree) :
    commonPrefix p ((Radix.path bit p 0 r).reverse.map merkle.hash) data t =
      ⟨.ok (256, none), t, []⟩ := by
  rw [commonPrefix, pathNodes_head, hterm]; rfl

theorem commonPrefix_run_leaf (hg : KeccakGood S) (h : Rep S t₀ r) {k : H256}
    (hterm : terminal bit p 0 r = .leaf k v) (t : SparseMerkleTree) :
    commonPrefix p ((Radix.path bit p 0 r).reverse.map merkle.hash) (merkle.leafData k v) t =
      ⟨.ok (countCommonPrefix p k, some v), t, []⟩ := by
  have hmem : leaf k v ∈ r.subtrees := hterm ▸ terminal_mem_subtrees (by rw [hterm]; nofun)
  have hz : (merkle.hash (leaf k v)).isZero = false :=
    FixedBytes.isZero_eq_false_iff.2 (hg.merkle.hash_ne (h.dataIn.of_mem_subtrees hmem) nofun)
  rw [commonPrefix, pathNodes_head, hterm, hz, if_neg Bool.false_ne_true,
    bind_ok_nil (parseLeaf_run k v t)]
  dsimp only
  rw [bind_ok_nil (fromSlice_run k t), bind_ok_nil (fromSlice_run v t)]
  rfl

variable {key value : Bytes}

theorem Updated.of_rebuilding {t' : SparseMerkleTree} (h : Rep S t r) (hkey : .keccak256 key ∈ S)
    (hvalue : .keccak256 value ∈ S)
    (hreb : Rebuilding S t t' (r.insert (Crypto.keccak256 key) (Crypto.keccak256 value)).subtrees)
    (hd : merkle.DataIn (hashed S) (r.insert (Crypto.keccak256 key) (Crypto.keccak256 value)))
    (hget : r.get (Crypto.keccak256 key) ≠ some (Crypto.keccak256 value))
    (hv : ∀ j, t'.values.get? j = if j = Crypto.keccak256 key then some value else t.values.get? j)
    :
    Updated S t { t' with root := (r.insert (Crypto.keccak256 key) (Crypto.keccak256 value)).hash }
      r key value where
  key_mem := hkey
  value_mem := hvalue
  rep := ⟨h.wf.wf_insert sep_bit (Nat.zero_le _) (under_zero _ _), hd, rfl, hreb.stores⟩
  parent := hreb.parent
  values j := by simp only [hv j, hget, ne_eq, not_false_eq_true, true_and]

/-- The rest of an update whose first part has written the new nodes `A` and deleted the old ones
`D`: after `rehash` the nodes in the store are those of the new trie. -/
theorem wp_rehash_updated (hg : KeccakGood S) (h : Rep S t r) (hp : Crypto.keccak256 key = p)
    (hvh : Crypto.keccak256 value = v) (hkey : .keccak256 key ∈ S) (hvalue : .keccak256 value ∈ S)
    {t₁ : SparseMerkleTree} {A : Set Trie} {D : List Trie}
    (h₁ : Rebuilding S t t₁ ((A ∪ r.subtrees) \ { s | s ∈ D }))
    (hvals : ∀ j, j ≠ p → t₁.values.get? j = t.values.get? j) (hget : r.get p ≠ some v)
    (hD : ∀ s ∈ D, s = terminal bit p 0 r ∧ s ∉ above bit p 0 r)
    (hcur : merkle.DataIn (hashed S) cur)
    (hm : c = 256 ∧ m = 0 ∨ c < 256 ∧ (sides bit p 0 r).length + m = c)
    (hclimb : climb bit p 0 (newSides p r m) cur = r.insert p v)
    (hA : { s | s ∈ climbs bit p 0 (newSides p r m) cur } ∪ A = { s | s ∈ Radix.path bit p 0 (r.insert p v) })
    (hsub : (r.insert p v).subtrees = { s | s ∈ Radix.path bit p 0 (r.insert p v) } ∪ (r.subtrees \ { s | s ∈ above bit p 0 r ∨ s ∈ D }))
    :
    wp S (rehash p value ((sides bit p 0 r).reverse.map merkle.hash)
      ((Radix.path bit p 0 r).reverse.map merkle.hash) c (merkle.hash cur)) t₁ fun res t' =>
      ∃ a, res = .ok a ∧ Updated S t { t' with root := a } r key value := by
  -- the new nodes have the new entry below them, the old way has not
  have hdisj : ∀ s ∈ A, s ∉ Radix.path bit p 0 r := by
    intro s hs hold
    have hnew : s ∈ { s | s ∈ Radix.path bit p 0 (r.insert p v) } := hA ▸ .inr hs
    have hent : (p, v) ∈ s.entries := mem_entries_of_mem_path_insert hnew
    have hne : s ≠ .empty := by rintro rfl; exact nomatch hent
    have hmem : s ∈ r.subtrees := (mem_subtrees_iff 0 r).2 (.inl ⟨hold, hne⟩)
    exact hget (h.wf.get_eq_some_iff.2 (entries_subset_of_mem_subtrees hmem hent))
  have habove : ∀ s ∈ above bit p 0 r, s ∈ (A ∪ r.subtrees) \ { s | s ∈ D } := fun s hs =>
    ⟨.inr (mem_subtrees_of_mem_above hs), fun hsD => (hD s hsD).2 hs⟩
  refine wp_mono (wp_rehash hg h h₁ habove hcur hm value) ?_
  rintro res t' ⟨a, rfl, rfl, h', hd, hv⟩
  rw [hclimb] at hd ⊢
  have hset : { s | s ∈ climbs bit p 0 (newSides p r m) cur } ∪
      (((A ∪ r.subtrees) \ { s | s ∈ D }) \ { s | s ∈ above bit p 0 r }) =
      (r.insert p v).subtrees := by
    rw [hsub, ← hA]
    ext s
    simp only [Set.mem_union, Set.mem_sdiff, Set.mem_ofPred_eq, not_or]
    constructor
    · rintro (hs | ⟨⟨hs | hs, hn⟩, hn'⟩)
      · exact .inl (.inl hs)
      · exact .inl (.inr hs)
      · exact .inr ⟨hs, hn', hn⟩
    · rintro ((hs | hs) | ⟨hs, hn', hn⟩)
      · exact .inl hs
      · refine .inr ⟨⟨.inl hs, fun hsD => hdisj s hs ?_⟩, fun hab =>
          hdisj s hs (List.mem_append_left _ hab)⟩
        rw [(hD s hsD).1]
        exact List.mem_append_right _ (List.mem_singleton.2 rfl)
      · exact .inr ⟨⟨.inr hs, hn⟩, hn'⟩
  rw [hset] at h'
  subst hp hvh
  refine ⟨_, rfl, .of_rebuilding h hkey hvalue h' hd hget fun j => ?_⟩
  rw [hv, get?_insert]
  split
  · rfl
  · exact hvals j ‹_›

omit [Crypto] in
theorem newSides_zero : newSides p r 0 = sides bit p 0 r := by
  rw [newSides, List.replicate_zero, List.append_nil]

omit [Crypto] in
theorem climb_of_sides_eq (hs : sides bit p 0 (r.insert p v) = sides bit p 0 r) :
    climb bit p 0 (newSides p r 0) (.leaf p v) = r.insert p v ∧
      { s | s ∈ climbs bit p 0 (newSides p r 0) (.leaf p v) } ∪ {leaf p v} =
        { s | s ∈ Radix.path bit p 0 (r.insert p v) } := by
  rw [newSides_zero, ← hs]
  constructor
  · exact (insert_eq_climb p v 0 r).symm
  · ext s
    simp only [Radix.path, Trie.insert, terminal_insert, above_insert, Set.mem_union,
      Set.mem_ofPred_eq, Set.mem_singleton_iff, List.mem_append, List.mem_singleton]

section Cases

variable (hg : KeccakGood S) (h : Rep S t r) {key value : Bytes} (hp : Crypto.keccak256 key = p)
  {v : H256} (hvh : Crypto.keccak256 value = v) (hkey : .keccak256 key ∈ S)
  (hvalue : .keccak256 value ∈ S) (hleaf : merkle.DataIn (hashed S) (leaf p v))
  {t₁ : SparseMerkleTree} (h₁ : Rebuilding S t t₁ ({leaf p v} ∪ r.subtrees))
  (hv₁ : t₁.values = t.values)

include hg h hp hvh hkey hvalue hleaf h₁ hv₁

/-- The place of the key is empty: the new leaf takes it. -/
theorem wp_rehash_of_empty (hterm : terminal bit p 0 r = .empty) :
    wp S (rehash p value ((sides bit p 0 r).reverse.map merkle.hash)
      ((Radix.path bit p 0 r).reverse.map merkle.hash) 256 (merkle.hash (.leaf p v))) t₁
      fun res t' => ∃ a, res = .ok a ∧ Updated S t { t' with root := a } r key value := by
  have hs : sides bit p 0 (r.insert p v) = sides bit p 0 r :=
    sides_insert_of_empty 0 r hterm
  have hget : r.get p ≠ some v := by
    rw [Trie.get, get_eq_none_of_terminal 0 r hterm]; nofun
  obtain ⟨hclimb, hA⟩ := climb_of_sides_eq hs
  have hsub := h.wf.subtrees_insert hs
  refine wp_rehash_updated hg h hp hvh hkey hvalue (D := []) (by simpa using h₁)
    (fun j _ => by rw [hv₁]) hget (by simp) hleaf (.inl ⟨rfl, rfl⟩) hclimb hA ?_
  refine hsub.trans (congrArg _ ?_)
  ext s
  simp only [Radix.path, hterm, Set.mem_sdiff, Set.mem_ofPred_eq, List.mem_append,
    List.mem_singleton, List.not_mem_nil, or_false]
  refine and_congr_right fun hsub => not_congr ⟨fun hs => ?_, .inl⟩
  exact hs.resolve_right (ne_empty_of_mem_subtrees hsub)

/-- The place of the key holds its old leaf, which is replaced. -/
theorem wp_rehash_of_self {w : H256} (hterm : terminal bit p 0 r = .leaf p w) (hne : w ≠ v) :
    wp S (do
      deleteNode (merkle.hash (.leaf p w))
      let _ ← attempt (deleteValue p)
      rehash p value ((sides bit p 0 r).reverse.map merkle.hash)
        ((Radix.path bit p 0 r).reverse.map merkle.hash) 256 (merkle.hash (.leaf p v))) t₁
      fun res t' => ∃ a, res = .ok a ∧ Updated S t { t' with root := a } r key value := by
  have hs : sides bit p 0 (r.insert p v) = sides bit p 0 r :=
    sides_insert_of_self 0 r hterm
  have hget : r.get p ≠ some v := by
    rw [Trie.get, get_eq_some_of_terminal 0 r hterm, if_pos rfl]
    simpa using hne
  have hmem : leaf p w ∈ r.subtrees :=
    hterm ▸ terminal_mem_subtrees (by rw [hterm]; nofun)
  obtain ⟨hclimb, hA⟩ := climb_of_sides_eq hs
  have hsub := h.wf.subtrees_insert hs
  refine wp_bind_ok (wp_deleteNode hg h₁ (.inr hmem) nofun) ?_
  rintro _ t₂ ⟨h₂, hv₂⟩
  have hdel : wp S (attempt (deleteValue p)) t₂ fun res t' => ∃ a, res = .ok a ∧
      Rebuilding S t t' (({leaf p v} ∪ r.subtrees) \ {leaf p w}) ∧
      ∀ j, j ≠ p → t'.values.get? j = t.values.get? j := by
    refine wp_attempt (wp_bind (wp_get (wp_ite (fun _ => ?_) fun _ => ?_)))
    · refine wp_modify ⟨_, rfl, ⟨h₂.stores, h₂.dataIn, h₂.root, h₂.parent⟩, fun j hj => ?_⟩
      rw [get?_erase, if_neg hj, hv₂, hv₁]
    · exact wp_err ⟨_, rfl, h₂, fun j _ => by rw [hv₂, hv₁]⟩
  refine wp_bind_ok hdel ?_
  rintro _ t₃ ⟨h₃, hv₃⟩
  refine wp_rehash_updated hg h hp hvh hkey hvalue (D := [leaf p w]) (by simpa using h₃) hv₃
    hget (fun s hs => ?_) hleaf (.inl ⟨rfl, rfl⟩) hclimb hA ?_
  · rw [List.mem_singleton.1 hs]
    exact ⟨hterm.symm, fun hab => (ne_terminal_of_mem_above hab).2 p w rfl⟩
  · refine hsub.trans (congrArg _ ?_)
    simp only [Radix.path, hterm, List.mem_append]

/-- The place of the key holds another key's leaf: the two part at the first bit they differ in. -/
theorem wp_rehash_of_ne {k w : H256} (hterm : terminal bit p 0 r = .leaf k w) (hne : p ≠ k) :
    wp S (do
      let current ← putParent p (countCommonPrefix p k) (merkle.hash (.leaf p v))
        (merkle.hash (.leaf k w))
      rehash p value ((sides bit p 0 r).reverse.map merkle.hash)
        ((Radix.path bit p 0 r).reverse.map merkle.hash) (countCommonPrefix p k) current) t₁
      fun res t' => ∃ a, res = .ok a ∧ Updated S t { t' with root := a } r key value := by
  obtain ⟨hle, hagree, hdiff⟩ := countCommonPrefix_spec p k
  have hc : countCommonPrefix p k ≠ 256 := fun hc => hne ((countCommonPrefix_eq_iff p k).1 hc)
  generalize countCommonPrefix p k = c at hle hagree hdiff hc ⊢
  have hbit := hdiff (by omega)
  have hlen : (sides bit p 0 r).length ≤ c := by
    by_contra hlt
    exact hbit ((h.wf.terminal_agree hterm).1 c (Nat.zero_le _) (by omega))
  obtain ⟨m, hm⟩ : ∃ m, (sides bit p 0 r).length + m = c := 
    ⟨c - (sides bit p 0 r).length, by omega⟩
  have hs : sides bit p 0 (r.insert p v) =
      sides bit p 0 r ++ (List.replicate m .empty ++ [.leaf k w]) := by
    have := sides_insert_of_ne (v := v) (by omega : c < 256) hbit hagree 0 r hterm (by omega)
    rwa [show c - (0 + (sides bit p 0 r).length) = m by omega] at this
  have hs' : sides bit p 0 (r.insert p v) = newSides p r m ++ [.leaf k w] := by
    rw [hs, newSides, List.append_assoc]
  have hlen' : 0 + (newSides p r m).length = c := by
    rw [newSides, List.length_append, List.length_replicate]; omega
  have hget : r.get p ≠ some v := by
    rw [Trie.get, get_eq_some_of_terminal 0 r hterm, if_neg hne]; nofun
  have hmem : leaf k w ∈ r.subtrees :=
    hterm ▸ terminal_mem_subtrees (by rw [hterm]; nofun)
  refine wp_bind_ok (wp_putParent hg h₁ p c hleaf (h.dataIn.of_mem_subtrees hmem)) ?_
  rintro _ t₂ ⟨rfl, h₂, hjoin, hv₂⟩
  refine wp_rehash_updated hg h hp hvh hkey hvalue
    (A := {join (bit p c) (.leaf p v) (.leaf k w)} ∪ {leaf p v}) (D := [])
    (by convert h₂ using 1; ext s; simp [or_assoc]) (fun j _ => by rw [hv₂, hv₁]) hget (by simp)
    hjoin (.inr ⟨by omega, hm⟩) ?_ ?_ ?_
  · have : r.insert p v = climb bit p 0 _ _ := insert_eq_climb p v 0 r
    rw [← Trie.insert, hs', climb_append, hlen'] at this
    exact this.symm
  · ext s
    have : above bit p 0 (r.insert p v) = climbs bit p 0 _ _ :=
      above_insert p v 0 r
    rw [← Trie.insert, hs', climbs_append, hlen'] at this
    simp only [Radix.path, this, Set.mem_union, Set.mem_ofPred_eq, Set.mem_singleton_iff,
      List.mem_append, List.mem_singleton, or_assoc]
    rw [show terminal bit p 0 (r.insert p v) = .leaf p v from terminal_insert p v 0 r]
  · have := h.wf.subtrees_insert_of_ne hterm hs
    simpa [Trie.insert] using this

omit hg in
/-- The trie has the value already: nothing changes. -/
theorem updated_of_same (hterm : terminal bit p 0 r = .leaf p v) :
    Updated S t { t₁ with root := t₁.root } r key value := by
  have hget : r.get p = some v := by
    rw [Trie.get, get_eq_some_of_terminal 0 r hterm, if_pos rfl]
  have hins : r.insert p v = r := insert_self 0 r hterm
  have hmem : leaf p v ∈ r.subtrees :=
    hterm ▸ terminal_mem_subtrees (by rw [hterm]; nofun)
  rw [Set.union_eq_self_of_subset_left (Set.singleton_subset_iff.2 hmem)] at h₁
  subst hp hvh
  refine ⟨hkey, hvalue, ?_, h₁.parent, fun j => ?_⟩
  · rw [hins]
    exact ⟨h.wf, h.dataIn, h₁.root.trans h.root, h₁.stores⟩
  · simp only [hget, ne_eq, not_true_eq_false, false_and, if_false, hv₁]

end Cases

theorem wp_updateWithSidesNodes (hg : KeccakGood S) (h : Rep S t r) (hp : Crypto.keccak256 key = p)
    (hkey : .keccak256 key ∈ S) :
    wp S (updateWithSidesNodes p value ((sides bit p 0 r).reverse.map merkle.hash)
      ((Radix.path bit p 0 r).reverse.map merkle.hash)
      ((merkle.data (terminal bit p 0 r)).getD [])) t fun res t' =>
      ∃ a, res = .ok a ∧ Updated S t { t' with root := a } r key value := by
  rw [updateWithSidesNodes]
  refine wp_bind (wp_keccak256 fun hvalue => ?_)
  generalize hvh : Crypto.keccak256 value = v
  refine wp_bind (wp_digestLeaf fun hleaf => ?_)
  have hleaf' : merkle.DataIn (hashed S) (leaf p v) := Merkle.dataIn_leaf.2 hleaf
  refine wp_bind_ok (wp_putNode hg h.rebuilding hleaf' rfl) ?_
  rintro _ t₁ ⟨h₁, hv₁⟩
  rw [pathNodes_head]
  rcases (terminal_cases p 0 r : terminal bit p 0 r = .empty ∨ _) with hterm | ⟨k, w, hterm⟩
  · exact wp_bind_run (commonPrefix_run_empty hterm _ t₁)
      (wp_rehash_of_empty hg h hp hvh hkey hvalue hleaf' h₁ hv₁ hterm)
  · rw [hterm]
    refine wp_bind_run (commonPrefix_run_leaf hg h hterm t₁) ?_
    by_cases hk : p = k
    · subst hk
      rw [(countCommonPrefix_eq_iff p p).2 rfl]
      refine wp_ite (fun hc => absurd rfl hc) fun _ => ?_
      refine wp_ite (fun hw => ?_) fun hw =>
        wp_rehash_of_self hg h hp hvh hkey hvalue hleaf' h₁ hv₁ hterm hw
      subst hw
      exact wp_bind (wp_get (wp_pure ⟨_, rfl,
        updated_of_same h hp hvh hkey hvalue hleaf' h₁ hv₁ hterm⟩))
    · refine wp_ite (fun _ =>
        wp_rehash_of_ne hg h hp hvh hkey hvalue hleaf' h₁ hv₁ hterm hk) fun hc => ?_
      exact absurd ((countCommonPrefix_eq_iff p k).1 (not_not.1 hc)) hk

/-- **`update` with a non-empty value inserts into the trie.** It never fails. -/
theorem wp_update (hg : KeccakGood S) (h : Rep S t r) (key : Bytes) (hvalue : value ≠ []) :
    wp S (update key value) t fun res t' =>
      ∃ a, res = .ok a ∧ a = t'.root ∧ Updated S t t' r key value := by
  refine wp_bind (wp_get ?_)
  have hroot : wp S (updateForRoot key value t.root) t fun res t' =>
      ∃ a, res = .ok a ∧ Updated S t { t' with root := a } r key value := by
    refine wp_bind (wp_keccak256 fun hkey => ?_)
    have hrun := sideNodesForRoot_run hg h (Crypto.keccak256 key) false
    refine wp_bind_run hrun ?_
    rw [if_neg (by simpa using hvalue)]
    exact wp_updateWithSidesNodes hg h rfl hkey
  refine wp_bind_ok hroot ?_
  intro a t' hu
  exact wp_bind (wp_modify (wp_pure ⟨a, rfl, rfl, hu⟩))

end Uchain
