import Uchain.Lib.Merkle
import Uchain.Smt.Tree

/-!
# The trie behind a sparse Merkle tree

`Rep S t r`: the node store of `t` holds exactly the subtrees of the well-formed trie `r`, and the
root of `t` is the hash of `r`. Keys and values of `r` are hashes. `S` is the set of inputs hashed.

* `Rep.root_inj`: two trees with the same root represent the same trie.
* `sideNodesForRoot_run`: the walk to a path finds the hashes of the subtrees next to the way and on
  it, and the data at its end.
* `countCommonPrefix_spec`: the number of leading bits that two paths share.
-/

namespace Uchain

open Lib Exec Radix

def bit (h : H256) (i : Nat) : Bool := getBitsAtFromMsb h.bytes i

theorem sep_bit : Sep bit 256 := fun _ _ h => eq_of_bits h

/-- The trie of hashed keys and hashed values. -/
abbrev Trie := Radix H256 H256

theorem append_bytes_inj {n : Nat} {p : Bytes} {a a' b b' : FixedBytes n}
    (h : p ++ a.bytes ++ b.bytes = p ++ a'.bytes ++ b'.bytes) : a = a' ∧ b = b' := by
  rw [List.append_assoc, List.append_assoc, List.append_cancel_left_eq] at h
  obtain ⟨ha, hb⟩ := List.append_inj h (by simp)
  exact ⟨FixedBytes.bytes_injective ha, FixedBytes.bytes_injective hb⟩

/-! ## Reading node data -/

section Parse

variable {ε σ : Type}

theorem parse_run (p : UInt8) (a b : H256) (s : σ) :
    (TreeHasher.parse ([p] ++ a.bytes ++ b.bytes) : Exec ε Query σ (Bytes × Bytes)) s =
      ⟨.ok (a.bytes, b.bytes), s, []⟩ := by
  rw [TreeHasher.parse, if_pos (by simp [TreeHasher.hashLen])]
  have h1 : ([p] ++ a.bytes ++ b.bytes).drop 1 = a.bytes ++ b.bytes := rfl
  have h2 : (([p] ++ a.bytes ++ b.bytes).drop 1).take TreeHasher.hashLen = a.bytes := by
    rw [h1, List.take_append_of_le_length (by simp [TreeHasher.hashLen]),
      List.take_of_length_le (by simp [TreeHasher.hashLen])]
  have h3 : ([p] ++ a.bytes ++ b.bytes).drop (1 + TreeHasher.hashLen) = b.bytes := by
    rw [← List.drop_drop, h1, List.drop_append_of_le_length (by simp [TreeHasher.hashLen]),
      List.drop_of_length_le (by simp [TreeHasher.hashLen]), List.nil_append]
  rw [h2, h3]
  rfl

theorem fromSlice_run (a : H256) (s : σ) :
    (H256.fromSlice a.bytes : Exec ε Query σ H256) s = ⟨.ok a, s, []⟩ := by
  rw [H256.fromSlice, FixedBytes.fromSlice?_bytes]; rfl

end Parse

open SparseMerkleTree

variable {t : SparseMerkleTree}

theorem getNode_run {h : H256} {x : Bytes} (hx : t.nodes.get? h = some x) :
    getNode h t = ⟨.ok x, t, []⟩ := by
  simp only [getNode, bind_run, Exec.bind, Exec.get, hx]; rfl

/-! ## Common prefixes -/

theorem countCommonPrefixFrom_spec (a b : H256) : ∀ n i, i + n = 256 →
    (∀ j < i, bit a j = bit b j) →
    i ≤ countCommonPrefixFrom a b n i ∧ countCommonPrefixFrom a b n i ≤ 256 ∧
      (∀ j < countCommonPrefixFrom a b n i, bit a j = bit b j) ∧
      (countCommonPrefixFrom a b n i < 256 →
        bit a (countCommonPrefixFrom a b n i) ≠ bit b (countCommonPrefixFrom a b n i))
  | 0, i, hi, h => ⟨le_refl _, by rw [countCommonPrefixFrom]; omega, h, fun hlt => by
      rw [countCommonPrefixFrom] at hlt; omega⟩
  | n + 1, i, hi, h => by
    rw [countCommonPrefixFrom]
    split
    · rename_i hb
      obtain ⟨h1, h2⟩ := countCommonPrefixFrom_spec a b n (i + 1) (by omega)
        (agree_succ h hb)
      exact ⟨by omega, h2⟩
    · rename_i hb
      exact ⟨le_refl _, by omega, h, fun _ => hb⟩

theorem countCommonPrefix_spec (a b : H256) :
    countCommonPrefix a b ≤ 256 ∧ (∀ j < countCommonPrefix a b, bit a j = bit b j) ∧
      (countCommonPrefix a b < 256 →
        bit a (countCommonPrefix a b) ≠ bit b (countCommonPrefix a b)) :=
  (countCommonPrefixFrom_spec a b 256 0 rfl fun _ h => absurd h (by omega)).2

theorem countCommonPrefix_eq_iff (a b : H256) : countCommonPrefix a b = 256 ↔ a = b := by
  obtain ⟨hle, hagree, hne⟩ := countCommonPrefix_spec a b
  constructor
  · intro h
    exact sep_bit a b fun i hi => hagree i (by omega)
  · rintro rfl
    by_contra hc
    exact hne (by omega) rfl

/-! ## The representation -/

variable [Crypto]

/-- How `TreeHasher` hashes leaves and nodes. -/
def merkle : Merkle H256 H256 H256 Bytes where
  placeholder := TreeHasher.placeholder
  digest := Crypto.keccak256
  leafData k v := TreeHasher.leafPrefix ++ k.bytes ++ v.bytes
  nodeData l r := TreeHasher.nodePrefix ++ l.bytes ++ r.bytes
  leafData_inj := append_bytes_inj
  nodeData_inj := append_bytes_inj
  leafData_ne h := by
    rw [List.append_assoc, List.append_assoc] at h
    exact absurd (List.append_inj h rfl).1 (by decide)

/-- The inputs of `keccak256` among the queries. -/
def hashed (S : Set Query) : Set Bytes := { x | .keccak256 x ∈ S }

theorem KeccakGood.merkle {S : Set Query} (h : KeccakGood S) : merkle.Good (hashed S) where
  inj _ ha _ hb he := h.inj _ _ ha hb he
  ne x hx := h.ne x hx

def Trie.hash (r : Trie) : H256 := merkle.hash r

def Trie.get (r : Trie) (k : H256) : Option H256 := Radix.get bit k 0 r

def Trie.insert (r : Trie) (k v : H256) : Trie := Radix.insert bit 256 k v 0 r

/-- The tree `t` holds the trie `r`. -/
structure Rep (S : Set Query) (t : SparseMerkleTree) (r : Trie) : Prop where
  wf : Wf bit 256 0 r
  dataIn : merkle.DataIn (hashed S) r
  root : t.root = r.hash
  nodes : merkle.Stores t.nodes.get? r.subtrees

variable {S : Set Query} {r : Trie}

theorem Rep.root_inj (hg : KeccakGood S) {t' : SparseMerkleTree} {r' : Trie} (h : Rep S t r)
    (h' : Rep S t' r') (he : t.root = t'.root) : r = r' :=
  hg.merkle.hash_inj h.dataIn h'.dataIn (by rw [← Trie.hash, ← h.root, he, h'.root]; rfl)

theorem Rep.new (S : Set Query) : Rep S .new .empty where
  wf := trivial
  dataIn := Merkle.dataIn_empty
  root := rfl
  nodes := Merkle.Stores.empty

theorem Rep.subtree (h : Rep S t r) :
    Rep S (t.subtree .partialCopy) r := ⟨h.wf, h.dataIn, h.root, h.nodes⟩

theorem Rep.root_eq_zero_iff (hg : KeccakGood S) (h : Rep S t r) :
    t.root = FixedBytes.zero ↔ r = .empty := by
  rw [h.root]
  refine ⟨fun he => ?_, fun he => he ▸ rfl⟩
  by_contra hne
  exact hg.merkle.hash_ne h.dataIn hne he

/-! ## The hasher on trie data -/

section Data

variable {ε σ : Type}

theorem isLeaf_run_leaf (k v : H256) (s : σ) :
    (TreeHasher.isLeaf (merkle.leafData k v) : Exec ε Query σ Bool) s = ⟨.ok true, s, []⟩ := by
  rw [TreeHasher.isLeaf, if_pos (by simp [merkle, TreeHasher.leafPrefix])]
  rfl

theorem isLeaf_run_node (l r : H256) (s : σ) :
    (TreeHasher.isLeaf (merkle.nodeData l r) : Exec ε Query σ Bool) s = ⟨.ok false, s, []⟩ := by
  rw [TreeHasher.isLeaf, if_pos (by simp [merkle, TreeHasher.nodePrefix])]
  rfl

theorem parseLeaf_run (k v : H256) (s : σ) :
    (TreeHasher.parseLeaf (merkle.leafData k v) : Exec ε Query σ (Bytes × Bytes)) s =
      ⟨.ok (k.bytes, v.bytes), s, []⟩ := parse_run 0 k v s

end Data

/-! ## The walk to a path -/

/-- The data of a node from its child on the side of the bit and the other one. -/
def joinData (b : Bool) (x y : H256) : Bytes :=
  if b then merkle.nodeData y x else merkle.nodeData x y

theorem data_join (b : Bool) (u side : Trie) :
    merkle.data (join b u side) = some (joinData b (merkle.hash u) (merkle.hash side)) := by
  cases b <;> rfl

theorem parseNode_run {ε σ : Type} (b : Bool) (x y : H256) (s : σ) :
    (TreeHasher.parseNode (joinData b x y) : Exec ε Query σ (Bytes × Bytes)) s =
      ⟨.ok (if b then (y.bytes, x.bytes) else (x.bytes, y.bytes)), s, []⟩ := by
  cases b
  · exact parse_run 1 x y s
  · exact parse_run 1 y x s

theorem isLeaf_run_join {ε σ : Type} (b : Bool) (x y : H256) (s : σ) :
    (TreeHasher.isLeaf (joinData b x y) : Exec ε Query σ Bool) s = ⟨.ok false, s, []⟩ := by
  cases b <;> exact isLeaf_run_node _ _ s

/-- Every subtree of `r` is in the node store. -/
def Held (t : SparseMerkleTree) (r : Trie) : Prop :=
  ∀ s ∈ r.subtrees, ∀ x, merkle.data s = some x → t.nodes.get? (merkle.hash s) = some x

theorem Rep.held (h : Rep S t r) : Held t r :=
  fun _ hs _ hx => h.nodes.get hs hx

variable {d : Nat}

theorem sideNodesLoop_step (p : H256) (n : Nat) (u side : Trie) (accs accp : List H256)
    (t : SparseMerkleTree) (hd : d + (n + 1) = 256) :
    sideNodesLoop p (n + 1) (joinData (bit p d) (merkle.hash u) (merkle.hash side)) accs accp t =
      (if (merkle.hash u).isZero then
        return (merkle.hash side :: accs, merkle.hash u :: accp, [])
      else do
        let currentData ← getNode (merkle.hash u)
        if ← TreeHasher.isLeaf currentData then
          return (merkle.hash side :: accs, merkle.hash u :: accp, currentData)
        else sideNodesLoop p n currentData (merkle.hash side :: accs) (merkle.hash u :: accp) :
          Smt (List H256 × List H256 × Bytes)) t := by
  have hdepth : depth - (n + 1) = d := by simp only [depth, TreeHasher.hashLen]; omega
  have hb : getBitsAtFromMsb p.bytes d = bit p d := rfl
  rw [sideNodesLoop, bind_ok_nil (parseNode_run _ _ _ t), hdepth, hb]
  cases bit p d
  all_goals
    simp only [if_true, Bool.false_eq_true, if_false]
    rw [bind_ok_nil (fromSlice_run _ t), bind_ok_nil (fromSlice_run _ t)]

/-- The subtrees on the way to `p` are in the node store. -/
def Walkable (t : SparseMerkleTree) (p : H256) (d : Nat) (r : Trie) : Prop :=
  ∀ s ∈ Radix.path bit p d r, ∀ x, merkle.data s = some x → t.nodes.get? (merkle.hash s) = some x

theorem Held.walkable (h : Held t r) (p : H256) (d : Nat) :
    Walkable t p d r := by
  intro s hs x hx
  refine h s ((mem_subtrees_iff d r).2 (.inl ⟨hs, ?_⟩)) x hx
  rintro rfl
  cases hx

variable {p : H256} {u : Trie}

theorem Walkable.head {side : Trie} (h : Walkable t p d (join (bit p d) u side)) :
    t.nodes.get? (merkle.hash (join (bit p d) u side)) =
      some (joinData (bit p d) (merkle.hash u) (merkle.hash side)) :=
  h _ (by rw [path_join]; exact List.mem_cons_self) _ (data_join _ _ _)

theorem Walkable.tail {side : Trie} (h : Walkable t p d (join (bit p d) u side)) :
    Walkable t p (d + 1) u :=
  fun s hs => h s (by rw [path_join]; exact List.mem_cons_of_mem _ hs)

theorem sideNodesLoop_run {S : Set Query} (hg : KeccakGood S) (p : H256) (t : SparseMerkleTree) :
    ∀ (n d : Nat) (u side : Trie) (accs accp : List H256), d + n = 256 →
      Wf bit 256 d (join (bit p d) u side) → merkle.DataIn (hashed S) u →
      Walkable t p (d + 1) u →
      sideNodesLoop p n (joinData (bit p d) (merkle.hash u) (merkle.hash side)) accs accp t =
        ⟨.ok ((sides bit p d (join (bit p d) u side)).reverse.map merkle.hash ++ accs,
          (Radix.path bit p (d + 1) u).reverse.map merkle.hash ++ accp,
          (merkle.data (terminal bit p (d + 1) u)).getD []), t, []⟩
  | 0, d, u, side, accs, accp, hd, hwf, _, _ => by
    have := (wf_join.1 hwf).1
    omega
  | n + 1, d, u, side, accs, accp, hd, hwf, hdata, hwalk => by
    rw [sideNodesLoop_step p n u side accs accp t hd, sides_join]
    cases u with
    | empty => rfl
    | leaf k v =>
      have hz : (merkle.hash (leaf k v)).isZero = false :=
        FixedBytes.isZero_eq_false_iff.2 (hg.merkle.hash_ne hdata nofun)
      have hget : t.nodes.get? (merkle.hash (leaf k v)) = some (merkle.leafData k v) :=
        hwalk _ (List.mem_singleton.2 rfl) _ rfl
      rw [hz, if_neg Bool.false_ne_true, bind_ok_nil (getNode_run hget),
        bind_ok_nil (isLeaf_run_leaf k v t)]
      rfl
    | node l r =>
      -- the node as seen from the path: its child on the way and the other one
      obtain ⟨u', side', e⟩ : ∃ u' side', node l r = join (bit p (d + 1)) u' side' :=
        ⟨_, _, node_eq_join _ l r⟩
      have hne : join (bit p (d + 1)) u' side' ≠ .empty := by rw [← e]; nofun
      rw [e] at hwf hdata hwalk ⊢
      have hz : (merkle.hash (join (bit p (d + 1)) u' side')).isZero = false :=
        FixedBytes.isZero_eq_false_iff.2 (hg.merkle.hash_ne hdata hne)
      have hwt := (wf_join.1 hwf).2.2.2.2.1
      have hu' : u'.subtrees ⊆ (join (bit p (d + 1)) u' side').subtrees := by
        rw [subtrees_join]
        exact fun s hs => .inr (.inr hs)
      rw [hz, if_neg Bool.false_ne_true, bind_ok_nil (getNode_run hwalk.head),
        bind_ok_nil (isLeaf_run_join _ _ _ t), if_neg Bool.false_ne_true,
        sideNodesLoop_run hg p t n (d + 1) u' side' _ _ (by omega) hwt
          (fun s hs => hdata s (hu' hs)) hwalk.tail]
      simp [path_join, terminal_join]

/-- The data of the last side node, which are read on request only. There are none if the walk ends
at the root. -/
def siblingData (p : H256) (r : Trie) (getSiblingData : Bool) : Option Bytes :=
  (sides bit p 0 r).getLast?.map fun u => if getSiblingData then (merkle.data u).getD [] else []

/-- The last side node is in the store. -/
def SiblingHeld (t : SparseMerkleTree) (p : H256) (r : Trie) : Prop :=
  ∀ u ∈ (sides bit p 0 r).getLast?, ∀ x, merkle.data u = some x →
    t.nodes.get? (merkle.hash u) = some x

theorem Held.siblingHeld (h : Held t r) (p : H256) :
    SiblingHeld t p r := by
  intro u hu x hx
  refine h u ((mem_subtrees_iff 0 r).2 (.inr ⟨u, List.mem_of_mem_getLast? hu, ?_⟩)) x hx
  refine mem_subtrees_self ?_
  rintro rfl
  cases hx

/-- In a well-formed trie the last side node is not a placeholder. -/
theorem last_side_data (hwf : Wf bit 256 0 r)
    (hu : (sides bit p 0 r).getLast? = some u) :
    u ∈ r.subtrees ∧ ∃ x, merkle.data u = some x := by
  obtain ⟨ss, hss⟩ := List.getLast?_eq_some_iff.1 hu
  have hne := hwf.last_side_ne_empty hss
  exact ⟨(mem_subtrees_iff 0 r).2
    (.inr ⟨u, List.mem_of_mem_getLast? hu, mem_subtrees_self hne⟩), Merkle.data_isSome hne⟩

theorem siblingData_run (hwf : Wf bit 256 0 r) (hheld : SiblingHeld t p r)
    (hu : (sides bit p 0 r).getLast? = some u) :
    getNode (((sides bit p 0 r).reverse.map merkle.hash).headD FixedBytes.zero) t =
      ⟨.ok ((merkle.data u).getD []), t, []⟩ := by
  obtain ⟨-, x, hx⟩ := last_side_data hwf hu
  have hget := hheld u hu x hx
  obtain ⟨ss, hss⟩ := List.getLast?_eq_some_iff.1 hu
  rw [hss, List.reverse_append, hx]
  exact getNode_run hget

/-- **The walk to a path**, in a store that holds the way. The side nodes and the path nodes come
deepest first. -/
theorem sideNodesForRoot_walk (hg : KeccakGood S) (hwf : Wf bit 256 0 r)
    (hdata : merkle.DataIn (hashed S) r) (hroot : t.root = r.hash) (hwalk : Walkable t p 0 r)
    (getSiblingData : Bool) (hheld : getSiblingData = true → SiblingHeld t p r) :
    sideNodesForRoot p t.root getSiblingData t =
      ⟨.ok ⟨(sides bit p 0 r).reverse.map merkle.hash,
        (Radix.path bit p 0 r).reverse.map merkle.hash,
        (merkle.data (terminal bit p 0 r)).getD [], siblingData p r getSiblingData⟩, t, []⟩ := by
  rw [hroot, sideNodesForRoot]
  cases r with
  | empty => rfl
  | leaf k v =>
    have hz : (Trie.hash (leaf k v)).isZero = false :=
      FixedBytes.isZero_eq_false_iff.2 (hg.merkle.hash_ne hdata nofun)
    have hget : t.nodes.get? (Trie.hash (leaf k v)) = some (merkle.leafData k v) :=
      hwalk _ (List.mem_singleton.2 rfl) _ rfl
    rw [hz, if_neg Bool.false_ne_true, bind_ok_nil (getNode_run hget),
      bind_ok_nil (isLeaf_run_leaf k v t)]
    rfl
  | node l r =>
    obtain ⟨u, side, e⟩ : ∃ u side, node l r = join (bit p 0) u side :=
      ⟨_, _, node_eq_join _ l r⟩
    have hne : join (bit p 0) u side ≠ .empty := by rw [← e]; nofun
    rw [e] at hwf hdata hwalk hheld ⊢
    have hz : (Trie.hash (join (bit p 0) u side)).isZero = false :=
      FixedBytes.isZero_eq_false_iff.2 (hg.merkle.hash_ne hdata hne)
    have hget : t.nodes.get? (Trie.hash (join (bit p 0) u side)) =
        some (joinData (bit p 0) (merkle.hash u) (merkle.hash side)) := hwalk.head
    have hu : u.subtrees ⊆ (join (bit p 0) u side).subtrees := by
      rw [subtrees_join]
      exact fun s hs => .inr (.inr hs)
    obtain ⟨last, hlast⟩ : ∃ last, (sides bit p 0 (join (bit p 0) u side)).getLast? =
        some last := by
      rw [sides_join]
      exact ⟨_, List.getLast?_eq_some_getLast (List.cons_ne_nil _ _)⟩
    rw [hz, if_neg Bool.false_ne_true, bind_ok_nil (getNode_run hget),
      bind_ok_nil (isLeaf_run_join _ _ _ t), if_neg Bool.false_ne_true,
      bind_ok_nil (sideNodesLoop_run hg p t depth 0 u side [] _ rfl hwf
        (fun s hs => hdata s (hu hs)) hwalk.tail), siblingData, hlast]
    dsimp only
    rw [List.append_nil]
    cases getSiblingData with
    | false => simp [path_join, terminal_join, pure_run, Trie.hash]
    | true =>
      rw [if_pos rfl, bind_ok_nil (siblingData_run hwf (hheld rfl) hlast)]
      simp [path_join, terminal_join, pure_run, Trie.hash]

theorem sideNodesForRoot_run (hg : KeccakGood S) (h : Rep S t r) (p : H256)
    (getSiblingData : Bool) :
    sideNodesForRoot p t.root getSiblingData t =
      ⟨.ok ⟨(sides bit p 0 r).reverse.map merkle.hash,
        (Radix.path bit p 0 r).reverse.map merkle.hash,
        (merkle.data (terminal bit p 0 r)).getD [], siblingData p r getSiblingData⟩, t, []⟩ := by
  exact sideNodesForRoot_walk hg h.wf h.dataIn h.root (h.held.walkable p 0) getSiblingData
    fun _ => h.held.siblingHeld p

end Uchain
