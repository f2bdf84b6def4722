import Uchain.State.State

/-!
# What a read of the trie database returns

Reads change nothing, and their results are functions of the database:

* `lookup`: the value found from a stored version on, following parents (`getDescendLoop_run`).
* `TreeDB.view`: the value seen through the staged version (`get_run`).
* `IValue.decode_encode`: a written value reads back.
-/

namespace Uchain

open Lib Exec

/-! ## Values -/

namespace IValue

theorem encode_ne_nil : ∀ v : IValue, v.encode ≠ []
  | deleted => by decide
  | value v => fun h => by have := congrArg List.length h; simp [encode] at this

theorem decode_encode_value {v : Bytes} (h : v.length < 2 ^ 64) :
    decode (value v).encode = some (value v) := by
  have hlen : ¬ (value v).encode.length < 4 := by simp [encode]
  have hvec : decodeVec (beBytes 8 v.length ++ v) = some v := by
    rw [decodeVec, ofBeBytes_take (show v.length < 256 ^ 8 from h), drop_beBytes,
      if_pos ⟨by simp, le_refl _⟩, List.take_length]
  rw [decode, if_neg hlen, encode, ofBeBytes_take (by decide), drop_beBytes, hvec]
  rfl

theorem encode_value_injective {v w : Bytes} (hv : v.length < 2 ^ 64) (hw : w.length < 2 ^ 64)
    (h : (value v).encode = (value w).encode) : v = w := by
  have := congrArg decode h
  rw [decode_encode_value hv, decode_encode_value hw] at this
  cases this; rfl

end IValue

/-! ## Lookups -/

/-- The value that a tree holds for a path; empty if it holds none. -/
def SparseMerkleTree.held (t : SparseMerkleTree) (p : H256) : Bytes :=
  if t.root.isZero then [] else (t.values.get? p).getD []

/-- The value found from a stored version on. -/
def lookup (trees : BTreeMap H256 SparseMerkleTree) (p : H256) :
    Nat → H256 → Except (Fail StateError) (Option Bytes)
  | 0, _ => .error .diverge
  | n + 1, root => match trees.get? root with
    | none => .error (.err .versionNotFound)
    | some tree =>
      if (tree.held p).isEmpty ∧ tree.root ≠ tree.parent then lookup trees p n tree.parent
      else if (tree.held p).isEmpty then .ok none
      else .ok (some (tree.held p))

variable [Crypto]

namespace TreeDB

theorem onTree_get (tree : SparseMerkleTree) (key : Bytes) (d : TreeDB) : ∃ l,
    onTree tree (SparseMerkleTree.get key) d =
      ⟨.ok (tree.held (Crypto.keccak256 key), tree), d, l⟩ := by
  rw [onTree, mapErr, runOn, SparseMerkleTree.get, SparseMerkleTree.held,
    get_bind]
  cases tree.root.isZero
  · exact ⟨_, rfl⟩
  · exact ⟨_, rfl⟩

omit [Crypto] in
theorem dbGet_run (root : H256) (d : TreeDB) :
    dbGet root d = match d.db.trees.get? root with
      | none => ⟨.error (.err .versionNotFound), d, []⟩
      | some tree => ⟨.ok tree, d, []⟩ := by
  rw [dbGet, get_bind]
  cases d.db.trees.get? root <;> rfl

theorem getDescendLoop_run (key : Bytes) (d : TreeDB) : ∀ n root, ∃ l,
    getDescendLoop key n root d = ⟨lookup d.db.trees (Crypto.keccak256 key) n root, d, l⟩
  | 0, _ => ⟨_, rfl⟩
  | n + 1, root => by
    have hget := dbGet_run root d
    rw [getDescendLoop, lookup]
    cases htree : d.db.trees.get? root with
    | none =>
      rw [htree] at hget
      exact ⟨_, bind_error hget⟩
    | some tree =>
      rw [htree] at hget
      obtain ⟨l, hl⟩ := onTree_get tree key d
      rw [bind_ok_nil hget, bind_ok hl]
      dsimp only
      by_cases hc : (tree.held (Crypto.keccak256 key)).isEmpty = true ∧ tree.root ≠ tree.parent
      · rw [if_pos hc, if_pos hc]
        obtain ⟨l', hl'⟩ := getDescendLoop_run key d n tree.parent
        rw [hl']
        exact ⟨_, rfl⟩
      · rw [if_neg hc, if_neg hc]
        split
        · exact ⟨_, rfl⟩
        · exact ⟨_, rfl⟩

/-- The value at a path, seen from a tree with the stored version `root` behind it. -/
def viewFrom (d : TreeDB) (first : SparseMerkleTree) (root p : H256) :
    Except (Fail StateError) (Option Bytes) :=
  if (first.held p).isEmpty then lookup d.db.trees p (d.db.trees.entries.length + 1) root
  else .ok (some (first.held p))

/-- The value at a path, seen through the staged version. -/
def view (d : TreeDB) (p : H256) : Except (Fail StateError) (Option Bytes) :=
  d.viewFrom d.staging d.head.root p

/-- The result of decoding what was found. -/
def decoded {V : Type} [Codec V] : Except (Fail StateError) (Option Bytes) →
    Except (Fail StateError) (Option V)
  | .error e => .error e
  | .ok none => .ok none
  | .ok (some b) => match IValue.decode b with
    | none => .error (.err .codec)
    | some .deleted => .ok none
    | some (.value v) => match Codec.decode v with
      | none => .error (.err .codec)
      | some v => .ok (some v)

variable {K V : Type} [Codec K] [Codec V]

omit [Crypto] in
theorem decoded_value {b v : Bytes} {w : V} (hb : IValue.decode b = some (.value v))
    (hv : Codec.decode v = some w) : decoded (.ok (some b)) = .ok (some w) := by
  simp only [decoded, hb, hv]

omit [Crypto] in
theorem decodeValue_run {value : Bytes} (h : value.isEmpty = false) (d : TreeDB) :
    (decodeValue value : M (Option V)) d = ⟨decoded (.ok (some value)), d, []⟩ := by
  rw [decodeValue, h, if_neg Bool.false_ne_true]
  simp only [decoded]
  rcases IValue.decode value with _ | (_ | v)
  · rfl
  · rfl
  · dsimp only
    rcases (Codec.decode v : Option V) with _ | w <;> rfl

omit [Crypto] in
theorem lookup_ne_nil {trees : BTreeMap H256 SparseMerkleTree} {p : H256} {b : Bytes} :
    ∀ {n : Nat} {root : H256}, lookup trees p n root = .ok (some b) → b.isEmpty = false
  | n + 1, root, h => by
    rw [lookup] at h
    split at h
    · cases h
    · split at h
      · exact lookup_ne_nil h
      · split at h
        · cases h
        · rename_i hne
          cases h
          exact Bool.eq_false_iff.2 hne

theorem getFrom_run (d : TreeDB) (hs : d.strategy = .partialCopy) (first : SparseMerkleTree)
    (root : H256) (head : SparseMerkleTree) (key : Bytes) : ∃ l,
    (getFrom first root head key : M (Option V)) d =
      ⟨decoded (d.viewFrom first root (Crypto.keccak256 key)), d, l⟩ := by
  obtain ⟨l, hl⟩ := onTree_get first key d
  rw [getFrom, bind_ok hl, viewFrom]
  dsimp only
  cases hempty : (first.held (Crypto.keccak256 key)).isEmpty
  · rw [if_neg Bool.false_ne_true, if_neg Bool.false_ne_true, decodeValue_run hempty]
    exact ⟨_, rfl⟩
  · obtain ⟨l', hl'⟩ := getDescendLoop_run key d (d.db.trees.entries.length + 1) root
    have hdesc : getDescend key root d = _ := hl'
    rw [if_pos rfl, if_pos rfl, get_bind, hs,
      if_pos rfl]
    cases hlook : lookup d.db.trees (Crypto.keccak256 key) (d.db.trees.entries.length + 1) root with
    | error e =>
      rw [hlook] at hdesc
      rw [bind_error hdesc]
      exact ⟨_, rfl⟩
    | ok o =>
      rw [hlook] at hdesc
      rw [bind_ok hdesc]
      cases o with
      | none => exact ⟨_, rfl⟩
      | some b =>
        dsimp only
        rw [decodeValue_run (lookup_ne_nil hlook)]
        exact ⟨_, rfl⟩

/-- **`get`**: decode what is seen through the staged version. -/
theorem get_run (d : TreeDB) (hs : d.strategy = .partialCopy) (key : K) : ∃ l,
    (get key : M (Option V)) d = ⟨decoded (d.view (Crypto.keccak256 (Codec.encode key))), d, l⟩ :=
  getFrom_run d hs d.staging d.head.root d.head (Codec.encode key)

/-- **`get_at_root`**: decode what is found from a stored version on. -/
theorem getAtRoot_run (d : TreeDB) (hs : d.strategy = .partialCopy) {root : H256}
    {tree : SparseMerkleTree} (ht : d.db.trees.get? root = some tree) (key : K) : ∃ l,
    (getAtRoot root key : M (Option V)) d =
      ⟨decoded (d.viewFrom tree tree.root (Crypto.keccak256 (Codec.encode key))), d, l⟩ := by
  have hget := dbGet_run root d
  rw [ht] at hget
  obtain ⟨l, hl⟩ := getFrom_run (V := V) d hs tree tree.root tree (Codec.encode key)
  rw [getAtRoot, bind_ok_nil hget, hl]
  exact ⟨_, rfl⟩

omit [Crypto] in
theorem viewFrom_stored (d : TreeDB) {tree : SparseMerkleTree}
    (ht : d.db.trees.get? tree.root = some tree) (p : H256) :
    d.viewFrom tree tree.root p =
      lookup d.db.trees p (d.db.trees.entries.length + 1) tree.root := by
  rw [viewFrom]
  split
  · rfl
  · rename_i hne
    rw [lookup, ht]
    simp [hne]

end TreeDB

end Uchain
