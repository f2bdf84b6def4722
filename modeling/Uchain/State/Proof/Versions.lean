import Uchain.Smt.Proof.Update
import Uchain.State.Proof.Reads

/-!
# The invariant of the trie database

`TreeDB.Inv S d rh rs`: every stored version represents a trie and holds values of it; what it does
not hold, its parent has (`Version`). The head represents `rh`, the staged version `rs`, and the two
differ only where the staged version holds a value.

* `Inv.committed`, `Inv.reset`: the invariant is kept.
-/

namespace Uchain

open Lib Exec

variable [Crypto]

/-- A well-formed trie over data that was hashed. -/
structure IsTrie (S : Set Query) (r : Trie) : Prop where
  wf : Radix.Wf bit 256 0 r
  dataIn : merkle.DataIn (hashed S) r

variable {S : Set Query}

theorem IsTrie.empty : IsTrie S .empty := ⟨trivial, Merkle.dataIn_empty⟩

variable {r : Trie} {t : SparseMerkleTree}

theorem Rep.isTrie (h : Rep S t r) : IsTrie S r :=
  ⟨h.wf, h.dataIn⟩

theorem IsTrie.hash_inj (hg : KeccakGood S) {r' : Trie} (h : IsTrie S r) (h' : IsTrie S r')
    (he : r.hash = r'.hash) : r = r' := hg.merkle.hash_inj h.dataIn h'.dataIn he

theorem IsTrie.get_insert (h : IsTrie S r) (k v j : H256) :
    (r.insert k v).get j = if j = k then some v else r.get j := h.wf.get_insert sep_bit j

omit [Crypto] in
theorem Trie.ext_get {r' : Trie} (h : Radix.Wf bit 256 0 r) (h' : Radix.Wf bit 256 0 r')
    (he : r.get = r'.get) : r = r' := by
  refine h.ext h' fun q => ?_
  rw [← h.get_eq_some_iff (k := q.1) (v := q.2), ← h'.get_eq_some_iff]
  exact Eq.congr_left (congrFun he q.1)

/-- A version: a tree with the values written since its parent. -/
structure Version (S : Set Query) (t : SparseMerkleTree) (r : Trie) : Prop where
  rep : Rep S t r
  values : ∀ p b, t.values.get? p = some b →
    b ≠ [] ∧ .keccak256 b ∈ S ∧ r.get p = some (Crypto.keccak256 b)
  inherits : ∃ rp, IsTrie S rp ∧ rp.hash = t.parent ∧
    ∀ p, t.values.get? p = none → r.get p = rp.get p

theorem Version.held (hg : KeccakGood S) (h : Version S t r) (p : H256) :
    t.held p = (t.values.get? p).getD [] := by
  rw [SparseMerkleTree.held]
  cases hz : t.root.isZero
  · rw [if_neg Bool.false_ne_true]
  · rw [if_pos rfl]
    cases hv : t.values.get? p with
    | none => rfl
    | some b =>
      -- a tree with the zero root holds no value
      have hempty := (h.rep.root_eq_zero_iff hg).1 (FixedBytes.isZero_iff.1 hz)
      have := (h.values p b hv).2.2
      rw [hempty] at this
      cases this

theorem Version.held_isEmpty (hg : KeccakGood S) (h : Version S t r) (p : H256) :
    (t.held p).isEmpty = (t.values.get? p).isNone := by
  rw [h.held hg]
  cases hv : t.values.get? p with
  | none => rfl
  | some b => simpa using (h.values p b hv).1

/-- A copy to work on: no values yet, and the version itself as the parent. -/
theorem Rep.version_subtree (h : Rep S t r) :
    Version S (t.subtree .partialCopy) r where
  rep := h.subtree
  values p b hb := by cases hb
  inherits := ⟨r, h.isTrie, h.root.symm, fun _ _ => rfl⟩

theorem Version.update {t' : SparseMerkleTree} {key value : Bytes} (h : Version S t r)
    (hu : Updated S t t' r key value) (hne : value ≠ []) :
    Version S t' (r.insert (Crypto.keccak256 key) (Crypto.keccak256 value)) where
  rep := hu.rep
  values p b hb := by
    rw [hu.values] at hb
    rw [h.rep.isTrie.get_insert]
    split at hb
    · rename_i hc
      cases hb
      exact ⟨hne, hu.value_mem, if_pos hc.2⟩
    · rename_i hc
      obtain ⟨h1, h2, h3⟩ := h.values p b hb
      refine ⟨h1, h2, ?_⟩
      split
      · -- the key was there with this value
        rename_i hp
        subst hp
        have hsame : r.get (Crypto.keccak256 key) = some (Crypto.keccak256 value) := by
          by_contra hn
          exact hc ⟨hn, rfl⟩
        rw [← hsame, h3]
      · exact h3
  inherits := by
    obtain ⟨rp, hrp, hhash, hin⟩ := h.inherits
    refine ⟨rp, hrp, hhash.trans hu.parent.symm, fun p hp => ?_⟩
    rw [hu.values] at hp
    rw [h.rep.isTrie.get_insert]
    split at hp
    · cases hp
    · rename_i hc
      split
      · rename_i he
        subst he
        have hsame : r.get (Crypto.keccak256 key) = some (Crypto.keccak256 value) := by
          by_contra hn
          exact hc ⟨hn, rfl⟩
        rw [← hsame, hin _ hp]
      · exact hin p hp

/-- Every stored version is stored under its root. -/
def Stored (S : Set Query) (trees : BTreeMap H256 SparseMerkleTree) : Prop :=
  ∀ h t, trees.get? h = some t → t.root = h ∧ ∃ r, Version S t r

theorem Stored.insert {trees : BTreeMap H256 SparseMerkleTree} (h : Stored S trees)
    (ht : Version S t r) : Stored S (trees.insert t.root t) := by
  intro i t' hi
  rw [BTreeMap.get?_insert] at hi
  split at hi
  · rename_i he
    cases hi
    exact ⟨he.symm, r, ht⟩
  · exact h i t' hi

/-- **A value found by following parents is the one the trie commits to.** -/
theorem lookup_sound (hg : KeccakGood S) {trees : BTreeMap H256 SparseMerkleTree}
    (hst : Stored S trees) {p : H256} {b : Bytes} : ∀ {n : Nat} {root : H256} {r : Trie},
    IsTrie S r → r.hash = root → lookup trees p n root = .ok (some b) →
    b ≠ [] ∧ .keccak256 b ∈ S ∧ r.get p = some (Crypto.keccak256 b)
  | n + 1, root, r, hr, hroot, h => by
    rw [lookup] at h
    split at h
    · cases h
    · rename_i tree htree
      obtain ⟨hkey, r', hv⟩ := hst root tree htree
      obtain rfl : r' = r := hv.rep.isTrie.hash_inj hg hr (by rw [hroot, ← hkey, hv.rep.root])
      rw [hv.held_isEmpty hg] at h
      cases hval : tree.values.get? p with
      | none =>
        rw [hval] at h
        split at h
        · obtain ⟨rp, hrp, hhash, hin⟩ := hv.inherits
          rw [hin p hval]
          exact lookup_sound hg hst hrp hhash h
        · cases h
      | some c =>
        rw [hval, hv.held hg, hval] at h
        simp only [Option.isNone_some, Bool.false_eq_true, false_and, if_false, Except.ok.injEq,
          Option.some.injEq, Option.getD_some] at h
        subst h
        exact hv.values p c hval

/-! ## The database -/

/-- The invariant of the database, with the tries of the head and of the staged version. -/
structure TreeDB.Inv (S : Set Query) (d : TreeDB) (rh rs : Trie) : Prop where
  strategy : d.strategy = .partialCopy
  stored : Stored S d.db.trees
  head : Rep S d.head rh
  staging : Version S d.staging rs
  /-- What the staged version does not hold is as in the head. -/
  fresh : ∀ p, d.staging.values.get? p = none → rs.get p = rh.get p

namespace TreeDB

variable {d d' : TreeDB} {rh rs : Trie}

theorem inv_open (S : Set Query) {db : TrieCacheDatabase} (h : Stored S db.trees) :
    Inv S (openDb db) .empty .empty :=
  ⟨rfl, h, Rep.new S, (Rep.new S).version_subtree, fun _ _ => rfl⟩

theorem Inv.view_eq (hg : KeccakGood S) (h : Inv S d rh rs) (p : H256) :
    d.view p = match d.staging.values.get? p with
      | some b => .ok (some b)
      | none => lookup d.db.trees p (d.db.trees.entries.length + 1) d.head.root := by
  rw [view, viewFrom, h.staging.held_isEmpty hg, h.staging.held hg]
  cases d.staging.values.get? p <;> rfl

/-- **A value that is seen is the one that the staged trie commits to.** -/
theorem Inv.view_sound (hg : KeccakGood S) (h : Inv S d rh rs) {p : H256} {b : Bytes}
    (hb : d.view p = .ok (some b)) :
    b ≠ [] ∧ .keccak256 b ∈ S ∧ rs.get p = some (Crypto.keccak256 b) := by
  rw [h.view_eq hg] at hb
  cases hv : d.staging.values.get? p with
  | some c =>
    rw [hv] at hb
    cases hb
    exact h.staging.values p b hv
  | none =>
    rw [hv] at hb
    rw [h.fresh p hv]
    exact lookup_sound hg h.stored h.head.isTrie h.head.root.symm hb

/-- What writing `value` under `key` did to the database, whose staged trie was `rs`. -/
structure Wrote (S : Set Query) (d d' : TreeDB) (rs : Trie) (key value : Bytes) : Prop where
  key_mem : .keccak256 key ∈ S
  value_mem : .keccak256 value ∈ S
  db : d'.db = d.db
  head : d'.head = d.head
  parent : d'.staging.parent = d.staging.parent
  view : ∀ p, d'.view p =
    if rs.get (Crypto.keccak256 key) ≠ some (Crypto.keccak256 value) ∧ p = Crypto.keccak256 key then
      .ok (some value)
    else d.view p

theorem Inv.update (hg : KeccakGood S) (h : Inv S d rh rs) {key value : Bytes} (hne : value ≠ [])
    {t' : SparseMerkleTree} (hu : Updated S d.staging t' rs key value) :
    Inv S { d with staging := t' } rh
      (rs.insert (Crypto.keccak256 key) (Crypto.keccak256 value)) ∧
    Wrote S d { d with staging := t' } rs key value := by
  have hinv : Inv S { d with staging := t' } rh
      (rs.insert (Crypto.keccak256 key) (Crypto.keccak256 value)) := by
    refine ⟨h.strategy, h.stored, h.head, h.staging.update hu hne, fun p hp => ?_⟩
    replace hp : t'.values.get? p = none := hp
    rw [hu.values] at hp
    rw [h.staging.rep.isTrie.get_insert]
    split at hp
    · cases hp
    · rename_i hc
      split
      · rename_i he
        subst he
        have hsame : rs.get (Crypto.keccak256 key) = some (Crypto.keccak256 value) := by
          by_contra hn
          exact hc ⟨hn, rfl⟩
        rw [← hsame, h.fresh _ hp]
      · exact h.fresh p hp
  refine ⟨hinv, hu.key_mem, hu.value_mem, rfl, rfl, hu.parent, fun p => ?_⟩
  rw [hinv.view_eq hg, h.view_eq hg]
  show (match t'.values.get? p with | some b => _ | none => _) = _
  rw [hu.values]
  by_cases hif : rs.get (Crypto.keccak256 key) ≠ some (Crypto.keccak256 value) ∧
      p = Crypto.keccak256 key
  · rw [if_pos hif, if_pos hif]
  · rw [if_neg hif, if_neg hif]

theorem wp_onStaging_update (hg : KeccakGood S) (h : Inv S d rh rs) (key : Bytes) {value : Bytes}
    (hne : value ≠ []) :
    wp S (onStaging (SparseMerkleTree.update key value)) d fun res d' =>
      ∃ a, res = .ok a ∧
        Inv S d' rh (rs.insert (Crypto.keccak256 key) (Crypto.keccak256 value)) ∧
        Wrote S d d' rs key value := by
  refine wp_mapErr_ok (wp_zoom ?_)
  refine wp_mono (wp_update hg h.staging.rep key hne) ?_
  rintro res t' ⟨a, rfl, -, hu⟩
  exact ⟨a, rfl, h.update hg hne hu⟩

section Codecs

variable {K V : Type} [Codec K] [Codec V]

/-- The hash of an encoded key: its place in the trie. -/
def place (key : K) : H256 := Crypto.keccak256 (Codec.encode key)

def valueHash (value : V) : H256 := Crypto.keccak256 (IValue.value (Codec.encode value)).encode

/-- **`put`** writes to the staged trie. -/
theorem wp_put (hg : KeccakGood S) (h : Inv S d rh rs) (key : K) (value : V) :
    wp S (put key value) d fun res d' => ∃ a, res = .ok a ∧
      Inv S d' rh (rs.insert (place key) (valueHash value)) ∧
      Wrote S d d' rs (Codec.encode key) (IValue.value (Codec.encode value)).encode := by
  refine wp_bind_ok (wp_onStaging_update hg h _ (IValue.encode_ne_nil _)) ?_
  rintro a d' ⟨hinv, hw⟩
  exact wp_pure ⟨(), rfl, hinv, hw⟩

end Codecs

/-- The effect of `commit`: the staged version becomes the head, stored if `persist` and the store is
writable. Nothing happens if the roots are equal. -/
def committed (persist : Bool) (d : TreeDB) : TreeDB :=
  if d.head.root = d.staging.root then d
  else
    { d with
      db := if persist ∧ d.db.readOnly = false then
          { d.db with trees := d.db.trees.insert d.staging.root d.staging }
        else d.db
      head := d.staging
      staging := d.staging.subtree d.strategy }

omit [Crypto] in
theorem commit_run (persist : Bool) (d : TreeDB) :
    commit persist d = ⟨.ok d.staging.root, committed persist d, []⟩ := by
  unfold commit committed
  rw [get_bind]
  by_cases heq : d.head.root = d.staging.root
  · rw [if_pos heq, if_pos heq, heq]
    rfl
  · rw [if_neg heq, if_neg heq]
    obtain ⟨⟨trees, readOnly⟩, head, staging, strategy⟩ := d
    cases persist
    · rfl
    · cases readOnly
      · rfl
      · rfl

theorem Inv.committed (hg : KeccakGood S) (h : Inv S d rh rs) (persist : Bool) :
    Inv S (d.committed persist) rs rs := by
  unfold TreeDB.committed
  by_cases heq : d.head.root = d.staging.root
  · rw [if_pos heq]
    have : rh = rs := h.head.root_inj hg h.staging.rep heq
    subst this
    exact h
  · rw [if_neg heq, h.strategy]
    refine ⟨rfl, ?_, h.staging.rep, h.staging.rep.version_subtree, fun _ _ => rfl⟩
    dsimp only
    split
    · exact h.stored.insert h.staging
    · exact h.stored

omit [Crypto] in
theorem committed_root (persist : Bool) (d : TreeDB) :
    (d.committed persist).root = d.staging.root := by
  unfold TreeDB.committed root
  split
  · assumption
  · rfl

omit [Crypto] in
/-- A commit that moves the head leaves no write pending. -/
theorem committed_clean {persist : Bool} {d : TreeDB} (hne : d.head.root ≠ d.staging.root) :
    (d.committed persist).staging = (d.committed persist).head.subtree d.strategy := by
  unfold TreeDB.committed
  rw [if_neg hne]

omit [Crypto] in
theorem committed_readOnly (persist : Bool) (d : TreeDB) :
    (d.committed persist).db.readOnly = d.db.readOnly := by
  unfold TreeDB.committed
  split
  · rfl
  · dsimp only
    split <;> rfl

omit [Crypto] in
theorem reset_run (root : H256) (d : TreeDB) :
    reset root d = match d.db.trees.get? root with
      | none => ⟨.error (.err .versionNotFound), d, []⟩
      | some tree => ⟨.ok (), { d with head := tree, staging := tree.subtree d.strategy }, []⟩ := by
  have hget := dbGet_run root d
  unfold reset
  cases ht : d.db.trees.get? root with
  | none =>
    rw [ht] at hget
    exact bind_error hget
  | some tree =>
    rw [ht] at hget
    exact bind_ok_nil hget

theorem Inv.reset (h : Inv S d rh rs) {root : H256} {tree : SparseMerkleTree}
    (ht : d.db.trees.get? root = some tree) : tree.root = root ∧ ∃ r,
    Inv S { d with head := tree, staging := tree.subtree d.strategy } r r := by
  obtain ⟨hroot, r, hv⟩ := h.stored root tree ht
  rw [h.strategy]
  exact ⟨hroot, r, rfl, h.stored, hv.rep, hv.rep.version_subtree, fun _ _ => rfl⟩

theorem Inv.store (h : Inv S d rh rs) {tree : SparseMerkleTree} {r : Trie} (hv : Version S tree r) :
    Inv S { d with db := { d.db with trees := d.db.trees.insert tree.root tree } } rh rs :=
  ⟨h.strategy, h.stored.insert hv, h.head, h.staging, h.fresh⟩

theorem inv_openReadOnly {db : TrieCacheDatabase} (h : Stored S db.trees) {root : H256}
    (hd : openReadOnlyAtRoot db root = .ok d) :
    ∃ r, Inv S d r r ∧ d.root = root ∧ d.db.trees = db.trees ∧ d.staging = d.head ∧
      db.trees.get? root = some d.head := by
  rw [openReadOnlyAtRoot] at hd
  split at hd
  · cases hd
  · rename_i tree ht
    cases hd
    obtain ⟨hroot, r, hv⟩ := h root tree ht
    exact ⟨r, ⟨rfl, h, hv.rep, hv, fun _ _ => rfl⟩, hroot, rfl, rfl, ht⟩

end TreeDB

end Uchain
