import Uchain.State.Proof.Immutable
import Uchain.State.Proof.Rooted

/-!
# The database is a versioned map

`VersionedMap`: what the database is for, without trees. It has a current map, the map of the head,
and the map of each version. `Tracks S d m` relates a database to it, for runs of `put`, `delete`,
`commit`, `rollback` and `reset` in which no commit stores a tree under a root that is stored.
-/

namespace Uchain

open Lib Function

/-- The maps behind a database. -/
structure VersionedMap (K V : Type) where
  /-- The map of each stored version. -/
  versions : H256 → Option (K → Option V)
  head : K → Option V
  current : K → Option V

namespace VersionedMap

variable {K V : Type}

def new : VersionedMap K V := ⟨fun _ => none, fun _ => none, fun _ => none⟩

/-- Write or delete a key. -/
def write [DecidableEq K] (m : VersionedMap K V) (key : K) (value : Option V) : VersionedMap K V :=
  { m with current := update m.current key value }

/-- Commit under a root. The empty database has the zero root, which is no version. -/
def commit (m : VersionedMap K V) (root : H256) : VersionedMap K V :=
  { versions := if root = .zero then m.versions else update m.versions root m.current
    head := m.current
    current := m.current }

theorem versions_commit_zero (m : VersionedMap K V) : (m.commit .zero).versions = m.versions := by
  rw [commit, if_pos rfl]

theorem versions_commit (m : VersionedMap K V) {root : H256} (hz : root ≠ .zero) (r : H256) :
    (m.commit root).versions r = if r = root then some m.current else m.versions r := by
  rw [commit, if_neg hz]
  exact update_apply ..

def rollback (m : VersionedMap K V) : VersionedMap K V := { m with current := m.head }

/-- Go back to a version; nothing changes if there is none. -/
def reset (m : VersionedMap K V) (root : H256) : VersionedMap K V :=
  match m.versions root with
  | none => m
  | some version => { m with head := version, current := version }

end VersionedMap

namespace TreeDB

section Crypto

variable [Crypto] {K V : Type} [Codec K] [Codec V] {S : Set Query}

def Call.plain : Call K V → Bool
  | .put .. | .delete _ | .commit true | .rollback | .reset _ => true
  | _ => false

/-- The step of the versioned map for a call on `d`; a commit returns the staged root. -/
def Call.track [DecidableEq K] (d : TreeDB) : Call K V → VersionedMap K V → VersionedMap K V
  | .put key value, m => m.write key (some value)
  | .delete key, m => m.write key none
  | .commit _, m => m.commit d.staging.root
  | .rollback, m => m.rollback
  | .reset root, m => m.reset root
  | _, m => m

def tracked [DecidableEq K] (order : HashOrder) :
    List (Call K V) → TreeDB → VersionedMap K V → VersionedMap K V
  | [], _, m => m
  | c :: calls, d, m => tracked order calls (c.run order d).state (c.track d m)

def queries (order : HashOrder) : List (Call K V) → TreeDB → List Query
  | [], _ => []
  | c :: calls, d => (c.run order d).log ++ queries order calls (c.run order d).state

/-- No call stores a tree under a root that is stored already. -/
def NewRoots (order : HashOrder) : List (Call K V) → TreeDB → Prop
  | [], _ => True
  | c :: calls, d => (∀ t ∈ c.stored order d, d.db.trees.get? t.root = none) ∧
      NewRoots order calls (c.run order d).state

instance decidableNewRoots (order : HashOrder) : ∀ (calls : List (Call K V)) (d : TreeDB),
    Decidable (NewRoots order calls d)
  | [], _ => isTrue trivial
  | c :: calls, d =>
    have := decidableNewRoots order calls (c.run order d).state
    inferInstanceAs (Decidable (_ ∧ _))

/-! ## Tries and maps -/

/-- What is written for a value, or for a deletion. -/
def itemBytes : Option V → Bytes
  | none => IValue.deleted.encode
  | some value => (IValue.value (Codec.encode value)).encode

omit [Crypto] in
theorem itemBytes_ne_nil (x : Option V) : itemBytes x ≠ [] := by
  cases x with
  | none => exact IValue.encode_ne_nil .deleted
  | some value => exact IValue.encode_ne_nil (.value (Codec.encode value))

omit [Crypto] in
theorem decoded_itemBytes (x : Option V) : decoded (.ok (some (itemBytes x))) = .ok x := by
  cases x with
  | none =>
    have hdecode : IValue.decode IValue.deleted.encode = some .deleted := by decide
    simp only [itemBytes, decoded, hdecode]
  | some value =>
    exact decoded_value (IValue.decode_encode_value (Codec.length_encode value))
      (Codec.decode_encode value)

/-- The trie has the writes `w`: nothing, a deletion or a value for each key. -/
structure Holds (S : Set Query) (r : Trie) (w : K → Option (Option V)) : Prop where
  get : ∀ k, .keccak256 (Codec.encode k) ∈ S →
    r.get (place k) = (w k).map fun x => Crypto.keccak256 (itemBytes x)
  mem : ∀ k x, w k = some x → .keccak256 (itemBytes x) ∈ S

/-- The trie holds the map `m`. -/
def Means (S : Set Query) (r : Trie) (m : K → Option V) : Prop :=
  ∃ w : K → Option (Option V), Holds S r w ∧ ∀ k, m k = (w k).join

theorem Means.empty : Means S .empty (fun _ : K => (none : Option V)) :=
  ⟨fun _ => none, ⟨fun _ _ => rfl, nofun⟩, fun _ => rfl⟩

variable {key : K} {r : Trie}

theorem Means.write [DecidableEq K] (hg : KeccakGood S) (hr : IsTrie S r) {m : K → Option V}
    (h : Means S r m) {x : Option V} (hkey : .keccak256 (Codec.encode key) ∈ S)
    (hx : .keccak256 (itemBytes x) ∈ S) :
    Means S (r.insert (place key) (Crypto.keccak256 (itemBytes x))) (update m key x) := by
  obtain ⟨w, hw, hm⟩ := h
  refine ⟨update w key (some x), ⟨fun k hk => ?_, fun k y hy => ?_⟩, fun k => ?_⟩
  · rw [hr.get_insert]
    by_cases he : k = key
    · rw [he, if_pos rfl, update_self]
      rfl
    · have hplace : place k ≠ place key := fun hp =>
        he (Codec.encode_injective (hg.inj _ _ hk hkey hp))
      rw [if_neg hplace, update_of_ne he, hw.get k hk]
  · by_cases he : k = key
    · rw [he, update_self] at hy
      cases hy
      exact hx
    · rw [update_of_ne he] at hy
      exact hw.mem k y hy
  · by_cases he : k = key
    · rw [he, update_self, update_self]
      rfl
    · rw [update_of_ne he, update_of_ne he, hm]

/-- A read that finds what the trie has returns the value of the map. -/
theorem Means.decoded_iff (hg : KeccakGood S) {m : K → Option V} (h : Means S r m)
    (hkey : .keccak256 (Codec.encode key) ∈ S) {res : Except (Fail StateError) (Option Bytes)}
    (hsound : ∀ b, res = .ok (some b) → .keccak256 b ∈ S ∧ r.get (place key) = some (Crypto.keccak256 b))
    (hcomplete : (∀ b, res ≠ .ok (some b)) → r.get (place key) = none) (value : V) :
    decoded res = .ok (some value) ↔ m key = some value := by
  obtain ⟨w, hw, hm⟩ := h
  have hget := hw.get key hkey
  rw [hm]
  cases hwk : w key with
  | none =>
    rw [hwk] at hget
    refine ⟨fun hd => ?_, nofun⟩
    rcases res with e | _ | b
    · cases hd
    · cases hd
    · rw [(hsound b rfl).2] at hget
      cases hget
  | some x =>
    rw [hwk] at hget
    have hfound : ∃ b, res = .ok (some b) := by
      by_contra hne
      rw [hcomplete fun b hb => hne ⟨b, hb⟩] at hget
      cases hget
    obtain ⟨b, rfl⟩ := hfound
    obtain ⟨hb, hr⟩ := hsound b rfl
    rw [hr] at hget
    rw [hg.inj _ _ hb (hw.mem key x hwk) (Option.some.inj hget), decoded_itemBytes]
    exact ⟨fun he => Except.ok.inj he, fun he => congrArg Except.ok he⟩

/-! ## Databases and versioned maps -/

/-- The database is in step with the versioned map. -/
structure Tracks (S : Set Query) (d : TreeDB) (m : VersionedMap K V) : Prop where
  inv : ∃ rh rs, Inv S d rh rs ∧ Means S rh m.head ∧ Means S rs m.current
  rooted : Rooted d
  grounded : Grounded d.db.trees
  readOnly : d.db.readOnly = false
  absent : ∀ root, d.db.trees.get? root = none → m.versions root = none
  stored : ∀ root tree, d.db.trees.get? root = some tree →
    ∃ version r, m.versions root = some version ∧ Rep S tree r ∧ Means S r version

theorem tracks_opened (S : Set Query) : Tracks S opened (VersionedMap.new : VersionedMap K V) where
  inv := ⟨.empty, .empty, inv_open S nofun, .empty, .empty⟩
  rooted := ⟨.inl rfl, rfl, nofun⟩
  grounded := grounded_empty
  readOnly := rfl
  absent _ _ := rfl
  stored _ _ h := nomatch h

variable {d : TreeDB} {m : VersionedMap K V}

theorem Tracks.write [DecidableEq K] (hg : KeccakGood S) (h : Tracks S d m) (key : K) (x : Option V) :
    Exec.wp S (onStaging (SparseMerkleTree.update (Codec.encode key) (itemBytes x)) >>=
      fun _ => (pure () : M Unit)) d fun _ d' => Tracks S d' (m.write key x) := by
  obtain ⟨rh, rs, hinv, hhead, hcurrent⟩ := h.inv
  refine Exec.wp_bind_ok (wp_onStaging_update hg hinv _ (itemBytes_ne_nil x)) ?_
  intro _ d' hstep
  obtain ⟨hinv', hw⟩ := hstep
  apply Exec.wp_pure
  refine ⟨⟨rh, _, hinv', hhead, ?_⟩, ⟨?_, ?_, ?_⟩, ?_, ?_, ?_, ?_⟩
  · exact hcurrent.write hg hinv.staging.rep.isTrie hw.key_mem hw.value_mem
  · rw [hw.db, hw.head]
    exact h.rooted.head
  · rw [hw.parent, hw.head]
    exact h.rooted.parent
  · rw [hw.db]
    exact h.rooted.stored
  · rw [hw.db]
    exact h.grounded
  · rw [hw.db]
    exact h.readOnly
  · rw [hw.db]
    exact h.absent
  · rw [hw.db]
    exact h.stored

/-- A staged version with the zero root has nothing that the head has not. -/
theorem Inv.head_root_eq_zero (hg : KeccakGood S) {rh rs : Trie} (h : Inv S d rh rs)
    (hz : d.staging.root = .zero) : d.head.root = .zero := by
  have hrs : rs = .empty := (h.staging.rep.root_eq_zero_iff hg).1 hz
  refine (h.head.root_eq_zero_iff hg).2 (Trie.ext_get h.head.wf trivial (funext fun p => ?_))
  have hnone : d.staging.values.get? p = none := by
    cases hv : d.staging.values.get? p with
    | none => rfl
    | some b =>
      have := (h.staging.values p b hv).2.2
      rw [hrs] at this
      cases this
  rw [← h.fresh p hnone, hrs]

/-- A commit of what the head has changes nothing: the version is stored already, or empty. -/
theorem Tracks.committed_same (hg : KeccakGood S) (h : Tracks S d m)
    (heq : d.head.root = d.staging.root) : Tracks S d (m.commit d.staging.root) := by
  obtain ⟨rh, rs, hinv, -, hcurrent⟩ := h.inv
  obtain rfl : rh = rs := hinv.head.root_inj hg hinv.staging.rep heq
  refine ⟨⟨rh, rh, hinv, hcurrent, hcurrent⟩, h.rooted, h.grounded, h.readOnly, ?_, ?_⟩
  · intro root hroot
    by_cases hz : d.staging.root = .zero
    · rw [hz, VersionedMap.versions_commit_zero]
      exact h.absent root hroot
    · have hne : root ≠ d.staging.root := by
        intro he
        rcases h.rooted.head with hz' | ⟨t, ht⟩
        · exact hz (heq.symm.trans hz')
        · rw [heq, ← he, hroot] at ht
          cases ht
      rw [VersionedMap.versions_commit m hz, if_neg hne]
      exact h.absent root hroot
  · intro root tree htree
    obtain ⟨version, r, hversion, hrep, hmeans⟩ := h.stored root tree htree
    by_cases hz : d.staging.root = .zero
    · rw [hz, VersionedMap.versions_commit_zero]
      exact ⟨version, r, hversion, hrep, hmeans⟩
    · rw [VersionedMap.versions_commit m hz]
      by_cases hr : root = d.staging.root
      · have hroot := h.grounded.root root tree htree
        obtain rfl : r = rh := hrep.root_inj hg hinv.head (by rw [hroot, hr, heq])
        rw [if_pos hr]
        exact ⟨_, r, rfl, hrep, hcurrent⟩
      · rw [if_neg hr]
        exact ⟨version, r, hversion, hrep, hmeans⟩

omit [Crypto] in
/-- No stored tree has a root as its parent that is neither stored nor zero. -/
theorem Rooted.fresh (h : Rooted d) {tree : SparseMerkleTree} (hz : tree.root ≠ .zero)
    (hnone : d.db.trees.get? tree.root = none) : Fresh d.db.trees tree := by
  refine .inr ⟨hnone, fun ⟨i, u⟩ hi hp => ?_⟩
  rcases (h.stored i u (BTreeMap.mem_entries_iff.1 hi)).1 with h0 | ⟨t, ht⟩
  · exact hz (hp.symm.trans h0)
  · rw [hp, hnone] at ht
    cases ht

/-- The staged version becomes the head and is stored under a new root. -/
theorem Tracks.committed (hg : KeccakGood S) (h : Tracks S d m)
    (hnew : ∀ t ∈ d.commits true, d.db.trees.get? t.root = none) :
    Tracks S (d.committed true) (m.commit d.staging.root) := by
  obtain ⟨rh, rs, hinv, hhead, hcurrent⟩ := h.inv
  by_cases heq : d.head.root = d.staging.root
  · rw [show d.committed true = d from if_pos heq]
    exact h.committed_same hg heq
  have hz : d.staging.root ≠ .zero := fun hz => heq ((hinv.head_root_eq_zero hg hz).trans hz.symm)
  have hcommits : d.commits true = [d.staging] := if_pos ⟨rfl, h.readOnly, heq⟩
  have hnone : d.db.trees.get? d.staging.root = none :=
    hnew _ (by rw [hcommits]; exact List.mem_singleton.2 rfl)
  have htrees : (d.committed true).db.trees = d.db.trees.insert d.staging.root d.staging := by
    rw [(stores_committed true d).db, hcommits]
    rfl
  refine ⟨⟨rs, rs, hinv.committed hg true, hcurrent, hcurrent⟩,
    h.rooted.committed h.readOnly hinv.strategy, ?_, ?_, fun root hroot => ?_,
    fun root tree htree => ?_⟩
  · rw [htrees]
    exact ((h.rooted.fresh hz hnone).insert h.grounded).1
  · rw [committed_readOnly]
    exact h.readOnly
  · rw [htrees, BTreeMap.get?_insert] at hroot
    rw [VersionedMap.versions_commit m hz]
    split at hroot
    · cases hroot
    · rename_i hne
      rw [if_neg hne]
      exact h.absent root hroot
  · rw [htrees, BTreeMap.get?_insert] at htree
    rw [VersionedMap.versions_commit m hz]
    split at htree
    · rename_i he
      cases htree
      rw [if_pos he]
      exact ⟨_, rs, rfl, hinv.staging.rep, hcurrent⟩
    · rename_i hne
      rw [if_neg hne]
      exact h.stored root tree htree

/-- Head and staged version are put in place of a tree that is the head or stored. -/
theorem Tracks.restart (h : Tracks S d m) {tree : SparseMerkleTree}
    (htree : HasVersion d.db.trees tree.root) (hrep : Rep S tree r) {version : K → Option V}
    (hmeans : Means S r version) :
    Tracks S { d with head := tree, staging := tree.subtree d.strategy }
      { m with head := version, current := version } := by
  obtain ⟨rh, rs, hinv, -⟩ := h.inv
  rw [hinv.strategy]
  refine ⟨⟨r, r, ⟨rfl, hinv.stored, hrep, hrep.version_subtree, fun _ _ => rfl⟩, hmeans, hmeans⟩,
    ⟨htree, rfl, h.rooted.stored⟩, h.grounded, h.readOnly, h.absent, h.stored⟩

/-- **One call.** -/
theorem Tracks.call [DecidableEq K] (hg : KeccakGood S) (order : HashOrder) (h : Tracks S d m)
    (c : Call K V) (hc : c.plain = true) (hlog : ∀ q ∈ (c.run order d).log, q ∈ S)
    (hnew : ∀ t ∈ c.stored order d, d.db.trees.get? t.root = none) :
    Tracks S (c.run order d).state (c.track d m) := by
  cases c with
  | put key value => exact h.write hg key (some value) hlog
  | delete key => exact h.write hg key none hlog
  | commit persist =>
    cases persist with
    | false => cases hc
    | true =>
      have hstate : (Call.run order (.commit true : Call K V) d).state =
          (TreeDB.commit true d).state := Exec.state_bind_pure _ (fun _ => ()) _
      rw [hstate, commit_run]
      exact h.committed hg hnew
  | apply batch persist => cases hc
  | applyNonCommit atRoot batch => cases hc
  | rollback =>
    obtain ⟨rh, rs, hinv, hhead, -⟩ := h.inv
    exact h.restart h.rooted.head hinv.head hhead
  | reset root =>
    show Tracks S (TreeDB.reset root d).state (m.reset root)
    rw [reset_run, VersionedMap.reset]
    cases htree : d.db.trees.get? root with
    | none =>
      rw [h.absent root htree]
      exact h
    | some tree =>
      obtain ⟨version, r, hversion, hrep, hmeans⟩ := h.stored root tree htree
      rw [hversion]
      have hroot := h.grounded.root root tree htree
      exact h.restart (.inr ⟨tree, by rw [hroot]; exact htree⟩) hrep hmeans

/-- **Every run** keeps the database in step with the versioned map. -/
theorem tracks_run [DecidableEq K] (hg : KeccakGood S) (order : HashOrder)
    (calls : List (Call K V)) : ∀ {d m}, Tracks S d m → (∀ c ∈ calls, c.plain = true) →
      (∀ q ∈ queries order calls d, q ∈ S) → NewRoots order calls d →
      Tracks S (d.after order calls) (tracked order calls d m) := by
  induction calls with
  | nil => exact fun h _ _ _ => h
  | cons c calls ih =>
    intro d m h hplain hlog hnew
    obtain ⟨hc, hplain⟩ := List.forall_mem_cons.1 hplain
    have hstep := h.call hg order c hc
      (fun q hq => hlog q (List.mem_append_left _ hq)) hnew.1
    exact ih hstep hplain (fun q hq => hlog q (List.mem_append_right _ hq)) hnew.2

/-! ## Reads -/

omit [Crypto] in
theorem lookup_ne_diverge {trees : BTreeMap H256 SparseMerkleTree} (h : Grounded trees) (p root : H256) :
    lookup trees p (trees.entries.length + 1) root ≠ .error .diverge := fun hdiv =>
  (lookup_diverges_iff trees p root).1 hdiv (h.ends p root)

theorem Tracks.get_iff (hg : KeccakGood S) (h : Tracks S d m)
    (hkey : .keccak256 (Codec.encode key) ∈ S) (value : V) :
    (get key d : Run _ _ _ (Option V)).res = .ok (some value) ↔ m.current key = some value := by
  obtain ⟨rh, rs, hinv, -, hcurrent⟩ := h.inv
  obtain ⟨l, hrun⟩ := get_run (V := V) d hinv.strategy key
  rw [hrun]
  have hdiv : d.view (place key) ≠ .error .diverge := by
    rw [hinv.view_eq hg]
    cases d.staging.values.get? (place key) with
    | some b => nofun
    | none => exact lookup_ne_diverge h.grounded _ _
  refine hcurrent.decoded_iff hg hkey (fun b hb => ?_) (fun hnone => ?_) value
  · exact (hinv.view_sound hg hb).2
  · exact hinv.view_complete hg h.rooted hdiv hnone

theorem Tracks.getAtRoot_iff (hg : KeccakGood S) (h : Tracks S d m)
    (hkey : .keccak256 (Codec.encode key) ∈ S) (root : H256) (value : V) :
    (getAtRoot root key d : Run _ _ _ (Option V)).res = .ok (some value) ↔
      ∃ version, m.versions root = some version ∧ version key = some value := by
  obtain ⟨rh, rs, hinv, -⟩ := h.inv
  cases htree : d.db.trees.get? root with
  | none =>
    have hget := dbGet_run root d
    rw [htree] at hget
    rw [getAtRoot, Exec.bind_error hget, h.absent root htree]
    constructor
    · intro hres
      cases hres
    · intro hversion
      obtain ⟨version, hv, -⟩ := hversion
      cases hv
  | some tree =>
    obtain ⟨version, r, hversion, hrep, hmeans⟩ := h.stored root tree htree
    have hroot := h.grounded.root root tree htree
    obtain ⟨l, hrun⟩ := getAtRoot_run (V := V) d hinv.strategy htree key
    have htree' : d.db.trees.get? tree.root = some tree := by rw [hroot, htree]
    rw [hrun, viewFrom_stored d htree', hversion]
    have hdecoded : decoded (lookup d.db.trees (place key) (d.db.trees.entries.length + 1)
        tree.root) = .ok (some value) ↔ version key = some value := by
      apply hmeans.decoded_iff hg hkey
      · intro b hb
        exact (lookup_sound hg hinv.stored hrep.isTrie hrep.root.symm hb).2
      · intro hnone
        exact lookup_complete hg hinv.stored h.rooted.stored hrep.isTrie hrep.root.symm
          (.inr ⟨tree, htree'⟩) (lookup_ne_diverge h.grounded _ _) hnone
    refine hdecoded.trans ⟨fun hv => ⟨version, rfl, hv⟩, fun hfound => ?_⟩
    obtain ⟨version', he, hv⟩ := hfound
    cases he
    exact hv

/-- **The database refines a versioned map**, in every run of `put`, `delete`, `commit(true)`,
`rollback` and `reset` in which no commit stores a tree under a root that is stored. -/
theorem refines_versioned_map [DecidableEq K] (hg : KeccakGood S) (order : HashOrder)
    (calls : List (Call K V)) (hplain : ∀ c ∈ calls, c.plain = true)
    (hlog : ∀ q ∈ queries order calls opened, q ∈ S) (hnew : NewRoots order calls opened) (key : K)
    (hkey : .keccak256 (Codec.encode key) ∈ S) (value : V) :
    ((get key (opened.after order calls) : Run _ _ _ (Option V)).res = .ok (some value) ↔
      (tracked order calls opened .new).current key = some value) ∧
    ∀ root, (getAtRoot root key (opened.after order calls) : Run _ _ _ (Option V)).res =
        .ok (some value) ↔
      ∃ version, (tracked order calls opened .new).versions root = some version ∧
        version key = some value := by
  have h := tracks_run hg order calls (tracks_opened S) hplain hlog hnew
  exact ⟨h.get_iff hg hkey value, fun root => h.getAtRoot_iff hg hkey root value⟩

end Crypto

end TreeDB

namespace VersionedMap

open Sample
open TreeDB

def sampleCalls : List (Call Address Address) :=
  Immutable.firstCalls ++
    [.put (address 1) (address 11), .delete (address 2), .commit true,
      .put (address 3) (address 30), .rollback,
      .reset (Immutable.rootAfter Immutable.firstCalls)]

@[irreducible] def sampleLog : List Query := queries Immutable.order sampleCalls opened

/-- After the reset the key `2` has its value again. -/
theorem refines_versioned_map_sample :
    (get (address 2) (opened.after Immutable.order sampleCalls) :
        Run _ _ _ (Option Address)).res = .ok (some (address 20)) ∧
      (getAtRoot (Immutable.rootAfter Immutable.firstCalls) (address 2)
        (opened.after Immutable.order sampleCalls) : Run _ _ _ (Option Address)).res =
          .ok (some (address 20)) := by
  have hS : KeccakGood {q | q ∈ sampleLog} :=
    keccakGood_of_collisionFree (by decide +kernel)
  have hlog : ∀ q ∈ queries Immutable.order sampleCalls opened, q ∈ {q | q ∈ sampleLog} := by
    intro q hq
    show q ∈ sampleLog
    rw [sampleLog]
    exact hq
  have hkey : Query.keccak256 (Codec.encode (address 2)) ∈ sampleLog := by decide +kernel
  have h := refines_versioned_map hS Immutable.order sampleCalls (by decide +kernel) hlog
    (by decide +kernel) (address 2) hkey (address 20)
  have hcurrent : (tracked Immutable.order sampleCalls opened .new).current (address 2) =
      some (address 20) := by decide +kernel
  have hversion : ((tracked Immutable.order sampleCalls opened .new).versions
      (Immutable.rootAfter Immutable.firstCalls)).map (· (address 2)) =
        some (some (address 20)) := by decide +kernel
  obtain ⟨version, hv, hat⟩ := Option.map_eq_some_iff.1 hversion
  exact ⟨h.1.2 hcurrent, (h.2 _).2 ⟨version, hv, hat⟩⟩

end VersionedMap

end Uchain
