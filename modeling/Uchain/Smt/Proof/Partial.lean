import Uchain.Lib.Lockstep
import Uchain.Smt.Proof.Frames
import Uchain.Smt.Proof.Contents

/-!
# Trees that hold a part of another tree

`View s t`: the tree `s` has the root of `t`, and some of its nodes and values. `update` reads and
deletes the nodes on the way to its key, and writes nodes that it has hashed; a deletion reads the
deepest side node as well. Where `s` has these nodes, it goes in lockstep with `t`.
-/

namespace Uchain

open Lib Lib.Exec SparseMerkleTree Radix BTreeMap

/-- The tree `s` has a part of the nodes and values of `t`. -/
structure View (s t : SparseMerkleTree) : Prop where
  root : s.root = t.root
  nodes : ∀ h x, s.nodes.get? h = some x → t.nodes.get? h = some x
  values : ∀ j v, s.values.get? j = some v → t.values.get? j = some v

/-- Two runs that began at `s₀` and `t₀` have reached `s` and `t`. -/
structure Beside (s₀ t₀ s t : SparseMerkleTree) : Prop extends View s t where
  frame : ∀ h, (s.nodes.get? h = s₀.nodes.get? h ∧ t.nodes.get? h = t₀.nodes.get? h) ∨
    s.nodes.get? h = t.nodes.get? h

variable {s₀ t₀ s t : SparseMerkleTree}

theorem view_subtree (t : SparseMerkleTree) (strategy : CopyStrategy) : View (t.subtree strategy) t := by
  cases strategy with
  | partialCopy => exact ⟨rfl, fun _ _ h => h, fun _ _ h => (by cases h)⟩
  | full => exact ⟨rfl, fun _ _ h => h, fun _ _ h => h⟩
  | none => exact ⟨rfl, fun _ _ h => (by cases h), fun _ _ h => (by cases h)⟩

theorem View.beside (h : View s t) : Beside s t s t := ⟨h, fun _ => .inl ⟨rfl, rfl⟩⟩

variable {key : H256}

theorem Beside.agree (h : Beside s₀ t₀ s t) (hkey : s₀.nodes.get? key = t₀.nodes.get? key) :
    s.nodes.get? key = t.nodes.get? key := by
  rcases h.frame key with ⟨hs, ht⟩ | h
  · rw [hs, ht, hkey]
  · exact h

/-! ## The stores -/

theorem Beside.putNode (h : Beside s₀ t₀ s t) (key : H256) (x : Bytes) :
    Beside s₀ t₀ { s with nodes := s.nodes.insert key x } { t with nodes := t.nodes.insert key x } where
  root := h.root
  nodes k y := by
    simp only [get?_insert]
    split
    · exact id
    · exact h.nodes k y
  values := h.values
  frame k := by
    simp only [get?_insert]
    split
    · exact .inr rfl
    · exact h.frame k

theorem Beside.deleteNode (h : Beside s₀ t₀ s t) (key : H256) :
    Beside s₀ t₀ { s with nodes := s.nodes.erase key } { t with nodes := t.nodes.erase key } where
  root := h.root
  nodes k y := by
    simp only [get?_erase]
    split
    · exact id
    · exact h.nodes k y
  values := h.values
  frame k := by
    simp only [get?_erase]
    split
    · exact .inr rfl
    · exact h.frame k

theorem Beside.putValue (h : Beside s₀ t₀ s t) (key : H256) (x : Bytes) :
    Beside s₀ t₀ { s with values := s.values.insert key x }
      { t with values := t.values.insert key x } where
  root := h.root
  nodes := h.nodes
  values k y := by
    simp only [get?_insert]
    split
    · exact id
    · exact h.values k y
  frame := h.frame

theorem Beside.deleteValue (h : Beside s₀ t₀ s t) (key : H256) :
    Beside s₀ t₀ { s with values := s.values.erase key }
      { t with values := t.values.erase key } where
  root := h.root
  nodes := h.nodes
  values k y := by
    simp only [get?_erase]
    split
    · exact id
    · exact h.values k y
  frame := h.frame

theorem Beside.setRoot (h : Beside s₀ t₀ s t) (root : H256) :
    Beside s₀ t₀ { s with root } { t with root } :=
  ⟨⟨rfl, h.nodes, h.values⟩, h.frame⟩

theorem lockstep_getNode (hkey : s₀.nodes.get? key = t₀.nodes.get? key) :
    Lockstep (Beside s₀ t₀) (getNode key) := by
  refine lockstep_get_bind (fun s t h => ?_) fun _ => lockstep_ofOption _ _
  rw [h.agree hkey]

theorem lockstep_putNode (key : H256) (x : Bytes) : Lockstep (Beside s₀ t₀) (putNode key x) :=
  lockstep_modify fun _ _ h => h.putNode key x

theorem lockstep_deleteNode (hkey : s₀.nodes.get? key = t₀.nodes.get? key) :
    Lockstep (Beside s₀ t₀) (deleteNode key) := by
  refine lockstep_get_bind (fun s t h => ?_) fun _ =>
    lockstep_ite (lockstep_modify fun _ _ h => h.deleteNode key) (lockstep_fail _)
  rw [contains, contains, h.agree hkey]

theorem lockstep_putValue (key : H256) (x : Bytes) : Lockstep (Beside s₀ t₀) (putValue key x) :=
  lockstep_modify fun _ _ h => h.putValue key x

theorem attempt_deleteValue_run (key : H256) (t : SparseMerkleTree) :
    ∃ a, attempt (deleteValue key) t = ⟨.ok a, { t with values := t.values.erase key }, []⟩ := by
  by_cases hkey : t.values.contains key = true
  · refine ⟨.ok (), ?_⟩
    rw [attempt_run, SparseMerkleTree.deleteValue, get_bind,
      if_pos hkey]
    rfl
  · have hsame : t.values.erase key = t.values := by
      refine ext_get? fun k => ?_
      rw [get?_erase]
      split
      · rename_i hk
        rw [hk, Option.not_isSome_iff_eq_none.1 hkey]
      · rfl
    refine ⟨.error .storageError, ?_⟩
    rw [attempt_run, SparseMerkleTree.deleteValue, get_bind,
      if_neg hkey, hsame]
    rfl

theorem lockstep_attempt_deleteValue {α : Type} (key : H256) {x : Smt α}
    (hx : Lockstep (Beside s₀ t₀) x) :
    Lockstep (Beside s₀ t₀) (attempt (deleteValue key) >>= fun _ => x) := by
  intro s t h
  obtain ⟨a, hs⟩ := attempt_deleteValue_run key s
  obtain ⟨b, ht⟩ := attempt_deleteValue_run key t
  exact Lockstep.then_run hs ht (h.deleteValue key) hx

/-! ## The update -/

section Update

variable [Crypto]

theorem lockstep_keccak256 (data : Bytes) :
    Lockstep (Beside s₀ t₀) (keccak256 data : Smt H256) := fun _ _ h => ⟨rfl, rfl, h⟩

theorem lockstep_putParent (path : H256) (i : Nat) (current sideNode : H256) :
    Lockstep (Beside s₀ t₀) (putParent path i current sideNode) :=
  lockstep_bind (lockstep_bind (lockstep_keccak256 _) fun _ => lockstep_pure _) fun _ =>
    lockstep_bind (lockstep_putNode _ _) fun _ => lockstep_pure _

theorem lockstep_updateLoop (path : H256) (sideNodes : List H256) (count n : Nat) :
    ∀ current, Lockstep (Beside s₀ t₀) (updateLoop path sideNodes count n current) := by
  induction n with
  | zero => exact fun current => lockstep_pure _
  | succ n ih =>
    intro current
    unfold updateLoop
    dsimp only
    cases sideNodeAt sideNodes count (depth - (n + 1)) with
    | none => exact ih current
    | some sideNode => exact lockstep_bind (lockstep_putParent _ _ _ _) fun current => ih current

variable {pathNodes : List H256}

theorem lockstep_rehash (hpath : ∀ key ∈ pathNodes.drop 1, s₀.nodes.get? key = t₀.nodes.get? key)
    (path : H256) (value : Bytes) (sideNodes : List H256) (count : Nat) (current : H256) :
    Lockstep (Beside s₀ t₀) (rehash path value sideNodes pathNodes count current) :=
  lockstep_bind (lockstep_forEach fun key hkey => lockstep_deleteNode (hpath key hkey)) fun _ =>
    lockstep_bind (lockstep_updateLoop _ _ _ _ _) fun _ =>
      lockstep_bind (lockstep_putValue _ _) fun _ => lockstep_pure _

omit [Crypto] in
theorem lockstep_parse (data : Bytes) :
    Lockstep (Beside s₀ t₀) (TreeHasher.parse data : Smt (Bytes × Bytes)) :=
  lockstep_ite (lockstep_pure _) (lockstep_fail _)

omit [Crypto] in
theorem lockstep_commonPrefix (path : H256) (pathNodes : List H256) (oldLeafData : Bytes) :
    Lockstep (Beside s₀ t₀) (commonPrefix path pathNodes oldLeafData) :=
  lockstep_ite (lockstep_pure _) (lockstep_bind (lockstep_parse _) fun _ =>
    lockstep_bind (lockstep_orPanic _) fun _ => lockstep_bind (lockstep_orPanic _) fun _ =>
      lockstep_pure _)

theorem lockstep_updateWithSidesNodes
    (hhead : s₀.nodes.get? (pathNodes.headD FixedBytes.zero) = t₀.nodes.get? (pathNodes.headD FixedBytes.zero))
    (hpath : ∀ key ∈ pathNodes.drop 1, s₀.nodes.get? key = t₀.nodes.get? key) (path : H256)
    (value : Bytes) (sideNodes : List H256) (oldLeafData : Bytes) :
    Lockstep (Beside s₀ t₀)
      (updateWithSidesNodes path value sideNodes pathNodes oldLeafData) := by
  refine lockstep_bind (lockstep_keccak256 _) fun valueHash =>
    lockstep_bind (lockstep_bind (lockstep_keccak256 _) fun _ => lockstep_pure _) fun leaf =>
      lockstep_bind (lockstep_putNode _ _) fun _ =>
        lockstep_bind (lockstep_commonPrefix _ _ _) fun common => ?_
  refine lockstep_ite (lockstep_bind (lockstep_putParent _ _ _ _) fun _ =>
    lockstep_rehash hpath _ _ _ _ _) ?_
  obtain ⟨count, old⟩ := common
  cases old with
  | none => exact lockstep_rehash hpath _ _ _ _ _
  | some oldValueHash =>
    refine lockstep_ite (lockstep_get_bind (fun s t h => by rw [h.root]) fun _ => lockstep_pure _) ?_
    exact lockstep_bind (lockstep_deleteNode hhead) fun _ =>
      lockstep_attempt_deleteValue _ (lockstep_rehash hpath _ _ _ _ _)

/-! ## The deletion -/

theorem lockstep_deleteLoopBody {sideNode : H256} {st : DeleteLoop}
    (hside : st.currentData = none → s₀.nodes.get? sideNode = t₀.nodes.get? sideNode)
    (path : H256) (i : Nat) : Lockstep (Beside s₀ t₀) (deleteLoopBody path i sideNode st) := by
  have hjoin (current : H256) : Lockstep (Beside s₀ t₀) (do
      let currentHash ← putParent path i current sideNode
      return (⟨currentHash, some currentHash, true⟩ : DeleteLoop)) :=
    lockstep_bind (lockstep_putParent _ _ _ _) fun _ => lockstep_pure _
  unfold deleteLoopBody
  cases hdata : st.currentData with
  | none =>
    exact lockstep_bind (lockstep_getNode (hside hdata)) fun _ =>
      lockstep_bind (lockstep_ite (lockstep_pure _) (lockstep_fail _)) fun _ =>
        lockstep_ite (lockstep_pure _) (hjoin _)
  | some current => exact lockstep_ite (lockstep_pure _) (hjoin _)

theorem deleteLoopBody_currentData {path : H256} {i : Nat} {sideNode : H256} {st st' : DeleteLoop}
    {s : SparseMerkleTree} (h : (deleteLoopBody path i sideNode st s).res = .ok st') :
    st'.currentData ≠ none := by
  have hjoin {current : H256} {s : SparseMerkleTree} {st' : DeleteLoop} (h : ((do
      let currentHash ← putParent path i current sideNode
      return (⟨currentHash, some currentHash, true⟩ : DeleteLoop) : Smt DeleteLoop) s).res =
        .ok st') : st'.currentData ≠ none := by
    obtain ⟨currentHash, s₁, l₁, l₂, -, hrun, -⟩ := bind_eq_ok (Run.eq_of_res h)
    cases hrun
    exact Option.some_ne_none _
  unfold deleteLoopBody at h
  cases hdata : st.currentData with
  | none =>
    rw [hdata] at h
    obtain ⟨data, s₁, l₁, l₂, -, h₁, -⟩ := bind_eq_ok (Run.eq_of_res h)
    obtain ⟨leaf, s₂, l₃, l₄, -, h₂, -⟩ := bind_eq_ok h₁
    cases leaf with
    | true =>
      cases h₂
      exact Option.some_ne_none _
    | false => exact hjoin (congrArg Run.res h₂)
  | some current =>
    rw [hdata] at h
    dsimp only at h
    split at h
    · cases h
      rw [hdata]
      exact Option.some_ne_none _
    · exact hjoin h

theorem lockstep_deleteLoop (path : H256) (sideNodes : List H256) :
    ∀ st : DeleteLoop, (st.currentData = none → ∀ key ∈ sideNodes.head?,
      s₀.nodes.get? key = t₀.nodes.get? key) →
        Lockstep (Beside s₀ t₀) (deleteLoop path sideNodes st) := by
  induction sideNodes with
  | nil => exact fun st _ => lockstep_pure _
  | cons sideNode sideNodes ih =>
    intro st hside
    refine lockstep_bind_of (lockstep_deleteLoopBody (fun hst => hside hst sideNode rfl) _ _) ?_
    intro s st' hst'
    exact ih st' fun hnone => absurd hnone (deleteLoopBody_currentData hst')

theorem lockstep_deleteWithSidesNodes {sideNodes : List H256}
    (hpath : ∀ key ∈ pathNodes, s₀.nodes.get? key = t₀.nodes.get? key)
    (hside : ∀ key ∈ sideNodes.head?, s₀.nodes.get? key = t₀.nodes.get? key) (path : H256)
    (oldLeafData : Bytes) : Lockstep (Beside s₀ t₀)
      (deleteWithSidesNodes path sideNodes pathNodes oldLeafData) := by
  refine lockstep_ite (lockstep_fail _) (lockstep_bind (lockstep_parse _) fun _ => ?_)
  refine lockstep_ite (lockstep_fail _) (lockstep_bind (lockstep_forEach fun key hkey =>
    lockstep_deleteNode (hpath key hkey)) fun _ => ?_)
  exact lockstep_bind (lockstep_deleteLoop _ _ _ fun _ => hside) fun _ => lockstep_pure _

/-! ## Whole calls -/

variable {S : Set Query} {r : Trie} {p : H256} {key value : Bytes}

/-- The part of `update_for_root` behind the walk. -/
def afterWalk (p : H256) (value : Bytes) (r : Trie) : Smt H256 :=
  if value.isEmpty then do
    deleteValue p
    deleteWithSidesNodes p ((sides bit p 0 r).reverse.map merkle.hash)
      ((Radix.path bit p 0 r).reverse.map merkle.hash)
      ((merkle.data (terminal bit p 0 r)).getD [])
  else
    updateWithSidesNodes p value ((sides bit p 0 r).reverse.map merkle.hash)
      ((Radix.path bit p 0 r).reverse.map merkle.hash)
      ((merkle.data (terminal bit p 0 r)).getD [])

/-- `update` in a store that holds the way to the key. -/
theorem update_eq_afterWalk (hg : KeccakGood S) (hwf : Wf bit 256 0 r)
    (hdata : merkle.DataIn (hashed S) r) (hroot : s.root = r.hash)
    (hwalk : Walkable s (Crypto.keccak256 key) 0 r) (value : Bytes) :
    update key value s = (do
      let _ ← (keccak256 key : Smt H256)
      let newRoot ← afterWalk (Crypto.keccak256 key) value r
      modify fun t => { t with root := newRoot }
      return newRoot : Smt H256) s := by
  have hrun := sideNodesForRoot_walk hg hwf hdata hroot hwalk false fun hc => by cases hc
  rw [update, get_bind, updateForRoot, bind_assoc, bind_ok (TreeHasher.path_run key s),
    bind_ok (keccak256_run key s), bind_assoc, bind_ok_nil hrun]
  rfl

variable {u : Trie}

theorem View.agree_of_walkable (hg : KeccakGood S) (h : Rep S t r) (hv : View s t)
    (hwalk : Walkable s p 0 r) (hu : u ∈ Radix.path bit p 0 r) :
    s.nodes.get? (merkle.hash u) = t.nodes.get? (merkle.hash u) := by
  cases hx : merkle.data u with
  | some x =>
    rw [hwalk u hu x hx]
    exact (hv.nodes _ _ (hwalk u hu x hx)).symm
  | none =>
    -- the placeholder, which is in neither store
    have hempty : u = .empty := by
      by_contra hne
      obtain ⟨x, hx'⟩ := Merkle.data_isSome (M := merkle) hne
      rw [hx] at hx'
      cases hx'
    have hnone : t.nodes.get? (merkle.hash u) = none := by
      cases hget : t.nodes.get? (merkle.hash u) with
      | none => rfl
      | some x =>
        obtain ⟨w, hw, hhash, -⟩ := (h.nodes _ _).1 hget
        rw [hempty] at hhash
        exact absurd hhash (hg.merkle.hash_ne (h.dataIn.of_mem_subtrees hw)
          (ne_empty_of_mem_subtrees hw))
    rw [hnone]
    cases hget : s.nodes.get? (merkle.hash u) with
    | none => rfl
    | some x =>
      rw [hv.nodes _ _ hget] at hnone
      cases hnone

theorem View.agree_of_mem_pathNodes (hg : KeccakGood S) (h : Rep S t r) (hv : View s t)
    (hwalk : Walkable s p 0 r) {key : H256}
    (hkey : key ∈ (Radix.path bit p 0 r).reverse.map merkle.hash) :
    s.nodes.get? key = t.nodes.get? key := by
  obtain ⟨u, hu, rfl⟩ := List.mem_map.1 hkey
  exact hv.agree_of_walkable hg h hwalk (List.mem_reverse.1 hu)

omit [Crypto] in
theorem lockstep_setRoot {x : Smt H256} (hx : Lockstep (Beside s₀ t₀) x) :
    Lockstep (Beside s₀ t₀) (do
      let newRoot ← x
      modify fun t => { t with root := newRoot }
      return newRoot) :=
  lockstep_bind hx fun newRoot => lockstep_bind (lockstep_modify fun _ _ h => h.setRoot newRoot)
    fun _ => lockstep_pure _

/-- Two calls from `s` and from `t` did the same. -/
def SameCall (key value : Bytes) (s t : SparseMerkleTree) : Prop :=
  (update key value s).res = (update key value t).res ∧
    (update key value s).log = (update key value t).log ∧
    Beside s t (update key value s).state (update key value t).state

theorem sameCall_of_lockstep (hg : KeccakGood S) (h : Rep S t r) (hv : View s t)
    (hwalk : Walkable s (Crypto.keccak256 key) 0 r)
    (hlock : Lockstep (Beside s t) (afterWalk (Crypto.keccak256 key) value r)) :
    SameCall key value s t := by
  have hwalk' : Walkable t (Crypto.keccak256 key) 0 r := fun u hu x hx =>
    hv.nodes _ _ (hwalk u hu x hx)
  rw [SameCall, update_eq_afterWalk hg h.wf h.dataIn (hv.root.trans h.root) hwalk,
    update_eq_afterWalk hg h.wf h.dataIn h.root hwalk']
  exact lockstep_bind (lockstep_keccak256 _) (fun _ => lockstep_setRoot hlock) s t hv.beside

/-- **`update` with a value**, in a store that holds the way to the key. -/
theorem update_lockstep (hg : KeccakGood S) (h : Rep S t r) (hv : View s t)
    (hwalk : Walkable s (Crypto.keccak256 key) 0 r) (hvalue : value ≠ []) :
    SameCall key value s t := by
  refine sameCall_of_lockstep hg h hv hwalk ?_
  rw [afterWalk, if_neg (by simpa using hvalue)]
  refine lockstep_updateWithSidesNodes ?_ (fun k hk => ?_) _ _ _ _
  · rw [pathNodes_head]
    exact hv.agree_of_walkable hg h hwalk (List.mem_append_right _ (List.mem_singleton.2 rfl))
  · exact hv.agree_of_mem_pathNodes hg h hwalk (List.mem_of_mem_drop hk)

omit [Crypto] in
theorem deleteValue_run {p : H256} {s : SparseMerkleTree} (h : s.values.contains p = true) :
    deleteValue p s = ⟨.ok (), { s with values := s.values.erase p }, []⟩ := by
  rw [SparseMerkleTree.deleteValue, get_bind, if_pos h]
  rfl

omit [Crypto] in
theorem View.contains (hv : View s t) {p : H256} (h : s.values.contains p = true) :
    t.values.contains p = true := by
  obtain ⟨v, hget⟩ := Option.isSome_iff_exists.1 h
  exact Option.isSome_iff_exists.2 ⟨v, hv.values p v hget⟩

theorem View.agree_of_siblingHeld (h : Rep S t r) (hv : View s t) (hsib : SiblingHeld s p r)
    {key : H256} (hkey : key ∈ ((sides bit p 0 r).reverse.map merkle.hash).head?) :
    s.nodes.get? key = t.nodes.get? key := by
  rw [List.head?_map, List.head?_reverse, Option.mem_def, Option.map_eq_some_iff] at hkey
  obtain ⟨u, hu, rfl⟩ := hkey
  obtain ⟨-, x, hx⟩ := last_side_data h.wf hu
  rw [hsib u hu x hx]
  exact (hv.nodes _ _ (hsib u hu x hx)).symm

/-- **`update` with an empty value**, in a store that holds the value, the way to the key and the
deepest side node. -/
theorem delete_lockstep (hg : KeccakGood S) (h : Rep S t r) (hv : View s t)
    (hwalk : Walkable s (Crypto.keccak256 key) 0 r)
    (hvalue : s.values.contains (Crypto.keccak256 key) = true)
    (hsib : SiblingHeld s (Crypto.keccak256 key) r) : SameCall key [] s t := by
  have hwalk' : Walkable t (Crypto.keccak256 key) 0 r := fun u hu x hx =>
    hv.nodes _ _ (hwalk u hu x hx)
  have hlock := lockstep_deleteWithSidesNodes
    (fun k hk => hv.agree_of_mem_pathNodes hg h hwalk hk)
    (fun k hk => hv.agree_of_siblingHeld h hsib hk) (Crypto.keccak256 key)
    ((merkle.data (terminal bit (Crypto.keccak256 key) 0 r)).getD [])
  rw [SameCall, update_eq_afterWalk hg h.wf h.dataIn (hv.root.trans h.root) hwalk,
    update_eq_afterWalk hg h.wf h.dataIn h.root hwalk']
  rw [bind_ok (keccak256_run key s), bind_ok (keccak256_run key t), afterWalk, if_pos (by rfl),
    bind_assoc]
  obtain ⟨hres, hlog, hstate⟩ := Lockstep.then_run (deleteValue_run hvalue)
    (deleteValue_run (hv.contains hvalue)) (hv.beside.deleteValue (Crypto.keccak256 key))
    (lockstep_setRoot hlock)
  exact ⟨hres, congrArg ([Query.keccak256 key] ++ ·) hlog, hstate⟩

/-! ## Missing nodes -/

theorem View.get?_eq_none (h : Rep S t r) (hv : View s t) {x : Bytes} (hu : u ∈ r.subtrees)
    (hx : merkle.data u = some x) (hne : s.nodes.get? (merkle.hash u) ≠ some x) :
    s.nodes.get? (merkle.hash u) = none := by
  cases hget : s.nodes.get? (merkle.hash u) with
  | none => rfl
  | some y =>
    have hy := hv.nodes _ _ hget
    rw [h.nodes.get hu hx] at hy
    cases hy
    exact absurd hget hne

omit [Crypto] in
theorem getNode_error {key : H256} {s : SparseMerkleTree} (h : s.nodes.get? key = none) :
    getNode key s = ⟨.error (.err .storageErrorKeyNotFound), s, []⟩ := by
  rw [getNode, get_bind, h]
  rfl

theorem walkable_empty (s : SparseMerkleTree) (p : H256) (d : Nat) : Walkable s p d .empty := by
  intro w hw x hx
  rw [List.mem_singleton.1 hw] at hx
  cases hx

theorem View.leaf_missing (h : Rep S t r) (hv : View s t) {d : Nat} {k v : H256}
    (hmem : leaf k v ∈ r.subtrees) (hstuck : ¬ Walkable s p d (.leaf k v)) :
    s.nodes.get? (merkle.hash (.leaf k v)) = none := by
  refine hv.get?_eq_none h hmem rfl fun hget => hstuck fun w hw x hx => ?_
  rw [List.mem_singleton.1 hw] at hx ⊢
  cases hx
  exact hget

theorem View.join_missing (h : Rep S t r) (hv : View s t) {d : Nat} {side : Trie}
    (hmem : join (bit p d) u side ∈ r.subtrees)
    (hstuck : ¬ Walkable s p d (join (bit p d) u side)) :
    s.nodes.get? (merkle.hash (join (bit p d) u side)) = none ∨
      s.nodes.get? (merkle.hash (join (bit p d) u side)) =
        some (joinData (bit p d) (merkle.hash u) (merkle.hash side)) ∧ ¬ Walkable s p (d + 1) u := by
  by_cases hget : s.nodes.get? (merkle.hash (join (bit p d) u side)) =
      some (joinData (bit p d) (merkle.hash u) (merkle.hash side))
  · refine .inr ⟨hget, fun hwalk => hstuck fun w hw x hx => ?_⟩
    rw [path_join] at hw
    rcases List.mem_cons.1 hw with rfl | hw
    · rw [data_join] at hx
      cases hx
      exact hget
    · exact hwalk w hw x hx
  · exact .inl (hv.get?_eq_none h hmem (data_join _ _ _) hget)

/-- The loop of the walk fails at the first node that is missing. -/
theorem sideNodesLoop_stuck (hg : KeccakGood S) (h : Rep S t r) (hv : View s t) :
    ∀ (n d : Nat) (u side : Trie) (accs accp : List H256), d + n = 256 →
      Wf bit 256 d (join (bit p d) u side) → u.subtrees ⊆ r.subtrees →
      ¬ Walkable s p (d + 1) u →
      (sideNodesLoop p n (joinData (bit p d) (merkle.hash u) (merkle.hash side)) accs accp s).res =
        .error (.err .storageErrorKeyNotFound)
  | 0, d, u, side, accs, accp, hd, hwf, _, _ => by
    have := (wf_join.1 hwf).1
    omega
  | n + 1, d, u, side, accs, accp, hd, hwf, hsub, hstuck => by
    rw [sideNodesLoop_step p n u side accs accp s hd]
    have hz (hmem : u ∈ r.subtrees) : (merkle.hash u).isZero = false :=
      FixedBytes.isZero_eq_false_iff.2 (hg.merkle.hash_ne (h.dataIn.of_mem_subtrees hmem)
        (ne_empty_of_mem_subtrees hmem))
    cases u with
    | empty => exact absurd (walkable_empty s p _) hstuck
    | leaf k v =>
      have hmem := hsub (mem_subtrees_self (t := .leaf k v) fun he => by cases he)
      rw [hz hmem, if_neg Bool.false_ne_true, bind_error (getNode_error (hv.leaf_missing h hmem hstuck))]
    | node l r' =>
      obtain ⟨u', side', e⟩ : ∃ u' side', node l r' = join (bit p (d + 1)) u' side' :=
        ⟨_, _, node_eq_join _ l r'⟩
      have hmem := hsub (mem_subtrees_self (t := .node l r') fun he => by cases he)
      rw [e] at hwf hsub hstuck hz hmem ⊢
      rw [hz hmem, if_neg Bool.false_ne_true]
      rcases hv.join_missing h hmem hstuck with hnone | ⟨hget, hstuck'⟩
      · rw [bind_error (getNode_error hnone)]
      · have hsub' : u'.subtrees ⊆ r.subtrees := by
          refine subset_trans ?_ hsub
          rw [subtrees_join]
          exact fun w hw => .inr (.inr hw)
        rw [bind_ok_nil (getNode_run hget), bind_ok_nil (isLeaf_run_join _ _ _ s),
          if_neg Bool.false_ne_true]
        exact sideNodesLoop_stuck hg h hv n (d + 1) u' side' _ _ (by omega)
          (wf_join.1 hwf).2.2.2.2.1 hsub' hstuck'

/-- **The walk fails if a node of the way is missing.** -/
theorem sideNodesForRoot_stuck (hg : KeccakGood S) (h : Rep S t r) (hv : View s t)
    (hstuck : ¬ Walkable s p 0 r) (getSiblingData : Bool) :
    (sideNodesForRoot p s.root getSiblingData s).res = .error (.err .storageErrorKeyNotFound) := by
  rw [hv.root, h.root, sideNodesForRoot]
  have hz (hne : r ≠ .empty) : r.hash.isZero = false :=
    FixedBytes.isZero_eq_false_iff.2 (hg.merkle.hash_ne h.dataIn hne)
  cases r with
  | empty => exact absurd (walkable_empty s p 0) hstuck
  | leaf k v =>
    have hne : leaf k v ≠ (.empty : Trie) := fun he => by cases he
    rw [hz hne, if_neg Bool.false_ne_true, Trie.hash,
      bind_error (getNode_error (hv.leaf_missing h (mem_subtrees_self hne) hstuck))]
  | node l r' =>
    obtain ⟨u, side, e⟩ : ∃ u side, node l r' = join (bit p 0) u side :=
      ⟨_, _, node_eq_join _ l r'⟩
    have hne : node l r' ≠ (.empty : Trie) := fun he => by cases he
    rw [e] at h hstuck hz hne ⊢
    rw [hz hne, if_neg Bool.false_ne_true, Trie.hash]
    rcases hv.join_missing h (mem_subtrees_self hne) hstuck with hnone | ⟨hget, hstuck'⟩
    · rw [bind_error (getNode_error hnone)]
    · have hsub : u.subtrees ⊆ (join (bit p 0) u side).subtrees := by
        rw [subtrees_join]
        exact fun w hw => .inr (.inr hw)
      have hloop := sideNodesLoop_stuck hg h hv depth 0 u side []
        [merkle.hash (join (bit p 0) u side)] rfl h.wf hsub hstuck'
      rw [bind_ok_nil (getNode_run hget), bind_ok_nil (isLeaf_run_join _ _ _ s),
        if_neg Bool.false_ne_true, bind_error (Run.eq_of_res hloop)]

end Update

end Uchain
