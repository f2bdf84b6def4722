import Uchain.Smt.Proof.Branches

/-!
# Failing updates

A deletion takes the value and the nodes of the way out of the stores before it reads the deepest side
node. A tree that has only a part of the nodes may lack this node; the call then returns an error, and
what it has deleted is gone.
-/

namespace Uchain

open Lib Lib.Exec SparseMerkleTree BTreeMap

section Atomic

variable [Crypto] {S : Set Query} {s t : SparseMerkleTree} {r : Trie} {m : KvMap} {p : H256}
  {key value : Bytes}

/-- The tree has the value of the key and the way to it, and not the deepest side node. -/
def siblingMissing (key : Bytes) (s : SparseMerkleTree) : Bool :=
  s.values.contains (Crypto.keccak256 key) &&
    match (sideNodesForRoot (Crypto.keccak256 key) s.root false s).res with
    | .ok w => w.sideNodes.head?.any fun h => !s.nodes.contains h
    | .error _ => false

def SafeCall (key value : Bytes) (s : SparseMerkleTree) : Prop :=
  value = [] → siblingMissing key s = false

/-- An error leaves the tree as it was. -/
def AtomicCall (key value : Bytes) (s : SparseMerkleTree) : Prop :=
  ∀ e, (update key value s).res = .error (.err e) → (update key value s).state = s

/-- Each call of a run meets `P`, in the tree that it is made on. -/
def Along (P : Bytes → Bytes → SparseMerkleTree → Prop) :
    List (Bytes × Bytes) → SparseMerkleTree → Prop
  | [], _ => True
  | e :: es, s => P e.1 e.2 s ∧ Along P es (update e.1 e.2 s).state

/-- The tree has a part of the nodes and values of a whole one. -/
def Part (S : Set Query) (s : SparseMerkleTree) : Prop :=
  ∃ t r m, Refines S t r m ∧ View s t

/-! ## The missing side node -/

theorem siblingMissing_iff (hg : KeccakGood S) (h : Rep S t r) (hv : View s t)
    (hwalk : Walkable s (Crypto.keccak256 key) 0 r) :
    siblingMissing key s = true ↔ s.values.contains (Crypto.keccak256 key) = true ∧
      ¬ SiblingHeld s (Crypto.keccak256 key) r := by
  have hrun := sideNodesForRoot_walk hg h.wf h.dataIn (hv.root.trans h.root) hwalk false
    fun hc => by cases hc
  rw [siblingMissing, Bool.and_eq_true, hrun]
  refine and_congr_right fun _ => ?_
  dsimp only
  rw [List.head?_map, List.head?_reverse, SiblingHeld]
  cases hlast : (Radix.sides bit (Crypto.keccak256 key) 0 r).getLast? with
  | none => simp
  | some u =>
    obtain ⟨hmem, x, hx⟩ := last_side_data h.wf hlast
    rw [Option.map_some, Option.any_some, contains, Bool.not_eq_true',
      Option.isSome_eq_false_iff, Option.isNone_iff_eq_none]
    constructor
    · intro hnone hheld
      rw [hheld u rfl x hx] at hnone
      cases hnone
    · intro hheld
      refine hv.get?_eq_none h hmem hx fun hget => hheld fun w hw y hy => ?_
      cases hw
      rw [hget, ← hx, hy]

theorem siblingMissing_of_stuck (hg : KeccakGood S) (h : Rep S t r) (hv : View s t)
    (hstuck : ¬ Walkable s (Crypto.keccak256 key) 0 r) : siblingMissing key s = false := by
  rw [siblingMissing, sideNodesForRoot_stuck hg h hv hstuck false, Bool.and_false]

/-! ## What a failing deletion has done -/

omit [Crypto] in
theorem deleteNode_cases (k : H256) (s : SparseMerkleTree) :
    deleteNode k s = ⟨.ok (), { s with nodes := s.nodes.erase k }, []⟩ ∨
      deleteNode k s = ⟨.error (.err .storageError), s, []⟩ := by
  rw [deleteNode, get_bind]
  split
  · exact .inl rfl
  · exact .inr rfl

omit [Crypto] in
theorem deleteNodes_cases (keys : List H256) : ∀ s, ∃ s',
    (forEach deleteNode keys s = ⟨.ok (), s', []⟩ ∨
      forEach deleteNode keys s = ⟨.error (.err .storageError), s', []⟩) ∧
    s'.values = s.values ∧ ∀ h, s.nodes.get? h = none → s'.nodes.get? h = none := by
  induction keys with
  | nil => exact fun s => ⟨s, .inl rfl, rfl, fun _ h => h⟩
  | cons key keys ih =>
    intro s
    rcases deleteNode_cases key s with hrun | hrun
    · obtain ⟨s', hend, hvalues, hnodes⟩ := ih { s with nodes := s.nodes.erase key }
      have hcons : forEach deleteNode (key :: keys) s =
          forEach deleteNode keys { s with nodes := s.nodes.erase key } := bind_ok_nil hrun
      refine ⟨s', hcons ▸ hend, hvalues, fun h hnone => hnodes h ?_⟩
      show (s.nodes.erase key).get? h = none
      rw [get?_erase, hnone, ite_self]
    · exact ⟨s, .inr (bind_error hrun), rfl, fun _ h => h⟩

theorem deleteLoop_missing {h : H256} (hs : List H256) (hside : s.nodes.get? h = none) :
    deleteLoop p (h :: hs) {} s = ⟨.error (.err .storageErrorKeyNotFound), s, []⟩ := by
  have hbody : deleteLoopBody p hs.length h {} s =
      ⟨.error (.err .storageErrorKeyNotFound), s, []⟩ := bind_error (getNode_error hside)
  rw [deleteLoop, bind_error hbody]

/-- Without the deepest side node the deletion fails, before or after the nodes of the way are gone. -/
theorem deleteWithSidesNodes_missing {h : H256} (hs pathNodes : List H256) (k v : H256)
    (hside : s.nodes.get? h = none) :
    ∃ e s', deleteWithSidesNodes p (h :: hs) pathNodes (merkle.leafData k v) s =
      ⟨.error (.err e), s', []⟩ ∧ s'.values = s.values := by
  rw [deleteWithSidesNodes]
  split
  · exact ⟨_, s, rfl, rfl⟩
  · rw [bind_ok_nil (parseLeaf_run k v s)]
    dsimp only
    split
    · exact ⟨_, s, rfl, rfl⟩
    · obtain ⟨s', hend, hvalues, hnodes⟩ := deleteNodes_cases pathNodes s
      rcases hend with hend | hend
      · rw [bind_ok_nil hend, bind_error (deleteLoop_missing hs (hnodes h hside))]
        exact ⟨_, s', rfl, hvalues⟩
      · rw [bind_error hend]
        exact ⟨_, s', rfl, hvalues⟩

/-! ## One call -/

/-- How a call of `update` ends on a part of a tree. -/
inductive CallEnds (S : Set Query) (key value : Bytes) (s : SparseMerkleTree) : Prop
  | done {root : H256} (safe : SafeCall key value s) (res : (update key value s).res = .ok root)
      (part : Part S (update key value s).state)
  | refused {e : SmtError} (safe : SafeCall key value s)
      (res : (update key value s).res = .error (.err e)) (state : (update key value s).state = s)
  | torn {e : SmtError} (missing : ¬ SafeCall key value s)
      (res : (update key value s).res = .error (.err e)) (state : (update key value s).state ≠ s)

/-- A value is that of the leaf at the end of its way. -/
theorem SparseMerkleTree.Refines.terminal_of_value (h : Refines S t r m)
    (hvalue : t.values.contains p = true) : ∃ v, Radix.terminal bit p 0 r = .leaf p v := by
  obtain ⟨v, hget⟩ := Option.isSome_iff_exists.1 hvalue
  obtain ⟨k, hk, hm⟩ := (h.values p v).1 hget
  exact ⟨_, Radix.terminal_of_get ((h.trie p _).2 ⟨k, v, hk, rfl, hm⟩)⟩

theorem CallEnds.of_sameCall (hg : KeccakGood S) (h : Refines S t r m)
    (hlog : ∀ q ∈ (update key value s).log, q ∈ S) (hsafe : SafeCall key value s)
    (hsame : SameCall key value s t) (hpresent : value = [] → m.get? key ≠ none) :
    CallEnds S key value s := by
  obtain ⟨hres, hlogs, hbeside⟩ := hsame
  obtain ⟨hout, r', h'⟩ := wp_update_refines hg h key value (hlogs ▸ hlog)
  rw [Outcome, if_neg fun hc => hpresent hc.1 hc.2] at hout
  obtain ⟨root, hroot⟩ := hout
  exact .done hsafe (hres.trans hroot) ⟨_, r', _, h', hbeside.toView⟩

theorem CallEnds.of_stuck (hg : KeccakGood S) (h : Rep S t r) (hv : View s t)
    (hstuck : ¬ Walkable s (Crypto.keccak256 key) 0 r) : CallEnds S key value s := by
  have hwalk := Run.eq_of_res (sideNodesForRoot_stuck hg h hv hstuck false)
  rw [show (sideNodesForRoot (Crypto.keccak256 key) s.root false s).state = s from
    keeps_sideNodesForRoot _ _ _ s] at hwalk
  have hrun : update key value s = ⟨.error (.err .storageErrorKeyNotFound), s,
      [.keccak256 key] ++ (sideNodesForRoot (Crypto.keccak256 key) s.root false s).log⟩ := by
    rw [update, get_bind, updateForRoot, bind_assoc,
      bind_ok (TreeHasher.path_run key s), bind_assoc, bind_error hwalk]
  exact .refused (fun _ => siblingMissing_of_stuck hg h hv hstuck) (congrArg Run.res hrun)
    (congrArg Run.state hrun)

theorem update_error (hg : KeccakGood S) (h : Rep S t r) (hv : View s t)
    (hwalk : Walkable s (Crypto.keccak256 key) 0 r) {e : Fail SmtError} {s' : SparseMerkleTree}
    (hrun : afterWalk (Crypto.keccak256 key) value r s = ⟨.error e, s', []⟩) :
    (update key value s).res = .error e ∧ (update key value s).state = s' := by
  rw [update_eq_afterWalk hg h.wf h.dataIn (hv.root.trans h.root) hwalk,
    bind_ok (keccak256_run key s), bind_error hrun]
  exact ⟨rfl, rfl⟩

theorem CallEnds.of_absent (hg : KeccakGood S) (h : Rep S t r) (hv : View s t)
    (hwalk : Walkable s (Crypto.keccak256 key) 0 r)
    (hvalue : s.values.contains (Crypto.keccak256 key) = false) : CallEnds S key [] s := by
  have hdel : deleteValue (Crypto.keccak256 key) s = ⟨.error (.err .storageError), s, []⟩ := by
    rw [SparseMerkleTree.deleteValue, get_bind, hvalue]
    rfl
  have hrun : afterWalk (Crypto.keccak256 key) [] r s = ⟨.error (.err .storageError), s, []⟩ := by
    rw [afterWalk, if_pos (by rfl), bind_error hdel]
  obtain ⟨hres, hstate⟩ := update_error hg h hv hwalk hrun
  refine .refused (fun _ => ?_) hres hstate
  rw [siblingMissing, hvalue, Bool.false_and]

theorem CallEnds.of_missing (hg : KeccakGood S) (h : Refines S t r m) (hv : View s t)
    (hwalk : Walkable s (Crypto.keccak256 key) 0 r)
    (hvalue : s.values.contains (Crypto.keccak256 key) = true)
    (hsib : ¬ SiblingHeld s (Crypto.keccak256 key) r) : CallEnds S key [] s := by
  have hmissing := (siblingMissing_iff hg h.rep hv hwalk).2 ⟨hvalue, hsib⟩
  obtain ⟨v, hterm⟩ := h.terminal_of_value (hv.contains hvalue)
  -- the deepest side node, which the walk has named
  obtain ⟨u, hlast, x, hx, hget⟩ : ∃ u, (Radix.sides bit (Crypto.keccak256 key) 0 r).getLast? = some u ∧
      ∃ x, merkle.data u = some x ∧ s.nodes.get? (merkle.hash u) ≠ some x := by
    simpa only [SiblingHeld, Option.mem_def, not_forall, exists_prop] using hsib
  have hnone := hv.get?_eq_none h.rep (last_side_data h.rep.wf hlast).1 hx hget
  obtain ⟨ss, hss⟩ := List.getLast?_eq_some_iff.1 hlast
  obtain ⟨e, s', hdel, hvalues⟩ := deleteWithSidesNodes_missing
    (s := { s with values := s.values.erase (Crypto.keccak256 key) }) (p := Crypto.keccak256 key)
    (ss.reverse.map merkle.hash)
    ((Radix.path bit (Crypto.keccak256 key) 0 r).reverse.map merkle.hash) (Crypto.keccak256 key) v hnone
  have hrun : afterWalk (Crypto.keccak256 key) [] r s = ⟨.error (.err e), s', []⟩ := by
    rw [afterWalk, if_pos (by rfl), bind_ok_nil (deleteValue_run hvalue), hterm, hss,
      List.reverse_append]
    exact hdel
  obtain ⟨hres, hstate⟩ := update_error hg h.rep hv hwalk hrun
  refine .torn (fun hsafe => ?_) hres fun hsame => ?_
  · rw [hsafe rfl] at hmissing
    cases hmissing
  · have herase : s.values.erase (Crypto.keccak256 key) = s.values :=
      hvalues.symm.trans (congrArg _ (hstate.symm.trans hsame))
    rw [← herase, contains, get?_erase, if_pos rfl] at hvalue
    cases hvalue

/-- **The three ways a call ends.** -/
theorem update_ends (hg : KeccakGood S) (hpart : Part S s)
    (hlog : ∀ q ∈ (update key value s).log, q ∈ S) : CallEnds S key value s := by
  obtain ⟨t, r, m, h, hv⟩ := hpart
  by_cases hwalk : Walkable s (Crypto.keccak256 key) 0 r
  · by_cases hvalue : value = []
    · subst hvalue
      cases hcontains : s.values.contains (Crypto.keccak256 key) with
      | false => exact .of_absent hg h.rep hv hwalk hcontains
      | true =>
        by_cases hsib : SiblingHeld s (Crypto.keccak256 key) r
        · have hkey : .keccak256 key ∈ S := wp_update_key S key [] s hlog
          refine .of_sameCall hg h hlog (fun _ => ?_)
            (delete_lockstep hg h.rep hv hwalk hcontains hsib) fun _ hnone => ?_
          · exact Bool.eq_false_iff.2 fun hm => ((siblingMissing_iff hg h.rep hv hwalk).1 hm).2 hsib
          · have hget := hv.contains hcontains
            rw [contains, h.values_path hg hkey, hnone] at hget
            cases hget
        · exact .of_missing hg h hv hwalk hcontains hsib
    · exact .of_sameCall hg h hlog (fun hc => absurd hc hvalue)
        (update_lockstep hg h.rep hv hwalk hvalue) fun hc => absurd hc hvalue
  · exact .of_stuck hg h.rep hv hwalk

/-! ## Whole runs -/

theorem log_updateAll_cons (e : Bytes × Bytes) (es : List (Bytes × Bytes)) {s : SparseMerkleTree}
    (h : Returns (update e.1 e.2) s) : (updateAll (e :: es) s).log =
      (update e.1 e.2 s).log ++ (updateAll es (update e.1 e.2 s).state).log := by
  have hcons : updateAll (e :: es) = (attempt (update e.1 e.2) >>= fun _ => updateAll es) := rfl
  rw [Returns] at h
  rw [hcons, bind_run, Exec.bind, attempt_run]
  generalize (update e.1 e.2 s).res = res at h ⊢
  rcases res with (err | _ | _) | root
  · rfl
  · cases h
  · cases h
  · rfl

/-- **The failing calls of a run change nothing, exactly if each call is safe.** -/
theorem atomic_along_iff (hg : KeccakGood S) (es : List (Bytes × Bytes)) :
    ∀ {s : SparseMerkleTree}, Part S s → (∀ q ∈ (updateAll es s).log, q ∈ S) →
      (Along AtomicCall es s ↔ Along SafeCall es s) := by
  induction es with
  | nil => exact fun _ _ => Iff.rfl
  | cons e es ih =>
    intro s hpart hlog
    have hcall : ∀ q ∈ (update e.1 e.2 s).log, q ∈ S := by
      intro q hq
      refine hlog q (log_subset_bind (attempt (update e.1 e.2)) _ s ?_)
      rw [attempt_run]
      exact hq
    have hrest (hreturns : Returns (update e.1 e.2) s) :
        ∀ q ∈ (updateAll es (update e.1 e.2 s).state).log, q ∈ S := by
      intro q hq
      refine hlog q ?_
      rw [log_updateAll_cons e es hreturns]
      exact List.mem_append_right _ hq
    cases update_ends hg hpart hcall with
    | done safe res part =>
      have hatomic : AtomicCall e.1 e.2 s := by
        intro err herr
        rw [res] at herr
        cases herr
      have hrun := ih part (hrest (returns_of_ok (Run.eq_of_res res)))
      exact ⟨fun h => ⟨safe, hrun.1 h.2⟩, fun h => ⟨hatomic, hrun.2 h.2⟩⟩
    | refused safe res state =>
      have hreturns : Returns (update e.1 e.2) s := by
        rw [Returns, res]
        rfl
      have hrun := ih (s := (update e.1 e.2 s).state) (by rwa [state]) (hrest hreturns)
      exact ⟨fun h => ⟨safe, hrun.1 h.2⟩, fun h => ⟨fun _ _ => state, hrun.2 h.2⟩⟩
    | torn missing res state =>
      exact ⟨fun h => absurd (h.1 _ res) state, fun h => absurd h.1 missing⟩

/-- `subtree`, and then `add_branch` for each of a list of keys. -/
def copyWithBranches (t : SparseMerkleTree) (strategy : CopyStrategy) (importKeys keys : List Bytes) :
    Smt Unit := do
  subtreeImporting t strategy importKeys
  importBranches t keys

theorem copyWithBranches_view (hg : KeccakGood S) (h : Refines S t r m) (strategy : CopyStrategy)
    (importKeys keys : List Bytes) :
    (copyWithBranches t strategy importKeys keys .new).res = .ok () ∧
      View (copyWithBranches t strategy importKeys keys .new).state t := by
  obtain ⟨s₁, log₁, hrun₁, hview₁⟩ : ∃ s₁ log₁, subtreeImporting t strategy importKeys .new =
      ⟨.ok (), s₁, log₁⟩ ∧ View s₁ t := by
    cases strategy with
    | partialCopy =>
      obtain ⟨hok, himported⟩ := partialSubtree_imported hg h importKeys
      exact ⟨_, _, Run.eq_of_res hok, himported.view (view_subtree t _)⟩
    | full => exact ⟨_, _, rfl, view_subtree t .full⟩
    | none => exact ⟨_, _, rfl, view_subtree t .none⟩
  obtain ⟨s₂, log₂, hrun₂, himported⟩ := importBranches_imported hg h keys s₁
  have hrun : copyWithBranches t strategy importKeys keys .new = ⟨.ok (), s₂, log₁ ++ log₂⟩ := by
    rw [copyWithBranches, bind_ok hrun₁, hrun₂]
  rw [hrun]
  exact ⟨rfl, himported.view hview₁⟩

/-- **When failing updates are atomic.** For every tree of a run, every copy of it with the branches
of some keys and every list of calls on the copy: the calls that return an error change nothing,
exactly if none of the calls deletes a key whose deepest side node is missing. -/
theorem failed_updates_atomic_iff (hg : KeccakGood S) (calls : List (Bytes × Bytes))
    (hlog : ∀ q ∈ queries calls, q ∈ S) (strategy : CopyStrategy) (importKeys keys : List Bytes)
    (es : List (Bytes × Bytes))
    (hrun : ∀ q ∈ (updateAll es
      (copyWithBranches (after calls) strategy importKeys keys .new).state).log, q ∈ S) :
    (copyWithBranches (after calls) strategy importKeys keys .new).res = .ok () ∧
      (Along AtomicCall es (copyWithBranches (after calls) strategy importKeys keys .new).state ↔
        Along SafeCall es (copyWithBranches (after calls) strategy importKeys keys .new).state) := by
  obtain ⟨r, h⟩ := exists_refines hg hlog
  obtain ⟨hok, hview⟩ := copyWithBranches_view hg h strategy importKeys keys
  exact ⟨hok, atomic_along_iff hg es ⟨_, r, _, h, hview⟩ hrun⟩

end Atomic

namespace Atomic

open scoped Sample

/-- Three keys. The paths of `[1]` and `[3]` part last. -/
def calls : List (Bytes × Bytes) := [([1], [10]), ([2], [20]), ([3], [30])]

def copy : SparseMerkleTree := (copyWithBranches (after calls) .none [] [[1], [3]] .new).state

/-- A key that was not imported, a deletion of one that is not in the tree, and an update. -/
def updates : List (Bytes × Bytes) := [([2], []), ([2], [21]), ([1], [11])]

@[irreducible] def sampleLog : List Query := queries calls ++ (updateAll updates copy).log

theorem failed_updates_atomic_iff_sample : Along AtomicCall updates copy := by
  have hS : KeccakGood {q | q ∈ sampleLog} :=
    Sample.keccakGood_of_collisionFree (by decide +kernel)
  refine (failed_updates_atomic_iff hS calls (fun q hq => ?_) .none [] [[1], [3]] updates
    fun q hq => ?_).2.2 ⟨fun _ => ?_, fun h => ?_, fun h => ?_, trivial⟩
  · show q ∈ sampleLog
    rw [sampleLog]
    exact List.mem_append_left _ hq
  · show q ∈ sampleLog
    rw [sampleLog]
    exact List.mem_append_right _ hq
  · show siblingMissing [2] copy = false
    decide +kernel
  · cases h
  · cases h

/-- After the first deletion the leaf of `[3]` is next to that of `[2]`, which is not in the copy: the
second deletion fails, and the value of `[3]` is gone. -/
theorem failed_delete_changes :
    (update [1] [] copy).res.isOk = true ∧
    (update [3] [] (update [1] [] copy).state).res = .error (.err .storageErrorKeyNotFound) ∧
    (update [1] [] copy).state.values.get? (Crypto.keccak256 [3]) = some [30] ∧
    (update [3] [] (update [1] [] copy).state).state.values.get? (Crypto.keccak256 [3]) = none ∧
    ¬ Along AtomicCall [([1], []), ([3], [])] copy := by
  have hres : (update [3] [] (update [1] [] copy).state).res =
      .error (.err .storageErrorKeyNotFound) := by decide +kernel
  have hbefore : (update [1] [] copy).state.values.get? (Crypto.keccak256 [3]) = some [30] := by
    decide +kernel
  have hafter : (update [3] [] (update [1] [] copy).state).state.values.get?
      (Crypto.keccak256 [3]) = none := by decide +kernel
  refine ⟨by decide +kernel, hres, hbefore, hafter, fun hatomic => ?_⟩
  have hsame : (update [3] [] (update [1] [] copy).state).state = (update [1] [] copy).state :=
    hatomic.2.1 _ hres
  rw [hsame, hbefore] at hafter
  cases hafter

end Atomic

end Uchain
