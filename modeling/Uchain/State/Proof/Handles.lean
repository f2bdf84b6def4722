import Uchain.State.Proof.VersionedMap

/-!
# Every handle on the trie database

`TreeDB.Reached`: a database that was opened on an empty store and used by any calls, opened again,
or opened read-only at a stored version. `TreeDB.Handle` is what holds of all of them. It is less
than `TreeDB.Inv`: a batch that a read-only store refuses has changed the head but not the staged
version.
-/

namespace Uchain

open Lib
open Exec hiding bind pure

namespace TreeDB

section Crypto

variable [Crypto] {K V : Type} [Codec K] [Codec V] {S : Set Query}

/-- A version whose values were written by the calls: each is an encoded value or a deletion. -/
structure Written (V : Type) [Codec V] (S : Set Query) (t : SparseMerkleTree) (r : Trie) : Prop
    extends Version S t r where
  items : ∀ p b, t.values.get? p = some b → ∃ x : Option V, b = itemBytes x

variable {r : Trie} {t : SparseMerkleTree}

theorem written_subtree (h : Rep S t r) :
    Written V S (t.subtree .partialCopy) r :=
  ⟨h.version_subtree, fun _ _ hb => by cases hb⟩

theorem Written.update {t' : SparseMerkleTree} {key : Bytes} {x : Option V} (h : Written V S t r)
    (hu : Updated S t t' r key (itemBytes x)) :
    Written V S t' (r.insert (Crypto.keccak256 key) (Crypto.keccak256 (itemBytes x))) := by
  refine ⟨h.toVersion.update hu (itemBytes_ne_nil x), fun p b hb => ?_⟩
  rw [hu.values] at hb
  split at hb
  · cases hb
    exact ⟨x, rfl⟩
  · exact h.items p b hb

/-- What holds of every handle, with the tries of the head and of the staged version. -/
structure Handle (V : Type) [Codec V] (S : Set Query) (d : TreeDB) (rh rs : Trie) : Prop where
  strategy : d.strategy = .partialCopy
  stored : ∀ h t, d.db.trees.get? h = some t → t.root = h ∧ ∃ r, Written V S t r
  head : Written V S d.head rh
  staging : Written V S d.staging rs
  /-- A handle that can write reads on from the head. -/
  linked : d.db.readOnly = false → d.staging.parent = d.head.root

variable {d : TreeDB} {rh rs : Trie}

/-! ## The calls -/

omit [Crypto] in
theorem encodeOp_item (op : Op K V) : ∃ x : Option V, (encodeOp op).2 = itemBytes x := by
  cases op with
  | delete key => exact ⟨none, rfl⟩
  | put key value => exact ⟨some value, rfl⟩

omit [Crypto] in
theorem batchEntries_item {order : HashOrder} {batch : List (Op K V)} {e : Bytes × Bytes}
    (he : e ∈ batchEntries order batch) : ∃ x : Option V, e.2 = itemBytes x := by
  obtain ⟨op, _, rfl⟩ := List.mem_map.1 (mem_collect ((order.perm _).mem_iff.1 he))
  exact encodeOp_item op

theorem wp_updates_batch (hg : KeccakGood S) (order : HashOrder) (batch : List (Op K V))
    (h : Written V S t r) :
    wp S (updates (batchEntries order batch)) t fun res t' => ∃ a, res = .ok a ∧
      Written V S t' (r.insertAll (batchEntries order batch)) ∧
      ∀ e ∈ batchEntries order batch, .keccak256 e.1 ∈ S ∧ .keccak256 e.2 ∈ S := by
  refine wp_updates_inv hg (fun _ _ hw => hw.rep) _ (fun e he => batchEntries_ne_nil he) ?_ h
  intro e he t₁ t₂ r₁ hw hu
  obtain ⟨x, hx⟩ := batchEntries_item he
  rw [hx] at hu ⊢
  exact hw.update hu

theorem handle_open (S : Set Query) {db : TrieCacheDatabase}
    (h : ∀ i t, db.trees.get? i = some t → t.root = i ∧ ∃ r, Written V S t r) :
    Handle V S (openDb db) .empty .empty where
  strategy := rfl
  stored := h
  head := ⟨(Rep.new S).version_subtree, fun _ _ hb => by cases hb⟩
  staging := written_subtree (Rep.new S)
  linked _ := rfl

theorem Handle.wp_write (hg : KeccakGood S) (h : Handle V S d rh rs) (key : Bytes) (x : Option V) :
    wp S (onStaging (SparseMerkleTree.update key (itemBytes x)) >>= fun _ => (pure () : M Unit)) d
      fun res d' => ∃ a, res = .ok a ∧ (d'.db = d.db ∧ d'.head = d.head) ∧
        Handle V S d' rh (rs.insert (Crypto.keccak256 key) (Crypto.keccak256 (itemBytes x))) := by
  have hupd : wp S (onStaging (SparseMerkleTree.update key (itemBytes x))) d fun res d' =>
      ∃ a, res = .ok a ∧ ∃ t', d' = { d with staging := t' } ∧
        Updated S d.staging t' rs key (itemBytes x) := by
    refine wp_mapErr_ok (wp_zoom ?_)
    refine wp_mono (wp_update hg h.staging.rep key (itemBytes_ne_nil x)) ?_
    intro res t' hres
    obtain ⟨a, rfl, -, hu⟩ := hres
    exact ⟨a, rfl, t', rfl, hu⟩
  refine wp_bind_ok hupd ?_
  intro _ d' hstep
  obtain ⟨t', rfl, hu⟩ := hstep
  apply wp_pure
  refine ⟨(), rfl, ⟨rfl, rfl⟩, h.strategy, h.stored, h.head, h.staging.update hu, fun hro => ?_⟩
  exact hu.parent.trans (h.linked hro)

variable {tree : SparseMerkleTree}

omit [Crypto] in
theorem stored_insert [Crypto] {trees : BTreeMap H256 SparseMerkleTree}
    (h : ∀ i t, trees.get? i = some t → t.root = i ∧ ∃ r, Written V S t r)
    (ht : Written V S tree r) :
    ∀ i t, (trees.insert tree.root tree).get? i = some t → t.root = i ∧ ∃ r, Written V S t r := by
  intro i t hi
  rw [BTreeMap.get?_insert] at hi
  split at hi
  · rename_i he
    cases hi
    exact ⟨he.symm, r, ht⟩
  · exact h i t hi

theorem Handle.committed (hg : KeccakGood S) (h : Handle V S d rh rs) (persist : Bool) :
    Handle V S (d.committed persist) rs rs := by
  unfold TreeDB.committed
  by_cases heq : d.head.root = d.staging.root
  · rw [if_pos heq]
    have : rh = rs := h.head.rep.root_inj hg h.staging.rep heq
    subst this
    exact h
  · rw [if_neg heq, h.strategy]
    refine ⟨rfl, ?_, h.staging, written_subtree h.staging.rep, fun _ => rfl⟩
    dsimp only
    split
    · exact stored_insert h.stored h.staging
    · exact h.stored

theorem handle_restart (hs : d.strategy = .partialCopy)
    (hst : ∀ h t, d.db.trees.get? h = some t → t.root = h ∧ ∃ r, Written V S t r)
    (ht : Written V S tree r) :
    Handle V S { d with head := tree, staging := tree.subtree d.strategy } r r := by
  rw [hs]
  exact ⟨rfl, hst, ht, written_subtree ht.rep, fun _ => rfl⟩

theorem Handle.wp_apply (hg : KeccakGood S) (h : Handle V S d rh rs) (order : HashOrder)
    (batch : List (Op K V)) (persist : Bool) :
    wp S (TreeDB.apply order batch persist) d fun _ d' => ∃ rh' rs', Handle V S d' rh' rs' := by
  refine wp_bind_run (commit_run persist d) ?_
  have hc := h.committed hg persist
  generalize d.committed persist = c at hc
  have hupd : wp S (onHead (updates (batchEntries order batch))) c fun res c' =>
      ∃ a, res = .ok a ∧ ∃ t, c' = { c with head := t } ∧
        Written V S t (rs.insertAll (batchEntries order batch)) := by
    refine wp_mapErr_ok (wp_zoom ?_)
    refine wp_mono (wp_updates_batch hg order batch hc.head) ?_
    intro res t hres
    obtain ⟨a, rfl, hw, -⟩ := hres
    exact ⟨a, rfl, t, rfl, hw⟩
  refine wp_bind_ok hupd ?_
  intro _ c' hstep
  obtain ⟨t, rfl, hw⟩ := hstep
  refine wp_bind (wp_get ?_)
  refine wp_bind (wp_dbPut (fun hro => ?_) fun _ => ?_)
  · -- the batch is refused after the head has changed
    refine ⟨_, _, hc.strategy, hc.stored, hw, hc.staging, fun hwrite => ?_⟩
    cases hwrite.symm.trans hro
  · refine wp_bind (wp_modify (wp_pure ?_))
    have h' := handle_restart (d := { c with db := { c.db with trees := c.db.trees.insert t.root t } })
      hc.strategy (stored_insert hc.stored hw) hw
    exact ⟨_, _, h'⟩

/-- A batch at a stored version: its root, unless the store is read-only. -/
theorem Handle.wp_applyNonCommit (hg : KeccakGood S) (h : Handle V S d rh rs) (order : HashOrder)
    {atRoot : H256} (ht : d.db.trees.get? atRoot = some tree) (hv : Written V S tree r)
    (batch : List (Op K V)) :
    wp S (TreeDB.applyNonCommit order atRoot batch) d fun res d' =>
      (res = if d.db.readOnly then .error (.err .storeReadOnly)
        else .ok (r.insertAll (batchEntries order batch)).hash) ∧
      (∀ e ∈ batchEntries order batch, .keccak256 e.1 ∈ S ∧ .keccak256 e.2 ∈ S) ∧
      Handle V S d' rh rs := by
  refine wp_applyNonCommit_of ht (wp_updates_batch hg order batch hv) ?_ ?_
  · intro t' ht' hro
    exact ⟨by rw [hro]; rfl, ht'.2, h⟩
  · intro t' ht' hro
    refine ⟨by rw [hro, ht'.1.rep.root]; rfl, ht'.2, ?_⟩
    exact ⟨h.strategy, stored_insert h.stored ht'.1, h.head, h.staging, h.linked⟩

/-- **One call.** -/
theorem Handle.wp_run (hg : KeccakGood S) (h : Handle V S d rh rs) (order : HashOrder)
    (c : Call K V) : wp S (c.run order) d fun _ d' => ∃ rh' rs', Handle V S d' rh' rs' := by
  cases c with
  | put key value =>
    refine wp_mono (h.wp_write hg (Codec.encode key) (some value)) ?_
    intro res d' hres
    obtain ⟨a, -, -, h'⟩ := hres
    exact ⟨_, _, h'⟩
  | delete key =>
    refine wp_mono (h.wp_write hg (Codec.encode key) none) ?_
    intro res d' hres
    obtain ⟨a, -, -, h'⟩ := hres
    exact ⟨_, _, h'⟩
  | commit persist =>
    refine wp_bind_run (commit_run persist d) (wp_pure ?_)
    exact ⟨_, _, h.committed hg persist⟩
  | apply batch persist =>
    refine wp_bind (wp_mono (h.wp_apply hg order batch persist) ?_)
    intro res d' hres
    cases res with
    | error e => exact hres
    | ok a => exact wp_pure hres
  | applyNonCommit atRoot batch =>
    cases ht : d.db.trees.get? atRoot with
    | none =>
      have hget := dbGet_run atRoot d
      rw [ht] at hget
      exact wp_bind (wp_bind_res hget ⟨_, _, h⟩)
    | some tree =>
      obtain ⟨-, r, hv⟩ := h.stored atRoot tree ht
      refine wp_bind (wp_mono (h.wp_applyNonCommit hg order ht hv batch) ?_)
      intro res d' hres
      obtain ⟨-, -, h'⟩ := hres
      cases res with
      | error e => exact ⟨_, _, h'⟩
      | ok a => exact wp_pure ⟨_, _, h'⟩
  | rollback => exact wp_modify ⟨_, _, handle_restart h.strategy h.stored h.head⟩
  | reset root =>
    intro _
    show ∃ rh' rs', Handle V S (TreeDB.reset root d).state rh' rs'
    rw [reset_run]
    cases ht : d.db.trees.get? root with
    | none => exact ⟨_, _, h⟩
    | some tree =>
      obtain ⟨-, r, hv⟩ := h.stored root tree ht
      exact ⟨_, _, handle_restart h.strategy h.stored hv⟩

/-! ## Handles that can be reached -/

/-- A handle that can be reached, with everything that was hashed on the way in `S`. -/
inductive Reached (K V : Type) [Codec K] [Codec V] (S : Set Query) : TreeDB → Prop
  | opened : Reached K V S opened
  | call {d : TreeDB} (h : Reached K V S d) (order : HashOrder) (c : Call K V)
      (hlog : ∀ q ∈ (c.run order d).log, q ∈ S) : Reached K V S (c.run order d).state
  | reopened {d : TreeDB} (h : Reached K V S d) : Reached K V S (openDb ⟨d.db.trees, false⟩)
  | readOnly {d d' : TreeDB} (h : Reached K V S d) (root : H256)
      (hd : openReadOnlyAtRoot d.db root = .ok d') : Reached K V S d'

/-- **What holds of every handle.** -/
theorem Reached.handle (hg : KeccakGood S) (h : Reached K V S d) :
    ∃ rh rs, Handle V S d rh rs := by
  induction h with
  | opened => exact ⟨_, _, handle_open S fun _ _ ht => by cases ht⟩
  | call _ order c hlog ih =>
    obtain ⟨rh, rs, h⟩ := ih
    exact h.wp_run hg order c hlog
  | reopened _ ih =>
    obtain ⟨rh, rs, h⟩ := ih
    exact ⟨_, _, handle_open S h.stored⟩
  | readOnly _ root hd ih =>
    obtain ⟨rh, rs, h⟩ := ih
    rw [openReadOnlyAtRoot] at hd
    split at hd
    · cases hd
    · rename_i tree ht
      cases hd
      obtain ⟨-, r, hv⟩ := h.stored root tree ht
      exact ⟨r, r, rfl, h.stored, hv, hv, fun hro => by cases hro⟩

theorem Reached.after (order : HashOrder) (calls : List (Call K V)) : ∀ {d : TreeDB},
    Reached K V S d → (∀ q ∈ queries order calls d, q ∈ S) →
      Reached K V S (d.after order calls) := by
  induction calls with
  | nil => exact fun h _ => h
  | cons c calls ih =>
    intro d h hlog
    refine ih (h.call order c fun q hq => hlog q (List.mem_append_left _ hq)) ?_
    exact fun q hq => hlog q (List.mem_append_right _ hq)

/-! ## Batches and single writes -/

/-- One operation of a batch, by `put` or `delete`. -/
def Op.write : Op K V → M Unit
  | .put key value => TreeDB.put key value
  | .delete key => TreeDB.delete (K := K) key

/-- The operations of a batch one by one, and a commit. -/
def stepwise (batch : List (Op K V)) : M H256 := do
  forEach Op.write batch
  commit true

theorem Handle.wp_opWrite (hg : KeccakGood S) (h : Handle V S d rh rs) (op : Op K V) :
    wp S (Op.write op) d fun res d' => ∃ a, res = .ok a ∧ (d'.db = d.db ∧ d'.head = d.head) ∧
      Handle V S d' rh
        (rs.insert (Crypto.keccak256 (encodeOp op).1) (Crypto.keccak256 (encodeOp op).2)) := by
  cases op with
  | put key value => exact h.wp_write hg (Codec.encode key) (some value)
  | delete key => exact h.wp_write hg (Codec.encode key) none

theorem Handle.wp_opWrites (hg : KeccakGood S) : ∀ (batch : List (Op K V)) {d : TreeDB} {rs : Trie},
    Handle V S d rh rs → wp S (forEach Op.write batch) d fun res d' =>
      ∃ a, res = .ok a ∧ Handle V S d' rh (rs.insertAll (batch.map encodeOp))
  | [], _, _, h => wp_forEach_nil ⟨(), rfl, h⟩
  | op :: batch, d, rs, h => by
    refine wp_forEach_cons (wp_mono (h.wp_opWrite hg op) ?_)
    intro res d' hres
    obtain ⟨a, rfl, -, h'⟩ := hres
    exact wp_opWrites hg batch h'

/-- The single writes: the commit returns the root of the trie with the operations, in their order. -/
theorem Handle.wp_stepwise (hg : KeccakGood S) (h : Handle V S d rh rs) (batch : List (Op K V)) :
    wp S (stepwise batch) d fun res _ =>
      res = .ok (rs.insertAll (batch.map encodeOp)).hash := by
  refine wp_bind_ok (Handle.wp_opWrites hg batch h) ?_
  intro _ d' h' _
  rw [commit_run]
  exact congrArg Except.ok h'.staging.rep.root

/-- **Batches and single writes agree.** Whatever the order in which the batch's map is iterated, a
batch at the root of the head gives the root that a commit of its operations, one by one, returns;
only a store that was opened read-only refuses the batch. -/
theorem applyNonCommit_eq_stepwise (hg : KeccakGood S) (hd : Reached K V S d)
    (hclean : d.staging.root = d.head.root) (hstored : (d.db.trees.get? d.root).isSome)
    (order : HashOrder) (batch : List (Op K V))
    (hbatch : ∀ q ∈ (applyNonCommit order d.root batch d).log, q ∈ S)
    (hsteps : ∀ q ∈ (stepwise batch d).log, q ∈ S) :
    ∃ root, (stepwise batch d).res = .ok root ∧
      (applyNonCommit order d.root batch d).res =
        if d.db.readOnly then .error (.err .storeReadOnly) else .ok root := by
  obtain ⟨rh, rs, h⟩ := hd.handle hg
  obtain ⟨tree, htree⟩ := Option.isSome_iff_exists.1 hstored
  obtain ⟨hroot, r, hv⟩ := h.stored d.root tree htree
  -- head, staged version and stored version have one root, hence one trie
  have hr : r = rs := hv.rep.root_inj hg h.staging.rep (hroot.trans hclean.symm)
  subst hr
  refine ⟨_, h.wp_stepwise hg batch hsteps, ?_⟩
  obtain ⟨hres, hmem, -⟩ := h.wp_applyNonCommit hg order htree hv batch hbatch
  rw [hres, batchEntries, insertAll_batch hg hv.rep.isTrie order fun e he => (hmem e he).1]

end Crypto

end TreeDB

namespace Handles

open Sample
open TreeDB Immutable

def backwards : HashOrder := ⟨List.reverse, List.reverse_perm⟩

def batch : List (Op Address Address) :=
  [.put (address 1) (address 11), .delete (address 2),
    .put (address 1) (address 12)]

def first : TreeDB := opened.after order firstCalls

@[irreducible] def sampleLog : List Query :=
  queries order firstCalls opened ++
    ((applyNonCommit backwards first.root batch first).log ++ (stepwise batch first).log)

theorem applyNonCommit_eq_stepwise_sample : ∃ root, (stepwise batch first).res = .ok root ∧
    (applyNonCommit backwards first.root batch first).res = .ok root := by
  have hS : KeccakGood {q | q ∈ sampleLog} :=
    keccakGood_of_collisionFree (by decide +kernel)
  have hmem : ∀ q, q ∈ queries order firstCalls opened ++
      ((applyNonCommit backwards first.root batch first).log ++ (stepwise batch first).log) →
      q ∈ {q | q ∈ sampleLog} := by
    intro q hq
    show q ∈ sampleLog
    rw [sampleLog]
    exact hq
  have hreached : Reached Address Address {q | q ∈ sampleLog} first :=
    Reached.opened.after order firstCalls fun q hq => hmem q (List.mem_append_left _ hq)
  have hro : first.db.readOnly = false := by decide +kernel
  have h := applyNonCommit_eq_stepwise hS hreached (by decide +kernel) (by decide +kernel)
    backwards batch
    (fun q hq => hmem q (List.mem_append_right _ (List.mem_append_left _ hq)))
    (fun q hq => hmem q (List.mem_append_right _ (List.mem_append_right _ hq)))
  rwa [hro] at h

def handleOf : Except StateError TreeDB → TreeDB
  | .ok d => d
  | .error _ => opened

theorem eq_ok_handleOf {r : Except StateError TreeDB} (h : r.toOption.isSome = true) :
    r = .ok (handleOf r) := by
  cases r with
  | ok d => rfl
  | error e => cases h

def readOnlyHandle : TreeDB := handleOf (openReadOnlyAtRoot first.db first.root)

/-- Nothing is staged and the root of the head is stored; the single writes give a root, the batch an
error. -/
theorem applyNonCommit_refused_readOnly :
    openReadOnlyAtRoot first.db first.root = .ok readOnlyHandle ∧
      readOnlyHandle.staging.root = readOnlyHandle.head.root ∧
      (readOnlyHandle.db.trees.get? readOnlyHandle.root).isSome ∧
      (applyNonCommit order readOnlyHandle.root batch readOnlyHandle).res =
        .error (.err .storeReadOnly) ∧
      ∃ root, (stepwise batch readOnlyHandle).res = .ok root := by
  have hsteps : ∀ r : Except (Fail StateError) H256, r.toOption.isSome = true →
      ∃ root, r = .ok root := by
    intro r hr
    cases r with
    | ok root => exact ⟨root, rfl⟩
    | error e => cases hr
  exact ⟨eq_ok_handleOf (by decide +kernel), by decide +kernel, by decide +kernel, by decide +kernel,
    hsteps _ (by decide +kernel)⟩

end Handles

end Uchain
