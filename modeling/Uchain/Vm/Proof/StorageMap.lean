import Uchain.Lib.Returns
import Uchain.Smt.Proof.Contents
import Uchain.Types.Wire
import Uchain.Vm.StorageMap

/-!
# Maps in storage, as maps

A value whose encoding is empty (a `prost` message with all fields at their defaults) is no value for the
tree: `put` of it deletes, and fails if there is nothing to delete. All other values are stored.

* `get_of_stores`, `put_of_stores`, `remove_of_stores`: one call, against the map that the storage holds.
-/

namespace Uchain

open Lib Exec Lib.Protobuf Function

/-- A call of the framework. -/
inductive MapCall (K V : Type) where
  | put (key : K) (value : V)
  | remove (key : K)
  | get (key : K)
  | contains (key : K)

namespace MapCall

variable {K V : Type}

def key : MapCall K V → K
  | .put key _ | .remove key | .get key | .contains key => key

/-- What a call does to a map. -/
def apply [DecidableEq K] (m : K → Option V) : MapCall K V → K → Option V
  | .put key value => update m key (some value)
  | .remove key => update m key none
  | .get _ | .contains _ => m

end MapCall

/-! ## Host calls -/

namespace ExecutionEnvironment

open SparseMerkleTree (Refines)

variable [Crypto] {S : Set Query} {env : ExecutionEnvironment} {r : Trie} {kv : KvMap} {key : Bytes}

omit [Crypto] in
theorem onStorage_run {α : Type} (x : Smt α) (env : ExecutionEnvironment) :
    onStorage x env = ⟨mapFail StateError.smt (x env.storage).res,
      { env with storage := (x env.storage).state }, (x env.storage).log⟩ := mapErr_run _ _ _

omit [Crypto] in
theorem log_attempt_subset {α β : Type} {x : Smt α} {f : Except StateError α → M β}
    (hlog : ∀ q ∈ ((attempt (onStorage x) >>= f : M β) env).log, q ∈ S) :
    ∀ q ∈ (x env.storage).log, q ∈ S := by
  intro q hq
  refine hlog q (log_subset_bind (attempt (onStorage x)) f env ?_)
  rw [attempt_run, onStorage_run]
  exact hq

theorem get_of_refines (hg : KeccakGood S) (h : Refines S env.storage r kv)
    (hlog : ∀ q ∈ (get key env).log, q ∈ S) :
    ∃ l, get key env = ⟨.ok (some ((kv.get? key).getD [])), env, l⟩ := by
  have hrun := onStorage_run (SparseMerkleTree.get key) env
  obtain ⟨hres, hstate⟩ := SparseMerkleTree.wp_get_refines hg h key (log_attempt_subset hlog)
  rw [hres, hstate] at hrun
  unfold get
  rw [bind_ok (attempt_ok hrun)]
  exact ⟨_, rfl⟩

/-- An insertion fails where an empty value meets an absent key, and otherwise changes the map. -/
theorem insert_of_refines (hg : KeccakGood S) (h : Refines S env.storage r kv) {value : Bytes}
    (hlog : ∀ q ∈ (insert key value env).log, q ∈ S) :
    ((∃ a, (insert key value env).res = .ok a) ↔ value ≠ [] ∨ kv.get? key ≠ none) ∧
      ∃ r', Refines S (insert key value env).state.storage r' (kv.update (key, value)) := by
  have hrun := onStorage_run (SparseMerkleTree.update key value) env
  have hsub : ∀ q ∈ (SparseMerkleTree.update key value env.storage).log, q ∈ S := by
    intro q hq
    refine hlog q (log_subset_bind (onStorage (SparseMerkleTree.update key value))
      (fun _ => Pure.pure ()) env ?_)
    rw [hrun]
    exact hq
  obtain ⟨hout, r', href⟩ := SparseMerkleTree.wp_update_refines hg h key value hsub
  have hstate : (insert key value env).state.storage =
      (SparseMerkleTree.update key value env.storage).state := by
    unfold insert
    rw [state_bind_pure, hrun]
  refine ⟨?_, r', hstate ▸ href⟩
  unfold insert
  unfold SparseMerkleTree.Outcome at hout
  split at hout
  · rename_i hnone
    rw [hout.1] at hrun
    rw [bind_error hrun]
    simp [hnone]
  · rename_i hsome
    obtain ⟨root, hroot⟩ := hout
    rw [hroot] at hrun
    rw [bind_ok hrun]
    refine iff_of_true ⟨_, rfl⟩ ?_
    by_cases hvalue : value = []
    · exact .inr fun hkey => hsome ⟨hvalue, hkey⟩
    · exact .inl hvalue

theorem remove_of_refines (hg : KeccakGood S) (h : Refines S env.storage r kv)
    (hlog : ∀ q ∈ (remove key env).log, q ∈ S) :
    (∃ b, (remove key env).res = .ok b) ∧
      ∃ r', Refines S (remove key env).state.storage r' (kv.update (key, [])) := by
  have hrun := onStorage_run (SparseMerkleTree.update key []) env
  obtain ⟨hout, r', href⟩ :=
    SparseMerkleTree.wp_update_refines hg h key [] (log_attempt_subset hlog)
  have hcaught : ∃ x, attempt (onStorage (SparseMerkleTree.update key [])) env =
      ⟨.ok x, { env with storage := (SparseMerkleTree.update key [] env.storage).state },
        (SparseMerkleTree.update key [] env.storage).log⟩ := by
    rw [attempt_run, hrun]
    unfold SparseMerkleTree.Outcome at hout
    split at hout
    · rw [hout.1]
      exact ⟨_, rfl⟩
    · obtain ⟨root, hroot⟩ := hout
      rw [hroot]
      exact ⟨_, rfl⟩
  obtain ⟨x, hcaught⟩ := hcaught
  unfold remove
  rw [bind_ok hcaught]
  cases x with
  | error e => exact ⟨⟨_, rfl⟩, r', href⟩
  | ok a => exact ⟨⟨_, rfl⟩, r', href⟩

end ExecutionEnvironment

namespace StorageMap

open ExecutionEnvironment (M)

variable [Crypto] {K V : Type}

/-- A call, without its result. -/
def exec (s : StorageMap K V) : MapCall K V → M Unit
  | .put key value => s.put key value
  | .remove key => do let _ ← s.remove key
  | .get key => do let _ ← s.get key
  | .contains key => do let _ ← s.contains key

/-- What is read at the keys of `U` is what the map has. -/
def Agrees (s : StorageMap K V) (U : Set K) (m : K → Option V) (env : ExecutionEnvironment) : Prop :=
  ∀ k ∈ U, (s.get k env).res = .ok (.ok (m k)) ∧ (s.contains k env).res = .ok (m k).isSome

/-- **The calls are those of a map**: before and after each of them, what is read is what the map has, and
none of them fails. -/
def IsMap [DecidableEq K] (s : StorageMap K V) (U : Set K) : (K → Option V) → List (MapCall K V) →
    ExecutionEnvironment → Prop
  | m, [], env => s.Agrees U m env
  | m, c :: calls, env => s.Agrees U m env ∧ (∃ a, (s.exec c env).res = .ok a) ∧
    IsMap s U (c.apply m) calls (s.exec c env).state

/-- All inputs that the tree hashes in the calls, and in reads between them, are in `S`. -/
def Hashes (S : Set Query) (s : StorageMap K V) (U : Set K) : List (MapCall K V) →
    ExecutionEnvironment → Prop
  | [], env => ∀ k ∈ U, ∀ q ∈ (s.get k env).log, q ∈ S
  | c :: calls, env => (∀ k ∈ U, ∀ q ∈ (s.get k env).log, q ∈ S) ∧ (∀ q ∈ (s.exec c env).log, q ∈ S) ∧
    Hashes S s U calls (s.exec c env).state

theorem IsMap.agrees [DecidableEq K] {s : StorageMap K V} {U : Set K} {m : K → Option V}
    {calls : List (MapCall K V)} {env : ExecutionEnvironment} (h : s.IsMap U m calls env) :
    s.Agrees U m env := by
  cases calls with
  | nil => exact h
  | cons c calls => exact h.1

theorem Hashes.reads {S : Set Query} {s : StorageMap K V} {U : Set K} {calls : List (MapCall K V)}
    {env : ExecutionEnvironment} (h : Hashes S s U calls env) :
    ∀ k ∈ U, ∀ q ∈ (s.get k env).log, q ∈ S := by
  cases calls with
  | nil => exact h
  | cons c calls => exact h.1

/-- An encoding that reads back. -/
def RoundTrips {α : Type} (m : Message α) (a : α) : Prop := m.decode (m.encode a) = .ok a

/-- The storage holds the map. -/
structure Stores (S : Set Query) (s : StorageMap K V) (U : Set K) (m : K → Option V)
    (env : ExecutionEnvironment) : Prop where
  held : ∃ r kv, SparseMerkleTree.Refines S env.storage r kv ∧
    ∀ k ∈ U, kv.get? (s.storageKey k) = (m k).map s.value.encode
  reads : ∀ k ∈ U, ∀ v, m k = some v → RoundTrips s.value v

variable {S : Set Query} {s : StorageMap K V} {U : Set K} {m : K → Option V}
  {env : ExecutionEnvironment} {k : K}

/-! ## Reads -/

theorem get_of_stores (hg : KeccakGood S) (h : Stores S s U m env) (hk : k ∈ U)
    (hlog : ∀ q ∈ (s.get k env).log, q ∈ S) :
    ∃ l, s.get k env = ⟨.ok (.ok (m k)), env, l⟩ := by
  obtain ⟨r, kv, href, hkv⟩ := h.held
  have hsub : ∀ q ∈ (ExecutionEnvironment.get (s.storageKey k) env).log, q ∈ S := fun q hq =>
    hlog q (log_subset_bind (ExecutionEnvironment.get (s.storageKey k)) _ env hq)
  obtain ⟨l, hget⟩ := ExecutionEnvironment.get_of_refines hg href hsub
  unfold get
  rw [bind_ok hget, hkv k hk]
  cases hm : m k with
  | none => exact ⟨_, rfl⟩
  | some v =>
    have hne : s.value.encode v ≠ [] :=
      (href.hashed (s.storageKey k) _ (by rw [hkv k hk, hm]; rfl)).2.2
    simp only [Option.map_some, Option.getD_some, List.isEmpty_iff, if_neg hne]
    rw [show s.value.decode (s.value.encode v) = .ok v from h.reads k hk v hm]
    exact ⟨_, rfl⟩

theorem agrees_of_stores (hg : KeccakGood S) (h : Stores S s U m env)
    (hlog : ∀ k ∈ U, ∀ q ∈ (s.get k env).log, q ∈ S) : s.Agrees U m env := by
  intro k hk
  obtain ⟨l, hget⟩ := get_of_stores hg h hk (hlog k hk)
  refine ⟨by rw [hget], ?_⟩
  unfold contains
  rw [bind_ok hget]
  rfl

/-! ## Writes -/

theorem stores_update [DecidableEq K] {kv : KvMap} {r : Trie} {value : Bytes} {o : Option V}
    (hinj : Set.InjOn s.storageKey U) (h : Stores S s U m env) (hk : k ∈ U)
    {env' : ExecutionEnvironment}
    (hkv : ∀ k ∈ U, kv.get? (s.storageKey k) = (m k).map s.value.encode)
    (href : SparseMerkleTree.Refines S env'.storage r (kv.update (s.storageKey k, value)))
    (hvalue : (if value = [] then none else some value) = o.map s.value.encode)
    (hreads : ∀ v, o = some v → RoundTrips s.value v) :
    Stores S s U (update m k o) env' := by
  refine ⟨⟨r, _, href, fun k' hk' => ?_⟩, fun k' hk' v hv => ?_⟩
  · rw [KvMap.get?_update]
    by_cases heq : k' = k
    · rw [heq, if_pos rfl, update_self, hvalue]
    · rw [if_neg fun hkey => heq (hinj hk' hk hkey), update_of_ne heq, hkv k' hk']
  · by_cases heq : k' = k
    · rw [heq, update_self] at hv
      exact hreads v hv
    · rw [update_of_ne heq] at hv
      exact h.reads k' hk' v hv

omit [Crypto] in
theorem log_discard {α : Type} {x : M α} (hlog : ∀ q ∈ ((x >>= fun _ => Pure.pure () : M Unit) env).log,
    q ∈ S) : ∀ q ∈ (x env).log, q ∈ S :=
  fun q hq => hlog q (log_subset_bind x (fun _ => Pure.pure ()) env hq)

/-- **One call**, other than a `put` of a value with an empty encoding. -/
theorem stores_exec [DecidableEq K] (hg : KeccakGood S) (hinj : Set.InjOn s.storageKey U)
    (h : Stores S s U m env) {c : MapCall K V} (hk : c.key ∈ U)
    (hvalue : ∀ k v, c = .put k v → s.value.encode v ≠ [] ∧ RoundTrips s.value v)
    (hlog : ∀ q ∈ (s.exec c env).log, q ∈ S) :
    (∃ a, (s.exec c env).res = .ok a) ∧ Stores S s U (c.apply m) (s.exec c env).state := by
  cases c with
  | put k v =>
    obtain ⟨hne, hreads⟩ := hvalue k v rfl
    obtain ⟨r, kv, href, hkv⟩ := h.held
    obtain ⟨hok, r', href'⟩ := ExecutionEnvironment.insert_of_refines hg href hlog
    refine ⟨hok.2 (.inl hne), stores_update hinj h hk hkv href' ?_ ?_⟩
    · rw [if_neg hne, Option.map_some]
    · intro v' hv'
      exact Option.some.inj hv' ▸ hreads
  | remove k =>
    obtain ⟨r, kv, href, hkv⟩ := h.held
    have hsub : ∀ q ∈ (ExecutionEnvironment.remove (s.storageKey k) env).log, q ∈ S := fun q hq =>
      log_discard hlog q (log_subset_bind (ExecutionEnvironment.remove (s.storageKey k)) _ env hq)
    obtain ⟨⟨b, hb⟩, r', href'⟩ := ExecutionEnvironment.remove_of_refines hg href hsub
    have hrun : ∃ x l, s.remove k env =
        ⟨.ok x, (ExecutionEnvironment.remove (s.storageKey k) env).state, l⟩ := by
      unfold remove
      rw [bind_ok (Run.eq_of_res hb)]
      cases b with
      | false => exact ⟨_, _, rfl⟩
      | true => exact ⟨_, _, rfl⟩
    obtain ⟨x, l, hrun⟩ := hrun
    simp only [exec]
    rw [bind_ok hrun]
    refine ⟨⟨_, rfl⟩, stores_update hinj h hk hkv href' rfl ?_⟩
    rintro v hv
    cases hv
  | get k =>
    obtain ⟨l, hget⟩ := get_of_stores (k := k) hg h hk (log_discard hlog)
    simp only [exec]
    rw [bind_ok hget]
    exact ⟨⟨_, rfl⟩, h⟩
  | contains k =>
    have hsub : ∀ q ∈ (s.get k env).log, q ∈ S := fun q hq =>
      log_discard hlog q (log_subset_bind (s.get k) _ env hq)
    obtain ⟨l, hget⟩ := get_of_stores (k := k) hg h hk hsub
    have hrun : ∃ l, s.contains k env = ⟨.ok (m k).isSome, env, l⟩ := by
      unfold contains
      rw [bind_ok hget]
      exact ⟨_, rfl⟩
    obtain ⟨l', hrun⟩ := hrun
    simp only [exec]
    rw [bind_ok hrun]
    exact ⟨⟨_, rfl⟩, h⟩

/-- A `put` of a value with an empty encoding: if it does not fail, the value is not found afterwards. -/
theorem put_empty (hg : KeccakGood S) (h : Stores S s U m env) {v : V}
    (hempty : s.value.encode v = []) (hlog : ∀ q ∈ (s.put k v env).log, q ∈ S)
    (hget : ∀ q ∈ (s.get k (s.put k v env).state).log, q ∈ S) :
    (s.get k (s.put k v env).state).res = .ok (.ok none) := by
  obtain ⟨r, kv, href, -⟩ := h.held
  obtain ⟨-, r', href'⟩ := ExecutionEnvironment.insert_of_refines hg href hlog
  have hsub : ∀ q ∈ (ExecutionEnvironment.get (s.storageKey k) (s.put k v env).state).log, q ∈ S :=
    fun q hq => hget q (log_subset_bind (ExecutionEnvironment.get (s.storageKey k)) _ _ hq)
  obtain ⟨l, hrun⟩ : ∃ l, ExecutionEnvironment.get (s.storageKey k) (s.put k v env).state =
      ⟨.ok (some (((kv.update (s.storageKey k, s.value.encode v)).get? (s.storageKey k)).getD [])),
        (s.put k v env).state, l⟩ := ExecutionEnvironment.get_of_refines hg href' hsub
  unfold get
  rw [bind_ok hrun, KvMap.get?_update, if_pos rfl, hempty, if_pos rfl]
  rfl

/-! ## Sequences of calls -/

omit [Crypto] in
/-- Keys with different encodings are stored at different places. -/
theorem injOn_storageKey (hhash : Set.InjOn s.hash (s.rawKey '' U))
    (hkey : ∀ k ∈ U, RoundTrips s.key k) : Set.InjOn s.storageKey U := by
  intro k hk k' hk' h
  have hraw := hhash (Set.mem_image_of_mem _ hk) (Set.mem_image_of_mem _ hk') h
  have hencode := List.append_cancel_left hraw
  have hreads := hkey k hk
  unfold RoundTrips at hreads
  rw [hencode, hkey k' hk'] at hreads
  exact (Except.ok.inj hreads).symm

theorem stores_of_updates (hg : KeccakGood S) {updates : List (Bytes × Bytes)}
    (hstorage : env.storage = SparseMerkleTree.after updates)
    (hqueries : ∀ q ∈ SparseMerkleTree.queries updates, q ∈ S)
    (hheld : ∀ k ∈ U, (contents updates).get? (s.storageKey k) = (m k).map s.value.encode)
    (hreads : ∀ k ∈ U, ∀ v, m k = some v → RoundTrips s.value v) : Stores S s U m env := by
  obtain ⟨r, href⟩ := SparseMerkleTree.exists_refines hg hqueries
  exact ⟨⟨r, _, hstorage ▸ href, hheld⟩, hreads⟩

/-- What the tree hashes in calls, and in reads of some keys between them. -/
def logged (s : StorageMap K V) (keys : List K) : List (MapCall K V) → ExecutionEnvironment → List Query
  | [], env => keys.flatMap fun k => (s.get k env).log
  | c :: calls, env => (keys.flatMap fun k => (s.get k env).log) ++
    ((s.exec c env).log ++ logged s keys calls (s.exec c env).state)

theorem hashes_of_logged {keys : List K} (hU : ∀ k ∈ U, k ∈ keys) (calls : List (MapCall K V)) :
    ∀ {env : ExecutionEnvironment}, (∀ q ∈ s.logged keys calls env, q ∈ S) →
      Hashes S s U calls env := by
  have hreads {env : ExecutionEnvironment} {l : List Query}
      (hlog : ∀ q ∈ (keys.flatMap fun k => (s.get k env).log) ++ l, q ∈ S) :
      ∀ k ∈ U, ∀ q ∈ (s.get k env).log, q ∈ S := fun k hk q hq =>
    hlog q (List.mem_append_left _ (List.mem_flatMap.2 ⟨k, hU k hk, hq⟩))
  induction calls with
  | nil =>
    intro env hlog
    refine hreads (l := []) ?_
    rwa [List.append_nil]
  | cons c calls ih =>
    intro env hlog
    refine ⟨hreads hlog, fun q hq => ?_, ih fun q hq => ?_⟩
    · exact hlog q (List.mem_append_right _ (List.mem_append_left _ hq))
    · exact hlog q (List.mem_append_right _ (List.mem_append_right _ hq))

/-- **A storage map is a map** exactly as long as no value with an empty encoding is put. -/
theorem isMap_iff [DecidableEq K] (hg : KeccakGood S) (hhash : Set.InjOn s.hash (s.rawKey '' U))
    (hkey : ∀ k ∈ U, RoundTrips s.key k) (calls : List (MapCall K V)) :
    ∀ {m : K → Option V} {env : ExecutionEnvironment}, Stores S s U m env →
      (∀ c ∈ calls, c.key ∈ U) → (∀ k v, .put k v ∈ calls → RoundTrips s.value v) →
      Hashes S s U calls env →
      (s.IsMap U m calls env ↔ ∀ k v, .put k v ∈ calls → s.value.encode v ≠ []) := by
  have hinj := injOn_storageKey hhash hkey
  induction calls with
  | nil =>
    intro m env h _ _ hlog
    exact iff_of_true (agrees_of_stores hg h hlog) fun k v hmem => absurd hmem List.not_mem_nil
  | cons c calls ih =>
    intro m env h hkeys hreads hlog
    obtain ⟨hget, hexec, hrest⟩ := hlog
    have hk := hkeys c List.mem_cons_self
    have hagrees := agrees_of_stores hg h hget
    by_cases hput : ∃ k v, c = .put k v ∧ s.value.encode v = []
    · obtain ⟨k, v, rfl, hempty⟩ := hput
      refine iff_of_false ?_ fun hall => hall k v List.mem_cons_self hempty
      rintro ⟨-, -, hrun⟩
      have hfound := (hrun.agrees k hk).1
      have hlost := put_empty hg h hempty hexec (hrest.reads k hk)
      rw [show MapCall.apply m (.put k v) k = some v from update_self ..] at hfound
      cases hlost.symm.trans hfound
    · have hvalue : ∀ k v, c = .put k v → s.value.encode v ≠ [] ∧ RoundTrips s.value v := by
        rintro k v rfl
        exact ⟨fun hempty => hput ⟨k, v, rfl, hempty⟩, hreads k v List.mem_cons_self⟩
      obtain ⟨hok, hstores⟩ := stores_exec hg hinj h hk hvalue hexec
      have hih := ih hstores (fun d hd => hkeys d (.tail _ hd))
        (fun k v hmem => hreads k v (.tail _ hmem)) hrest
      constructor
      · rintro ⟨-, -, hrun⟩ k v hmem
        rcases List.mem_cons.1 hmem with rfl | hmem
        · exact (hvalue k v rfl).1
        · exact hih.1 hrun k v hmem
      · exact fun hall => ⟨hagrees, hok, hih.2 fun k v hmem => hall k v (.tail _ hmem)⟩

end StorageMap

namespace Sample

open scoped Sample

/-- Lists of transactions by address. -/
def txsByAddress : StorageMap Address (List SignedTransaction) where
  keyPrefix := [7]
  hash b := b
  key := Wire.address
  value := Wire.transactionList

def signedPay : SignedTransaction := { pay 1 2 1 1 1 with v := 1 }

def emptyStorage : ExecutionEnvironment where
  sender := address 1
  appAddress := address 5
  value := 0
  storage := .new
  accounts := .empty
  events := []

def storedTxs : List (MapCall Address (List SignedTransaction)) :=
  [.put (address 1) [signedPay], .get (address 1), .remove (address 1), .contains (address 1)]

/-- The default value, which is the empty list, is not stored: `put` fails, or it deletes the value that
was there. -/
theorem default_not_stored :
    (txsByAddress.put (address 1) [] emptyStorage).res = .error (.err (.smt .storageError)) ∧
      ((do
        txsByAddress.put (address 1) [signedPay]
        txsByAddress.put (address 1) []
        txsByAddress.get (address 1) :
          ExecutionEnvironment.M (Except FrameworkError (Option (List SignedTransaction))))
        emptyStorage).res = .ok (.ok none) := by
  constructor
  · decide +kernel
  · decide +kernel

/-- What the tree hashes in the calls above. -/
@[irreducible] def storedLog : List Query := txsByAddress.logged [address 1] storedTxs emptyStorage

theorem isMap_iff_storedTxs :
    txsByAddress.IsMap {address 1} (fun _ => none) storedTxs emptyStorage := by
  have hgood : KeccakGood {q | q ∈ storedLog} :=
    Sample.keccakGood_of_collisionFree (by decide +kernel)
  have hstores : StorageMap.Stores {q | q ∈ storedLog} txsByAddress {address 1} (fun _ => none)
      emptyStorage := by
    refine StorageMap.stores_of_updates (U := {address 1}) hgood (show emptyStorage.storage = SparseMerkleTree.after [] from rfl) ?_ (fun _ _ => rfl) ?_
    · intro q hq
      cases hq
    · intro k _ v hv
      cases hv
  refine (StorageMap.isMap_iff hgood (fun _ _ _ _ h => h) ?_ storedTxs hstores ?_ ?_ ?_).2 ?_
  · rintro k rfl
    show Wire.address.decode _ = _
    decide +kernel
  · intro c hc
    simp only [storedTxs, List.mem_cons, List.not_mem_nil, or_false] at hc
    rcases hc with rfl | rfl | rfl | rfl <;> rfl
  · intro k v hmem
    obtain ⟨rfl, rfl⟩ : k = address 1 ∧ v = [signedPay] := by simpa [storedTxs] using hmem
    show Wire.transactionList.decode _ = _
    decide +kernel
  · refine StorageMap.hashes_of_logged (fun k hk => List.mem_singleton.2 hk) storedTxs fun q hq => ?_
    show q ∈ storedLog
    rw [storedLog]
    exact hq
  · intro k v hmem
    obtain ⟨rfl, rfl⟩ : k = address 1 ∧ v = [signedPay] := by simpa [storedTxs] using hmem
    decide +kernel

end Sample

end Uchain
