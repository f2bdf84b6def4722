import Uchain.Smt.Proof.Delete
import Uchain.Types.Sample

/-!
# The tree is a map

A tree that starts as `SparseMerkleTree::new()` and is changed by `update` calls only. `contents` is
the key-value map that the calls describe; `Refines S t r m` relates a tree to the trie `r` that its
nodes hold and to its map `m`.

* `wp_update_refines`, `wp_updateAll_refines`: one call, and a whole run.
-/

namespace Uchain

open Lib Exec BTreeMap

/-- A map from keys to non-empty values. -/
abbrev KvMap := BTreeMap Bytes Bytes

def KvMap.update (m : KvMap) (e : Bytes × Bytes) : KvMap :=
  if e.2 = [] then m.erase e.1 else m.insert e.1 e.2

theorem KvMap.get?_update (m : KvMap) (e : Bytes × Bytes) (k : Bytes) :
    (m.update e).get? k = if k = e.1 then (if e.2 = [] then none else some e.2) else m.get? k := by
  unfold update
  by_cases hk : k = e.1
  · split <;> simp [get?_erase, hk]
  · split <;> simp [get?_erase, get?_insert, hk]

def contents (calls : List (Bytes × Bytes)) : KvMap := calls.foldl KvMap.update .empty

namespace SparseMerkleTree

variable [Crypto]

/-- Calls of `update`, one after the other. A returned error does not end the run. -/
def updateAll : List (Bytes × Bytes) → Smt Unit
  | [] => return ()
  | e :: calls => do
    let _ ← attempt (update e.1 e.2)
    updateAll calls

def after (calls : List (Bytes × Bytes)) : SparseMerkleTree := (updateAll calls .new).state

def queries (calls : List (Bytes × Bytes)) : List Query := (updateAll calls .new).log

/-- The tree `t` holds the trie `r` and all values of the map `m`. -/
structure Refines (S : Set Query) (t : SparseMerkleTree) (r : Trie) (m : KvMap) : Prop where
  rep : Rep S t r
  hashed : ∀ k v, m.get? k = some v → .keccak256 k ∈ S ∧ .keccak256 v ∈ S ∧ v ≠ []
  values : ∀ p v, t.values.get? p = some v ↔ ∃ k, Crypto.keccak256 k = p ∧ m.get? k = some v
  trie : ∀ p h, r.get p = some h ↔
    ∃ k v, Crypto.keccak256 k = p ∧ Crypto.keccak256 v = h ∧ m.get? k = some v

variable {S : Set Query} {t : SparseMerkleTree} {r : Trie} {m : KvMap}

theorem Refines.new (S : Set Query) : Refines S .new .empty .empty where
  rep := .new S
  hashed k v h := by cases h
  values p v := ⟨nofun, fun ⟨_, _, h⟩ => nomatch h⟩
  trie p h := ⟨nofun, fun ⟨_, _, _, _, h⟩ => nomatch h⟩

variable {key : Bytes}

theorem Refines.values_path (hg : KeccakGood S) (h : Refines S t r m) (hkey : .keccak256 key ∈ S) :
    t.values.get? (Crypto.keccak256 key) = m.get? key := by
  ext v
  rw [h.values]
  constructor
  · rintro ⟨k, hk, hv⟩
    rwa [← hg.inj _ _ (h.hashed k v hv).1 hkey hk]
  · intro hv
    exact ⟨key, rfl, hv⟩

theorem Refines.trie_path (hg : KeccakGood S) (h : Refines S t r m) (hkey : .keccak256 key ∈ S) :
    r.get (Crypto.keccak256 key) = (m.get? key).map Crypto.keccak256 := by
  ext x
  rw [h.trie, Option.map_eq_some_iff]
  constructor
  · rintro ⟨k, v, hk, hx, hv⟩
    rw [hg.inj _ _ (h.hashed k v hv).1 hkey hk] at hv
    exact ⟨v, hv, hx⟩
  · rintro ⟨v, hv, hx⟩
    exact ⟨key, v, rfl, hx, hv⟩

/-! ## One call -/

variable {t' : SparseMerkleTree}

/-- **One key is changed**, in the map, in the value store and in the trie. -/
theorem Refines.change (hg : KeccakGood S) (h : Refines S t r m) (hkey : .keccak256 key ∈ S)
    {o : Option Bytes} (ho : ∀ v, o = some v → .keccak256 v ∈ S ∧ v ≠ []) {r' : Trie} {m' : KvMap}
    (hrep : Rep S t' r') (hm : m'.get? = Function.update m.get? key o)
    (hv : t'.values.get? = Function.update t.values.get? (Crypto.keccak256 key) o)
    (hr : r'.get = Function.update r.get (Crypto.keccak256 key) (o.map Crypto.keccak256)) :
    Refines S t' r' m' := by
  have hself : m'.get? key = o := by rw [hm, Function.update_self]
  have hother {k : Bytes} (hk : k ≠ key) : m'.get? k = m.get? k := by
    rw [hm, Function.update_of_ne hk]
  have hashed (k v : Bytes) (hk : m'.get? k = some v) :
      .keccak256 k ∈ S ∧ .keccak256 v ∈ S ∧ v ≠ [] := by
    by_cases he : k = key
    · subst he
      exact ⟨hkey, ho v (hself.symm.trans hk)⟩
    · exact h.hashed k v ((hother he).symm.trans hk)
  -- only the key itself is at its path
  have hpath {k v : Bytes} (hk : m'.get? k = some v)
      (he : Crypto.keccak256 k = Crypto.keccak256 key) : k = key :=
    hg.inj _ _ (hashed k v hk).1 hkey he
  have hoff {p : H256} (hp : p ≠ Crypto.keccak256 key) {k : Bytes} (hk : Crypto.keccak256 k = p) :
      m'.get? k = m.get? k := hother fun he => hp (by rw [← hk, he])
  refine ⟨hrep, hashed, fun p v => ?_, fun p x => ?_⟩
  · by_cases hp : p = Crypto.keccak256 key
    · subst hp
      rw [hv, Function.update_self]
      constructor
      · exact fun hv => ⟨key, rfl, hself.trans hv⟩
      · intro ⟨k, hk, hget⟩
        rw [← hself, ← hpath hget hk, hget]
    · rw [hv, Function.update_of_ne hp, h.values]
      exact exists_congr fun k => and_congr_right fun hk => by rw [hoff hp hk]
  · by_cases hp : p = Crypto.keccak256 key
    · subst hp
      rw [hr, Function.update_self, Option.map_eq_some_iff]
      constructor
      · exact fun ⟨v, hv, hx⟩ => ⟨key, v, rfl, hx, hself.trans hv⟩
      · intro ⟨k, v, hk, hx, hget⟩
        exact ⟨v, by rw [← hself, ← hpath hget hk, hget], hx⟩
    · rw [hr, Function.update_of_ne hp, h.trie]
      exact exists_congr fun k => exists_congr fun v => and_congr_right fun hk => by rw [hoff hp hk]

theorem Refines.updated (hg : KeccakGood S) (h : Refines S t r m) {value : Bytes}
    (hvalue : value ≠ []) (hu : Updated S t t' r key value) :
    Refines S t' (r.insert (Crypto.keccak256 key) (Crypto.keccak256 value))
      (m.update (key, value)) := by
  refine h.change hg hu.key_mem (o := some value) ?_ hu.rep ?_ ?_ ?_
  · intro v hv
    cases hv
    exact ⟨hu.value_mem, hvalue⟩
  · funext k
    rw [KvMap.get?_update, if_neg hvalue, Function.update_apply]
  · funext p
    rw [hu.values p, Function.update_apply]
    by_cases hp : p = Crypto.keccak256 key
    · subst hp
      rw [if_pos rfl]
      by_cases hr : r.get (Crypto.keccak256 key) = some (Crypto.keccak256 value)
      · -- nothing is written when the trie has the hash: the value is there already
        obtain ⟨k, w, hk, hw, hm⟩ := (h.trie _ _).1 hr
        obtain ⟨hkS, hwS, -⟩ := h.hashed k w hm
        rw [if_neg fun hc => hc.1 hr, h.values_path hg hu.key_mem,
          ← hg.inj _ _ hkS hu.key_mem hk, hm, hg.inj _ _ hwS hu.value_mem hw]
      · rw [if_pos ⟨hr, rfl⟩]
    · rw [if_neg fun hc => hp hc.2, if_neg hp]
  · funext p
    rw [Trie.get, Trie.insert, h.rep.wf.get_insert sep_bit, Function.update_apply]
    rfl

theorem Refines.erased (hg : KeccakGood S) (h : Refines S t r m) (hkey : .keccak256 key ∈ S)
    (he : Erased S t t' r (Crypto.keccak256 key))
    (hv : t'.values = t.values.erase (Crypto.keccak256 key)) :
    Refines S t' (r.erase (Crypto.keccak256 key)) (m.update (key, [])) := by
  refine h.change hg hkey (o := none) nofun he.rep ?_ ?_ ?_
  · funext k
    rw [KvMap.get?_update, if_pos rfl, Function.update_apply]
  · funext p
    rw [hv, get?_erase, Function.update_apply]
  · funext p
    rw [Trie.get, Trie.erase, h.rep.wf.get_erase, Function.update_apply]
    rfl

/-- How a call of `update` ends on a tree with the map `m`. -/
def Outcome (m : KvMap) (key value : Bytes) (t : SparseMerkleTree) (res : Except (Fail SmtError) H256)
    (t' : SparseMerkleTree) : Prop :=
  if value = [] ∧ m.get? key = none then res = .error (.err .storageError) ∧ t' = t
  else ∃ root, res = .ok root

theorem wp_update_key (S : Set Query) (key value : Bytes) (t : SparseMerkleTree) :
    wp S (update key value) t fun _ _ => .keccak256 key ∈ S := by
  refine wp_bind (wp_get (wp_bind (wp_bind (wp_keccak256 fun hkey _ => ?_))))
  generalize Run.res _ = res
  cases res with
  | error e => exact hkey
  | ok a => exact fun _ => hkey

/-- **One call of `update`.** -/
theorem wp_update_refines (hg : KeccakGood S) (h : Refines S t r m) (key value : Bytes) :
    wp S (update key value) t fun res t' =>
      Outcome m key value t res t' ∧ ∃ r', Refines S t' r' (m.update (key, value)) := by
  suffices hsuff : .keccak256 key ∈ S → wp S (update key value) t fun res t' =>
      Outcome m key value t res t' ∧ ∃ r', Refines S t' r' (m.update (key, value)) from
    fun hlog => hsuff (wp_update_key S key value t hlog) hlog
  intro hkey
  by_cases hvalue : value = []
  · subst hvalue
    have hcontains : t.values.contains (Crypto.keccak256 key) = (m.get? key).isSome := by
      rw [contains, h.values_path hg hkey]
    cases hm : m.get? key with
    | none =>
      rw [hm] at hcontains
      refine wp_mono (wp_update_absent hg h.rep key hcontains) ?_
      rintro res t' ⟨rfl, rfl⟩
      have hmap : m.update (key, []) = m := by
        refine ext_get? fun k => ?_
        rw [KvMap.get?_update]
        split
        · rename_i hk
          rw [hk, hm, if_pos rfl]
        · rfl
      rw [Outcome, if_pos ⟨rfl, hm⟩, hmap]
      exact ⟨⟨rfl, rfl⟩, r, h⟩
    | some v =>
      rw [hm] at hcontains
      have htrie : r.get (Crypto.keccak256 key) ≠ none := by
        rw [h.trie_path hg hkey, hm]
        intro hnone
        cases hnone
      refine wp_mono (wp_update_empty hg h.rep key htrie hcontains) ?_
      rintro res t' ⟨a, rfl, he, hv⟩
      rw [Outcome, if_neg fun hc => by rw [hm] at hc; cases hc.2]
      exact ⟨⟨a, rfl⟩, _, h.erased hg hkey he hv⟩
  · refine wp_mono (wp_update hg h.rep key hvalue) ?_
    rintro res t' ⟨a, rfl, _, hu⟩
    rw [Outcome, if_neg fun hc => hvalue hc.1]
    exact ⟨⟨a, rfl⟩, _, h.updated hg hvalue hu⟩

theorem wp_get_refines (hg : KeccakGood S) (h : Refines S t r m) (key : Bytes) :
    wp S (get key) t fun res t' => res = .ok ((m.get? key).getD []) ∧ t' = t := by
  refine wp_bind (wp_get (wp_ite (fun hz => ?_) fun _ => ?_))
  · have hr : r = .empty := (h.rep.root_eq_zero_iff hg).1 (FixedBytes.isZero_iff.1 hz)
    have hnone : m.get? key = none := by
      cases hm : m.get? key with
      | none => rfl
      | some v =>
        have := (h.trie _ _).2 ⟨key, v, rfl, rfl, hm⟩
        rw [hr] at this
        cases this
    rw [hnone]
    exact wp_pure ⟨rfl, rfl⟩
  · refine wp_bind (wp_keccak256 fun hkey => wp_pure ⟨?_, rfl⟩)
    rw [h.values_path hg hkey]

/-! ## Whole runs -/

theorem wp_updateAll_refines (hg : KeccakGood S) (calls : List (Bytes × Bytes)) :
    ∀ {t r m}, Refines S t r m → wp S (updateAll calls) t fun res t' =>
      res = .ok () ∧ ∃ r', Refines S t' r' (calls.foldl KvMap.update m) := by
  induction calls with
  | nil =>
    intro t r m h
    exact wp_pure ⟨rfl, r, h⟩
  | cons e calls ih =>
    intro t r m h
    refine wp_bind (wp_attempt (wp_mono (wp_update_refines hg h e.1 e.2) ?_))
    rintro res t' ⟨hout, r', h'⟩
    unfold Outcome at hout
    split at hout
    · obtain ⟨rfl, -⟩ := hout
      exact ih h'
    · obtain ⟨root, rfl⟩ := hout
      exact ih h'

/-- **Every run on an empty tree keeps the tree in step with the map.** -/
theorem exists_refines (hg : KeccakGood S) {calls : List (Bytes × Bytes)}
    (hlog : ∀ q ∈ queries calls, q ∈ S) : ∃ r, Refines S (after calls) r (contents calls) :=
  (wp_updateAll_refines hg calls (.new S) hlog).2

theorem updateAll_append (l l' : List (Bytes × Bytes)) :
    updateAll (l ++ l') = (do updateAll l; updateAll l') := by
  induction l with
  | nil => rfl
  | cons e l ih =>
    rw [List.cons_append, updateAll, updateAll, ih, bind_assoc]

theorem queries_subset (l l' : List (Bytes × Bytes)) : queries l ⊆ queries (l ++ l') := by
  rw [queries, queries, updateAll_append]
  rcases hrun : updateAll l .new with ⟨_ | a, s, log⟩
  · rw [bind_error hrun]
    exact List.Subset.refl _
  · rw [bind_ok hrun]
    exact List.subset_append_left _ _

theorem updateAll_snoc (hg : KeccakGood S) {calls : List (Bytes × Bytes)}
    (hlog : ∀ q ∈ queries calls, q ∈ S) (e : Bytes × Bytes) :
    after (calls ++ [e]) = (update e.1 e.2 (after calls)).state ∧
      queries (calls ++ [e]) = queries calls ++ (update e.1 e.2 (after calls)).log := by
  have hok : (updateAll calls .new).res = .ok () := (wp_updateAll_refines hg calls (.new S) hlog).1
  have hrun (t : SparseMerkleTree) : (updateAll [e] t).state = (update e.1 e.2 t).state ∧
      (updateAll [e] t).log = (update e.1 e.2 t).log := by
    have he : updateAll [e] = (do let _ ← attempt (update e.1 e.2); return ()) := rfl
    rw [he, bind_run, Exec.bind, attempt_run]
    rcases caught (update e.1 e.2 t).res with _ | _
    · exact ⟨rfl, rfl⟩
    · exact ⟨rfl, List.append_nil _⟩
  rw [queries, after, updateAll_append, bind_ok (Run.eq_of_res hok)]
  exact ⟨(hrun _).1, congrArg _ (hrun _).2⟩

/-- **The tree refines a map.** For every run of `update` calls on an empty tree and every further
call: it fails only if it deletes a key that is not there, and then changes nothing; afterwards `get`
returns the values of the map. -/
theorem update_refines_map (hg : KeccakGood S) (calls : List (Bytes × Bytes)) (key value : Bytes)
    (hlog : ∀ q ∈ queries (calls ++ [(key, value)]), q ∈ S) :
    ((∃ root, (update key value (after calls)).res = .ok root) ↔
      value ≠ [] ∨ (contents calls).get? key ≠ none) ∧
    (∀ e, (update key value (after calls)).res = .error e →
      e = .err .storageError ∧ (update key value (after calls)).state = after calls) ∧
    after (calls ++ [(key, value)]) = (update key value (after calls)).state ∧
    ∀ k, (∀ q ∈ (get k (after (calls ++ [(key, value)]))).log, q ∈ S) →
      (get k (after (calls ++ [(key, value)]))).res =
        .ok (((contents (calls ++ [(key, value)])).get? k).getD []) := by
  have hlog' : ∀ q ∈ queries calls, q ∈ S := fun q hq => hlog q (queries_subset _ _ hq)
  obtain ⟨hafter, hqueries⟩ := updateAll_snoc hg hlog' (key, value)
  obtain ⟨r, href⟩ := exists_refines hg hlog'
  have hcall : ∀ q ∈ (update key value (after calls)).log, q ∈ S := fun q hq =>
    hlog q (by rw [hqueries]; exact List.mem_append_right _ hq)
  obtain ⟨hout, r', href'⟩ := wp_update_refines hg href key value hcall
  have hcontents : contents (calls ++ [(key, value)]) = (contents calls).update (key, value) := by
    rw [contents, List.foldl_append]
    rfl
  refine ⟨?_, ?_, hafter, fun k hk => ?_⟩
  · unfold Outcome at hout
    split at hout
    · rename_i hc
      refine ⟨fun ⟨root, hroot⟩ => ?_, fun h => ?_⟩
      · rw [hout.1] at hroot
        cases hroot
      · exact absurd hc (by tauto)
    · rename_i hc
      refine ⟨fun _ => ?_, fun _ => hout⟩
      by_cases hvalue : value = []
      · exact .inr fun hm => hc ⟨hvalue, hm⟩
      · exact .inl hvalue
  · intro e he
    unfold Outcome at hout
    split at hout
    · rw [hout.1] at he
      cases he
      exact ⟨rfl, hout.2⟩
    · obtain ⟨root, hroot⟩ := hout
      rw [hroot] at he
      cases he
  · rw [hafter] at hk ⊢
    rw [hcontents]
    exact (wp_get_refines hg href' k hk).1

end SparseMerkleTree

namespace Contents

open scoped Sample
open SparseMerkleTree

def sampleCalls : List (Bytes × Bytes) :=
  [([1], [10]), ([2], [20]), ([3], [30]), ([1], [11]), ([2], [])]

@[irreducible] def sampleLog : List Query :=
  queries (sampleCalls ++ [([9], [])]) ++ (get [1] (after (sampleCalls ++ [([9], [])]))).log

theorem update_refines_map_sample :
    (update [9] [] (after sampleCalls)).state = after sampleCalls ∧
      (get [1] (after (sampleCalls ++ [([9], [])]))).res = .ok [11] := by
  have hS : KeccakGood {q | q ∈ sampleLog} :=
    Sample.keccakGood_of_collisionFree (by decide +kernel)
  obtain ⟨-, herr, -, hget⟩ := update_refines_map hS sampleCalls [9] [] fun q hq => by
    show q ∈ sampleLog
    rw [sampleLog]
    exact List.mem_append_left _ hq
  refine ⟨(herr (.err .storageError) (by decide +kernel)).2, ?_⟩
  rw [hget [1] fun q hq => ?_]
  · decide +kernel
  · show q ∈ sampleLog
    rw [sampleLog]
    exact List.mem_append_right _ hq

end Contents

end Uchain
