import Mathlib.Data.List.Pairwise
import Uchain.State.Proof.Versions

/-!
# Batches

`apply_non_commit` collects a batch into a hash map and writes it to a copy of a stored version.
-/

namespace Uchain

open Lib Exec Function

variable [Crypto] {S : Set Query}

def Trie.insertAll (r : Trie) (l : List (Bytes × Bytes)) : Trie :=
  l.foldl (fun r e => r.insert (Crypto.keccak256 e.1) (Crypto.keccak256 e.2)) r

theorem wp_updates_inv (hg : KeccakGood S) {P : SparseMerkleTree → Trie → Prop}
    (hrep : ∀ t r, P t r → Rep S t r) : ∀ (l : List (Bytes × Bytes)),
    (∀ e ∈ l, e.2 ≠ []) →
    (∀ e ∈ l, ∀ t t' r, P t r → Updated S t t' r e.1 e.2 →
      P t' (r.insert (Crypto.keccak256 e.1) (Crypto.keccak256 e.2))) →
    ∀ {t : SparseMerkleTree} {r : Trie}, P t r →
    wp S (TreeDB.updates l) t fun res t' => ∃ a, res = .ok a ∧ P t' (r.insertAll l) ∧
      ∀ e ∈ l, .keccak256 e.1 ∈ S ∧ .keccak256 e.2 ∈ S
  | [], _, _, t, r, h => wp_forEach_nil ⟨(), rfl, h, nofun⟩
  | e :: l, hne, hstep, t, r, h => by
    have hupd : wp S (do let _ ← SparseMerkleTree.update e.1 e.2) t fun res t' =>
        ∃ a, res = .ok a ∧ Updated S t t' r e.1 e.2 := by
      refine wp_bind_ok (wp_update hg (hrep t r h) e.1 (hne e List.mem_cons_self)) ?_
      rintro a t' ⟨-, hu⟩
      exact wp_pure ⟨(), rfl, hu⟩
    refine wp_forEach_cons (wp_mono hupd ?_)
    rintro res t' ⟨a, rfl, hu⟩
    have h' := hstep e List.mem_cons_self t t' r h hu
    refine wp_mono (wp_updates_inv hg hrep l (fun e he => hne e (List.mem_cons_of_mem _ he))
      (fun e he => hstep e (List.mem_cons_of_mem _ he)) h') ?_
    rintro res t'' ⟨b, rfl, h'', hmem⟩
    refine ⟨b, rfl, h'', fun e' he => ?_⟩
    rcases List.mem_cons.1 he with rfl | he
    · exact ⟨hu.key_mem, hu.value_mem⟩
    · exact hmem e' he

theorem wp_updates (hg : KeccakGood S) (l : List (Bytes × Bytes)) {t : SparseMerkleTree}
    {r : Trie} (h : Version S t r) (hne : ∀ e ∈ l, e.2 ≠ []) :
    wp S (TreeDB.updates l) t fun res t' => ∃ a, res = .ok a ∧
      (Version S t' (r.insertAll l) ∧ t'.parent = t.parent) ∧
      ∀ e ∈ l, .keccak256 e.1 ∈ S ∧ .keccak256 e.2 ∈ S := by
  refine wp_updates_inv (P := fun t' r' => Version S t' r' ∧ t'.parent = t.parent) hg
    (fun _ _ hv => hv.1.rep) l hne ?_ ⟨h, rfl⟩
  intro e he t₁ t₂ r₁ hv hu
  exact ⟨hv.1.update hu (hne e he), hu.parent.trans hv.2⟩

namespace TreeDB

variable {d : TreeDB} {rh rs : Trie} {K V : Type} [Codec K] [Codec V]

omit [Crypto] in
theorem mem_collect {e : Bytes × Bytes} : ∀ {l : List (Bytes × Bytes)}, e ∈ collect l → e ∈ l
  | x :: l, h => by
    rw [collect] at h
    split at h
    · exact List.mem_cons_of_mem _ (mem_collect h)
    · rcases List.mem_cons.1 h with rfl | h
      · exact List.mem_cons_self
      · exact List.mem_cons_of_mem _ (mem_collect h)

omit [Crypto] in
theorem mem_collect_last (e : Bytes × Bytes) : ∀ l : List (Bytes × Bytes), e ∈ collect (l ++ [e])
  | [] => List.mem_cons_self
  | x :: l => by
    rw [List.cons_append, collect]
    split
    · exact mem_collect_last e l
    · exact List.mem_cons_of_mem _ (mem_collect_last e l)

/-- The entries of a batch, in the order in which they are written. -/
def batchEntries (order : HashOrder) (batch : List (Op K V)) : List (Bytes × Bytes) :=
  order.order (collect (batch.map encodeOp))

omit [Crypto] in
theorem batchEntries_ne_nil {order : HashOrder} {batch : List (Op K V)} {e : Bytes × Bytes}
    (he : e ∈ batchEntries order batch) : e.2 ≠ [] := by
  obtain ⟨op, _, rfl⟩ := List.mem_map.1 (mem_collect ((order.perm _).mem_iff.1 he))
  cases op with
  | delete key => exact IValue.encode_ne_nil .deleted
  | put key value => exact IValue.encode_ne_nil (.value (Codec.encode value))

variable {tree : SparseMerkleTree}

omit [Crypto] in
theorem wp_dbPut {Q : Except (Fail StateError) Unit → TreeDB → Prop}
    (hrefused : d.db.readOnly = true → Q (.error (.err .storeReadOnly)) d)
    (hput : d.db.readOnly = false → Q (.ok ()) { d with db := { d.db with trees := d.db.trees.insert tree.root tree } })
    :
    wp S (dbPut tree.root tree) d Q := by
  refine wp_bind (wp_get (wp_ite (fun hro => ?_) fun hro => ?_))
  · exact wp_err (hrefused hro)
  · exact wp_modify (hput (Bool.eq_false_iff.2 hro))

/-- `apply_non_commit` at a stored version, given what the writes make of a copy of it. -/
theorem wp_applyNonCommit_of {order : HashOrder} {atRoot : H256}
    (ht : d.db.trees.get? atRoot = some tree) {batch : List (Op K V)} {P : SparseMerkleTree → Prop}
    (hupd : wp S (updates (batchEntries order batch)) tree fun res t' => ∃ a, res = .ok a ∧ P t')
    {Q : Except (Fail StateError) H256 → TreeDB → Prop}
    (hrefused : ∀ t', P t' → d.db.readOnly = true → Q (.error (.err .storeReadOnly)) d)
    (hput : ∀ t', P t' → d.db.readOnly = false → Q (.ok t'.root) { d with db := { d.db with trees := d.db.trees.insert t'.root t' } })
    :
    wp S (applyNonCommit order atRoot batch) d Q := by
  have hget := dbGet_run atRoot d
  rw [ht] at hget
  refine wp_bind_run hget ?_
  have hcopy : wp S (onTree tree (updates (batchEntries order batch))) d fun res d' =>
      ∃ a, res = .ok a ∧ P a.2 ∧ d' = d := by
    refine wp_mapErr_ok (wp_runOn (wp_mono hupd ?_))
    intro res t' hres
    obtain ⟨a, rfl, h'⟩ := hres
    exact ⟨(a, t'), rfl, h', rfl⟩
  refine wp_bind_ok hcopy ?_
  intro a d' hstep
  obtain ⟨h', rfl⟩ := hstep
  exact wp_bind (wp_dbPut (hrefused _ h') fun hro => wp_pure (hput _ h' hro))

/-- **`apply_non_commit`** writes a batch to a copy of a stored version and stores the result; head
and staged version stay. -/
theorem wp_applyNonCommit (hg : KeccakGood S) (hro : d.db.readOnly = false) (order : HashOrder)
    {atRoot : H256} {r : Trie} (ht : d.db.trees.get? atRoot = some tree) (hv : Version S tree r)
    (batch : List (Op K V)) :
    wp S (applyNonCommit order atRoot batch) d fun res d' =>
      ∃ tree', res = .ok tree'.root ∧ Version S tree' (r.insertAll (batchEntries order batch)) ∧
        tree'.parent = tree.parent ∧
        d' = { d with db := { d.db with trees := d.db.trees.insert tree'.root tree' } } ∧
        ∀ e ∈ batchEntries order batch, .keccak256 e.1 ∈ S ∧ .keccak256 e.2 ∈ S := by
  refine wp_applyNonCommit_of ht (wp_updates hg _ hv fun e he => batchEntries_ne_nil he) ?_ ?_
  · intro t' _ hc
    rw [hro] at hc
    cases hc
  · intro t' ht' _
    obtain ⟨⟨h', hpar⟩, hmem⟩ := ht'
    exact ⟨t', rfl, h', hpar, rfl, hmem⟩

end TreeDB

/-! ## The order of writes -/

def written (f : H256 → Option H256) (l : List (Bytes × Bytes)) : H256 → Option H256 :=
  l.foldl (fun f e => update f (Crypto.keccak256 e.1) (some (Crypto.keccak256 e.2))) f

theorem get_insertAll : ∀ (l : List (Bytes × Bytes)) {r : Trie}, Radix.Wf bit 256 0 r →
    Radix.Wf bit 256 0 (r.insertAll l) ∧ (r.insertAll l).get = written r.get l
  | [], r, h => ⟨h, rfl⟩
  | e :: l, r, h => by
    have h' := h.wf_insert (v := Crypto.keccak256 e.2) sep_bit (Nat.zero_le 256)
      (Radix.under_zero (Crypto.keccak256 e.1) r)
    obtain ⟨hwf, hget⟩ := get_insertAll l h'
    refine ⟨hwf, hget.trans ?_⟩
    have hstep : (r.insert (Crypto.keccak256 e.1) (Crypto.keccak256 e.2)).get =
        update r.get (Crypto.keccak256 e.1) (some (Crypto.keccak256 e.2)) := by
      funext p
      rw [update_apply]
      exact h.get_insert sep_bit p
    exact congrArg (written · l) hstep

theorem written_update {p : H256} {v : Option H256} : ∀ {l : List (Bytes × Bytes)}
    {f : H256 → Option H256}, (∃ e ∈ l, Crypto.keccak256 e.1 = p) →
    written (update f p v) l = written f l
  | e :: l, f, h => by
    show written (update (update f p v) _ _) l = written (update f _ _) l
    by_cases he : Crypto.keccak256 e.1 = p
    · rw [he, update_idem]
    · rw [update_comm (Ne.symm he)]
      refine written_update ?_
      obtain ⟨e', he', hp⟩ := h
      rcases List.mem_cons.1 he' with rfl | he'
      · exact absurd hp he
      · exact ⟨e', he', hp⟩

theorem written_collect : ∀ (l : List (Bytes × Bytes)) (f : H256 → Option H256),
    written f (TreeDB.collect l) = written f l
  | [], f => rfl
  | e :: l, f => by
    unfold TreeDB.collect
    split
    · rename_i hany
      obtain ⟨e', he', hkey⟩ := List.any_eq_true.1 hany
      rw [written_collect l f]
      refine (written_update ⟨e', he', ?_⟩).symm
      rw [of_decide_eq_true hkey]
    · exact written_collect l _

omit [Crypto] in
theorem collect_keys_nodup : ∀ l : List (Bytes × Bytes),
    (TreeDB.collect l).Pairwise fun e e' => e.1 ≠ e'.1
  | [] => .nil
  | e :: l => by
    unfold TreeDB.collect
    split
    · exact collect_keys_nodup l
    · rename_i hany
      refine List.pairwise_cons.2 ⟨fun e' he' hkey => ?_, collect_keys_nodup l⟩
      refine hany (List.any_eq_true.2 ⟨e', TreeDB.mem_collect he', ?_⟩)
      exact decide_eq_true hkey.symm

/-- Writes at different paths commute. -/
theorem written_perm {l l' : List (Bytes × Bytes)} (h : l.Perm l')
    (hne : l.Pairwise fun e e' => Crypto.keccak256 e.1 ≠ Crypto.keccak256 e'.1)
    (f : H256 → Option H256) : written f l = written f l' := by
  have : Std.Symm fun e e' : Bytes × Bytes => Crypto.keccak256 e.1 ≠ Crypto.keccak256 e'.1 :=
    ⟨fun _ _ h => h.symm⟩
  refine h.foldl_eq' (fun e he e' he' g => ?_) f
  by_cases heq : e = e'
  · rw [heq]
  · exact update_comm (hne.forall he he' heq) _ _ _

/-- **Writing a batch through a hash map is writing it from left to right.** -/
theorem insertAll_batch (hg : KeccakGood S) {r : Trie} (h : IsTrie S r) (order : HashOrder)
    {l : List (Bytes × Bytes)} (hmem : ∀ e ∈ order.order (TreeDB.collect l), .keccak256 e.1 ∈ S) :
    r.insertAll (order.order (TreeDB.collect l)) = r.insertAll l := by
  obtain ⟨hwf, hget⟩ := get_insertAll (order.order (TreeDB.collect l)) h.wf
  obtain ⟨hwf', hget'⟩ := get_insertAll l h.wf
  have hperm := order.perm (TreeDB.collect l)
  have hne : (TreeDB.collect l).Pairwise fun e e' => Crypto.keccak256 e.1 ≠ Crypto.keccak256 e'.1 := by
    refine (collect_keys_nodup l).imp_of_mem fun {e e'} he he' hkey heq => ?_
    exact hkey (hg.inj _ _ (hmem e (hperm.mem_iff.2 he)) (hmem e' (hperm.mem_iff.2 he')) heq)
  refine Trie.ext_get hwf hwf' ?_
  rw [hget, hget', ← written_perm hperm.symm hne, written_collect]

/-- The root of a batch does not depend on the order of the hash map. -/
theorem TreeDB.agree_applyNonCommit {K V : Type} [Codec K] [Codec V] (hg : KeccakGood S) {d : TreeDB}
    (hro : d.db.readOnly = false) (hst : Stored S d.db.trees) (atRoot : H256)
    (batch : List (Op K V)) :
    Agree S (fun order => applyNonCommit order atRoot batch) d := by
  cases ht : d.db.trees.get? atRoot with
  | none =>
    have hget := dbGet_run atRoot d
    rw [ht] at hget
    exact ⟨_, fun order => wp_bind_res hget rfl⟩
  | some tree =>
    obtain ⟨-, r, hv⟩ := hst atRoot tree ht
    refine ⟨.ok (r.insertAll (batch.map encodeOp)).hash, fun order =>
      wp_mono (wp_applyNonCommit hg hro order ht hv batch) ?_⟩
    rintro res d' ⟨tree', rfl, hv', -, -, hmem⟩
    rw [hv'.rep.root, batchEntries,
      insertAll_batch hg hv.rep.isTrie order fun e he => (hmem e he).1]

end Uchain
