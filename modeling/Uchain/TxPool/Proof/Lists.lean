import Uchain.Lib.Filing
import Uchain.TxPool.Pool
import Uchain.Types.Sample

/-!
# What the operations on the lists of the pool do

`slotAt m (a, n)` is the transaction that a map of lists has for the account `a` at the nonce `n`.
`Split txs ts rest`: the transactions `ts` left the list `txs`, which is `rest` now; each draining
operation is such a split, and so a partition (`TxList.list_operations_partition`). `TxLookup.get`
after each operation of the lookup is a `Function.update`.
-/

namespace Uchain

open Lib BTreeMap Function

/-! ## Lists of accounts -/

def slotAt (m : BTreeMap Address TxList) (k : Address × UInt64) : Option SignedTransaction :=
  (m.get? k.1).bind fun list => list.txs.get? k.2

variable {a : Address} {list : TxList} {m : BTreeMap Address TxList}

theorem slotAt_of_get? (h : m.get? a = some list) (n : UInt64) :
    slotAt m (a, n) = list.txs.get? n := by
  rw [slotAt, h, Option.bind_some]

theorem slotAt_of_none (h : m.get? a = none) (n : UInt64) : slotAt m (a, n) = none := by
  rw [slotAt, h, Option.bind_none]

theorem slotAt_insert (m : BTreeMap Address TxList) (a : Address) (list : TxList)
    (k : Address × UInt64) :
    slotAt (m.insert a list) k = if k.1 = a then list.txs.get? k.2 else slotAt m k := by
  unfold slotAt
  rw [get?_insert]
  split
  · rfl
  · rfl

theorem slotAt_erase (m : BTreeMap Address TxList) (a : Address) (k : Address × UInt64) :
    slotAt (m.erase a) k = if k.1 = a then none else slotAt m k := by
  unfold slotAt
  rw [get?_erase]
  split
  · rfl
  · rfl

theorem TxList.get?_of_isEmpty (h : list.isEmpty = true) (n : UInt64) :
    list.txs.get? n = none := by
  rw [BTreeMap.get?, List.isEmpty_iff.1 h]
  rfl

theorem slotAt_erase_of_isEmpty (h : m.get? a = some list) (hempty : list.isEmpty = true) :
    slotAt (m.erase a) = slotAt m := by
  funext k
  rw [slotAt_erase]
  split
  · rename_i hk
    rw [show k = (a, k.2) from Prod.ext hk rfl, slotAt_of_get? h, list.get?_of_isEmpty hempty]
  · rfl

theorem slotAt_filter_isEmpty (m : BTreeMap Address TxList) :
    slotAt (m.filter fun _ list => !list.isEmpty) = slotAt m := by
  funext k
  unfold slotAt
  rw [get?_filter]
  cases m.get? k.1 with
  | none => rfl
  | some list =>
    cases hempty : list.isEmpty with
    | false => rw [Option.filter_some_pos (by rw [hempty]; rfl)]
    | true =>
      rw [Option.filter_some_neg (by rw [hempty]; decide), Option.bind_none, Option.bind_some,
        list.get?_of_isEmpty hempty]

theorem slotAt_getD (m : BTreeMap Address TxList) (a : Address) (strict : Bool) (n : UInt64) :
    ((m.get? a).getD (TxList.new strict)).txs.get? n = slotAt m (a, n) := by
  unfold slotAt
  cases m.get? a with
  | none => rfl
  | some list => rfl

/-! ## One list -/

namespace TxList

variable {list : TxList} {tx : SignedTransaction}

theorem add_of_free (h : list.txs.get? tx.nonce = none) (bump : BitVec 128) :
    list.add tx bump = some ⟨true, none, { list with txs := list.txs.put tx }⟩ := by
  rw [add, h]

/-- An accepted transaction is in the list, and the old one is returned. -/
theorem add_eq_some {bump : BitVec 128} {r : Added} (h : list.add tx bump = some r)
    (hr : r.inserted = true) :
    r = ⟨true, list.txs.get? tx.nonce, { list with txs := list.txs.put tx }⟩ := by
  unfold add at h
  cases hget : list.txs.get? tx.nonce with
  | none =>
    rw [hget] at h
    exact (Option.some.inj h).symm
  | some old =>
    simp only [hget] at h
    split at h
    · cases h
    · split at h
      · rw [← Option.some.inj h] at hr
        cases hr
      · exact (Option.some.inj h).symm

theorem add_eq_self {bump : BitVec 128} {r : Added} (h : list.add tx bump = some r)
    (hr : r.inserted = false) : r.list = list := by
  unfold add at h
  cases hget : list.txs.get? tx.nonce with
  | none =>
    rw [hget] at h
    rw [← Option.some.inj h] at hr
    cases hr
  | some old =>
    simp only [hget] at h
    split at h
    · cases h
    · split at h
      · rw [← Option.some.inj h]
      · rw [← Option.some.inj h] at hr
        cases hr

theorem remove_of_mem (h : (list.txs.get? tx.nonce).isSome = true) :
    list.remove tx = ⟨false, [], { list with txs := list.txs.erase tx.nonce }⟩ := by
  rw [remove, if_pos h]

theorem remove_of_loose (h : list.txs.get? tx.nonce = none) (hloose : list.strict = false) :
    list.remove tx = ⟨true, [], list⟩ := by
  rw [remove, h, hloose]
  rfl

/-- From a strict list that does not have the nonce, the transactions after it leave. -/
theorem remove_of_strict (h : list.txs.get? tx.nonce = none) (hstrict : list.strict = true) :
    list.remove tx = ⟨true, (TxSortedList.filter (fun _ t => tx.nonce < t.nonce) list.txs).1,
      { list with txs := (TxSortedList.filter (fun _ t => tx.nonce < t.nonce) list.txs).2 }⟩ := by
  rw [remove, h, hstrict]
  rfl

end TxList

variable {tx : SignedTransaction}

theorem slotAt_insert_put (hlist : ∀ n, list.txs.get? n = slotAt m (a, n)) :
    slotAt (m.insert a { list with txs := list.txs.put tx }) =
      update (slotAt m) (a, tx.nonce) (some tx) := by
  funext k
  rw [slotAt_insert]
  by_cases hk : k = (a, tx.nonce)
  · rw [hk, update_self, if_pos rfl]
    exact get?_insert_self _ _ _
  · rw [update_of_ne hk]
    split
    · rename_i ha
      have hne : k.2 ≠ tx.nonce := fun hn => hk (Prod.ext ha hn)
      exact (get?_insert_of_ne _ _ hne).trans ((hlist k.2).trans (by rw [← ha]))
    · rfl

theorem slotAt_insert_erase {n : UInt64} (hlist : m.get? a = some list) :
    slotAt (m.insert a { list with txs := list.txs.erase n }) =
      update (slotAt m) (a, n) none := by
  funext k
  rw [slotAt_insert]
  by_cases hk : k = (a, n)
  · rw [hk, update_self, if_pos rfl]
    exact (get?_erase _ _ _).trans (if_pos rfl)
  · rw [update_of_ne hk]
    split
    · rename_i ha
      have hne : k.2 ≠ n := fun hn => hk (Prod.ext ha hn)
      rw [get?_erase, if_neg hne, ← slotAt_of_get? hlist, ← ha]
    · rfl

/-! ## Transactions that leave a list -/

/-- The list is filed by nonce. -/
def TxSortedList.Keyed (txs : TxSortedList) : Prop := ∀ n tx, txs.get? n = some tx → tx.nonce = n

structure Split (txs : TxSortedList) (ts : List SignedTransaction) (rest : TxSortedList) :
    Prop where
  sub : ∀ n, rest.get? n = txs.get? n ∨ rest.get? n = none
  mem_iff : ∀ tx, tx ∈ ts ↔ ∃ n, txs.get? n = some tx ∧ rest.get? n = none
  nodup : txs.Keyed → (ts.map SignedTransaction.nonce).Nodup

theorem nodup_nonces {txs : TxSortedList} {entries : List (UInt64 × SignedTransaction)}
    (hsub : entries.Sublist txs.entries) (hfiled : txs.Keyed) :
    ((entries.map Prod.snd).map SignedTransaction.nonce).Nodup := by
  have heq : (entries.map Prod.snd).map SignedTransaction.nonce = entries.map Prod.fst := by
    rw [List.map_map]
    refine List.map_congr_left fun e he => ?_
    exact hfiled e.1 e.2 (mem_entries_iff.1 (hsub.subset he))
  rw [heq]
  exact txs.nodup_keys.sublist (hsub.map Prod.fst)

theorem Split.keyed {txs rest : TxSortedList} {ts : List SignedTransaction} (h : Split txs ts rest)
    (hfiled : txs.Keyed) : rest.Keyed := by
  intro n tx hn
  cases h.sub n with
  | inl heq => exact hfiled n tx (heq ▸ hn)
  | inr heq =>
    rw [heq] at hn
    cases hn

theorem Split.nil (txs : TxSortedList) : Split txs [] txs where
  sub _ := .inl rfl
  mem_iff tx := by
    simp only [List.not_mem_nil, false_iff, not_exists]
    intro n h
    rw [h.1] at h
    cases h.2
  nodup _ := List.nodup_nil

theorem TxSortedList.get?_filter_snd (p : UInt64 → SignedTransaction → Bool) (txs : TxSortedList)
    (n : UInt64) :
    (TxSortedList.filter p txs).2.get? n = (txs.get? n).filter fun tx => !p n tx :=
  get?_filter _ _ n

theorem TxSortedList.mem_filter_fst {p : UInt64 → SignedTransaction → Bool} {txs : TxSortedList} :
    tx ∈ (TxSortedList.filter p txs).1 ↔ ∃ n, txs.get? n = some tx ∧ p n tx = true := by
  show tx ∈ (BTreeMap.filter p txs).values ↔ _
  rw [mem_values_iff]
  exact exists_congr fun n => by rw [get?_filter, Option.filter_eq_some_iff]

theorem Split.filter (p : UInt64 → SignedTransaction → Bool) (txs : TxSortedList) :
    Split txs (TxSortedList.filter p txs).1 (TxSortedList.filter p txs).2 where
  sub n := by
    rw [TxSortedList.get?_filter_snd]
    cases txs.get? n with
    | none => exact .inl rfl
    | some tx => cases hp : p n tx <;> simp [Option.filter, hp]
  mem_iff tx := by
    rw [TxSortedList.mem_filter_fst]
    refine exists_congr fun n => and_congr_right fun hget => ?_
    rw [TxSortedList.get?_filter_snd, hget]
    cases hp : p n tx <;> simp [Option.filter, hp]
  nodup := nodup_nonces List.filter_sublist

theorem Split.cap (threshold : Nat) (txs : TxSortedList) :
    Split txs (TxSortedList.cap threshold txs).1 (TxSortedList.cap threshold txs).2 where
  sub n := get?_drop _ txs n
  mem_iff tx := by
    constructor
    · intro h
      obtain ⟨e, he, rfl⟩ := List.mem_map.1 h
      exact ⟨e.1, mem_entries_iff.1 (List.mem_of_mem_take he),
        get?_drop_eq_none he⟩
    · intro h
      obtain ⟨n, hget, hnone⟩ := h
      refine List.mem_map.2 ⟨(n, tx), ?_, rfl⟩
      have hmem := mem_entries_iff.2 hget
      rw [← List.take_append_drop (txs.len - threshold) txs.entries, List.mem_append] at hmem
      refine hmem.resolve_right fun hdrop => ?_
      have hsome : (TxSortedList.cap threshold txs).2.get? n = some tx :=
        mem_entries_iff.1 hdrop
      rw [hsome] at hnone
      cases hnone
  nodup := nodup_nonces (List.take_sublist _ _)

theorem Split.erase {txs : TxSortedList} {n : UInt64} (h : txs.get? n = some tx) :
    Split txs [tx] (txs.erase n) where
  sub m := by
    rw [get?_erase]
    split
    · exact .inr rfl
    · exact .inl rfl
  mem_iff t := by
    rw [List.mem_singleton]
    constructor
    · rintro rfl
      exact ⟨n, h, (get?_erase _ _ _).trans (if_pos rfl)⟩
    · rintro ⟨m, hm, hnone⟩
      rw [get?_erase] at hnone
      split at hnone
      · rename_i hmn
        rw [hmn, h] at hm
        exact (Option.some.inj hm).symm
      · rw [hm] at hnone
        cases hnone
  nodup _ := List.nodup_singleton _

theorem TxList.split_cap (list : TxList) (threshold : Nat) :
    Split list.txs (list.cap threshold).1 (list.cap threshold).2.txs := Split.cap _ _

theorem TxList.split_forward (list : TxList) (threshold : UInt64) :
    Split list.txs (list.forward threshold).1 (list.forward threshold).2.txs := Split.filter _ _

theorem TxList.split_ready (list : TxList) (start : UInt64) :
    Split list.txs (list.ready start).1 (list.ready start).2.txs := Split.filter _ _

theorem TxList.sorted_ready {list : TxList} (h : list.txs.Keyed) (start : UInt64) :
    ((list.ready start).1.Pairwise fun t t' => t.nonce < t'.nonce) ∧
      ∀ t ∈ (list.ready start).1, start ≤ t.nonce := by
  refine ⟨List.pairwise_map.2 ?_, fun t ht => ?_⟩
  · refine (BTreeMap.sorted _).imp_of_mem fun he he' hlt => ?_
    rw [h _ _ (mem_entries_iff.1 (List.mem_of_mem_filter he)),
      h _ _ (mem_entries_iff.1 (List.mem_of_mem_filter he'))]
    exact hlt
  · obtain ⟨n, hn, hle⟩ := TxSortedList.mem_filter_fst.1 ht
    rw [h n t hn]
    exact of_decide_eq_true hle

theorem Split.append {txs mid rest : TxSortedList} {ts ts' : List SignedTransaction}
    (h : Split txs ts mid) (h' : Split mid ts' rest) : Split txs (ts ++ ts') rest where
  sub n := by
    cases h'.sub n with
    | inr hn => exact .inr hn
    | inl hn => exact (h.sub n).imp hn.trans hn.trans
  mem_iff tx := by
    rw [List.mem_append, h.mem_iff, h'.mem_iff, ← exists_or]
    refine exists_congr fun n => ?_
    have hsub := h'.sub n
    cases h.sub n with
    | inl hn =>
      rw [hn]
      constructor
      · intro hor
        cases hor with
        | inl hl =>
          rw [hl.1] at hl
          cases hl.2
        | inr hr => exact hr
      · exact .inr
    | inr hn =>
      rw [hn] at hsub ⊢
      rw [or_self] at hsub
      simp [hsub]
  nodup hfiled := by
    have hmid := h.keyed hfiled
    rw [List.map_append]
    refine List.nodup_append.2 ⟨h.nodup hfiled, h'.nodup hmid, ?_⟩
    intro n hn n' hn' heq
    obtain ⟨tx, htx, rfl⟩ := List.mem_map.1 hn
    obtain ⟨tx', htx', rfl⟩ := List.mem_map.1 hn'
    obtain ⟨m, hm, hnone⟩ := (h.mem_iff tx).1 htx
    obtain ⟨m', hm', -⟩ := (h'.mem_iff tx').1 htx'
    rw [hfiled m tx hm, hmid m' tx' hm'] at heq
    rw [heq, hm'] at hnone
    cases hnone

namespace TxList

theorem lowestNonce_fold (txs : List SignedTransaction) (m : UInt64) :
    txs.foldl (fun lowest tx => if lowest > tx.nonce then tx.nonce else lowest) m ≤ m ∧
      (∀ tx ∈ txs,
        txs.foldl (fun lowest tx => if lowest > tx.nonce then tx.nonce else lowest) m ≤ tx.nonce) ∧
      (txs.foldl (fun lowest tx => if lowest > tx.nonce then tx.nonce else lowest) m = m ∨
        ∃ tx ∈ txs, txs.foldl
          (fun lowest tx => if lowest > tx.nonce then tx.nonce else lowest) m = tx.nonce) := by
  induction txs generalizing m with
  | nil => exact ⟨le_rfl, by simp, .inl rfl⟩
  | cons tx txs ih =>
    obtain ⟨hle, hall, hex⟩ := ih (if m > tx.nonce then tx.nonce else m)
    have hm : (if m > tx.nonce then tx.nonce else m) ≤ m ∧
        (if m > tx.nonce then tx.nonce else m) ≤ tx.nonce := by
      split
      · rename_i hlt
        exact ⟨le_of_lt hlt, le_rfl⟩
      · rename_i hlt
        exact ⟨le_rfl, not_lt.1 hlt⟩
    refine ⟨hle.trans hm.1, List.forall_mem_cons.2 ⟨hle.trans hm.2, hall⟩, ?_⟩
    rcases hex with heq | ⟨t, ht, heq⟩
    · rw [List.foldl_cons, heq]
      split
      · exact .inr ⟨tx, List.mem_cons_self, rfl⟩
      · exact .inl rfl
    · exact .inr ⟨t, List.mem_cons_of_mem tx ht, heq⟩

theorem lowestNonce_le {txs : List SignedTransaction} (h : tx ∈ txs) :
    lowestNonce txs ≤ tx.nonce := (lowestNonce_fold txs _).2.1 tx h

theorem exists_lowestNonce {txs : List SignedTransaction} (h : txs ≠ []) :
    ∃ tx ∈ txs, lowestNonce txs = tx.nonce := by
  obtain ⟨-, hall, hex⟩ := lowestNonce_fold txs (.ofNat (2 ^ 64 - 1))
  rcases hex with heq | hex
  · cases txs with
    | nil => exact absurd rfl h
    | cons tx txs =>
      have hmax : UInt64.ofNat (2 ^ 64 - 1) ≤ tx.nonce := by
        have := hall tx List.mem_cons_self
        rwa [heq] at this
      refine ⟨tx, List.mem_cons_self, heq.trans (UInt64.le_antisymm hmax ?_)⟩
      rw [UInt64.le_iff_toNat_le]
      have hlt := tx.nonce.toNat_lt
      show tx.nonce.toNat ≤ 2 ^ 64 - 1
      omega
  · exact hex

theorem le_lowestNonce_iff {txs : List SignedTransaction} {n : UInt64} :
    n ≤ lowestNonce txs ↔ ∀ tx ∈ txs, n ≤ tx.nonce := by
  refine ⟨fun h tx htx => h.trans (lowestNonce_le htx), fun h => ?_⟩
  cases txs with
  | nil =>
    rw [UInt64.le_iff_toNat_le]
    exact Nat.le_sub_one_of_lt n.toNat_lt
  | cons first txs =>
    obtain ⟨tx, htx, hlow⟩ := exists_lowestNonce (List.cons_ne_nil first txs)
    rw [hlow]
    exact h tx htx

end TxList

theorem TxList.split_filter (list : TxList) (limit : UInt64) :
    Split list.txs (((list.filter limit).getD ⟨[], [], list⟩).drops ++
        ((list.filter limit).getD ⟨[], [], list⟩).invalids)
      ((list.filter limit).getD ⟨[], [], list⟩).list.txs := by
  unfold TxList.filter
  split
  · exact Split.nil _
  · split
    · exact (Split.filter _ _).append (Split.filter _ _)
    · exact (Split.filter _ _).append (Split.nil _)

theorem TxList.strict_filter (list : TxList) (limit : UInt64) :
    ((list.filter limit).getD ⟨[], [], list⟩).list.strict = list.strict := by
  unfold TxList.filter
  split
  · rfl
  · split <;> rfl

/-- A list that is not strict drops what is not payable and nothing else. -/
theorem TxList.invalids_of_loose (h : list.strict = false) (limit : UInt64) :
    ((list.filter limit).getD ⟨[], [], list⟩).invalids = [] := by
  unfold TxList.filter
  split
  · rfl
  · rw [h]
    rfl

/-! ## Partitions -/

/-- The transactions `ts` and those of `rest` are the transactions of `list`, each on one side. -/
structure TxList.Parts (list : TxList) (ts : List SignedTransaction) (rest : TxList) : Prop where
  perm : (ts ++ rest.flatten).Perm list.flatten
  disjoint : ts.Disjoint rest.flatten

/-- The lists that the methods of `TxList` can make. -/
inductive TxList.Built : TxList → Prop
  | new (strict : Bool) : Built (.new strict)
  | add {list : TxList} {r : Added} (tx : SignedTransaction) (priceBump : BitVec 128) :
    Built list → list.add tx priceBump = some r → Built r.list
  | remove {list : TxList} (tx : SignedTransaction) : Built list → Built (list.remove tx).list
  | forward {list : TxList} (threshold : UInt64) : Built list → Built (list.forward threshold).2
  | ready {list : TxList} (start : UInt64) : Built list → Built (list.ready start).2
  | cap {list : TxList} (threshold : Nat) : Built list → Built (list.cap threshold).2
  | filter {list : TxList} (limit : UInt64) :
    Built list → Built ((list.filter limit).getD ⟨[], [], list⟩).list

namespace TxList

theorem Built.keyed (h : Built list) : list.txs.Keyed := by
  induction h with
  | new strict =>
    intro n tx h
    cases h
  | @add list r tx bump _ hadd ih =>
    cases hr : r.inserted with
    | false => rwa [add_eq_self hadd hr]
    | true =>
      rw [add_eq_some hadd hr]
      intro n t ht
      rw [TxSortedList.put, get?_insert] at ht
      split at ht
      · rename_i hn
        rw [← Option.some.inj ht, hn]
      · exact ih n t ht
  | remove tx _ ih =>
    unfold TxList.remove
    split
    · rename_i hsome
      obtain ⟨old, hold⟩ := Option.isSome_iff_exists.1 hsome
      exact (Split.erase hold).keyed ih
    · split
      · exact (Split.filter _ _).keyed ih
      · exact ih
  | forward threshold _ ih => exact (split_forward _ threshold).keyed ih
  | ready start _ ih => exact (split_ready _ start).keyed ih
  | cap threshold _ ih => exact (split_cap _ threshold).keyed ih
  | filter limit _ ih => exact (split_filter _ limit).keyed ih

theorem nodup_flatten (h : list.txs.Keyed) : list.flatten.Nodup :=
  (nodup_nonces (List.Sublist.refl _) h).of_map

theorem mem_flatten : tx ∈ list.flatten ↔ ∃ n, list.txs.get? n = some tx := mem_values_iff

/-- A split of a list that is filed by nonce is a partition. -/
theorem Parts.of_split {ts : List SignedTransaction} {rest : TxList} (h : Split list.txs ts rest.txs)
    (hkeyed : list.txs.Keyed) : Parts list ts rest := by
  have hdisjoint : ts.Disjoint rest.flatten := by
    intro tx hts hrest
    obtain ⟨n, hn, hnone⟩ := (h.mem_iff tx).1 hts
    obtain ⟨m, hm⟩ := mem_flatten.1 hrest
    rw [← hkeyed n tx hn, h.keyed hkeyed m tx hm, hm] at hnone
    cases hnone
  refine ⟨?_, hdisjoint⟩
  refine (List.perm_ext_iff_of_nodup ?_ (nodup_flatten hkeyed)).2 fun tx => ?_
  · exact List.nodup_append'.2 ⟨(h.nodup hkeyed).of_map, nodup_flatten (h.keyed hkeyed), hdisjoint⟩
  · rw [List.mem_append, h.mem_iff, mem_flatten, mem_flatten, ← exists_or]
    refine exists_congr fun n => ?_
    cases h.sub n with
    | inl hn =>
      rw [hn]
      exact ⟨fun hor => hor.elim And.left id, .inr⟩
    | inr hn => simp [hn]

theorem mem_filter_strict (hkeyed : list.txs.Keyed) (hstrict : list.strict = true) {limit : UInt64}
    (hlimit : limit ≠ 0) : ∃ r, list.filter limit = some r ∧ ∀ tx, tx ∈ r.list.flatten ↔
      tx ∈ list.flatten ∧ tx.price ≤ limit ∧
        ∀ t ∈ list.flatten, limit < t.price → tx.nonce < t.nonce := by
  refine ⟨_, by rw [TxList.filter, if_neg hlimit, if_pos hstrict], fun tx => ?_⟩
  simp only [mem_flatten, TxSortedList.get?_filter_snd, Option.filter_eq_some_iff, Bool.not_eq_true',
    decide_eq_false_iff_not, not_lt, le_lowestNonce_iff, TxSortedList.mem_filter_fst, decide_eq_true_eq]
  constructor
  · rintro ⟨n, ⟨hget, hprice⟩, hbelow⟩
    refine ⟨⟨n, hget⟩, hprice, fun t ⟨m, hm⟩ hgt => lt_of_le_of_ne (hbelow t ⟨m, hm, hgt⟩) fun heq => ?_⟩
    -- two transactions with one nonce would be one entry
    rw [hkeyed n tx hget, hkeyed m t hm] at heq
    rw [heq, hm] at hget
    rw [Option.some.inj hget] at hgt
    exact absurd hprice (not_le_of_gt hgt)
  · rintro ⟨⟨n, hget⟩, hprice, hbelow⟩
    exact ⟨n, ⟨hget, hprice⟩, fun t ⟨m, hm, hgt⟩ => le_of_lt (hbelow t ⟨m, hm⟩ hgt)⟩

theorem len_cap (list : TxList) (n : Nat) : (list.cap n).2.len = min list.len n := by
  show (list.txs.entries.drop (list.txs.entries.length - n)).length = min list.txs.entries.length n
  rw [List.length_drop]
  omega

/-- **The operations of a list lose nothing.** -/
theorem list_operations_partition (h : Built list) :
    (∀ n, Parts list (list.forward n).1 (list.forward n).2) ∧
      (∀ n, Parts list (list.ready n).1 (list.ready n).2) ∧
      (∀ n, Parts list (list.cap n).1 (list.cap n).2 ∧ (list.cap n).2.len = min list.len n) ∧
      (∀ limit, Parts list (((list.filter limit).getD ⟨[], [], list⟩).drops ++
          ((list.filter limit).getD ⟨[], [], list⟩).invalids)
        ((list.filter limit).getD ⟨[], [], list⟩).list) ∧
      (list.strict = true → ∀ limit ≠ 0, ∃ r, list.filter limit = some r ∧
        ∀ tx, tx ∈ r.list.flatten ↔ tx ∈ list.flatten ∧ tx.price ≤ limit ∧
          ∀ t ∈ list.flatten, limit < t.price → tx.nonce < t.nonce) :=
  ⟨fun n => .of_split (list.split_forward n) h.keyed, fun n => .of_split (list.split_ready n) h.keyed,
    fun n => ⟨.of_split (list.split_cap n) h.keyed, list.len_cap n⟩,
    fun limit => .of_split (list.split_filter limit) h.keyed,
    fun hstrict _ hlimit => mem_filter_strict h.keyed hstrict hlimit⟩

def payments : TxList :=
  ⟨true, ((TxSortedList.put .empty (Sample.pay 1 2 0 5 1)).put (Sample.pay 1 2 1 9 1)).put
    (Sample.pay 1 2 2 3 1)⟩

theorem list_operations_partition_payments :
    Built payments ∧ (payments.cap 1).2.len = 1 ∧ ∃ r, payments.filter 5 = some r ∧
      Sample.pay 1 2 0 5 1 ∈ r.list.flatten ∧ Sample.pay 1 2 2 3 1 ∉ r.list.flatten := by
  have hfirst := Built.add (Sample.pay 1 2 0 5 1) 10 (.new true) (add_of_free (by decide) 10)
  have hsecond := Built.add (Sample.pay 1 2 1 9 1) 10 hfirst (add_of_free (by decide) 10)
  have hbuilt : Built payments :=
    Built.add (Sample.pay 1 2 2 3 1) 10 hsecond (add_of_free (by decide) 10)
  obtain ⟨-, -, hcap, -, hfilter⟩ := list_operations_partition hbuilt
  obtain ⟨r, hr, hmem⟩ := hfilter rfl 5 (by decide)
  refine ⟨hbuilt, (hcap 1).2, r, hr, (hmem _).2 (by decide), fun hthird => ?_⟩
  exact absurd ((hmem _).1 hthird).2.2 (by decide)

end TxList

/-! ## The lookup -/

namespace TxLookup

/-- No hash is in both maps. -/
def Disjoint (t : TxLookup) : Prop := ∀ h, t.locals.get? h = none ∨ t.remotes.get? h = none

theorem contains_eq (t : TxLookup) (h : H256) : t.contains h = (t.get h).isSome := by
  unfold contains get BTreeMap.contains
  cases t.locals.get? h <;> rfl

variable {t : TxLookup}

theorem get_eq_none_iff {h : H256} :
    t.get h = none ↔ t.locals.get? h = none ∧ t.remotes.get? h = none := Option.or_eq_none_iff

variable {tx : SignedTransaction}

theorem get_of_local {h : H256} (hget : t.locals.get? h = some tx) : t.get h = some tx := by
  rw [get, hget, Option.some_or]

theorem locals_remove (t : TxLookup) (h k : H256) :
    (t.remove h).locals.get? k = if k = h then none else t.locals.get? k := get?_erase _ _ _

theorem get_remove (t : TxLookup) (h : H256) :
    (t.remove h).get = update t.get h none := by
  funext k
  unfold get
  rw [locals_remove, show (t.remove h).remotes = t.remotes.erase h from rfl, get?_erase]
  by_cases hk : k = h
  · rw [hk, update_self, if_pos rfl, if_pos rfl]
    rfl
  · rw [update_of_ne hk, if_neg hk, if_neg hk]

theorem Disjoint.remove (hd : t.Disjoint) (h : H256) : (t.remove h).Disjoint := by
  intro k
  have hlocals := locals_remove t h k
  have hremotes : (t.remove h).remotes.get? k = _ := get?_erase _ h k
  rw [hlocals, hremotes]
  split
  · exact .inl rfl
  · exact hd k

variable [Crypto]

theorem get_add (hnew : t.get tx.hash = none) (isLocal : Bool) :
    (t.add tx isLocal).get = update t.get tx.hash (some tx) := by
  obtain ⟨hl, hr⟩ := get_eq_none_iff.1 hnew
  funext k
  by_cases hk : k = tx.hash
  · rw [hk, update_self]
    cases isLocal
    · simp [get, add, hl]
    · simp [get, add]
  · rw [update_of_ne hk]
    cases isLocal
    · simp [get, add, get?_insert_of_ne _ _ hk]
    · simp [get, add, get?_insert_of_ne _ _ hk]

theorem locals_add (t : TxLookup) (tx : SignedTransaction) (isLocal : Bool) (h : H256) :
    (t.add tx isLocal).locals.get? h =
      if isLocal = true ∧ h = tx.hash then some tx else t.locals.get? h := by
  cases isLocal
  · simp [add]
  · simp [add, get?_insert]

theorem Disjoint.add (hd : t.Disjoint) (hnew : t.get tx.hash = none) (isLocal : Bool) :
    (t.add tx isLocal).Disjoint := by
  obtain ⟨hl, hr⟩ := get_eq_none_iff.1 hnew
  intro k
  by_cases hk : k = tx.hash
  · rw [hk]
    cases isLocal
    · exact .inl (by simp [TxLookup.add, hl])
    · exact .inr (by simp [TxLookup.add, hr])
  · cases isLocal
    · simpa [TxLookup.add, get?_insert_of_ne _ _ hk] using hd k
    · simpa [TxLookup.add, get?_insert_of_ne _ _ hk] using hd k

def migrated (t : TxLookup) (accounts : AccountSet) : BTreeMap H256 SignedTransaction :=
  BTreeMap.filter (fun _ tx => accounts.contains tx.sender) t.remotes

theorem locals_remoteToLocals (t : TxLookup) (accounts : AccountSet) (h : H256) :
    (t.remoteToLocals accounts).2.locals.get? h =
      ((t.migrated accounts).get? h).or (t.locals.get? h) :=
  get?_foldl_insert h _ (t.migrated accounts).sorted

theorem remotes_remoteToLocals (t : TxLookup) (accounts : AccountSet) (h : H256) :
    (t.remoteToLocals accounts).2.remotes.get? h =
      (t.remotes.get? h).filter fun tx => !accounts.contains tx.sender := get?_filter _ _ h

theorem get?_migrated (t : TxLookup) (accounts : AccountSet) (h : H256) :
    (t.migrated accounts).get? h =
      (t.remotes.get? h).filter fun tx => accounts.contains tx.sender := get?_filter _ _ h

theorem get_remoteToLocals (hd : t.Disjoint) (accounts : AccountSet) :
    (t.remoteToLocals accounts).2.get = t.get := by
  funext h
  unfold get
  rw [locals_remoteToLocals, remotes_remoteToLocals, get?_migrated]
  cases hr : t.remotes.get? h with
  | none => simp
  | some tx =>
    have hl := (hd h).resolve_right (by rw [hr]; exact Option.some_ne_none tx)
    rw [hl]
    cases hc : accounts.contains tx.sender <;> simp [Option.filter, hc]

theorem Disjoint.remoteToLocals (hd : t.Disjoint) (accounts : AccountSet) :
    (t.remoteToLocals accounts).2.Disjoint := by
  intro h
  rw [locals_remoteToLocals, remotes_remoteToLocals, get?_migrated]
  cases hr : t.remotes.get? h with
  | none => exact .inr rfl
  | some tx =>
    have hl := (hd h).resolve_right (by rw [hr]; exact Option.some_ne_none tx)
    rw [hl]
    cases hc : accounts.contains tx.sender
    · exact .inl (by simp [Option.filter, hc])
    · exact .inr (by simp [Option.filter, hc])

end TxLookup

end Uchain
