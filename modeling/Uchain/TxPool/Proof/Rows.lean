import Uchain.TxPool.Proof.Lists

/-!
# Pending lists without gaps

`Row fixed account list`: a strict list, filed by nonce, whose nonces are an interval; under the
assumption `fixed` the interval starts at the nonce of the account. Each operation that the pool
applies to a pending list keeps this under a condition on the transaction, and demotion makes the
interval start at the nonce of the account (`Row.demote`).
-/

namespace Uchain

open Lib BTreeMap

/-- The nonces of the list are those from `s` to below `e`. -/
def Spans (txs : TxSortedList) (s e : Nat) : Prop :=
  ∀ n, (txs.get? n).isSome = true ↔ s ≤ n.toNat ∧ n.toNat < e

structure Row (fixed : Prop) (account : AccountState) (list : TxList) : Prop where
  strict : list.strict = true
  keyed : ∀ n tx, list.txs.get? n = some tx → tx.nonce = n
  spans : ∃ s e, (fixed → s = account.nonce.toNat) ∧ Spans list.txs s e

namespace Row

variable {fixed : Prop} {account : AccountState} {list : TxList} {tx : SignedTransaction}

theorem mono (h : Row fixed account list) {fixed' : Prop} (hf : fixed' → fixed) :
    Row fixed' account list := by
  obtain ⟨s, e, hs, hspans⟩ := h.spans
  exact ⟨h.strict, h.keyed, s, e, fun hf' => hs (hf hf'), hspans⟩

theorem of_empty (hstrict : list.strict = true) (hempty : ∀ n, list.txs.get? n = none) :
    Row fixed account list where
  strict := hstrict
  keyed n tx h := by
    rw [hempty n] at h
    cases h
  spans := by
    refine ⟨account.nonce.toNat, account.nonce.toNat, fun _ => rfl, fun n => ?_⟩
    rw [hempty n]
    simp only [Option.isSome_none, Bool.false_eq_true, false_iff]
    omega

theorem new (fixed : Prop) (account : AccountState) : Row fixed account (TxList.new true) :=
  of_empty rfl fun _ => rfl

theorem congr (h : Row fixed account list) {account' : AccountState}
    (hnonce : account'.nonce = account.nonce) : Row fixed account' list := by
  obtain ⟨s, e, hs, hspans⟩ := h.spans
  exact ⟨h.strict, h.keyed, s, e, fun hf => hnonce ▸ hs hf, hspans⟩

theorem shrink (h : Row fixed account list) {list' : TxList} (hstrict : list'.strict = list.strict)
    (hsub : ∀ n, list'.txs.get? n = list.txs.get? n ∨ list'.txs.get? n = none) {s e : Nat}
    (hs : fixed → s = account.nonce.toNat) (hspans : Spans list'.txs s e) :
    Row fixed account list' where
  strict := hstrict.trans h.strict
  keyed n tx hn := by
    cases hsub n with
    | inl heq => exact h.keyed n tx (heq ▸ hn)
    | inr heq =>
      rw [heq] at hn
      cases hn
  spans := ⟨s, e, hs, hspans⟩

/-! ## Promotion and replacement -/

/-- The transaction has a nonce of the list or the next one. -/
def Continues (account : AccountState) (list : TxList) (tx : SignedTransaction) : Prop :=
  (list.txs.get? tx.nonce).isSome = true ∨ (list.isEmpty = true ∧ tx.nonce = account.nonce) ∨
    (tx.nonce ≠ 0 ∧ (list.txs.get? (tx.nonce - 1)).isSome = true)

instance (account : AccountState) (list : TxList) (tx : SignedTransaction) :
    Decidable (Continues account list tx) := inferInstanceAs (Decidable (_ ∨ _))

theorem isSome_put (txs : TxSortedList) (tx : SignedTransaction) (n : UInt64) :
    ((txs.put tx).get? n).isSome = true ↔ n = tx.nonce ∨ (txs.get? n).isSome = true := by
  rw [TxSortedList.put, get?_insert]
  split
  · simp [*]
  · simp [*]

theorem put (h : Row fixed account list) (hcont : Continues account list tx) :
    Row fixed account { list with txs := list.txs.put tx } where
  strict := h.strict
  keyed n t hn := by
    rw [TxSortedList.put, get?_insert] at hn
    split at hn
    · rename_i heq
      rw [← Option.some.inj hn, heq]
    · exact h.keyed n t hn
  spans := by
    obtain ⟨s, e, hs, hspans⟩ := h.spans
    rcases hcont with hmem | ⟨hempty, hnonce⟩ | ⟨hne, hprev⟩
    · refine ⟨s, e, hs, fun n => ?_⟩
      rw [isSome_put, ← hspans n, or_iff_right_iff_imp]
      rintro rfl
      exact hmem
    · refine ⟨account.nonce.toNat, account.nonce.toNat + 1, fun _ => rfl, fun n => ?_⟩
      rw [isSome_put, list.get?_of_isEmpty hempty, hnonce, ← UInt64.toNat_inj]
      simp only [Option.isSome_none, Bool.false_eq_true, or_false]
      omega
    · -- the interval grows by one, unless the nonce was there
      have hone : (1 : UInt64) ≤ tx.nonce := by
        rw [UInt64.le_iff_toNat_le]
        have : tx.nonce.toNat ≠ 0 := fun h0 => hne (UInt64.toNat_inj.1 h0)
        show 1 ≤ tx.nonce.toNat
        omega
      have hprev := (hspans _).1 hprev
      rw [UInt64.toNat_sub_of_le _ _ hone, show (1 : UInt64).toNat = 1 from rfl] at hprev
      have hone' : 1 ≤ tx.nonce.toNat := UInt64.le_iff_toNat_le.1 hone
      refine ⟨s, max e (tx.nonce.toNat + 1), hs, fun n => ?_⟩
      rw [isSome_put, hspans n, ← UInt64.toNat_inj]
      omega

/-! ## Removal -/

/-- The transaction with the highest nonce leaves, or one that is not in the list: then what is
above it leaves. -/
theorem remove (h : Row fixed account list)
    (hlast : (list.txs.get? tx.nonce).isSome = true →
      ∀ n, (list.txs.get? n).isSome = true → n ≤ tx.nonce) :
    Row fixed account (list.remove tx).list := by
  obtain ⟨s, e, hs, hspans⟩ := h.spans
  unfold TxList.remove
  split
  · rename_i hmem
    refine h.shrink rfl (fun n => ?_) hs (e := tx.nonce.toNat) fun n => ?_
    · rw [get?_erase]
      split
      · exact .inr rfl
      · exact .inl rfl
    · rw [get?_erase]
      have hbounds := (hspans _).1 hmem
      split
      · rename_i heq
        simp only [Option.isSome_none, Bool.false_eq_true, false_iff, heq]
        omega
      · rename_i hne
        rw [hspans n]
        have hle : s ≤ n.toNat ∧ n.toNat < e → n.toNat ≤ tx.nonce.toNat := fun hn =>
          UInt64.le_iff_toNat_le.1 (hlast hmem n ((hspans n).2 hn))
        have hne : n.toNat ≠ tx.nonce.toNat := fun heq => hne (UInt64.toNat_inj.1 heq)
        omega
  · rw [if_pos h.strict]
    refine h.shrink rfl (Split.filter _ list.txs).sub hs (e := min e (tx.nonce.toNat + 1))
      fun n => ?_
    rw [TxSortedList.get?_filter_snd]
    have hn := hspans n
    cases hget : list.txs.get? n with
    | none =>
      rw [hget] at hn
      simp only [Option.filter_none, Option.isSome_none, Bool.false_eq_true, false_iff] at hn ⊢
      omega
    | some t =>
      rw [hget] at hn
      have hkey := h.keyed n t hget
      have hbounds := hn.1 rfl
      have hiff : ((some t).filter fun t => !decide (tx.nonce < t.nonce)).isSome = true ↔
          n.toNat ≤ tx.nonce.toNat := by
        rw [Option.isSome_filter]
        simp only [Option.any_some, Bool.not_eq_true', decide_eq_false_iff_not, hkey,
          UInt64.lt_iff_toNat_lt, not_lt]
      rw [hiff]
      omega

theorem get?_cap_zero (list : TxList) (n : UInt64) : (list.cap 0).2.txs.get? n = none := by
  show BTreeMap.lookup n (list.txs.entries.drop (list.txs.entries.length - 0)) = none
  rw [Nat.sub_zero, List.drop_length]
  rfl

theorem capFirst (h : Row fixed account list) (hlen : list.len ≤ 1) :
    Row fixed account (list.cap (list.len - 1)).2 := by
  refine of_empty h.strict fun n => ?_
  rw [Nat.sub_eq_zero_of_le hlen]
  exact get?_cap_zero list n

/-! ## Demotion -/

theorem forward (h : Row False account list) (nonce : UInt64) :
    ∃ s e, Spans (list.forward nonce).2.txs s e ∧ nonce.toNat ≤ s := by
  obtain ⟨s, e, -, hspans⟩ := h.spans
  refine ⟨max s nonce.toNat, e, fun n => ?_, le_max_right _ _⟩
  show ((TxSortedList.filter _ list.txs).2.get? n).isSome = true ↔ _
  rw [TxSortedList.get?_filter_snd, Option.isSome_filter]
  have hn := hspans n
  cases hget : list.txs.get? n with
  | none =>
    rw [hget] at hn
    simp only [Option.isSome_none, Bool.false_eq_true, false_iff, Option.any_none] at hn ⊢
    omega
  | some t =>
    rw [hget] at hn
    have hbounds := hn.1 rfl
    simp only [Option.any_some, Bool.not_eq_true', decide_eq_false_iff_not,
      UInt64.lt_iff_toNat_lt, not_lt]
    omega

/-- Dropping some transactions, and all above the lowest of them, leaves a first part of the
interval. -/
theorem spans_filter {txs : TxSortedList} {s e : Nat} (p : SignedTransaction → Bool)
    (hkeyed : ∀ n tx, txs.get? n = some tx → tx.nonce = n) (hspans : Spans txs s e) :
    ∃ e', Spans (TxSortedList.filter (fun _ tx => decide (TxList.lowestNonce
      (TxSortedList.filter (fun _ tx => p tx) txs).1 < tx.nonce))
        (TxSortedList.filter (fun _ tx => p tx) txs).2).2 s e' := by
  have hdrops {t : SignedTransaction} : t ∈ (TxSortedList.filter (fun _ tx => p tx) txs).1 ↔
      ∃ n, txs.get? n = some t ∧ p t = true := TxSortedList.mem_filter_fst
  have hrest (n : UInt64) : (TxSortedList.filter (fun _ tx => p tx) txs).2.get? n =
      (txs.get? n).filter fun tx => !p tx := TxSortedList.get?_filter_snd _ _ _
  generalize (TxSortedList.filter (fun _ tx => p tx) txs).1 = drops at hdrops ⊢
  generalize (TxSortedList.filter (fun _ tx => p tx) txs).2 = rest at hrest ⊢
  -- what is left: kept by the first filter, and not above the lowest nonce that was dropped
  have hkept (n : UInt64) : ((TxSortedList.filter (fun _ tx => decide (TxList.lowestNonce drops <
      tx.nonce)) rest).2.get? n).isSome = true ↔
        ∃ t, txs.get? n = some t ∧ p t = false ∧ n.toNat ≤ (TxList.lowestNonce drops).toNat := by
    rw [TxSortedList.get?_filter_snd, hrest]
    cases hget : txs.get? n with
    | none => simp
    | some t =>
      have hkey := hkeyed n t hget
      cases hp : p t <;> simp [Option.filter, hp, hkey, UInt64.le_iff_toNat_le]
  by_cases hnil : drops = []
  · refine ⟨e, fun n => ?_⟩
    rw [hkept, ← hspans n, Option.isSome_iff_exists]
    refine exists_congr fun t => and_iff_left_of_imp fun ht => ⟨?_, ?_⟩
    · cases hp : p t with
      | false => rfl
      | true =>
        have hmem := hdrops.2 ⟨n, ht, hp⟩
        rw [hnil] at hmem
        cases hmem
    · rw [hnil]
      have hlt := n.toNat_lt
      show n.toNat ≤ 2 ^ 64 - 1
      omega
  · obtain ⟨t₀, ht₀, hlow⟩ := TxList.exists_lowestNonce hnil
    obtain ⟨n₀, hn₀, hp₀⟩ := hdrops.1 ht₀
    rw [hkeyed n₀ t₀ hn₀] at hlow
    have hbounds₀ := (hspans n₀).1 (by rw [hn₀]; rfl)
    refine ⟨n₀.toNat, fun n => ?_⟩
    rw [hkept, hlow]
    constructor
    · intro h
      obtain ⟨t, ht, hp, hle⟩ := h
      have hbounds := (hspans n).1 (by rw [ht]; rfl)
      have hne : n.toNat ≠ n₀.toNat := by
        intro heq
        rw [UInt64.toNat_inj.1 heq, hn₀] at ht
        cases ht
        rw [hp₀] at hp
        cases hp
      omega
    · intro h
      obtain ⟨t, ht⟩ := Option.isSome_iff_exists.1 ((hspans n).2 ⟨h.1, by omega⟩)
      refine ⟨t, ht, ?_, by omega⟩
      cases hp : p t with
      | false => rfl
      | true =>
        have hle := TxList.lowestNonce_le (hdrops.2 ⟨n, ht, hp⟩)
        rw [hlow, hkeyed n t ht, UInt64.le_iff_toNat_le] at hle
        omega

theorem filter (list : TxList) (hstrict : list.strict = true)
    (hkeyed : ∀ n tx, list.txs.get? n = some tx → tx.nonce = n) {s e : Nat}
    (hspans : Spans list.txs s e) (limit : UInt64) :
    ∃ e', Spans ((list.filter limit).getD ⟨[], [], list⟩).list.txs s e' := by
  unfold TxList.filter
  split
  · exact ⟨e, hspans⟩
  · exact spans_filter _ hkeyed hspans

def demoted (account : AccountState) (list : TxList) : TxList :=
  let filtered := (((list.forward account.nonce).2.filter account.freeBalance).getD
    ⟨[], [], (list.forward account.nonce).2⟩).list
  if !filtered.isEmpty && (filtered.txs.get? account.nonce).isNone then (filtered.cap 0).2
  else filtered

/-- **Demotion makes a list start at the nonce of the account.** -/
theorem demote (h : Row False account list) : Row True account (demoted account list) := by
  have hkeyed := (list.split_forward account.nonce).keyed h.keyed
  obtain ⟨s, e, hspans, hle⟩ := h.forward account.nonce
  obtain ⟨e', hspans'⟩ := filter (list.forward account.nonce).2 h.strict hkeyed hspans account.freeBalance
  have hstrict : (((list.forward account.nonce).2.filter account.freeBalance).getD
      ⟨[], [], (list.forward account.nonce).2⟩).list.strict = true :=
    (TxList.strict_filter _ _).trans h.strict
  have hkeyed' := (TxList.split_filter (list.forward account.nonce).2 account.freeBalance).keyed hkeyed
  unfold demoted
  generalize (((list.forward account.nonce).2.filter account.freeBalance).getD
    ⟨[], [], (list.forward account.nonce).2⟩).list = filtered at hspans' hstrict hkeyed' ⊢
  simp only []
  split
  · exact of_empty hstrict (get?_cap_zero filtered)
  · rename_i hcond
    rw [Bool.and_eq_true_iff, not_and_or] at hcond
    rcases hcond with hempty | hsome
    · exact of_empty hstrict fun n => filtered.get?_of_isEmpty (by simpa using hempty) n
    · have hmem := (hspans' account.nonce).1 (by simpa [Option.isNone_iff_eq_none,
        Option.isSome_iff_ne_none] using hsome)
      refine ⟨hstrict, hkeyed', s, e', fun _ => ?_, hspans'⟩
      omega

end Row

end Uchain
