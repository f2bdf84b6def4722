import Uchain.TxPool.Proof.Prices

/-!
# The priced list as a set

`put` and `remove` compare by fee and nonce, while a transaction is known by its hash, and `put` adds
the fee also when the set does not change.
-/

namespace Uchain

open Lib

namespace TxPricedList

/-- A call on the list, for a remote transaction. -/
inductive Op where
  | put (tx : SignedTransaction)
  | remove (tx : SignedTransaction)

namespace Op

def tx : Op → SignedTransaction
  | put tx => tx
  | remove tx => tx

def after (l : TxPricedList) : Op → TxPricedList
  | put tx => l.put tx false
  | remove tx => l.remove tx

end Op

def fees (l : TxPricedList) : Nat := (l.txs.map fun t => t.fees.toNat).sum

theorem Ordered.after {l : TxPricedList} (h : l.Ordered) (op : Op) : (op.after l).Ordered := by
  cases op with
  | put tx => exact h.put tx false
  | remove tx => exact h.remove tx

/-! ## What a call does to the members and to the sum -/

theorem fees_eq_of_cmp {a b : SignedTransaction} (h : PricedTransaction.cmp a b = .eq) :
    a.fees = b.fees := by
  unfold PricedTransaction.cmp at h
  split at h
  · cases h
  · rename_i heq
    rw [Ordering.swap_eq_eq] at heq
    exact Std.LawfulEqOrd.eq_of_compare heq
  · cases h

variable {l : TxPricedList} {tx t : SignedTransaction}

theorem put_of_new (hnew : ∀ t ∈ l.txs, PricedTransaction.cmp tx t ≠ .eq) :
    (l.put tx false).txs.Perm (tx :: l.txs) := insertBy_perm hnew

theorem put_of_mem (h : l.Ordered) (ht : t ∈ l.txs) (heq : PricedTransaction.cmp tx t = .eq) :
    (l.put tx false).txs = l.txs := insertBy_of_mem heq h ht

theorem fees_of_perm {l' : TxPricedList} (h : l'.txs.Perm (tx :: l.txs)) :
    l'.fees = tx.fees.toNat + l.fees := by
  unfold fees
  rw [(h.map _).sum_nat, List.map_cons, List.sum_cons]

theorem mem_remove_iff :
    t ∈ (l.remove tx).txs ↔ t ∈ l.txs ∧ PricedTransaction.cmp t tx ≠ .eq := by
  unfold remove
  rw [List.mem_filter, bne_iff_ne]

theorem remove_of_none (hnone : ∀ t ∈ l.txs, PricedTransaction.cmp t tx ≠ .eq) :
    l.remove tx = l := by
  unfold remove
  have hfilter : l.txs.filter (fun t => PricedTransaction.cmp t tx != .eq) = l.txs :=
    List.filter_eq_self.2 fun t ht => by simpa using hnone t ht
  have hany : (l.txs.any fun t => PricedTransaction.cmp t tx == .eq) = false := by
    rw [List.any_eq_false]
    intro t ht
    simpa using hnone t ht
  rw [hfilter, hany]
  rfl

theorem perm_remove (h : l.Ordered) (ht : t ∈ l.txs) (heq : PricedTransaction.cmp t tx = .eq) :
    l.txs.Perm (t :: (l.remove tx).txs) := by
  unfold Ordered at h
  show l.txs.Perm (t :: l.txs.filter fun t => PricedTransaction.cmp t tx != .eq)
  generalize l.txs = txs at h ht ⊢
  induction txs with
  | nil => cases ht
  | cons y txs ih =>
    obtain ⟨hy, htxs⟩ := List.pairwise_cons.1 h
    rcases List.mem_cons.1 ht with rfl | hmem
    · -- what comes after is greater than `tx`
      have hrest : txs.filter (fun t => PricedTransaction.cmp t tx != .eq) = txs := by
        refine List.filter_eq_self.2 fun z hz => ?_
        have hlt : PricedTransaction.cmp tx z = .lt := by
          rw [← Std.TransCmp.congr_left heq]
          exact hy z hz
        rw [Std.OrientedCmp.gt_of_lt hlt]
        rfl
      rw [List.filter_cons_of_neg (by simp [heq]), hrest]
    · have hlt : PricedTransaction.cmp y tx = .lt := by
        rw [← Std.TransCmp.congr_right heq]
        exact hy t hmem
      rw [List.filter_cons_of_pos (by rw [hlt]; rfl)]
      exact ((ih htxs hmem).cons y).trans (.swap t y _)

theorem totalFee_remove (ht : t ∈ l.txs) (heq : PricedTransaction.cmp t tx = .eq) :
    (l.remove tx).totalFee = l.totalFee - tx.fees := by
  unfold remove
  have hany : (l.txs.any fun t => PricedTransaction.cmp t tx == .eq) = true :=
    List.any_eq_true.2 ⟨t, ht, by rw [heq]; rfl⟩
  rw [hany]
  rfl

/-! ## Faithful lists -/

variable [Crypto]

/-- The hashes of the transactions that were put and not removed since. -/
def Op.kept (kept : Set H256) : Op → Set H256
  | put tx => {h | h = tx.hash ∨ h ∈ kept}
  | remove tx => {h | h ≠ tx.hash ∧ h ∈ kept}

/-- The list has the transactions with these hashes, and the sum of their fees. -/
structure Faithful (l : TxPricedList) (kept : Set H256) : Prop where
  mem : ∀ h, (∃ t ∈ l.txs, t.hash = h) ↔ h ∈ kept
  total : l.totalFee.toNat = l.fees

/-- A call for which the order agrees with the hashes: what is put is new to the order and its fee
can be added (or it is there already, and has no fee); what is removed is all that compares equal. -/
def Op.Fair (l : TxPricedList) : Op → Prop
  | put tx =>
    ((∀ t ∈ l.txs, PricedTransaction.cmp t tx ≠ .eq) ∧ l.fees + tx.fees.toNat < 2 ^ 64) ∨
    ((∃ t ∈ l.txs, PricedTransaction.cmp t tx = .eq) ∧ (∃ t ∈ l.txs, t.hash = tx.hash) ∧
      tx.fees = 0)
  | remove tx => ∀ t ∈ l.txs,
    (t.hash = tx.hash → PricedTransaction.cmp t tx = .eq) ∧
    -- the second case needs two transactions with one hash
    (PricedTransaction.cmp t tx = .eq →
      t.hash = tx.hash ∨ ∃ t' ∈ l.txs, t'.hash = t.hash ∧ PricedTransaction.cmp t' tx ≠ .eq)

theorem faithful_new : Faithful new ∅ := ⟨by simp [new], rfl⟩

section

variable {kept : Set H256}

theorem faithful_put_iff (hord : l.Ordered) (h : Faithful l kept) (tx : SignedTransaction) :
    Faithful (l.put tx false) (Op.kept kept (.put tx)) ↔ Op.Fair l (.put tx) := by
  have htotal : (l.put tx false).totalFee = l.totalFee + tx.fees := rfl
  have hadd := UInt64.toNat_add l.totalFee tx.fees
  have hbound := l.totalFee.toNat_lt
  have hfee := tx.fees.toNat_lt
  by_cases hnew : ∀ t ∈ l.txs, PricedTransaction.cmp t tx ≠ .eq
  · -- the transaction joins the others
    have hperm : (l.put tx false).txs.Perm (tx :: l.txs) :=
      put_of_new fun t ht heq => hnew t ht (Std.OrientedCmp.eq_symm heq)
    have hfees := fees_of_perm hperm
    have hold : ¬ ∃ t ∈ l.txs, PricedTransaction.cmp t tx = .eq := by
      rintro ⟨t, ht, heq⟩
      exact hnew t ht heq
    have hmem (hash : H256) :
        (∃ t ∈ (l.put tx false).txs, t.hash = hash) ↔ hash ∈ Op.kept kept (.put tx) := by
      have hiff := h.mem hash
      simp only [hperm.mem_iff, List.exists_mem_cons_iff, hiff]
      exact or_congr_left eq_comm
    constructor
    · intro hfaithful
      have hsum := hfaithful.total
      rw [htotal, hadd, h.total, hfees] at hsum
      exact .inl ⟨hnew, by omega⟩
    · rintro (⟨-, hlt⟩ | ⟨hex, -⟩)
      · refine ⟨hmem, ?_⟩
        rw [htotal, hadd, h.total, hfees]
        omega
      · exact absurd hex hold
  · -- the set stays as it is, the sum does not
    push Not at hnew
    obtain ⟨t, ht, heq⟩ := hnew
    have hsame := put_of_mem hord ht (Std.OrientedCmp.eq_symm heq)
    have hfees : (l.put tx false).fees = l.fees := by
      unfold fees
      rw [hsame]
    constructor
    · intro hfaithful
      refine .inr ⟨⟨t, ht, heq⟩, ?_, ?_⟩
      · have hin := (hfaithful.mem tx.hash).2 (.inl rfl)
        rwa [hsame] at hin
      · have hsum := hfaithful.total
        rw [htotal, hadd, h.total, hfees] at hsum
        exact UInt64.toNat_inj.1 (by rw [UInt64.toNat_zero]; omega)
    · rintro (⟨hnone, -⟩ | ⟨-, hhash, hzero⟩)
      · exact absurd heq (hnone t ht)
      · refine ⟨fun hash => ?_, ?_⟩
        · rw [hsame, h.mem]
          refine ⟨.inr, ?_⟩
          rintro (rfl | hin)
          · exact (h.mem _).1 hhash
          · exact hin
        · rw [htotal, hfees, hzero, UInt64.add_zero, h.total]

theorem total_remove (hord : l.Ordered) (h : Faithful l kept) (tx : SignedTransaction) :
    (l.remove tx).totalFee.toNat = (l.remove tx).fees := by
  by_cases hnone : ∀ t ∈ l.txs, PricedTransaction.cmp t tx ≠ .eq
  · rw [remove_of_none hnone]
    exact h.total
  · push Not at hnone
    obtain ⟨t, ht, heq⟩ := hnone
    have hfees := fees_of_perm (perm_remove hord ht heq)
    rw [← h.total, fees_eq_of_cmp heq] at hfees
    have hle : tx.fees ≤ l.totalFee := UInt64.le_iff_toNat_le.2 (by omega)
    rw [totalFee_remove ht heq, UInt64.toNat_sub_of_le _ _ hle]
    omega

theorem faithful_remove_iff (hord : l.Ordered) (h : Faithful l kept) (tx : SignedTransaction) :
    Faithful (l.remove tx) (Op.kept kept (.remove tx)) ↔ Op.Fair l (.remove tx) := by
  constructor
  · intro hfaithful t ht
    constructor
    · -- what stays does not have the hash
      intro hhash
      by_contra hne
      exact ((hfaithful.mem t.hash).1 ⟨t, mem_remove_iff.2 ⟨ht, hne⟩, rfl⟩).1 hhash
    · -- what leaves has it, or its own hash stays
      intro heq
      by_cases hhash : t.hash = tx.hash
      · exact .inl hhash
      · obtain ⟨t', ht', hsame⟩ := (hfaithful.mem t.hash).2 ⟨hhash, (h.mem _).1 ⟨t, ht, rfl⟩⟩
        obtain ⟨hin, hne⟩ := mem_remove_iff.1 ht'
        exact .inr ⟨t', hin, hsame, hne⟩
  · intro hfair
    refine ⟨fun hash => ⟨?_, ?_⟩, total_remove hord h tx⟩
    · rintro ⟨t, ht, rfl⟩
      obtain ⟨hin, hne⟩ := mem_remove_iff.1 ht
      exact ⟨fun hhash => hne ((hfair t hin).1 hhash), (h.mem _).1 ⟨t, hin, rfl⟩⟩
    · rintro ⟨hne, hin⟩
      obtain ⟨t, ht, rfl⟩ := (h.mem _).2 hin
      by_cases heq : PricedTransaction.cmp t tx = .eq
      · obtain ⟨t', ht', hsame, hstays⟩ := ((hfair t ht).2 heq).resolve_left hne
        exact ⟨t', mem_remove_iff.2 ⟨ht', hstays⟩, hsame⟩
      · exact ⟨t, mem_remove_iff.2 ⟨ht, heq⟩, rfl⟩

theorem faithful_after_iff (hord : l.Ordered) (h : Faithful l kept) (op : Op) :
    Faithful (op.after l) (op.kept kept) ↔ op.Fair l := by
  cases op with
  | put tx => exact faithful_put_iff hord h tx
  | remove tx => exact faithful_remove_iff hord h tx

end

/-! ## Runs -/

/-- The list is faithful before, between and after the calls. -/
def FaithfulAlong : List Op → TxPricedList → Set H256 → Prop
  | [], l, kept => Faithful l kept
  | op :: ops, l, kept => Faithful l kept ∧ FaithfulAlong ops (op.after l) (op.kept kept)

/-- Every call is fair to the list that it meets. -/
def FairAlong : List Op → TxPricedList → Prop
  | [], _ => True
  | op :: ops, l => op.Fair l ∧ FairAlong ops (op.after l)

theorem FaithfulAlong.head {ops : List Op} {l : TxPricedList} {kept : Set H256}
    (h : FaithfulAlong ops l kept) : Faithful l kept := by
  cases ops with
  | nil => exact h
  | cons op ops => exact h.1

theorem faithfulAlong_iff_of_faithful {kept : Set H256} (hord : l.Ordered) (h : Faithful l kept)
    (ops : List Op) : FaithfulAlong ops l kept ↔ FairAlong ops l := by
  induction ops generalizing l kept with
  | nil => exact iff_of_true h trivial
  | cons op ops ih =>
    constructor
    · intro halong
      have hafter := halong.2.head
      exact ⟨(faithful_after_iff hord h op).1 hafter, (ih (hord.after op) hafter).1 halong.2⟩
    · intro hfair
      have hafter := (faithful_after_iff hord h op).2 hfair.1
      exact ⟨h, (ih (hord.after op) hafter).2 hfair.2⟩

/-- **When a run keeps the priced list a faithful set**: exactly if no call meets a transaction that
has the fee and the nonce of its own but another hash, no transaction with a fee is put again while
it is there, and the fees fit 64 bits. -/
theorem faithful_along_iff (ops : List Op) : FaithfulAlong ops new ∅ ↔ FairAlong ops new :=
  faithfulAlong_iff_of_faithful ordered_new faithful_new ops

end TxPricedList

namespace PricedSet

open scoped Sample
open TxPricedList

/-- Two payments with the same fee and nonce, of two senders. -/
def first : SignedTransaction := Sample.pay 1 8 1 5 30

def second : SignedTransaction := Sample.pay 2 9 1 5 30

/-- The second payment is lost while its fee is counted, and its removal takes the first one away. -/
theorem put_loses_second :
    first.hash ≠ second.hash ∧ first.sender ≠ second.sender ∧
    ((new.put first false).put second false).txs = [first] ∧
    ((new.put first false).put second false).totalFee = 60 ∧
    ((new.put first false).remove second).txs = [] ∧
    ¬ FaithfulAlong [.put first, .put second] new ∅ ∧
    ¬ FaithfulAlong [.put first, .remove second] new ∅ := by
  have hput : ((new.put first false).put second false).txs = [first] := by decide
  have hremove : ((new.put first false).remove second).txs = [] := by decide
  have hne : first.hash ≠ second.hash := by decide +kernel
  refine ⟨hne, by decide, hput, by decide, hremove, ?_, ?_⟩
  · rintro ⟨-, -, hfaithful⟩
    obtain ⟨t, ht, hhash⟩ := (hfaithful.mem second.hash).2 (.inl rfl)
    rw [show (Op.after (Op.after new (.put first)) (.put second)).txs = [first] from hput,
      List.mem_singleton] at ht
    rw [ht] at hhash
    exact hne hhash
  · rintro ⟨-, -, hfaithful⟩
    obtain ⟨t, ht, -⟩ := (hfaithful.mem first.hash).2 ⟨hne, .inl rfl⟩
    rw [show (Op.after (Op.after new (.put first)) (.remove second)).txs = [] from hremove] at ht
    cases ht

end PricedSet

end Uchain
