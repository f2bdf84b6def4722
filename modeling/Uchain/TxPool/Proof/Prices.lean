import Mathlib.Data.Nat.Init
import Mathlib.Tactic.Linarith
import Uchain.Lib.Returns
import Uchain.TxPool.Sample

/-!
# Fees decide

`TxList::add` relates the rise of a fee to the *new* fee, and lets every lower fee through. `discard`
keeps as many transactions as it is asked for and returns the others. `underpriced` takes the
comparison of the set, which is reversed already.
-/

namespace Uchain

open Lib

/-! ## Replacements -/

namespace TxList

/-- The fee of `tx` is above that of `old` by at least `priceBump` percent of the latter. -/
def Outbids (old tx : SignedTransaction) (priceBump : BitVec 128) : Prop :=
  (priceBump.toNat : Int) * old.fees.toNat ≤ 100 * ((tx.fees.toNat : Int) - old.fees.toNat)

instance Outbids.decidable (old tx : SignedTransaction) (priceBump : BitVec 128) :
    Decidable (Outbids old tx priceBump) :=
  inferInstanceAs (Decidable (_ ≤ _))

/-- `add` does not panic; it replaces `old` by a transaction that outbids it, or it changes nothing
and says so. -/
def AddsFairly (list : TxList) (old tx : SignedTransaction) (priceBump : BitVec 128) : Prop :=
  ∃ r, list.add tx priceBump = some r ∧
    ((r = ⟨true, some old, { list with txs := list.txs.put tx }⟩ ∧ Outbids old tx priceBump) ∨
      r = ⟨false, none, list⟩)

variable {list : TxList} {old tx : SignedTransaction} {priceBump : BitVec 128}

theorem not_outbids_of_lt (hbump : 1 ≤ priceBump.toNat) (h : tx.fees < old.fees) :
    ¬ Outbids old tx priceBump := by
  have hlt := UInt64.lt_iff_toNat_lt.1 h
  intro hout
  have hpos : (0 : Int) ≤ priceBump.toNat * old.fees.toNat := by positivity
  unfold Outbids at hout
  omega

/-- The rise of a fee in percent of the new one, as the source rounds it. -/
theorem le_feeBump_iff (hle : old.fees ≤ tx.fees) (hpos : 0 < tx.fees.toNat) {n : Nat} :
    (n : Int) ≤ feeBump old tx ↔ n * tx.fees.toNat + 100 * old.fees.toNat ≤ 100 * tx.fees.toNat := by
  have hle := UInt64.le_iff_toNat_le.1 hle
  have hrise : ((tx.fees.toNat : Int) - old.fees.toNat) * 100 =
      ((tx.fees.toNat - old.fees.toNat) * 100 : Nat) := by omega
  unfold feeBump
  rw [hrise, ← Int.ofNat_tdiv, Int.ofNat_le, Nat.le_div_iff_mul_le hpos]
  omega

/-- A rise that is large enough for the source is large enough for the old fee. -/
theorem outbids_of_le_feeBump (hle : old.fees ≤ tx.fees) (hpos : 0 < tx.fees.toNat)
    (h : (priceBump.toNat : Int) ≤ feeBump old tx) : Outbids old tx priceBump := by
  have hrise := (le_feeBump_iff hle hpos).1 h
  have hmul : priceBump.toNat * old.fees.toNat ≤ priceBump.toNat * tx.fees.toNat :=
    Nat.mul_le_mul_left _ (UInt64.le_iff_toNat_le.1 hle)
  unfold Outbids
  zify at hrise hmul
  linarith

theorem feeBump_nonneg (hle : old.fees ≤ tx.fees) (hpos : 0 < tx.fees.toNat) :
    0 ≤ feeBump old tx := by
  have hle' := UInt64.le_iff_toNat_le.1 hle
  exact (le_feeBump_iff (n := 0) hle hpos).2 (by omega)

/-- A bump that reads as a negative number is out of reach of any fee. -/
theorem outbids_iff_of_large (hlarge : 2 ^ 127 ≤ priceBump.toNat) (hle : old.fees ≤ tx.fees) :
    Outbids old tx priceBump ↔ old.fees = 0 := by
  have hle := UInt64.le_iff_toNat_le.1 hle
  have hfee := tx.fees.toNat_lt
  unfold Outbids
  constructor
  · intro hout
    by_contra hne
    have hold : 1 ≤ old.fees.toNat := by
      rcases Nat.eq_zero_or_pos old.fees.toNat with hz | hz
      · exact absurd (UInt64.toNat_inj.1 hz) hne
      · exact hz
    have hmul : 2 ^ 127 * 1 ≤ priceBump.toNat * old.fees.toNat := Nat.mul_le_mul hlarge hold
    zify at hmul
    omega
  · intro hz
    rw [hz]
    simp

/-- **When a replacement is fair**: exactly if the new transaction has a fee that is not below the old
one, and the bump is one that the source reads as a positive number (or the old fee is zero). -/
theorem add_fair_iff (hold : list.txs.get? tx.nonce = some old) (hbump : 1 ≤ priceBump.toNat) :
    AddsFairly list old tx priceBump ↔
      tx.fees ≠ 0 ∧ old.fees ≤ tx.fees ∧ (priceBump.toNat < 2 ^ 127 ∨ old.fees = 0) := by
  unfold AddsFairly add
  rw [hold]
  dsimp only
  by_cases hzero : tx.fees = 0
  · simp [hzero]
  · have hpos : 0 < tx.fees.toNat := Nat.pos_of_ne_zero fun h => hzero (UInt64.toNat_inj.1 h)
    rw [if_neg hzero]
    by_cases hlow : old.fees ≤ tx.fees
    · by_cases hsmall : feeBump old tx < priceBump.toInt
      · -- refused: the bump is positive
        rw [if_pos ⟨hlow, hsmall⟩]
        have hint : 0 < priceBump.toInt := (feeBump_nonneg hlow hpos).trans_lt hsmall
        have hbound : priceBump.toNat < 2 ^ 127 := by
          rw [BitVec.toInt_eq_toNat_cond] at hint
          split at hint <;> omega
        exact ⟨fun _ => ⟨hzero, hlow, .inl hbound⟩, fun _ => ⟨_, rfl, .inr rfl⟩⟩
      · rw [if_neg fun hc => hsmall hc.2]
        have hiff : Outbids old tx priceBump ↔ priceBump.toNat < 2 ^ 127 ∨ old.fees = 0 := by
          by_cases hbound : priceBump.toNat < 2 ^ 127
          · have hint : priceBump.toInt = priceBump.toNat := by
              rw [BitVec.toInt_eq_toNat_cond, if_pos (by omega)]
            rw [hint, not_lt] at hsmall
            exact ⟨fun _ => .inl hbound, fun _ => outbids_of_le_feeBump hlow hpos hsmall⟩
          · rw [outbids_iff_of_large (by omega) hlow]
            exact ⟨.inr, fun h => h.resolve_left hbound⟩
        rw [← hiff]
        constructor
        · intro h
          obtain ⟨r, hr, ⟨-, hout⟩ | hr'⟩ := h
          · exact ⟨hzero, hlow, hout⟩
          · rw [hr'] at hr
            cases hr
        · intro h
          exact ⟨_, rfl, .inl ⟨rfl, h.2.2⟩⟩
    · rw [if_neg fun hc => hlow hc.1]
      refine ⟨fun h => ?_, fun h => absurd h.2.1 hlow⟩
      obtain ⟨r, hr, ⟨-, hout⟩ | hr'⟩ := h
      · exact absurd hout (not_outbids_of_lt hbump (UInt64.not_le.1 hlow))
      · rw [hr'] at hr
        cases hr

/-- The list of one queued payment with the nonce `1` and the fee `100`. -/
def sample : TxList := ⟨false, TxSortedList.put .empty (Sample.pay 1 9 1 5 100)⟩

theorem add_fair_iff_sample :
    sample.txs.get? (Sample.pay 1 9 1 5 120).nonce = some (Sample.pay 1 9 1 5 100) ∧
      AddsFairly sample (Sample.pay 1 9 1 5 100) (Sample.pay 1 9 1 5 120) 10 :=
  ⟨by decide, (add_fair_iff (by decide) (by decide)).2 (by decide)⟩

/-- A transaction with a tenth of the fee takes the place of the other one, and one without a fee
panics. -/
theorem lower_fee_replaces :
    (∃ r, sample.add (Sample.pay 1 9 1 5 10) 10 = some r ∧ r.inserted = true ∧
      r.old = some (Sample.pay 1 9 1 5 100)) ∧
    ¬ AddsFairly sample (Sample.pay 1 9 1 5 100) (Sample.pay 1 9 1 5 10) 10 ∧
    sample.add (Sample.pay 1 9 1 5 0) 10 = none := by
  refine ⟨⟨_, rfl, rfl, rfl⟩, ?_, rfl⟩
  intro h
  obtain ⟨r, hr, ⟨-, hout⟩ | hr'⟩ := h
  · exact absurd hout (by decide)
  · rw [hr'] at hr
    cases hr

end TxList

/-! ## Evictions -/

theorem PricedTransaction.cmp_eq_compareLex : PricedTransaction.cmp =
    compareLex (fun a b => compareOn SignedTransaction.fees b a)
      fun a b => compareOn SignedTransaction.nonce b a := by
  funext a b
  have hfees : (compare a.fees b.fees).swap = compare b.fees a.fees := Std.OrientedCmp.eq_swap.symm
  have hnonce : (compare a.nonce b.nonce).swap = compare b.nonce a.nonce :=
    Std.OrientedCmp.eq_swap.symm
  unfold PricedTransaction.cmp compareLex compareOn
  rw [hfees, hnonce]
  dsimp only
  cases compare b.fees a.fees <;> rfl

instance PricedTransaction.transCmp : Std.TransCmp PricedTransaction.cmp := by
  rw [PricedTransaction.cmp_eq_compareLex]
  infer_instance

theorem PricedTransaction.fees_le_of_lt {a b : SignedTransaction}
    (h : PricedTransaction.cmp a b = .lt) : b.fees ≤ a.fees := by
  unfold PricedTransaction.cmp at h
  split at h
  · rename_i hlt
    rw [Ordering.swap_eq_lt] at hlt
    exact UInt64.le_of_lt (Std.compare_eq_gt.1 hlt)
  · rename_i heq
    rw [Ordering.swap_eq_eq] at heq
    rw [Std.LawfulEqOrd.eq_of_compare heq]
  · cases h

namespace TxPricedList

/-- The transactions are in strict order, as in every `BTreeSet`. -/
def Ordered (l : TxPricedList) : Prop :=
  l.txs.Pairwise fun a b => PricedTransaction.cmp a b = .lt

theorem ordered_new : Ordered new := .nil

variable {l : TxPricedList}

theorem Ordered.put (h : l.Ordered) (tx : SignedTransaction) (isLocal : Bool) :
    (l.put tx isLocal).Ordered := by
  unfold TxPricedList.put
  split
  · exact h
  · exact sorted_insertBy h

theorem Ordered.remove (h : l.Ordered) (tx : SignedTransaction) : (l.remove tx).Ordered :=
  List.Pairwise.filter _ h

theorem Ordered.discard (h : l.Ordered) (slots : UInt64) : (l.discard slots).2.Ordered := by
  unfold TxPricedList.discard
  split
  · exact h
  · exact h.take

/-- `discard n` returns `n` transactions that are not dearer than any that stays, and the others
stay. -/
def EvictsCheapest (l : TxPricedList) (n : UInt64) : Prop :=
  (l.discard n).1.length = n.toNat ∧
    (∀ t ∈ (l.discard n).1, ∀ t' ∈ (l.discard n).2.txs, t.fees ≤ t'.fees) ∧
    ∀ t, t ∈ (l.discard n).2.txs ↔ t ∈ l.txs ∧ t ∉ (l.discard n).1

theorem Ordered.fees_le_of_mem_drop (h : l.Ordered) {n : Nat} {t t' : SignedTransaction}
    (ht : t ∈ l.txs.drop n) (ht' : t' ∈ l.txs.take n) : t.fees ≤ t'.fees := by
  have happ := List.take_append_drop n l.txs
  unfold Ordered at h
  rw [← happ, List.pairwise_append] at h
  exact PricedTransaction.fees_le_of_lt (h.2.2 t' ht' t ht)

theorem Ordered.mem_take_iff (h : l.Ordered) {n : Nat} {t : SignedTransaction} :
    t ∈ l.txs.take n ↔ t ∈ l.txs ∧ t ∉ l.txs.drop n := by
  have happ := List.take_append_drop n l.txs
  unfold Ordered at h
  rw [← happ, List.pairwise_append] at h
  constructor
  · intro ht
    refine ⟨List.mem_of_mem_take ht, fun hd => ?_⟩
    have hlt := h.2.2 t ht t hd
    have hself : PricedTransaction.cmp t t = .eq := Std.ReflCmp.compare_self
    rw [hself] at hlt
    cases hlt
  · intro ht
    have hmem : t ∈ l.txs.take n ++ l.txs.drop n := happ.symm ▸ ht.1
    exact (List.mem_append.1 hmem).resolve_right ht.2

/-- **When `discard` evicts as many as it is asked for**: exactly if the list has twice as many. The
transactions that it returns are the cheapest ones in any case. -/
theorem discard_cheapest_iff {n : UInt64} (h : l.Ordered) (hn : n.toNat < l.txs.length) :
    EvictsCheapest l n ↔ l.txs.length = 2 * n.toNat := by
  have hrun : l.discard n = (l.txs.drop n.toNat, { l with txs := l.txs.take n.toNat }) :=
    if_neg (by omega)
  unfold EvictsCheapest
  rw [hrun]
  constructor
  · intro hev
    have hlen := hev.1
    rw [List.length_drop] at hlen
    omega
  · intro hlen
    refine ⟨?_, fun t ht t' ht' => h.fees_le_of_mem_drop ht ht', fun t => h.mem_take_iff⟩
    rw [List.length_drop]
    omega

/-- A list of three payments, with the fees `30`, `20` and `10`. -/
def sample : TxPricedList :=
  ((TxPricedList.new.put (Sample.pay 1 9 1 5 30) false).put (Sample.pay 2 9 1 5 20) false).put
    (Sample.pay 3 9 1 5 10) false

theorem ordered_sample : sample.Ordered := ((ordered_new.put _ _).put _ _).put _ _

theorem discard_cheapest_iff_sample :
    EvictsCheapest (sample.remove (Sample.pay 2 9 1 5 20)) 1 :=
  (discard_cheapest_iff (ordered_sample.remove _) (by decide)).2 (by decide)

/-- Of three transactions `discard 1` drops two. -/
theorem discard_drops_all_but :
    sample.Ordered ∧ sample.txs.length = 3 ∧ ¬ EvictsCheapest sample 1 ∧
      (sample.discard 1).1 = [Sample.pay 2 9 1 5 20, Sample.pay 3 9 1 5 10] ∧
      (sample.discard 1).2.txs = [Sample.pay 1 9 1 5 30] := by
  have hrun : (sample.discard 1).1 = [Sample.pay 2 9 1 5 20, Sample.pay 3 9 1 5 10] := by decide
  refine ⟨ordered_sample, by decide, fun hev => ?_, hrun, by decide⟩
  have hlen := hev.1
  rw [hrun] at hlen
  cases hlen

/-! ## Underpriced transactions -/

theorem isGE_cmp_iff {least tx : SignedTransaction} : (PricedTransaction.cmp least tx).isGE = true ↔
    least.fees < tx.fees ∨ least.fees = tx.fees ∧ least.nonce ≤ tx.nonce := by
  unfold PricedTransaction.cmp
  rcases lt_trichotomy least.fees tx.fees with hlt | heq | hgt
  · rw [Std.compare_eq_lt.2 hlt]
    simp [hlt]
  · rw [heq, show compare tx.fees tx.fees = .eq from Std.ReflCmp.compare_self]
    have hnonce : (compare least.nonce tx.nonce).swap = compare tx.nonce least.nonce :=
      Std.OrientedCmp.eq_swap.symm
    simp [hnonce, Std.isGE_compare]
  · rw [Std.compare_eq_gt.2 hgt]
    simp [not_lt_of_gt hgt, ne_of_gt hgt]

theorem Ordered.fees_le_of_getLast (h : l.Ordered) {least t : SignedTransaction}
    (hlast : l.txs.getLast? = some least) (ht : t ∈ l.txs) : least.fees ≤ t.fees := by
  obtain ⟨init, hinit⟩ := List.getLast?_eq_some_iff.1 hlast
  unfold Ordered at h
  rw [hinit] at h ht
  rcases List.mem_append.1 ht with hmem | hmem
  · exact PricedTransaction.fees_le_of_lt
      ((List.pairwise_append.1 h).2.2 t hmem least (List.mem_singleton_self _))
  · rw [List.mem_singleton.1 hmem]

/-- `tx` is not better than the cheapest: no transaction of the list has a lower fee. -/
def NoneCheaper (l : TxPricedList) (tx : SignedTransaction) : Prop :=
  ∀ t ∈ l.txs, ¬ t.fees < tx.fees

end TxPricedList

namespace TxPool

variable [Crypto]

/-- The pool is full for a remote transaction that it would take otherwise. -/
structure FullFor (p : TxPool) (tx : SignedTransaction) : Prop where
  unknown : p.all.contains tx.hash = false
  remote : p.locals.contains tx.sender = false
  nonce : ¬ (p.currentState tx.sender).nonce > tx.nonce
  funds : ¬ (p.currentState tx.sender).freeBalance < tx.fees + tx.price
  full : p.all.slots + numSlots tx > p.config.globalSlots + p.config.globalQueue

section Errors

open Exec

variable {env : Env} {tx : SignedTransaction}

/-- The errors of a call that is past the price check. -/
def otherErrors : Set TxPoolError := {e | e ≠ .underpriced}

omit [Crypto] in
theorem errs_ensure (c : Prop) [Decidable c] {e : TxPoolError} (he : e ∈ otherErrors) :
    Errs otherErrors (ensure c e) := errs_ite (noErr_pure ()).errs (errs_err he)

theorem noErr_unregisterOld (old : Option SignedTransaction) : NoErr (unregisterOld old) := by
  intro p e h
  cases old <;> cases h

theorem errs_enqueueTx (isLocal addAll : Bool) :
    Errs otherErrors (enqueueTx env tx isLocal addAll) := by
  refine errs_bind noErr_get.errs fun _ => errs_bind (noErr_orPanic _).errs fun added => ?_
  refine errs_bind (errs_ensure _ (by simp [otherErrors])) fun _ => ?_
  refine errs_bind (noErr_modify _).errs fun _ => errs_bind (noErr_unregisterOld _).errs fun _ => ?_
  have hlast : Errs otherErrors (do
      Exec.modify fun p : TxPool => { p with
        beats := if p.beats.contains tx.sender then p.beats else p.beats.insert tx.sender (env.now p) }
      Pure.pure added.old.isSome : M Bool) :=
    errs_bind (noErr_modify _).errs fun _ => (noErr_pure _).errs
  refine errs_ite (errs_bind (NoErr.errs fun p e h => ?_) fun _ => hlast) hlast
  cases h

theorem errs_removeFuture : Errs otherErrors (removeFuture tx) := by
  refine errs_bind noErr_get.errs fun p => ?_
  cases p.queue.get? tx.sender with
  | none => exact (noErr_pure ()).errs
  | some future =>
    exact errs_bind (noErr_modify _).errs fun _ => errs_ite (noErr_modify _).errs (noErr_pure _).errs

theorem errs_removeListed : Errs otherErrors (removeListed env tx) := by
  refine errs_bind noErr_get.errs fun p => ?_
  cases p.pending.get? tx.sender with
  | none => exact errs_removeFuture
  | some list =>
    have hend : Errs otherErrors (do
        Exec.forEach (fun t => do let _ ← enqueueTx env t false false) (list.remove tx).invalids
        lowerNonce tx.sender tx.nonce) := by
      refine errs_bind (errs_forEach (fun t => ?_) _) fun _ => (noErr_modify _).errs
      exact errs_bind (errs_enqueueTx _ _) fun _ => (noErr_pure ()).errs
    refine errs_bind (noErr_modify _).errs fun _ => errs_ite (errs_ite ?_ hend) errs_removeFuture
    exact errs_bind (noErr_modify _).errs fun _ => hend

theorem errs_removeTx (hash : H256) (outofbound : Bool) :
    Errs otherErrors (removeTx env hash outofbound) := by
  refine errs_bind noErr_get.errs fun p => ?_
  cases p.all.get hash with
  | none => exact (noErr_pure ()).errs
  | some tx =>
    refine errs_bind (NoErr.errs fun p e h => ?_) fun _ => errs_ite ?_ errs_removeListed
    · cases h
    · exact errs_bind (noErr_modify _).errs fun _ => errs_removeListed

theorem errs_replacePending (isLocal asLocal : Bool) (list : TxList) :
    Errs otherErrors (replacePending tx isLocal asLocal list) := by
  refine errs_bind noErr_get.errs fun _ => errs_bind (noErr_orPanic _).errs fun added => ?_
  refine errs_bind (errs_ensure _ (by simp [otherErrors])) fun _ => ?_
  refine errs_bind (noErr_modify _).errs fun _ => errs_bind (noErr_unregisterOld _).errs fun _ => ?_
  refine NoErr.errs fun p e h => ?_
  cases h

theorem errs_addFuture (isLocal asLocal : Bool) :
    Errs otherErrors (addFuture env tx isLocal asLocal) := by
  refine errs_bind (errs_enqueueTx _ _) fun replaced => errs_bind noErr_get.errs fun _ => ?_
  have hlast : Errs otherErrors (do note (.accept tx asLocal); Pure.pure replaced : M Bool) :=
    NoErr.errs fun p e h => by cases h
  refine errs_ite (errs_bind ?_ fun _ => hlast) hlast
  refine errs_bind (noErr_modify _).errs fun _ => errs_bind noErr_get.errs fun _ => ?_
  exact errs_bind (noErr_modify _).errs fun _ => errs_forEach (fun _ => (noErr_modify _).errs) _

theorem errs_place (isLocal asLocal : Bool) : Errs otherErrors (do
    match (← Exec.get).pending.get? tx.sender with
    | none => addFuture env tx isLocal asLocal
    | some list =>
      if list.overlaps tx then replacePending tx isLocal asLocal list
      else addFuture env tx isLocal asLocal : M Bool) := by
  refine errs_bind noErr_get.errs fun p => ?_
  cases p.pending.get? tx.sender with
  | none => exact errs_addFuture _ _
  | some list => exact errs_ite (errs_replacePending _ _ _) (errs_addFuture _ _)

theorem errs_makeRoom {p : TxPool} {isLocal : Bool}
    (h : ¬ (!isLocal && p.priced.underpriced tx) = true) {e : TxPoolError}
    (he : (makeRoom env tx isLocal p).res = .error (.err e)) : e ∈ otherErrors := by
  unfold makeRoom at he
  rw [get_bind] at he
  dsimp only at he
  split at he
  · rw [bind_ok_nil (ensure_run _ h)] at he
    refine errs_bind (errs_ensure _ (by simp [otherErrors])) (fun _ => ?_) p e he
    exact errs_bind (noErr_modify _).errs fun _ => errs_forEach (fun _ => errs_removeTx _ _) _
  · cases he

/-- A full pool refuses a transaction that `underpriced` finds. -/
theorem add_underpriced_iff {p : TxPool} (hfull : FullFor p tx) :
    (add env tx false p).res = .error (.err .underpriced) ↔ p.priced.underpriced tx = true := by
  have hunknown : ¬ p.all.contains tx.hash = true := by simp [hfull.unknown]
  have hvalid : validateTx tx p = ⟨.ok (), p, []⟩ := by
    unfold validateTx
    rw [get_bind, bind_ok_nil (ensure_run _ hfull.nonce), ensure_run _ hfull.funds]
  unfold add
  rw [get_bind, bind_ok_nil (ensure_run _ hunknown), bind_ok_nil hvalid, Bool.false_or,
    hfull.remote]
  cases hprice : p.priced.underpriced tx with
  | true =>
    have hroom : makeRoom env tx false p = ⟨.error (.err .underpriced), p, []⟩ := by
      unfold makeRoom
      rw [get_bind]
      dsimp only
      rw [if_pos hfull.full, bind_error (ensure_error _ (by simp [hprice]))]
    rw [bind_error hroom]
    simp
  | false =>
    simp only [Bool.false_eq_true, iff_false]
    intro he
    have hpassed : ¬ (!false && p.priced.underpriced tx) = true := by simp [hprice]
    rcases hroom : makeRoom env tx false p with ⟨e | u, q, l⟩
    · rw [bind_error hroom] at he
      cases he
      exact errs_makeRoom hpassed (by rw [hroom]) rfl
    · rw [bind_ok hroom] at he
      exact errs_place _ _ q _ he rfl

end Errors

end TxPool

namespace TxPricedList

variable [Crypto]

/-- **When `underpriced` is right**: exactly if the cheapest transaction has the fee of `tx` and no
higher nonce. A full pool refuses what `underpriced` finds, so it is right in the same cases. -/
theorem underpriced_right_iff {l : TxPricedList} {least tx : SignedTransaction} (h : l.Ordered)
    (hlast : l.txs.getLast? = some least) :
    ((l.underpriced tx = true ↔ NoneCheaper l tx) ↔
      least.fees = tx.fees ∧ least.nonce ≤ tx.nonce) ∧
    ∀ env p, p.priced = l → TxPool.FullFor p tx →
      (((TxPool.add env tx false p).res = .error (.err .underpriced) ↔ NoneCheaper l tx) ↔
        least.fees = tx.fees ∧ least.nonce ≤ tx.nonce) := by
  have hmem : least ∈ l.txs := List.mem_of_getLast? hlast
  have hnone : NoneCheaper l tx ↔ ¬ least.fees < tx.fees := by
    refine ⟨fun hn => hn least hmem, fun hn t ht hlt => hn ?_⟩
    exact lt_of_le_of_lt (h.fees_le_of_getLast hlast ht) hlt
  have hunder : l.underpriced tx = true ↔
      least.fees < tx.fees ∨ least.fees = tx.fees ∧ least.nonce ≤ tx.nonce := by
    unfold underpriced
    rw [hlast]
    exact isGE_cmp_iff
  have hiff : (l.underpriced tx = true ↔ NoneCheaper l tx) ↔
      least.fees = tx.fees ∧ least.nonce ≤ tx.nonce := by
    rw [hunder, hnone]
    constructor
    · intro hboth
      by_cases hlt : least.fees < tx.fees
      · exact absurd hlt (hboth.1 (.inl hlt))
      · exact (hboth.2 hlt).resolve_left hlt
    · intro heq
      exact ⟨fun _ hlt => absurd heq.1 (ne_of_lt hlt), fun _ => .inr heq⟩
  refine ⟨hiff, fun env p hp hfull => ?_⟩
  rw [TxPool.add_underpriced_iff hfull, hp]
  exact hiff

end TxPricedList

open Sample

/-- A full pool with five payments, the cheapest with the fee `10`. -/
def TxPricedList.fullPool : TxPool :=
  (TxPool.run [(env, .addRemotes [pay 1 9 1 1 10, pay 2 9 1 1 11,
    pay 3 9 1 1 12, pay 4 9 1 1 13, pay 5 9 1 1 14])] (pool 4)).state

namespace TxPricedList

theorem fullFor_fullPool : TxPool.FullFor fullPool (pay 6 8 1 1 10) :=
  ⟨by decide +kernel, by decide +kernel, by decide +kernel, by decide +kernel, by decide +kernel⟩

theorem underpriced_right_iff_fullPool :
    (fullPool.priced.underpriced (pay 6 8 1 1 10) = true ↔
      NoneCheaper fullPool.priced (pay 6 8 1 1 10)) ∧
    ((TxPool.add env (pay 6 8 1 1 10) false fullPool).res =
      .error (.err .underpriced) ↔ NoneCheaper fullPool.priced (pay 6 8 1 1 10)) := by
  have hcond : (pay 1 9 1 1 10).fees = (pay 6 8 1 1 10).fees ∧
      (pay 1 9 1 1 10).nonce ≤ (pay 6 8 1 1 10).nonce := by decide
  have hordered : fullPool.priced.Ordered := by unfold Ordered; decide +kernel
  have hlast : fullPool.priced.txs.getLast? = some (pay 1 9 1 1 10) := by decide +kernel
  have hright := @underpriced_right_iff _ _ _ (pay 6 8 1 1 10) hordered hlast
  exact ⟨hright.1.2 hcond, (hright.2 env fullPool rfl fullFor_fullPool).2 hcond⟩

/-- A transaction that pays more than all others is refused, and one that pays less than all of them
is taken. -/
theorem underpriced_refuses_dearest :
    (fullPool.priced.underpriced (pay 6 8 1 1 20) = true ∧
      ∃ t ∈ fullPool.priced.txs, t.fees < (pay 6 8 1 1 20).fees) ∧
    (fullPool.priced.underpriced (pay 6 8 1 1 5) = false ∧
      ∀ t ∈ fullPool.priced.txs, ¬ t.fees < (pay 6 8 1 1 5).fees) ∧
    (TxPool.add env (pay 6 8 1 1 20) false fullPool).res =
      .error (.err .underpriced) ∧
    (TxPool.add env (pay 6 8 1 1 5) false fullPool).res = .ok false := by
  decide +kernel

end TxPricedList

end Uchain
