import Uchain.Lib.Returns
import Uchain.TxPool.Proof.Lists

/-!
# The invariants of the pool

`Indexed out p`: the lookup has the transactions of the pending and the queue lists, and the
transactions `out` that a running operation has taken off a list.

`Owned log all locals priced`: what keeps local transactions. A transaction that is local in the
lookup has a local sender and is not in the priced list, and every transaction that was submitted
locally, accepted and not dropped since (`held`) is local in the lookup. `Fair log`: no drop in the
history hit a held transaction, except for a cause that may (`Cause.fair`).

Each step of the pool is a lemma about `Owned`; for `Indexed` the steps are those of `Indexes`.
-/

namespace Uchain

open Lib BTreeMap Function

/-- The causes for which a local transaction may leave. -/
def Cause.fair : Cause → Bool
  | .replaced => true
  | .stale => true
  | .unpayable => true
  | _ => false

namespace TxPool

variable [Crypto]

/-- What happened so far, each action with the pool it was done in. -/
abbrev History := List (Action × TxPool)

/-- The account and the nonce under which a transaction is listed. -/
def slot (tx : SignedTransaction) : Address × UInt64 := (tx.sender, tx.nonce)

/-! ## Transactions that are held for a local submitter -/

/-- Whether the transaction with the hash `h` is held after an action, if it was `b` before. -/
def holdStep (h : H256) (b : Bool) : Action → Bool
  | .accept tx asLocal => b || (asLocal && decide (tx.hash = h))
  | .drop _ tx => b && !decide (tx.hash = h)
  | _ => b

/-- Submitted locally, accepted, and not dropped since. -/
def held (log : History) (h : H256) : Bool := log.foldl (fun b e => holdStep h b e.1) false

theorem held_append (log : History) (e : Action × TxPool) (h : H256) :
    held (log ++ [e]) h = holdStep h (held log h) e.1 := by
  simp [held]

/-- **Held transactions are dropped for fair causes only.** -/
def Fair (log : History) : Prop :=
  ∀ before e, before ++ [e] <+: log → ∀ cause tx, e.1 = .drop cause tx →
    held before tx.hash = true → cause.fair = true

theorem fair_nil : Fair [] := by
  intro before e hpre
  have := List.prefix_nil.1 hpre
  simp at this

theorem Fair.append {log : History} {e : Action × TxPool} (hfair : Fair log)
    (he : ∀ cause tx, e.1 = .drop cause tx → held log tx.hash = true → cause.fair = true) :
    Fair (log ++ [e]) := by
  intro before e' hpre
  rw [List.prefix_concat_iff] at hpre
  cases hpre with
  | inl h =>
    obtain ⟨rfl, rfl⟩ := List.concat_inj.1 (by simpa using h)
    exact he
  | inr h => exact hfair before e' h

structure Owned (log : History) (all : TxLookup) (locals : AccountSet) (priced : TxPricedList) :
    Prop where
  sender : ∀ h tx, all.locals.get? h = some tx → locals.contains tx.sender = true
  unpriced : ∀ t ∈ priced.txs, all.locals.get? t.hash = none
  -- a stale entry of the priced list would be removed together with the transaction
  same : ∀ t ∈ priced.txs, ∀ tx, all.get t.hash = some tx → PricedTransaction.cmp t tx = .eq
  kept : ∀ h, held log h = true → (all.locals.get? h).isSome = true
  fair : Fair log

namespace Owned

variable {log : History} {all : TxLookup} {locals : AccountSet} {priced : TxPricedList}
  {tx : SignedTransaction}

theorem skip (ho : Owned log all locals priced) {a : Action} (p : TxPool)
    (ha : ∀ h b, holdStep h b a = b) (hdrop : ∀ cause tx, a ≠ .drop cause tx) :
    Owned (log ++ [(a, p)]) all locals priced where
  sender := ho.sender
  unpriced := ho.unpriced
  same := ho.same
  kept h hh := ho.kept h (by rwa [held_append, ha] at hh)
  fair := ho.fair.append fun cause tx he => absurd he (hdrop cause tx)

/-- A transaction is dropped: for a fair cause, or it was not local. -/
theorem drop (ho : Owned log all locals priced) {cause : Cause} (p : TxPool)
    (hcause : cause.fair = true ∨ all.locals.get? tx.hash = none) :
    Owned (log ++ [(.drop cause tx, p)]) (all.remove tx.hash) locals priced where
  sender h t ht := by
    rw [TxLookup.locals_remove] at ht
    split at ht
    · cases ht
    · exact ho.sender h t ht
  unpriced t ht := by
    rw [TxLookup.locals_remove, ho.unpriced t ht, ite_self]
  same t ht t' ht' := by
    rw [TxLookup.get_remove] at ht'
    by_cases hh : t.hash = tx.hash
    · rw [hh, update_self] at ht'
      cases ht'
    · rw [update_of_ne hh] at ht'
      exact ho.same t ht t' ht'
  kept h hh := by
    rw [held_append] at hh
    obtain ⟨hheld, hne⟩ := Bool.and_eq_true_iff.1 hh
    have hne : h ≠ tx.hash := fun heq => by simp [heq] at hne
    rw [TxLookup.locals_remove, if_neg hne]
    exact ho.kept h hheld
  fair := by
    refine ho.fair.append fun cause' tx' he hheld => ?_
    cases he
    cases hcause with
    | inl h => exact h
    | inr h =>
      have := ho.kept _ hheld
      rw [h] at this
      cases this

theorem of_subset (ho : Owned log all locals priced) {priced' : TxPricedList}
    (hsub : ∀ t ∈ priced'.txs, t ∈ priced.txs) : Owned log all locals priced' where
  sender := ho.sender
  unpriced t ht := ho.unpriced t (hsub t ht)
  same t ht := ho.same t (hsub t ht)
  kept := ho.kept
  fair := ho.fair

theorem unprice (ho : Owned log all locals priced) (tx : SignedTransaction) :
    Owned log all locals (priced.remove tx) :=
  ho.of_subset fun _ ht => List.mem_of_mem_filter ht

theorem add_local (ho : Owned log all locals priced) (a : Address) :
    Owned log all (locals.add a) priced :=
  { ho with
    sender := by
      intro h tx htx
      unfold AccountSet.add contains
      rw [get?_insert]
      split
      · rfl
      · exact ho.sender h tx htx }

/-- A new transaction: none of its hash is in the priced list, except a copy if it is remote. -/
theorem enter (ho : Owned log all locals priced) {isLocal : Bool} (p : TxPool)
    (hnew : all.get tx.hash = none) (hsender : isLocal = true → locals.contains tx.sender = true)
    (hpriced : ∀ t ∈ priced.txs, t.hash = tx.hash →
      isLocal = false ∧ PricedTransaction.cmp t tx = .eq) :
    Owned (log ++ [(.enter tx isLocal, p)]) (all.add tx isLocal) locals
      (priced.put tx isLocal) where
  sender h t ht := by
    rw [TxLookup.locals_add] at ht
    split at ht
    · rename_i hc
      rw [← Option.some.inj ht]
      exact hsender hc.1
    · exact ho.sender h t ht
  unpriced t ht := by
    rw [TxLookup.locals_add]
    cases isLocal with
    | true =>
      have ht : t ∈ priced.txs := ht
      rw [if_neg, ho.unpriced t ht]
      intro hc
      cases (hpriced t ht hc.2).1
    | false =>
      rw [if_neg (by simp)]
      cases mem_insertBy ht with
      | inl h => rw [h]; exact (TxLookup.get_eq_none_iff.1 hnew).1
      | inr h => exact ho.unpriced t h
  same t ht t' ht' := by
    rw [TxLookup.get_add hnew] at ht'
    have hmem : t = tx ∨ t ∈ priced.txs := by
      cases isLocal with
      | true => exact .inr ht
      | false => exact mem_insertBy ht
    by_cases hh : t.hash = tx.hash
    · rw [hh, update_self] at ht'
      rw [← Option.some.inj ht']
      cases hmem with
      | inl h => simp [h, PricedTransaction.cmp]
      | inr h => exact (hpriced t h hh).2
    · rw [update_of_ne hh] at ht'
      exact hmem.elim (fun h => absurd (h ▸ rfl) hh) fun h => ho.same t h t' ht'
  kept h hh := by
    rw [held_append] at hh
    rw [TxLookup.locals_add]
    split
    · rfl
    · exact ho.kept h hh
  fair := ho.fair.append fun cause tx' he => by cases he

theorem accept (ho : Owned log all locals priced) {asLocal : Bool} (p : TxPool)
    (hlocal : asLocal = true → (all.locals.get? tx.hash).isSome = true) :
    Owned (log ++ [(.accept tx asLocal, p)]) all locals priced where
  sender := ho.sender
  unpriced := ho.unpriced
  same := ho.same
  kept h hh := by
    rw [held_append] at hh
    cases Bool.or_eq_true_iff.1 hh with
    | inl h' => exact ho.kept h h'
    | inr h' =>
      obtain ⟨hl, heq⟩ := Bool.and_eq_true_iff.1 h'
      rw [← of_decide_eq_true heq]
      exact hlocal hl
  fair := ho.fair.append fun cause tx' he => by cases he

omit [Crypto] in
theorem mem_foldl_remove {t : SignedTransaction} : ∀ {ts : List SignedTransaction}
    {l : TxPricedList}, t ∈ (ts.foldl TxPricedList.remove l).txs →
      t ∈ l.txs ∧ ∀ t' ∈ ts, PricedTransaction.cmp t t' ≠ .eq
  | [], _, h => ⟨h, by simp⟩
  | t' :: ts, l, h => by
    obtain ⟨hmem, hts⟩ := mem_foldl_remove (show t ∈ (ts.foldl _ (l.remove t')).txs from h)
    obtain ⟨hl, hne⟩ := List.mem_filter.1 hmem
    exact ⟨hl, List.forall_mem_cons.2 ⟨by simpa using hne, hts⟩⟩

/-- The remote transactions of local accounts become local and leave the priced list. -/
theorem migrate (ho : Owned log all locals priced) (hd : all.Disjoint) :
    Owned log (all.remoteToLocals locals).2 locals
      ((all.remoteToLocals locals).1.foldl TxPricedList.remove priced) where
  sender h tx htx := by
    rw [TxLookup.locals_remoteToLocals] at htx
    cases Option.or_eq_some_iff.1 htx with
    | inl h' =>
      rw [TxLookup.get?_migrated] at h'
      exact (Option.filter_eq_some_iff.1 h').2
    | inr h' => exact ho.sender h tx h'.2
  unpriced t ht := by
    obtain ⟨hmem, hne⟩ := mem_foldl_remove ht
    rw [TxLookup.locals_remoteToLocals, ho.unpriced t hmem, Option.or_none]
    cases hget : (all.migrated locals).get? t.hash with
    | none => rfl
    | some tx =>
      have hremote := hget
      rw [TxLookup.get?_migrated] at hremote
      have hall : all.get t.hash = some tx := by
        rw [TxLookup.get, ho.unpriced t hmem, Option.none_or]
        exact (Option.filter_eq_some_iff.1 hremote).1
      exact absurd (ho.same t hmem tx hall) (hne tx (mem_values_iff.2 ⟨_, hget⟩))
  same t ht tx htx := by
    rw [TxLookup.get_remoteToLocals hd] at htx
    exact ho.same t (mem_foldl_remove ht).1 tx htx
  kept h hh := by
    rw [TxLookup.locals_remoteToLocals, Option.isSome_or, ho.kept h hh, Bool.or_true]
  fair := ho.fair

end Owned

/-! ## The pool -/

/-- Every list is strict, or none is. -/
def AllStrict (strict : Bool) (m : BTreeMap Address TxList) : Prop :=
  ∀ a list, m.get? a = some list → list.strict = strict

section AllStrict

variable {strict : Bool} {m : BTreeMap Address TxList} (hm : AllStrict strict m) {list : TxList}

omit [Crypto]

include hm

theorem AllStrict.insert {a : Address} (hlist : list.strict = strict) : AllStrict strict (m.insert a list) := by
  intro b l hb
  rw [get?_insert] at hb
  split at hb
  · rw [← Option.some.inj hb]
    exact hlist
  · exact hm b l hb

theorem AllStrict.erase (a : Address) : AllStrict strict (m.erase a) := by
  intro b l hb
  rw [get?_erase] at hb
  split at hb
  · cases hb
  · exact hm b l hb

theorem AllStrict.getD (a : Address) : ((m.get? a).getD (TxList.new strict)).strict = strict := by
  cases h : m.get? a with
  | none => rfl
  | some list => exact hm a list h

end AllStrict

/-- The lookup has the listed transactions, and those that are out. -/
def Indexed (out : List SignedTransaction) (p : TxPool) : Prop :=
  Indexes slot SignedTransaction.hash out (slotAt p.pending) (slotAt p.queue) p.all.get

/-- The invariant; the part about local transactions is under the assumption `loc`. -/
structure Inv (loc : Prop) (out : List SignedTransaction) (log : History) (p : TxPool) :
    Prop where
  indexed : Indexed out p
  owned : loc → Owned log p.all p.locals p.priced

theorem Inv.new (loc : Prop) (conf : Option TxPoolConfig) (accounts : Option (List Address))
    (state : Address → AccountState) : Inv loc [] [] (TxPool.new conf accounts state) where
  indexed := Indexes.empty
  owned _ :=
    { sender := by intro h tx htx; cases htx
      unpriced := by intro t ht; cases ht
      same := by intro t ht; cases ht
      kept := by intro h hh; cases hh
      fair := fair_nil }

/-! ## Which actions are allowed -/

/-- An evicted transaction is pending, or its sender has no pending list. -/
def Removable (e : Action × TxPool) : Prop :=
  match e.1 with
  | .drop cause tx => cause = .discarded ∨ cause = .truncated →
    e.2.pending.get? tx.sender = none ∨ slotAt e.2.pending (slot tx) = some tx
  | _ => True

/-- A transaction accepted from a local submitter has a local sender, and a new transaction has no
namesake in the priced list, except a copy if it is remote. -/
def KeepsLocals (e : Action × TxPool) : Prop :=
  match e.1 with
  | .accept tx asLocal => asLocal = true → e.2.locals.contains tx.sender = true
  | .enter tx isLocal => ∀ t ∈ e.2.priced.txs, t.hash = tx.hash →
    isLocal = false ∧ PricedTransaction.cmp t tx = .eq
  | _ => True

def Allowed (loc : Prop) : Set (Action × TxPool) := {e | Removable e ∧ (loc → KeepsLocals e)}

instance : DecidablePred Removable := fun e =>
  match e with
  | (.drop cause tx, p) => inferInstanceAs (Decidable (cause = .discarded ∨ cause = .truncated →
      p.pending.get? tx.sender = none ∨ slotAt p.pending (slot tx) = some tx))
  | (.enter _ _, _) | (.accept _ _, _) | (.promote _ _, _) | (.cap _, _) | (.reinject _, _) | (.send _, _)
  | (.moved _, _) => isTrue trivial

instance : DecidablePred KeepsLocals := fun e =>
  match e with
  | (.accept tx asLocal, p) =>
    inferInstanceAs (Decidable (asLocal = true → p.locals.contains tx.sender = true))
  | (.enter tx isLocal, p) => inferInstanceAs (Decidable (∀ t ∈ p.priced.txs, t.hash = tx.hash →
      isLocal = false ∧ PricedTransaction.cmp t tx = .eq))
  | (.drop _ _, _) | (.promote _ _, _) | (.cap _, _) | (.reinject _, _) | (.send _, _) | (.moved _, _) =>
    isTrue trivial

end TxPool

end Uchain
