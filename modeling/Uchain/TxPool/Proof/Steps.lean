import Uchain.TxPool.Proof.Invariant

/-!
# The small steps of the pool

What leaves a list (`slots_of_split`), the list of an account with another transaction (`putIn`), the pool
after a replaced transaction left it (`dropOld`), and after an account became local (`localize_run`).
-/

namespace Uchain.TxPool

open Lib Exec Function

variable [Crypto] {loc : Prop} {out : List SignedTransaction} {log : History} {p : TxPool}
  {tx : SignedTransaction} {env : Env} {α β : Type}

/-! ## Moves between the lists -/

variable {ts : List SignedTransaction}

theorem nodup_slots (h : (ts.map SignedTransaction.nonce).Nodup) : (ts.map slot).Nodup := by
  have : (ts.map slot).map Prod.snd = ts.map SignedTransaction.nonce := by simp [slot]
  exact List.Nodup.of_map Prod.snd (this ▸ h)

variable {a : Address} {list list' : TxList}

theorem slots_of_split {m : BTreeMap Address TxList}
    (hm : ∀ k t, slotAt m k = some t → slot t = k) (hlist : m.get? a = some list)
    (hsplit : Split list.txs ts list'.txs) :
    (∀ k, slotAt (m.insert a list') k = slotAt m k ∨ slotAt (m.insert a list') k = none) ∧
    (∀ t, t ∈ ts ↔ slotAt m (slot t) = some t ∧ slotAt (m.insert a list') (slot t) = none) ∧
    (ts.map slot).Nodup := by
  have hslot : ∀ n t, list.txs.get? n = some t → slot t = (a, n) := fun n t hn =>
    hm (a, n) t ((slotAt_of_get? hlist n).trans hn)
  refine ⟨fun k => ?_, fun t => ?_, nodup_slots (hsplit.nodup fun n t hn => ?_)⟩
  · rw [slotAt_insert]
    split
    · rename_i hk
      rw [show k = (a, k.2) from Prod.ext hk rfl, slotAt_of_get? hlist]
      exact hsplit.sub k.2
    · exact .inl rfl
  · rw [hsplit.mem_iff, slotAt_insert]
    constructor
    · intro h
      obtain ⟨n, hn, hnone⟩ := h
      rw [hslot n t hn, slotAt_of_get? hlist]
      exact ⟨hn, (if_pos rfl).trans hnone⟩
    · intro h
      by_cases hk : (slot t).1 = a
      · rw [if_pos hk, show slot t = (a, t.nonce) from Prod.ext hk rfl, slotAt_of_get? hlist] at h
        exact ⟨t.nonce, h⟩
      · rw [if_neg hk] at h
        rw [h.1] at h
        cases h.2
  · exact congrArg Prod.snd (hslot n t hn)

theorem sender_of_split {m : BTreeMap Address TxList} {rest : TxSortedList}
    (hm : ∀ k t, slotAt m k = some t → slot t = k) (hlist : m.get? a = some list)
    (hsplit : Split list.txs ts rest) : ∀ t ∈ ts, t.sender = a := by
  intro t ht
  obtain ⟨n, hn, -⟩ := (hsplit.mem_iff t).1 ht
  exact congrArg Prod.fst (hm (a, n) t ((slotAt_of_get? hlist n).trans hn))

def putIn (m : BTreeMap Address TxList) (strict : Bool) (tx : SignedTransaction) : TxList :=
  ⟨((m.get? tx.sender).getD (TxList.new strict)).strict,
    ((m.get? tx.sender).getD (TxList.new strict)).txs.put tx⟩

theorem slotAt_putIn (m : BTreeMap Address TxList) (strict : Bool) (tx : SignedTransaction) :
    slotAt (m.insert tx.sender (putIn m strict tx)) =
      update (slotAt m) (slot tx) (some tx) :=
  slotAt_insert_put (slotAt_getD m tx.sender strict)

theorem Inv.congr {p' : TxPool} (hi : Inv loc out log p) (hpending : p'.pending = p.pending)
    (hqueue : p'.queue = p.queue) (hall : p'.all = p.all) (hlocals : p'.locals = p.locals)
    (hpriced : p'.priced = p.priced) : Inv loc out log p' := by
  refine ⟨?_, fun hloc => ?_⟩
  · unfold Indexed
    rw [hpending, hqueue, hall]
    exact hi.indexed
  · rw [hall, hlocals, hpriced]
    exact hi.owned hloc

theorem Inv.skip (hi : Inv loc out log p) {a : Action} (p' : TxPool)
    (ha : ∀ h b, holdStep h b a = b) (hdrop : ∀ cause tx, a ≠ .drop cause tx) :
    Inv loc out (log ++ [(a, p')]) p := ⟨hi.indexed, fun hloc => (hi.owned hloc).skip p' ha hdrop⟩

theorem Inv.not_local (hi : Inv loc out log p) (hloc : loc) (hget : p.all.get tx.hash = some tx)
    (ha : p.locals.contains tx.sender = false) : p.all.locals.get? tx.hash = none := by
  cases h : p.all.locals.get? tx.hash with
  | none => rfl
  | some t =>
    have hsender := (hi.owned hloc).sender _ t h
    rw [TxLookup.get_of_local h] at hget
    cases hget
    rw [ha] at hsender
    cases hsender

/-! ## Dropping what is out -/

omit [Crypto] in
theorem forget_run (cause : Cause) (hash : H256) (tx : SignedTransaction) (p : TxPool) :
    TxPool.forget cause hash tx p =
      ⟨.ok (), { p with all := p.all.remove hash }, [(.drop cause tx, p)]⟩ := rfl

/-- The lookup without the transactions. -/
def dropAll (all : TxLookup) (ts : List SignedTransaction) : TxLookup :=
  ts.foldl (fun all tx => all.remove tx.hash) all

/-! ## A new transaction -/

/-- The pool after the replaced transaction left the lookup and the priced list. -/
def dropOld (p : TxPool) : Option SignedTransaction → TxPool
  | none => p
  | some old => { p with all := p.all.remove old.hash, priced := p.priced.remove old }

def dropEvents (p : TxPool) (old : Option SignedTransaction) : History :=
  (old.map fun t => (Action.drop .replaced t, p)).toList

theorem unregisterOld_run (old : Option SignedTransaction) (p : TxPool) :
    unregisterOld old p = ⟨.ok (), p.dropOld old, p.dropEvents old⟩ := by
  cases old <;> rfl

theorem get_dropOld (p : TxPool) (old : Option SignedTransaction) :
    (p.dropOld old).all.get =
      old.elim p.all.get fun o => update p.all.get o.hash none := by
  cases old with
  | none => rfl
  | some o => exact TxLookup.get_remove _ _

theorem get_dropOld_of_none {h : H256} (hget : p.all.get h = none)
    (old : Option SignedTransaction) : (p.dropOld old).all.get h = none := by
  rw [get_dropOld]
  cases old with
  | none => exact hget
  | some o =>
    by_cases hh : h = o.hash
    · exact hh ▸ update_self _ _ _
    · exact (update_of_ne hh _ _).trans hget

theorem disjoint_dropOld (hd : p.all.Disjoint) (old : Option SignedTransaction) :
    (p.dropOld old).all.Disjoint := by
  cases old with
  | none => exact hd
  | some o => exact hd.remove _

theorem Owned.dropOld {l : AccountSet} (ho : Owned log p.all l p.priced)
    (old : Option SignedTransaction) :
    Owned (log ++ p.dropEvents old) (p.dropOld old).all l (p.dropOld old).priced := by
  cases old with
  | none => rwa [dropEvents, Option.map_none, Option.toList_none, List.append_nil]
  | some o => exact (ho.drop p (.inl rfl)).unprice o

variable {list : TxList}

omit [Crypto] in
theorem entries_isEmpty_eq_false {m : BTreeMap Address TxList} {a : Address}
    (h : m.get? a = some list) : m.entries.isEmpty = false := by
  cases hempty : m.entries.isEmpty with
  | false => rfl
  | true =>
    rw [BTreeMap.get?, List.isEmpty_iff.1 hempty] at h
    cases h

omit [Crypto] in
theorem forEach_unprice_run (ts : List SignedTransaction) (p : TxPool) :
    forEach unprice ts p =
      ⟨.ok (), { p with priced := ts.foldl TxPricedList.remove p.priced }, []⟩ := by
  induction ts generalizing p with
  | nil => rfl
  | cons t ts ih =>
    refine (bind_ok_nil (x := unprice t) (f := fun _ => forEach unprice ts) rfl).trans ?_
    rw [ih]
    rfl

theorem localize_run (a : Address) (p : TxPool) :
    localize a p = ⟨.ok (), { p with
      locals := p.locals.add a
      all := (p.all.remoteToLocals (p.locals.add a)).2
      priced := (p.all.remoteToLocals (p.locals.add a)).1.foldl TxPricedList.remove p.priced }, []⟩ := by
  have hrun : localize a p = forEach unprice (p.all.remoteToLocals (p.locals.add a)).1 { p with
      locals := p.locals.add a
      all := (p.all.remoteToLocals (p.locals.add a)).2 } := rfl
  rw [hrun, forEach_unprice_run]

end Uchain.TxPool
