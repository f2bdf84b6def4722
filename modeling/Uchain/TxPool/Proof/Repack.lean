import Uchain.TxPool.Proof.Moves

/-!
# Every method keeps the invariant

Moves keep it (`inv_shelf`), so that promotion, demotion and the truncation of the pending lists do.
What is left are evictions, which need that the transaction is not local, and new transactions.
-/

namespace Uchain.TxPool

open Lib Exec

variable [Crypto] {loc : Prop} {out : List SignedTransaction} {log : History} {p p' : TxPool}
  {tx : SignedTransaction} {env : Env} {a : Address} {ts : List SignedTransaction}

/-! ## Moves -/

/-- A tidy pool with the invariant, as long as the actions are allowed. -/
abbrev TidyInv (loc : Prop) (out : List SignedTransaction) (log : History) (p : TxPool) : Prop :=
  Tidy out p ∧ Under (Allowed loc) (Inv loc out) log p

namespace Indexed

theorem take_queue {list : TxList} (hi : Indexed out p) (ht : Tidy out p) (list' : TxList)
    (hlist : p.queue.get? a = some list) (hsplit : Split list.txs ts list'.txs) :
    Indexed (ts ++ out) { p with queue := p.queue.insert a list' } := by
  obtain ⟨hsub, hts, -⟩ := slots_of_split ht.shelved.slot_snd hlist hsplit
  exact (hi.swap.take hsub fun t h => ((hts t).1 h).1).swap

theorem take_pending {list : TxList} (hi : Indexed out p) (ht : Tidy out p) (list' : TxList)
    (hlist : p.pending.get? a = some list) (hsplit : Split list.txs ts list'.txs) :
    Indexed (ts ++ out) { p with pending := p.pending.insert a list' } := by
  obtain ⟨hsub, hts, -⟩ := slots_of_split ht.shelved.slot_fst hlist hsplit
  exact hi.take hsub fun t h => ((hts t).1 h).1

theorem forget (hi : Indexed (tx :: out) p) (ht : Tidy (tx :: out) p) :
    Indexed out { p with all := p.all.remove tx.hash } := by
  unfold Indexed
  rw [TxLookup.get_remove]
  exact Indexes.forget hi ht.shelved

end Indexed

theorem inv_shelf (loc : Prop) : Shelf (TidyInv loc) where
  tidy h := h.1
  perm h hperm := ⟨h.1.perm hperm, fun hall => ⟨(h.2 hall).indexed.perm hperm, (h.2 hall).owned⟩⟩
  take_queue list' h hlist hsplit hstrict := ⟨h.1.take_queue list' hlist hsplit hstrict,
    fun hall => ⟨(h.2 hall).indexed.take_queue h.1 list' hlist hsplit, (h.2 hall).owned⟩⟩
  take_pending list' h hlist hsplit hstrict := ⟨h.1.take_pending list' hlist hsplit hstrict,
    fun hall => ⟨(h.2 hall).indexed.take_pending h.1 list' hlist hsplit, (h.2 hall).owned⟩⟩
  place_queue env q h := by
    refine ⟨Tidy.place_queue env h.1 q, fun hall => ⟨?_, (h.2 hall).owned⟩⟩
    unfold Indexed
    rw [slotAt_putIn]
    exact (h.2 hall).indexed.swap.place.swap
  place_pending {tx _ _ p} beat h := by
    refine ⟨h.1.place_pending beat, fun hall => ?_⟩
    have hi := (h.2.before hall).skip p (a := .promote tx.sender tx) (fun _ _ => rfl) (by simp)
    refine ⟨?_, hi.owned⟩
    unfold Indexed
    rw [slotAt_putIn]
    exact hi.indexed.place
  forget h hcause := by
    refine ⟨h.1.forget, fun hall => ?_⟩
    have hi := h.2.before hall
    refine ⟨hi.indexed.forget h.1, fun hloc => (hi.owned hloc).drop _ (hcause.imp_right fun hlocal => ?_)⟩
    exact hi.not_local hloc (hi.indexed _ (.inr (.inr List.mem_cons_self))) hlocal
  books _ _ hsub h :=
    ⟨h.1.congr rfl rfl rfl rfl, fun hall => ⟨(h.2 hall).indexed, fun hloc =>
      ((h.2 hall).owned hloc).of_subset hsub⟩⟩
  cap _ h := ⟨h.1, fun hall => (h.2.before hall).skip _ (fun _ _ => rfl) (by simp)⟩
  vacate h hlist hempty := by
    refine ⟨h.1.vacate hlist hempty, fun hall => ⟨?_, (h.2 hall).owned⟩⟩
    unfold Indexed
    rw [slotAt_erase_of_isEmpty hlist hempty]
    exact (h.2 hall).indexed
  sweep {_ _ p} h := by
    refine ⟨h.1.sweep, fun hall => ⟨?_, (h.2 hall).owned⟩⟩
    unfold Indexed
    rw [slotAt_filter_isEmpty p.pending]
    exact (h.2 hall).indexed

/-! ## Evictions -/

/-- `remove_tx` in a pool with the invariant, for a transaction that may be removed. -/
theorem Evicts.indexed (h : Evicts p tx p') (ht : Tidy [] p) (hi : Indexed [] p)
    (hok : p.pending.get? tx.sender = none ∨ slotAt p.pending (slot tx) = some tx) : Indexed [] p' := by
  cases h with
  | pending list priced hlist hslot =>
    have hmem : list.txs.get? tx.nonce = some tx := (slotAt_of_get? hlist _).symm.trans hslot
    have hsplit := Split.erase hmem
    have htaken := ht.take_pending { list with txs := list.txs.erase tx.nonce } hlist hsplit rfl
    have hindexed := hi.take_pending ht { list with txs := list.txs.erase tx.nonce } hlist hsplit
    exact hindexed.forget htaken
  | queued future priced hlist hfuture hslot =>
    have hmem : future.txs.get? tx.nonce = some tx := (slotAt_of_get? hfuture _).symm.trans hslot
    have hsplit := Split.erase hmem
    have htaken := ht.take_queue { future with txs := future.txs.erase tx.nonce } hfuture hsplit rfl
    have hindexed := hi.take_queue ht { future with txs := future.txs.erase tx.nonce } hfuture hsplit
    exact hindexed.forget htaken
  | both list priced pending queue beats hlist hslot hmoves =>
    -- it would be in both lists
    have hpending := hok.resolve_left (by rw [hlist]; exact Option.some_ne_none list)
    rcases ht.shelved.apart (slot tx) with h | h
    · rw [h] at hpending
      cases hpending
    · rw [h] at hslot
      cases hslot

theorem Evicts.inv {cause : Cause} (h : Evicts p tx p') (ht : Tidy [] p) (hi : Inv loc [] log p)
    (hok : p.pending.get? tx.sender = none ∨ slotAt p.pending (slot tx) = some tx)
    (hlocal : loc → p.all.locals.get? tx.hash = none) (hpriced : ∀ t ∈ p'.priced.txs, t ∈ p.priced.txs) :
    Inv loc [] (log ++ [(.drop cause tx, p)]) p' := by
  refine ⟨h.indexed ht hi.indexed hok, fun hloc => ?_⟩
  rw [h.all, h.locals]
  exact ((hi.owned hloc).drop p (.inr (hlocal hloc))).of_subset hpriced

/-! ## `add` -/

omit [Crypto] in
theorem discard_subset (l : TxPricedList) (slots : UInt64) :
    (∀ t ∈ (l.discard slots).1, t ∈ l.txs) ∧ ∀ t ∈ (l.discard slots).2.txs, t ∈ l.txs := by
  unfold TxPricedList.discard
  split
  · exact ⟨by simp, fun _ ht => ht⟩
  · exact ⟨fun _ ht => List.mem_of_mem_drop ht, fun _ ht => List.mem_of_mem_take ht⟩

namespace Indexed

theorem replaced (hi : Indexed [] p) (hp : Fresh tx.hash p) (isLocal : Bool) :
    Indexed [] (p.replaced tx isLocal) := by
  unfold Indexed
  rw [show slotAt (p.replaced tx isLocal).pending = _ from slotAt_putIn _ _ _,
    show (p.replaced tx isLocal).all.get = _ from get_entered (p := p.pend tx) hp.2 _ isLocal]
  exact Indexes.replace hi hp.1.shelved hp.2

theorem enqueued (env : Env) (hi : Indexed [] p) (hp : Fresh tx.hash p) (isLocal : Bool) :
    Indexed [] (p.enqueued env tx isLocal) := by
  unfold Indexed
  rw [show slotAt (p.enqueued env tx isLocal).queue = _ from slotAt_putIn _ _ _,
    show (p.enqueued env tx isLocal).all.get = _ from get_entered (p := p.enqueue tx) hp.2 _ isLocal]
  exact (Indexes.replace hi.swap hp.1.shelved.swap hp.2).swap

theorem localized (hi : Indexed [] p) (hd : p.all.Disjoint) (a : Address) :
    Indexed [] (localize a p).state := by
  rw [localize_run]
  unfold Indexed
  rw [show (TxPool.all _).get = _ from TxLookup.get_remoteToLocals hd _]
  exact hi

end Indexed

variable {isLocal : Bool} {old : Option SignedTransaction}

theorem Owned.entered {l : AccountSet} (ho : Owned log p.all l p.priced) (hnew : p.all.get tx.hash = none)
    (hsender : isLocal = true → l.contains tx.sender = true)
    (hkeep : KeepsLocals (.enter tx isLocal, p.dropOld old)) :
    Owned (log ++ p.enterEvents old tx isLocal) (p.entered old tx isLocal).all l
      (p.entered old tx isLocal).priced := by
  unfold enterEvents
  rw [← List.append_assoc]
  exact (ho.dropOld old).enter _ (get_dropOld_of_none hnew old) hsender hkeep

theorem locals_entered (h : isLocal = true) :
    (p.entered old tx isLocal).all.locals.get? tx.hash = some tx := by
  unfold entered
  rw [TxLookup.locals_add, if_pos ⟨h, rfl⟩]

/-- The invariant, with transactions that are not local. -/
abbrev InvFor (loc : Prop) (ts : List SignedTransaction) (log : History) (p : TxPool) : Prop :=
  Inv loc [] log p ∧ (loc → ∀ t ∈ ts, p.all.locals.get? t.hash = none)

theorem inv_evicts (loc : Prop) : EvictRule fun ts => Under (Allowed loc) (InvFor loc ts) where
  gone h hall := (h hall).imp_right fun hlocal hloc t ht => hlocal hloc t (List.mem_cons_of_mem _ ht)
  evicts {t t' ts log p p' cause} ht h hget hevicts hpriced hcause hall := by
    obtain ⟨hi, hlocal⟩ := h.before hall
    have hok := (hall _ (List.mem_append_right _ (List.mem_singleton_self _))).1 hcause
    refine ⟨hevicts.inv ht hi hok (fun hloc => ?_) hpriced, fun hloc x hx => ?_⟩
    · rw [ht.hash_eq hget]
      exact hlocal hloc t List.mem_cons_self
    · rw [hevicts.all, TxLookup.locals_remove, hlocal hloc x (List.mem_cons_of_mem _ hx), ite_self]

theorem inv_add (loc : Prop) (tx : SignedTransaction) :
    AddRule tx fun ts => Under (Allowed loc) (InvFor loc ts) where
  toEvictRule := inv_evicts loc
  discard {log p} slots n h hall := by
    obtain ⟨hi, -⟩ := h hall
    have hsub := discard_subset p.priced slots
    refine ⟨⟨hi.indexed, fun hloc => ?_⟩, fun hloc t ht => ?_⟩
    · exact (hi.owned hloc).of_subset hsub.2
    · exact (hi.owned hloc).unpriced t (hsub.1 t ht)
  pending {log p isLocal asLocal} hp hslot hisLocal h hall := by
    obtain ⟨hi, -⟩ := h.before hall
    have hnew := fun e he => hall e (List.mem_append_right _ he)
    obtain ⟨hevents, haccept⟩ := List.forall_mem_append.1 hnew
    refine ⟨⟨hi.indexed.replaced hp _, fun hloc => ?_⟩, by simp⟩
    have hlocals : asLocal = true → p.locals.contains tx.sender = true :=
      (haccept _ (List.mem_singleton_self _)).2 hloc
    rw [← List.append_assoc]
    refine ((hi.owned hloc).entered (p := p.pend tx) hp.2 (fun his => ?_)
      ((hevents _ mem_enterEvents).2 hloc)).accept _ fun has => Option.isSome_of_mem (locals_entered ?_)
    · exact (Bool.or_eq_true_iff.1 (hisLocal ▸ his)).elim hlocals id
    · rw [hisLocal, has, Bool.true_or]
  queue {log p isLocal asLocal} env hp hslot hisLocal h hall := by
    obtain ⟨hi, -⟩ := h.before hall
    have hnew := fun e he => hall e (List.mem_append_right _ he)
    obtain ⟨hevents, haccept⟩ := List.forall_mem_append.1 hnew
    have hindexed := hi.indexed.enqueued env hp isLocal
    have hdisjoint := (hp.1.enqueued env hslot hp.2 isLocal).disjoint
    have henter (hloc : loc) := (hevents _ mem_enterEvents).2 hloc
    have his (has : asLocal = true) : isLocal = true := by rw [hisLocal, has, Bool.true_or]
    rw [← List.append_assoc]
    cases hnewLocal : asLocal && !p.locals.contains tx.sender with
    | true =>
      have hwelcomed : p.welcomed env tx isLocal asLocal =
          (localize tx.sender (p.enqueued env tx isLocal)).state := if_pos hnewLocal
      have hcontains : (p.locals.add tx.sender).contains tx.sender = true := by
        unfold AccountSet.add BTreeMap.contains
        rw [BTreeMap.get?_insert_self]
        rfl
      rw [hwelcomed]
      refine ⟨⟨hindexed.localized hdisjoint _, fun hloc => ?_⟩, by simp⟩
      rw [localize_run]
      have ho := ((((hi.owned hloc).add_local tx.sender).entered (p := p.enqueue tx) hp.2
        (fun _ => hcontains) (henter hloc)).migrate hdisjoint)
      refine ho.accept _ fun has => ?_
      rw [TxLookup.locals_remoteToLocals, locals_entered (his has), Option.isSome_or]
      exact Bool.or_true _
    | false =>
      have hwelcomed : p.welcomed env tx isLocal asLocal = p.enqueued env tx isLocal :=
        if_neg (by rw [hnewLocal]; exact Bool.false_ne_true)
      have hsender (has : asLocal = true) : p.locals.contains tx.sender = true := by
        simpa [has] using hnewLocal
      rw [hwelcomed]
      refine ⟨⟨hindexed, fun hloc => ?_⟩, by simp⟩
      refine ((hi.owned hloc).entered (p := p.enqueue tx) hp.2 (fun his => ?_) (henter hloc)).accept _
        fun has => Option.isSome_of_mem (locals_entered (his has))
      exact (Bool.or_eq_true_iff.1 (hisLocal ▸ his)).elim hsender id

/-- The queued transactions of an account that is not local are not local. -/
theorem inv_truncateQueue : Maintains (TidyInv loc []) (truncateQueue env) := by
  intro log p h
  have hkept := (inv_evicts loc).truncateQueue (fun {log p a list} ht h hlist ha hall => ?_) env
    log p ⟨h.1, fun hall => ⟨h.2 hall, by simp⟩⟩
  · exact ⟨hkept.1, fun hall => (hkept.2 hall).1⟩
  · obtain ⟨hi, -⟩ := h hall
    refine ⟨hi, fun hloc t ht' => ?_⟩
    obtain ⟨n, hn⟩ := BTreeMap.mem_values_iff.1 ht'
    have hslot := (slotAt_of_get? hlist n).trans hn
    have hat := ht.shelved.slot_snd _ t hslot
    refine hi.not_local hloc (hi.indexed t (.inr (.inl (by rw [hat, hslot])))) ?_
    rw [show t.sender = a from congrArg Prod.fst hat]
    exact ha

/-! ## Runs -/

theorem inv_note {action : Action} (ha : ∀ h b, holdStep h b action = b)
    (hdrop : ∀ cause tx, action ≠ .drop cause tx) : Maintains (TidyInv loc []) (note action) :=
  fun _ p h => ⟨h.1, fun hall => (h.2.before hall).skip p ha hdrop⟩

/-- **Every method keeps the invariant**, as long as its actions are allowed. -/
theorem inv_rule (loc : Prop) : RunRule (TidyInv loc []) where
  books _ _ _ _ _ h := ⟨h.1.congr rfl rfl rfl rfl, fun hall => (h.2 hall).congr rfl rfl rfl rfl rfl⟩
  state _ _ _ _ h := ⟨h.1.congr rfl rfl rfl rfl, fun hall => (h.2 hall).congr rfl rfl rfl rfl rfl⟩
  reinject _ := inv_note (fun _ _ => rfl) (by simp)
  send _ := inv_note (fun _ _ => rfl) (by simp)
  moved _ := inv_note (fun _ _ => rfl) (by simp)
  add _ tx asLocal log p h := ⟨tidy_add asLocal p h.1, fun hall =>
    ((inv_add loc tx).add asLocal h.1 log (fun hall => ⟨h.2 hall, by simp⟩) hall).1⟩
  promote _ a := ((inv_shelf loc).promoteAccount a).maintains
  cap a := ((inv_shelf loc).capAccount a).maintains
  demote _ := (inv_shelf loc).demoteUnexecutable.maintains
  truncatePending _ := (inv_shelf loc).truncatePending
  truncateQueue _ := inv_truncateQueue

theorem Inv.of_run (loc : Prop) {conf : Option TxPoolConfig} {accounts : Option (List Address)}
    {state : Address → AccountState} {calls : List (Env × Call)}
    (hrun : ∀ e ∈ (run calls (TxPool.new conf accounts state)).log, e ∈ Allowed loc) :
    Tidy [] (run calls (TxPool.new conf accounts state)).state ∧
      Inv loc [] (run calls (TxPool.new conf accounts state)).log
        (run calls (TxPool.new conf accounts state)).state := by
  have h := (inv_rule loc).run calls [] _ ⟨tidy_new conf accounts state,
    fun _ => Inv.new loc conf accounts state⟩
  exact ⟨h.1, h.2 hrun⟩

end Uchain.TxPool
