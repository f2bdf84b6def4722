import Uchain.TxPool.Proof.Walk

/-!
# What holds in every pool

The lookup can forget a transaction that is still listed, so the invariant `Indexed` needs a condition on
the run. What is left without one is `Tidy out p`: every listed transaction is at its own account and
nonce and in one of the two lists, the lookup has listed transactions only (or some that are `out`),
and every account with a queue has a heartbeat.

* `tidy_add`: `add` keeps a pool tidy.
-/

namespace Uchain.TxPool

open Lib Exec BTreeMap Function

variable [Crypto] {out : List SignedTransaction} {log : History} {p : TxPool}
  {tx : SignedTransaction} {env : Env} {a : Address} {α β : Type}

variable {list : TxList}

def Beating (p : TxPool) : Prop := ∀ a, p.queue.contains a = true → p.beats.contains a = true

structure Tidy (out : List SignedTransaction) (p : TxPool) : Prop where
  shelved : Shelving slot out (slotAt p.pending) (slotAt p.queue)
  covered : Covers slot SignedTransaction.hash out (slotAt p.pending) (slotAt p.queue) p.all.get
  disjoint : p.all.Disjoint
  loose : AllStrict false p.queue
  strict : AllStrict true p.pending
  beating : Beating p

theorem tidy_new (conf : Option TxPoolConfig) (accounts : Option (List Address))
    (state : Address → AccountState) : Tidy [] (TxPool.new conf accounts state) where
  shelved := Shelving.empty
  covered := Covers.empty
  disjoint _ := .inl rfl
  loose _ _ h := by cases h
  strict _ _ h := by cases h
  beating _ h := by cases h

namespace Tidy

theorem congr (ht : Tidy out p) {p' : TxPool} (hpending : p'.pending = p.pending)
    (hqueue : p'.queue = p.queue) (hall : p'.all = p.all) (hbeats : p'.beats = p.beats) :
    Tidy out p' := by
  refine ⟨?_, ?_, ?_, ?_, ?_, ?_⟩
  · rw [hpending, hqueue]
    exact ht.shelved
  · rw [hpending, hqueue, hall]
    exact ht.covered
  · rw [hall]
    exact ht.disjoint
  · rw [hqueue]
    exact ht.loose
  · rw [hpending]
    exact ht.strict
  · unfold Beating
    rw [hqueue, hbeats]
    exact ht.beating

theorem perm (ht : Tidy out p) {out' : List SignedTransaction} (h : out.Perm out') : Tidy out' p :=
  ⟨ht.shelved.perm h, ht.covered.perm h, ht.disjoint, ht.loose, ht.strict, ht.beating⟩

theorem hash_eq (ht : Tidy out p) {h : H256} (hget : p.all.get h = some tx) : tx.hash = h :=
  (ht.covered h tx hget).1

/-! ## Transactions that leave a list -/

variable {list : TxList} {ts : List SignedTransaction}

omit [Crypto] in
theorem contains_insert_of_get? {m : BTreeMap Address TxList} {list' : TxList}
    (hlist : m.get? a = some list) (b : Address) :
    (m.insert a list').contains b = m.contains b := by
  unfold contains
  rw [get?_insert]
  split
  · rename_i hb
    rw [hb, hlist]
    rfl
  · rfl

theorem take_queue (ht : Tidy out p) (list' : TxList) (hlist : p.queue.get? a = some list)
    (hsplit : Split list.txs ts list'.txs) (hstrict : list'.strict = list.strict) :
    Tidy (ts ++ out) { p with queue := p.queue.insert a list' } := by
  obtain ⟨hsub, hts, hnodup⟩ := slots_of_split ht.shelved.slot_snd hlist hsplit
  refine ⟨(ht.shelved.swap.take hsub (fun t h => (hts t).1 h) hnodup).swap,
    (ht.covered.swap.take hsub fun t h h' => (hts t).2 ⟨h, h'⟩).swap, ht.disjoint,
    ht.loose.insert (hstrict.trans (ht.loose a list hlist)), ht.strict, fun b hb => ?_⟩
  rw [show (TxPool.queue _) = p.queue.insert a list' from rfl, contains_insert_of_get? hlist] at hb
  exact ht.beating b hb

theorem take_pending (ht : Tidy out p) (list' : TxList) (hlist : p.pending.get? a = some list)
    (hsplit : Split list.txs ts list'.txs) (hstrict : list'.strict = list.strict) :
    Tidy (ts ++ out) { p with pending := p.pending.insert a list' } := by
  obtain ⟨hsub, hts, hnodup⟩ := slots_of_split ht.shelved.slot_fst hlist hsplit
  exact ⟨ht.shelved.take hsub (fun t h => (hts t).1 h) hnodup,
    ht.covered.take hsub fun t h h' => (hts t).2 ⟨h, h'⟩, ht.disjoint, ht.loose,
    ht.strict.insert (hstrict.trans (ht.strict a list hlist)), ht.beating⟩

/-! ## Transactions that join a list -/

def beatOf (env : Env) (q p : TxPool) (a : Address) : BTreeMap Address Nat :=
  if p.beats.contains a then p.beats else p.beats.insert a (env.now q)

omit [Crypto] in
theorem contains_insert {ν : Type} (m : BTreeMap Address ν) (v : ν) (a b : Address) :
    (m.insert a v).contains b = (decide (b = a) || m.contains b) := by
  unfold contains
  rw [get?_insert]
  by_cases hb : b = a
  · simp [hb]
  · simp [hb]

omit [Crypto] in
theorem contains_beatOf (env : Env) (q p : TxPool) (a b : Address) :
    (beatOf env q p a).contains b = (decide (b = a) || p.beats.contains b) := by
  unfold beatOf
  split
  · rename_i ha
    by_cases hb : b = a
    · simp [hb, ha]
    · simp [hb]
  · exact contains_insert _ _ _ _

omit [Crypto] in
theorem beating_enqueue (env : Env) (hb : Beating p) (q : TxPool) (list : TxList) :
    Beating { p with queue := p.queue.insert a list, beats := beatOf env q p a } := by
  intro b h
  rw [show (TxPool.queue _) = p.queue.insert a list from rfl, contains_insert] at h
  rw [show (TxPool.beats _) = beatOf env q p a from rfl, contains_beatOf]
  simp only [Bool.or_eq_true] at h ⊢
  exact h.imp_right (hb b)

theorem place_queue (env : Env) (ht : Tidy (tx :: out) p) (q : TxPool) :
    Tidy out { p with
      queue := p.queue.insert tx.sender (putIn p.queue false tx)
      beats := beatOf env q p tx.sender } := by
  refine ⟨?_, ?_, ht.disjoint, ht.loose.insert (ht.loose.getD tx.sender), ht.strict,
    beating_enqueue env ht.beating q _⟩
  · rw [slotAt_putIn]
    exact ht.shelved.swap.place.swap
  · rw [slotAt_putIn]
    exact (ht.covered.swap.place (ht.shelved.free tx List.mem_cons_self).2).swap

theorem place_pending (ht : Tidy (tx :: out) p) (beat : Nat) :
    Tidy out { p with
      pending := p.pending.insert tx.sender (putIn p.pending true tx)
      pendingNonce := p.pendingNonce.set tx.sender (tx.nonce + 1)
      beats := p.beats.insert tx.sender beat } := by
  refine ⟨?_, ?_, ht.disjoint, ht.loose, ht.strict.insert (ht.strict.getD tx.sender), fun b hb => ?_⟩
  · rw [slotAt_putIn]
    exact ht.shelved.place
  · rw [slotAt_putIn]
    exact ht.covered.place (ht.shelved.free tx List.mem_cons_self).1
  · rw [contains_insert]
    exact Bool.or_eq_true_iff.2 (.inr (ht.beating b hb))

/-! ## Lists without transactions -/

theorem vacate (ht : Tidy out p) (hlist : p.queue.get? a = some list) (hempty : list.isEmpty = true) :
    Tidy out { p with queue := p.queue.erase a, beats := p.beats.erase a } := by
  have hsame := slotAt_erase_of_isEmpty hlist hempty
  refine ⟨?_, ?_, ht.disjoint, ht.loose.erase a, ht.strict, fun b hb => ?_⟩
  · rw [hsame]
    exact ht.shelved
  · rw [hsame]
    exact ht.covered
  · unfold contains at hb ⊢
    rw [get?_erase] at hb ⊢
    split at hb
    · cases hb
    · rename_i hne
      rw [if_neg hne]
      exact ht.beating b hb

theorem sweep (ht : Tidy out p) :
    Tidy out { p with pending := p.pending.filter fun _ list => !list.isEmpty } := by
  have hsame := slotAt_filter_isEmpty p.pending
  refine ⟨?_, ?_, ht.disjoint, ht.loose, fun a list hlist => ?_, ht.beating⟩
  · rw [hsame]
    exact ht.shelved
  · rw [hsame]
    exact ht.covered
  · rw [get?_filter] at hlist
    exact ht.strict a list (Option.filter_eq_some_iff.1 hlist).1

/-! ## Transactions that leave the lookup -/

theorem erase_hash (ht : Tidy out p) (h : H256) : Tidy out { p with all := p.all.remove h } := by
  refine ⟨ht.shelved, ?_, ht.disjoint.remove h, ht.loose, ht.strict, ht.beating⟩
  rw [TxLookup.get_remove]
  exact ht.covered.erase h

theorem forget (ht : Tidy (tx :: out) p) : Tidy out { p with all := p.all.remove tx.hash } := by
  refine ⟨ht.shelved.sublist (List.sublist_cons_self tx out), ?_, ht.disjoint.remove _, ht.loose,
    ht.strict, ht.beating⟩
  rw [TxLookup.get_remove]
  exact ht.covered.forget

end Tidy

/-! ## What every move keeps -/

/-- A property of the history, and of the pool with some transactions `out`, that the moves of queued
transactions keep: off a list, onto a list, out of the lookup. A transaction of a local account is dropped
for fair causes only. -/
structure QueueShelf (K : List SignedTransaction → History → TxPool → Prop) : Prop where
  tidy : ∀ {out log p}, K out log p → Tidy out p
  take_queue : ∀ {out log p a list ts} (list' : TxList), K out log p → p.queue.get? a = some list →
    Split list.txs ts list'.txs → list'.strict = list.strict →
      K (ts ++ out) log { p with queue := p.queue.insert a list' }
  place_queue : ∀ {tx out log p} (env : Env) (q : TxPool), K (tx :: out) log p → K out log { p with
    queue := p.queue.insert tx.sender (putIn p.queue false tx)
    beats := Tidy.beatOf env q p tx.sender }
  place_pending : ∀ {tx out log p} (beat : Nat), K (tx :: out) log p →
    K out (log ++ [(.promote tx.sender tx, p)]) { p with
      pending := p.pending.insert tx.sender (putIn p.pending true tx)
      pendingNonce := p.pendingNonce.set tx.sender (tx.nonce + 1)
      beats := p.beats.insert tx.sender beat }
  forget : ∀ {tx out log p cause}, K (tx :: out) log p →
    cause.fair = true ∨ p.locals.contains tx.sender = false →
      K out (log ++ [(.drop cause tx, p)]) { p with all := p.all.remove tx.hash }
  books : ∀ {out log p} (priced : TxPricedList) (pendingNonce : TxNoncer),
    (∀ t ∈ priced.txs, t ∈ p.priced.txs) → K out log p → K out log { p with priced, pendingNonce }
  vacate : ∀ {out log p a list}, K out log p → p.queue.get? a = some list → list.isEmpty = true →
    K out log { p with queue := p.queue.erase a, beats := p.beats.erase a }

/-- The same, with the moves of pending transactions. -/
structure Shelf (K : List SignedTransaction → History → TxPool → Prop) : Prop extends QueueShelf K where
  perm : ∀ {out out' log p}, K out log p → out.Perm out' → K out' log p
  take_pending : ∀ {out log p a list ts} (list' : TxList), K out log p →
    p.pending.get? a = some list → Split list.txs ts list'.txs → list'.strict = list.strict →
      K (ts ++ out) log { p with pending := p.pending.insert a list' }
  cap : ∀ {out log p} (a : Address), K out log p → K out (log ++ [(.cap a, p)]) p
  sweep : ∀ {out log p}, K out log p →
    K out log { p with pending := p.pending.filter fun _ list => !list.isEmpty }

abbrev TidyAt (out : List SignedTransaction) (_ : History) (p : TxPool) : Prop := Tidy out p

theorem tidy_shelf : Shelf TidyAt where
  tidy ht := ht
  perm ht := ht.perm
  take_queue list' ht := ht.take_queue list'
  take_pending list' ht := ht.take_pending list'
  place_queue env q ht := Tidy.place_queue env ht q
  place_pending beat ht := ht.place_pending beat
  forget ht _ := ht.forget
  books _ _ _ ht := ht.congr rfl rfl rfl rfl
  cap _ ht := ht
  vacate ht := ht.vacate
  sweep ht := ht.sweep

variable {K : List SignedTransaction → History → TxPool → Prop}

/-! ## Transactions that are out -/

theorem enqueueTx_run (hfree : slotAt p.queue (slot tx) = none) :
    enqueueTx env tx false false p = ⟨.ok false, { p with
      queue := p.queue.insert tx.sender (putIn p.queue false tx)
      beats := Tidy.beatOf env
        { p with queue := p.queue.insert tx.sender (putIn p.queue false tx) } p tx.sender }, []⟩ := by
  have hadd : ((p.queue.get? tx.sender).getD (TxList.new false)).txs.get? tx.nonce = none :=
    (slotAt_getD p.queue tx.sender false tx.nonce).trans hfree
  unfold enqueueTx
  rw [get_bind, TxList.add_of_free hadd]
  rfl

theorem promoteTx_run (hfree : slotAt p.pending (slot tx) = none) :
    promoteTx env tx.sender tx p = ⟨.ok true, { p with
      pending := p.pending.insert tx.sender (putIn p.pending true tx)
      pendingNonce := p.pendingNonce.set tx.sender (tx.nonce + 1)
      beats := p.beats.insert tx.sender
        (env.now { p with pending := p.pending.insert tx.sender (putIn p.pending true tx) }) },
      [(.promote tx.sender tx, p)]⟩ := by
  have hadd : ((p.pending.get? tx.sender).getD (TxList.new true)).txs.get? tx.nonce = none :=
    (slotAt_getD p.pending tx.sender true tx.nonce).trans hfree
  unfold promoteTx
  rw [get_bind, TxList.add_of_free hadd]
  rfl

variable {ts : List SignedTransaction}

theorem forgetAll_run (cause : Cause) (ts : List SignedTransaction) (p : TxPool) :
    ∃ l, forEach (fun tx => TxPool.forget cause tx.hash tx) ts p =
        ⟨.ok (), { p with all := dropAll p.all ts }, l⟩ ∧
      ∀ {K out log}, QueueShelf K → (∀ t ∈ ts, cause.fair = true ∨ p.locals.contains t.sender = false) →
        K (ts ++ out) log p → K out (log ++ l) { p with all := dropAll p.all ts } := by
  induction ts generalizing p with
  | nil => exact ⟨[], rfl, fun _ _ h => by rwa [List.append_nil]⟩
  | cons t ts ih =>
    obtain ⟨l, hrun, hkept⟩ := ih { p with all := p.all.remove t.hash }
    refine ⟨[(.drop cause t, p)] ++ l, ?_, fun hS hcause h => ?_⟩
    · exact (bind_ok (forget_run cause t.hash t p)).trans (by rw [hrun]; rfl)
    · obtain ⟨ht, hts⟩ := List.forall_mem_cons.1 hcause
      rw [← List.append_assoc]
      exact hkept hS hts (hS.forget h ht)

theorem enqueueAll_run (hS : QueueShelf K) (env : Env) (log : History) (h : K (ts ++ out) log p) :
    ∃ queue beats, forEach (fun t => do let _ ← enqueueTx env t false false) ts p =
        ⟨.ok (), { p with queue, beats }, []⟩ ∧
      K out log { p with queue, beats } ∧ (∀ t ∈ ts, slotAt queue (slot t) = some t) ∧
      (∀ k, (∀ t ∈ ts, slot t ≠ k) → slotAt queue k = slotAt p.queue k) ∧
      ∀ b, (∀ t ∈ ts, t.sender ≠ b) → queue.get? b = p.queue.get? b := by
  induction ts generalizing p with
  | nil => exact ⟨p.queue, p.beats, rfl, h, by simp, fun _ _ => rfl, fun _ _ => rfl⟩
  | cons t ts ih =>
    have hfree := ((hS.tidy h).shelved.free t List.mem_cons_self).2
    have hrest := (hS.tidy h).shelved.not_mem_out
    obtain ⟨queue, beats, hrun, hkept, hin, hother, hsender⟩ := ih (hS.place_queue env
      { p with queue := p.queue.insert t.sender (putIn p.queue false t) } h)
    refine ⟨queue, beats, ?_, hkept, ?_, ?_, ?_⟩
    · refine (bind_ok_nil (x := do let _ ← enqueueTx env t false false) (a := ()) ?_).trans hrun
      rw [bind_ok_nil (enqueueTx_run hfree)]
      rfl
    · refine List.forall_mem_cons.2 ⟨?_, hin⟩
      rw [hother (slot t) fun t' ht' => hrest t' (List.mem_append_left _ ht'), slotAt_putIn,
        update_self]
    · intro k hk
      obtain ⟨hne, hk⟩ := List.forall_mem_cons.1 hk
      rw [hother k hk, slotAt_putIn, update_of_ne hne.symm]
    · intro b hb
      obtain ⟨hne, hb⟩ := List.forall_mem_cons.1 hb
      rw [hsender b hb]
      exact get?_insert_of_ne _ _ hne.symm

/-! ## `remove_tx` -/

theorem removeListed_of_pending (ht : Tidy [] p) (hlist : p.pending.get? tx.sender = some list)
    (hslot : slotAt p.pending (slot tx) = some tx) :
    removeListed env tx p = ⟨.ok (), { p with
      pending := p.pending.insert tx.sender { list with txs := list.txs.erase tx.nonce } }, []⟩ := by
  have hmem : list.txs.get? tx.nonce = some tx := (slotAt_of_get? hlist _).symm.trans hslot
  have hfree : slotAt p.queue (slot tx) = none :=
    (ht.shelved.apart _).resolve_left (by rw [hslot]; exact Option.some_ne_none tx)
  have hne (list' : TxList) : (p.pending.insert tx.sender list').entries.isEmpty = false :=
    entries_isEmpty_eq_false (get?_insert_self _ _ _)
  have hfuture (list' : TxList) :
      removeFuture tx { p with pending := p.pending.insert tx.sender list' } =
        ⟨.ok (), { p with pending := p.pending.insert tx.sender list' }, []⟩ := by
    unfold removeFuture
    rw [get_bind]
    cases hq : p.queue.get? tx.sender with
    | none => rfl
    | some future =>
      have hnone : future.txs.get? tx.nonce = none := (slotAt_of_get? hq _).symm.trans hfree
      dsimp only
      rw [TxList.remove_of_loose hnone (ht.loose _ future hq)]
      refine (bind_ok_nil (x := setQueue tx.sender future) rfl).trans ?_
      show (⟨.ok (), if (p.pending.insert tx.sender list').entries.isEmpty = true then _ else _, []⟩ :
        Run _ _ _ _) = _
      rw [hne, if_neg Bool.false_ne_true]
      dsimp only
      rw [insert_of_get? hq]
  unfold removeListed
  rw [get_bind]
  simp only [hlist]
  rw [TxList.remove_of_mem (by rw [hmem]; rfl)]
  exact (bind_ok_nil (x := setPending _ _) rfl).trans (hfuture _)

theorem removeListed_of_queued {future : TxList} (hlist : p.pending.get? tx.sender = none)
    (hfuture : p.queue.get? tx.sender = some future)
    (hslot : slotAt p.queue (slot tx) = some tx) :
    removeListed env tx p = ⟨.ok (), { p with
      queue := p.queue.insert tx.sender { future with txs := future.txs.erase tx.nonce } }, []⟩ := by
  have hmem : future.txs.get? tx.nonce = some tx := (slotAt_of_get? hfuture _).symm.trans hslot
  unfold removeListed
  rw [get_bind]
  simp only [hlist]
  unfold removeFuture
  rw [get_bind]
  simp only [hfuture]
  rw [TxList.remove_of_mem (by rw [hmem]; rfl)]
  rfl

/-- What moves to the queue, for a strict pending list without its tail. -/
theorem enqueue_tail_run (env : Env) (ht : Tidy [] p) {rest : TxList}
    {pending : BTreeMap Address TxList} (hlist : p.pending.get? a = some list)
    (hsplit : Split list.txs ts rest.txs) (hstrict : rest.strict = list.strict)
    (hpending : slotAt pending = slotAt (p.pending.insert a rest)) (hp : AllStrict true pending) :
    ∃ queue beats, forEach (fun t => do let _ ← enqueueTx env t false false) ts { p with pending } =
        ⟨.ok (), { p with pending, queue, beats }, []⟩ ∧
      Tidy [] { p with pending, queue, beats } ∧
      (∀ k, (slotAt pending k).or (slotAt queue k) = (slotAt p.pending k).or (slotAt p.queue k)) ∧
      (∀ k, slotAt p.queue k ≠ none → slotAt queue k = slotAt p.queue k) ∧
      ∀ b, b ≠ a → queue.get? b = p.queue.get? b := by
  obtain ⟨hsub, hts, -⟩ := slots_of_split ht.shelved.slot_fst hlist hsplit
  have htaken := ht.take_pending rest hlist hsplit hstrict
  have htidy : Tidy (ts ++ []) { p with pending } := by
    refine ⟨?_, ?_, ht.disjoint, ht.loose, hp, ht.beating⟩
    · rw [hpending]
      exact htaken.shelved
    · rw [hpending]
      exact htaken.covered
  obtain ⟨queue, beats, hrun, hdone, hin, hother, hsender⟩ :=
    enqueueAll_run tidy_shelf.toQueueShelf env [] htidy
  refine ⟨queue, beats, hrun, hdone, fun k => ?_, fun k hk => hother k fun t ht' heq => ?_,
    fun b hb => hsender b fun t ht' heq => hb ?_⟩
  · by_cases hmoved : ∃ t ∈ ts, slot t = k
    · obtain ⟨t, hmem, rfl⟩ := hmoved
      rw [hin t hmem, hpending, ((hts t).1 hmem).2, ((hts t).1 hmem).1]
      rfl
    · push Not at hmoved
      rw [hother k hmoved, hpending]
      cases hsub k with
      | inl h => rw [h]
      | inr h =>
        cases hk : slotAt p.pending k with
        | none => rw [h]
        | some t =>
          have hslot : slot t = k := ht.shelved.slot_fst k t hk
          exact absurd hslot (hmoved t ((hts t).2 (by rw [hslot]; exact ⟨hk, h⟩)))
  · rw [← heq] at hk
    exact hk (htidy.shelved.free t (List.mem_append_left _ ht')).2
  · exact heq.symm.trans (sender_of_split ht.shelved.slot_fst hlist hsplit t ht')

/-- The lists and the nonce after the removal of a queued transaction of an account with a pending
list: it stays, and the pending ones with a higher nonce go to the queue. -/
structure MovesTail (p : TxPool) (tx : SignedTransaction) (p' : TxPool) : Prop where
  tidy : Tidy [] p'
  occupant : ∀ k, (slotAt p'.pending k).or (slotAt p'.queue k) =
    (slotAt p.pending k).or (slotAt p.queue k)
  queue : ∀ k, slotAt p.queue k ≠ none → slotAt p'.queue k = slotAt p.queue k
  pending : ∀ n t, slotAt p'.pending (tx.sender, n) = some t →
    slotAt p.pending (tx.sender, n) = some t ∧ n < tx.nonce
  rest : ∀ list', p'.pending.get? tx.sender = some list' →
    ∃ list, p.pending.get? tx.sender = some list ∧ list' = (list.remove tx).list
  others : ∀ b, b ≠ tx.sender → p'.pending.get? b = p.pending.get? b ∧ p'.queue.get? b = p.queue.get? b

theorem removeListed_of_both (env : Env) (ht : Tidy [] p)
    (hlist : p.pending.get? tx.sender = some list) (hslot : slotAt p.pending (slot tx) = none) :
    ∃ pending queue beats, removeListed env tx p =
        ⟨.ok (), { p with
          pending, queue, beats, pendingNonce := p.pendingNonce.setIfLower tx.sender tx.nonce }, []⟩ ∧
      MovesTail p tx { p with
        pending, queue, beats, pendingNonce := p.pendingNonce.setIfLower tx.sender tx.nonce } := by
  have hnone : list.txs.get? tx.nonce = none := (slotAt_of_get? hlist _).symm.trans hslot
  have hremove := TxList.remove_of_strict hnone (ht.strict _ list hlist)
  have hsplit : Split list.txs (list.remove tx).invalids (list.remove tx).list.txs := by
    rw [hremove]
    exact Split.filter _ _
  have hstrict : (list.remove tx).list.strict = list.strict := by rw [hremove]
  have hins : AllStrict true (p.pending.insert tx.sender (list.remove tx).list) := by
    rw [hremove]
    exact ht.strict.insert (ht.strict _ list hlist)
  -- the pending list goes if nothing is left
  obtain ⟨pending, hpending, hp, hothers, hrest, hrun⟩ : ∃ pending,
      slotAt pending = slotAt (p.pending.insert tx.sender (list.remove tx).list) ∧
      AllStrict true pending ∧ (∀ b, b ≠ tx.sender → pending.get? b = p.pending.get? b) ∧
      (∀ list', pending.get? tx.sender = some list' → list' = (list.remove tx).list) ∧
      removeListed env tx p = ((do
        forEach (fun t => do let _ ← enqueueTx env t false false) (list.remove tx).invalids
        lowerNonce tx.sender tx.nonce : M Unit) { p with pending }) := by
    have hunfold : removeListed env tx p = (if (list.remove tx).list.isEmpty then do
          Exec.modify fun p => { p with pending := p.pending.erase tx.sender }
          forEach (fun t => do let _ ← enqueueTx env t false false) (list.remove tx).invalids
          lowerNonce tx.sender tx.nonce
        else do
          forEach (fun t => do let _ ← enqueueTx env t false false) (list.remove tx).invalids
          lowerNonce tx.sender tx.nonce : M Unit)
        { p with pending := p.pending.insert tx.sender (list.remove tx).list } := by
      unfold removeListed
      rw [get_bind]
      simp only [hlist]
      rw [hremove]
      rfl
    rw [hunfold]
    cases hempty : (list.remove tx).list.isEmpty with
    | true =>
      refine ⟨_, slotAt_erase_of_isEmpty (get?_insert_self _ _ _) hempty, hins.erase _,
        fun b hb => ?_, fun list' h => ?_, rfl⟩
      · rw [get?_erase, if_neg hb, get?_insert_of_ne _ _ hb]
      · rw [get?_erase, if_pos rfl] at h
        cases h
    | false =>
      refine ⟨_, rfl, hins, fun b hb => get?_insert_of_ne _ _ hb, fun list' h => ?_, rfl⟩
      rw [get?_insert_self] at h
      exact (Option.some.inj h).symm
  obtain ⟨queue, beats, hloop, htidy, hlisted, hqueue, hsender⟩ :=
    enqueue_tail_run env ht hlist hsplit hstrict hpending hp
  refine ⟨pending, queue, beats, ?_, htidy.congr rfl rfl rfl rfl, hlisted, hqueue, fun n t hn => ?_,
    fun list' h => ⟨list, hlist, hrest list' h⟩, fun b hb => ⟨hothers b hb, hsender b hb⟩⟩
  · rw [hrun, bind_ok_nil hloop]
    rfl
  · rw [show (TxPool.pending _) = pending from rfl, hpending, slotAt_insert, if_pos rfl, hremove] at hn
    have hget := TxSortedList.get?_filter_snd (fun _ t => tx.nonce < t.nonce) list.txs n
    rw [hget, Option.filter_eq_some_iff] at hn
    rw [slotAt_of_get? hlist]
    have htn : t.nonce = n := congrArg Prod.snd
      (ht.shelved.slot_fst (tx.sender, n) t ((slotAt_of_get? hlist n).trans hn.1))
    refine ⟨hn.1, lt_of_le_of_ne ?_ fun heq => ?_⟩
    · rw [← htn]
      simpa using hn.2
    · rw [heq, hnone] at hn
      cases hn.1

/-- What `remove_tx` makes of a pool, for a transaction of the lookup. -/
inductive Evicts (p : TxPool) (tx : SignedTransaction) : TxPool → Prop
  | pending (list : TxList) (priced : TxPricedList)
    (hlist : p.pending.get? tx.sender = some list) (hslot : slotAt p.pending (slot tx) = some tx) :
    Evicts p tx { p with
      all := p.all.remove tx.hash, priced
      pending := p.pending.insert tx.sender { list with txs := list.txs.erase tx.nonce } }
  | queued (future : TxList) (priced : TxPricedList) (hlist : p.pending.get? tx.sender = none)
    (hfuture : p.queue.get? tx.sender = some future) (hslot : slotAt p.queue (slot tx) = some tx) :
    Evicts p tx { p with
      all := p.all.remove tx.hash, priced
      queue := p.queue.insert tx.sender { future with txs := future.txs.erase tx.nonce } }
  | both (list : TxList) (priced : TxPricedList) (pending queue : BTreeMap Address TxList)
    (beats : BTreeMap Address Nat) (hlist : p.pending.get? tx.sender = some list)
    (hslot : slotAt p.queue (slot tx) = some tx)
    (hmoves : MovesTail p tx { p with
      all := p.all.remove tx.hash, priced, pending, queue, beats
      pendingNonce := p.pendingNonce.setIfLower tx.sender tx.nonce }) :
    Evicts p tx { p with
      all := p.all.remove tx.hash, priced, pending, queue, beats
      pendingNonce := p.pendingNonce.setIfLower tx.sender tx.nonce }

/-- **`remove_tx`** for a hash that the lookup has. -/
theorem removeTx_run (env : Env) (ht : Tidy [] p) {hash : H256} (hget : p.all.get hash = some tx)
    (outofbound : Bool) : ∃ p', removeTx env hash outofbound p =
      ⟨.ok (), p', [(.drop (if outofbound then .truncated else .discarded) tx, p)]⟩ ∧ Evicts p tx p' ∧
      ∀ t ∈ p'.priced.txs, t ∈ p.priced.txs := by
  obtain ⟨hhash, hlisted⟩ := ht.covered hash tx hget
  -- the pool without the entry of the lookup
  obtain ⟨priced, hpriced, hstart⟩ : ∃ priced, (∀ t ∈ priced.txs, t ∈ p.priced.txs) ∧
      removeTx env hash outofbound p = (⟨(removeListed env tx { p with all := p.all.remove tx.hash, priced }).res,
        (removeListed env tx { p with all := p.all.remove tx.hash, priced }).state,
        (.drop (if outofbound then .truncated else .discarded) tx, p) ::
          (removeListed env tx { p with all := p.all.remove tx.hash, priced }).log⟩ : Run _ _ _ _) := by
    unfold removeTx
    rw [get_bind]
    simp only [hget]
    rw [bind_ok (forget_run _ _ _ _), hhash]
    cases outofbound with
    | true => exact ⟨p.priced.remove tx, fun _ => List.mem_of_mem_filter, rfl⟩
    | false => exact ⟨p.priced, fun _ ht => ht, rfl⟩
  have hq : Tidy [] { p with all := p.all.remove tx.hash, priced } :=
    (ht.erase_hash tx.hash).congr rfl rfl rfl rfl
  cases hlist : p.pending.get? tx.sender with
  | none =>
    have hslot : slotAt p.queue (slot tx) = some tx := by
      have hnone : slotAt p.pending (slot tx) = none := slotAt_of_none hlist _
      rw [hnone] at hlisted
      simpa using hlisted
    cases hfuture : p.queue.get? tx.sender with
    | none =>
      rw [slot, slotAt_of_none hfuture] at hslot
      cases hslot
    | some future =>
      rw [removeListed_of_queued (p := { p with all := p.all.remove tx.hash, priced }) hlist hfuture
        hslot] at hstart
      exact ⟨_, hstart, .queued future priced hlist hfuture hslot, hpriced⟩
  | some list =>
    cases hslot : slotAt p.pending (slot tx) with
    | some t =>
      have hself : slotAt p.pending (slot tx) = some tx := by
        rcases hlisted with h | h | h
        · exact h
        · have hnone := (ht.shelved.apart (slot tx)).resolve_right (by rw [h]; exact Option.some_ne_none tx)
          rw [hnone] at hslot
          cases hslot
        · cases h
      rw [removeListed_of_pending hq hlist hself] at hstart
      exact ⟨_, hstart, .pending list priced hlist hself, hpriced⟩
    | none =>
      have hqueued : slotAt p.queue (slot tx) = some tx := by
        rw [hslot] at hlisted
        simpa using hlisted
      obtain ⟨pending, queue, beats, hrun, hmoves⟩ := removeListed_of_both env hq hlist hslot
      rw [hrun] at hstart
      exact ⟨_, hstart, .both list priced pending queue beats hlist hqueued
        ⟨hmoves.tidy, hmoves.occupant, hmoves.queue, hmoves.pending, hmoves.rest, hmoves.others⟩, hpriced⟩

/-- The transaction that a pool lists for an account and a nonce. -/
def occupant (p : TxPool) (k : Address × UInt64) : Option SignedTransaction :=
  (slotAt p.pending k).or (slotAt p.queue k)

namespace Evicts

variable {p' : TxPool}

theorem all (h : Evicts p tx p') : p'.all = p.all.remove tx.hash := by
  cases h <;> rfl

theorem config (h : Evicts p tx p') : p'.config = p.config := by
  cases h <;> rfl

theorem locals (h : Evicts p tx p') : p'.locals = p.locals := by
  cases h <;> rfl

theorem currentState (h : Evicts p tx p') : p'.currentState = p.currentState := by
  cases h <;> rfl

theorem tidy (h : Evicts p tx p') (ht : Tidy [] p) : Tidy [] p' := by
  cases h with
  | pending list priced hlist hslot =>
    have hmem : list.txs.get? tx.nonce = some tx := (slotAt_of_get? hlist _).symm.trans hslot
    have htaken := ht.take_pending { list with txs := list.txs.erase tx.nonce } hlist
      (Split.erase hmem) rfl
    exact htaken.forget.congr rfl rfl rfl rfl
  | queued future priced hlist hfuture hslot =>
    have hmem : future.txs.get? tx.nonce = some tx := (slotAt_of_get? hfuture _).symm.trans hslot
    have htaken := ht.take_queue { future with txs := future.txs.erase tx.nonce } hfuture
      (Split.erase hmem) rfl
    exact htaken.forget.congr rfl rfl rfl rfl
  | both list priced pending queue beats hlist hslot hmoves => exact hmoves.tidy

/-- At most the slot of the transaction becomes free. -/
theorem occupant (h : Evicts p tx p') (ht : Tidy [] p) (k : Address × UInt64) :
    p'.occupant k = p.occupant k ∨ p'.occupant k = none ∧ p.occupant k = some tx := by
  cases h with
  | pending list priced hlist hslot =>
    unfold TxPool.occupant
    rw [show slotAt (TxPool.pending _) = update (slotAt p.pending) (slot tx) none from
      slotAt_insert_erase hlist]
    by_cases hk : k = slot tx
    · have hfree : slotAt p.queue (slot tx) = none :=
        (ht.shelved.apart _).resolve_left (by rw [hslot]; exact Option.some_ne_none tx)
      rw [hk, hslot, update_self]
      exact .inr ⟨hfree, rfl⟩
    · exact .inl (by rw [update_of_ne hk])
  | queued future priced hlist hfuture hslot =>
    unfold TxPool.occupant
    rw [show slotAt (TxPool.queue _) = update (slotAt p.queue) (slot tx) none from
      slotAt_insert_erase hfuture]
    by_cases hk : k = slot tx
    · rw [hk, hslot, update_self, slot, slotAt_of_none hlist]
      exact .inr ⟨rfl, rfl⟩
    · exact .inl (by rw [update_of_ne hk])
  | both list priced pending queue beats hlist hslot hmoves => exact .inl (hmoves.occupant k)

theorem others (h : Evicts p tx p') {b : Address} (hb : b ≠ tx.sender) :
    p'.pending.get? b = p.pending.get? b ∧ p'.queue.get? b = p.queue.get? b := by
  cases h with
  | pending list priced hlist hslot => exact ⟨get?_insert_of_ne _ _ hb, rfl⟩
  | queued future priced hlist hfuture hslot => exact ⟨rfl, get?_insert_of_ne _ _ hb⟩
  | both list priced pending queue beats hlist hslot hmoves => exact hmoves.others b hb

end Evicts

theorem removeTx_of_none (env : Env) {hash : H256} (hget : p.all.get hash = none) (outofbound : Bool) :
    removeTx env hash outofbound p = ⟨.ok (), p, []⟩ := by
  unfold removeTx
  rw [get_bind]
  simp only [hget]
  rfl

/-- **`remove_tx` never fails**: it does nothing for a hash that the lookup does not have. -/
theorem removeTx_cases (env : Env) (ht : Tidy [] p) (hash : H256) (outofbound : Bool) :
    ∃ p' log, removeTx env hash outofbound p = ⟨.ok (), p', log⟩ ∧
      (p' = p ∧ p.all.get hash = none ∨ ∃ tx, p.all.get hash = some tx ∧ Evicts p tx p') := by
  cases hget : p.all.get hash with
  | none => exact ⟨p, [], removeTx_of_none env hget outofbound, .inl ⟨rfl, rfl⟩⟩
  | some tx =>
    obtain ⟨p', hrun, hevicts, -⟩ := removeTx_run env ht hget outofbound
    exact ⟨p', _, hrun, .inr ⟨tx, rfl, hevicts⟩⟩

/-! ## Every method keeps a pool tidy -/

/-- Transactions that are out leave the lookup and the priced list, and lower the nonce. -/
theorem unregisterAll_run (a : Address) (ts : List SignedTransaction) (p : TxPool) :
    ∃ priced pendingNonce l, forEach (fun t => do
        unregister .fairness t
        lowerNonce a t.nonce) ts p =
          ⟨.ok (), { p with all := dropAll p.all ts, priced, pendingNonce }, l⟩ ∧
      (∀ e ∈ l, ∀ b, e.1 ≠ .cap b) ∧
      (∀ b, b ≠ a → pendingNonce.nonces.get? b = p.pendingNonce.nonces.get? b) ∧
      ∀ {K out log}, QueueShelf K → (∀ t ∈ ts, p.locals.contains t.sender = false) → K (ts ++ out) log p →
        K out (log ++ l) { p with all := dropAll p.all ts, priced, pendingNonce } := by
  induction ts generalizing p with
  | nil =>
    exact ⟨p.priced, p.pendingNonce, [], rfl, by simp, fun _ _ => rfl, fun _ _ h => by rwa [List.append_nil]⟩
  | cons t ts ih =>
    obtain ⟨priced, pendingNonce, l, hrun, hl, hnonces, hkept⟩ := ih { p with
      all := p.all.remove t.hash
      priced := p.priced.remove t
      pendingNonce := p.pendingNonce.setIfLower a t.nonce }
    refine ⟨priced, pendingNonce, [(.drop .fairness t, p)] ++ l, ?_, ?_, fun b hb => ?_, fun hS hlocal h => ?_⟩
    · have hstep : (do unregister .fairness t; lowerNonce a t.nonce : M Unit) p = ⟨.ok (), { p with
          all := p.all.remove t.hash
          priced := p.priced.remove t
          pendingNonce := p.pendingNonce.setIfLower a t.nonce }, [(.drop .fairness t, p)]⟩ := rfl
      refine (bind_ok hstep).trans ?_
      rw [hrun]
      rfl
    · exact List.forall_mem_cons.2 ⟨by simp, hl⟩
    · exact (hnonces b hb).trans (get?_insert_of_ne _ _ hb)
    · obtain ⟨ht, hts⟩ := List.forall_mem_cons.1 hlocal
      rw [← List.append_assoc]
      exact hkept hS hts (hS.books _ _ (fun _ hmem => List.mem_of_mem_filter hmem)
        (hS.forget h (.inr ht)))

/-- **The first pending transaction of an account leaves.** -/
theorem capFirst_run (a : Address) (list : TxList) (p : TxPool) :
    ∃ priced pendingNonce l, capFirst a list p = ⟨.ok (), { p with
        pending := p.pending.insert a (list.cap (list.len - 1)).2
        all := dropAll p.all (list.cap (list.len - 1)).1, priced, pendingNonce },
        (.cap a, p) :: l⟩ ∧ (∀ e ∈ l, ∀ b, e.1 ≠ .cap b) ∧
      (∀ b, b ≠ a → pendingNonce.nonces.get? b = p.pendingNonce.nonces.get? b) ∧
      ∀ {K log}, Shelf K → K [] log p → p.pending.get? a = some list →
        p.locals.contains a = false → K [] (log ++ (.cap a, p) :: l) { p with
          pending := p.pending.insert a (list.cap (list.len - 1)).2
          all := dropAll p.all (list.cap (list.len - 1)).1, priced, pendingNonce } := by
  obtain ⟨priced, pendingNonce, l, hrun, hl, hnonces, hkept⟩ := unregisterAll_run a
    (list.cap (list.len - 1)).1 { p with pending := p.pending.insert a (list.cap (list.len - 1)).2 }
  refine ⟨priced, pendingNonce, l, ?_, hl, hnonces, fun {K log} hS h hlist hlocal => ?_⟩
  · unfold capFirst
    rw [bind_ok (x := note (.cap a)) rfl, bind_ok_nil (x := setPending _ _) rfl, hrun]
    rfl
  · have hsplit := list.split_cap (list.len - 1)
    have hsender := sender_of_split (hS.tidy h).shelved.slot_fst hlist hsplit
    rw [List.append_cons]
    refine hkept hS.toQueueShelf (fun t ht => ?_) (hS.take_pending _ (hS.cap a h) hlist hsplit rfl)
    rw [hsender t ht]
    exact hlocal

/-- Only accounts that are not local lose pending transactions. -/
theorem maintains_truncatePending {J : History → TxPool → Prop}
    (hcap : ∀ a list log q, J log q → q.pending.get? a = some list → q.locals.contains a = false →
      J (log ++ (capFirst a list q).log) (capFirst a list q).state) : Maintains J (truncatePending env) := by
  intro log p h
  refine (truncatePending_maintained (J := fun log q => J log q ∧ q.locals = p.locals)
    (S := {a | p.locals.contains a = false}) (fun a ha list log q hq hlist => ?_)
    (fun a ha => not_local_of_mem_spammers ha) ⟨h, rfl⟩).1
  refine ⟨hcap a list log q hq.1 hlist (hq.2 ▸ ha), ?_⟩
  obtain ⟨_, _, _, hrun, -⟩ := capFirst_run a list q
  rw [hrun]
  exact hq.2

theorem quiet_validateTx (tx : SignedTransaction) : Quiet (validateTx tx) := by
  refine quiet_bind (fun _ => ⟨rfl, rfl⟩) fun _ => ?_
  exact quiet_bind (quiet_ite (quiet_pure _) (quiet_fail _)) fun _ => quiet_ite (quiet_pure _) (quiet_fail _)

/-! ## Adding -/

def Fresh (h : H256) (p : TxPool) : Prop := Tidy [] p ∧ p.all.get h = none

theorem Evicts.fresh {p' : TxPool} (hevicts : Evicts p tx p') {h : H256} (hp : Fresh h p) : Fresh h p' := by
  refine ⟨hevicts.tidy hp.1, ?_⟩
  rw [hevicts.all, TxLookup.get_remove]
  by_cases hh : h = tx.hash
  · rw [hh, update_self]
  · rw [update_of_ne hh]
    exact hp.2

/-- The pool after `tx` entered the lookup and the priced list in the place of `old`. -/
def entered (p : TxPool) (old : Option SignedTransaction) (tx : SignedTransaction) (isLocal : Bool) :
    TxPool :=
  { p with
    all := (p.dropOld old).all.add tx isLocal
    priced := (p.dropOld old).priced.put tx isLocal }

def enterEvents (p : TxPool) (old : Option SignedTransaction) (tx : SignedTransaction) (isLocal : Bool) :
    History :=
  p.dropEvents old ++ [(.enter tx isLocal, p.dropOld old)]

theorem mem_enterEvents {old : Option SignedTransaction} {isLocal : Bool} :
    (.enter tx isLocal, p.dropOld old) ∈ p.enterEvents old tx isLocal :=
  List.mem_append_right _ (List.mem_singleton_self _)

theorem get_entered (hnew : p.all.get tx.hash = none) (old : Option SignedTransaction) (isLocal : Bool) :
    (p.entered old tx isLocal).all.get = exchanged SignedTransaction.hash old tx p.all.get := by
  unfold entered
  rw [TxLookup.get_add (get_dropOld_of_none hnew _), get_dropOld]
  rfl

theorem disjoint_entered (hd : p.all.Disjoint) (hnew : p.all.get tx.hash = none)
    (old : Option SignedTransaction) (isLocal : Bool) : (p.entered old tx isLocal).all.Disjoint :=
  (disjoint_dropOld hd _).add (get_dropOld_of_none hnew _) isLocal

def pend (p : TxPool) (tx : SignedTransaction) : TxPool :=
  { p with pending := p.pending.insert tx.sender (putIn p.pending true tx) }

def enqueue (p : TxPool) (tx : SignedTransaction) : TxPool :=
  { p with queue := p.queue.insert tx.sender (putIn p.queue false tx) }

/-- The pool after `tx` took the place of a pending transaction. -/
def replaced (p : TxPool) (tx : SignedTransaction) (isLocal : Bool) : TxPool :=
  { (p.pend tx).entered (slotAt p.pending (slot tx)) tx isLocal with
    queuedEvents := p.queuedEvents.insert tx.sender
      (((p.queuedEvents.get? tx.sender).getD .empty).put tx) }

def enqueued (env : Env) (p : TxPool) (tx : SignedTransaction) (isLocal : Bool) : TxPool :=
  { (p.enqueue tx).entered (slotAt p.queue (slot tx)) tx isLocal with
    beats := Tidy.beatOf env ((p.enqueue tx).entered (slotAt p.queue (slot tx)) tx isLocal) p tx.sender }

/-- The same, with the sender as a local account if it is a new one. -/
def welcomed (env : Env) (p : TxPool) (tx : SignedTransaction) (isLocal asLocal : Bool) : TxPool :=
  if asLocal && !p.locals.contains tx.sender then (localize tx.sender (p.enqueued env tx isLocal)).state
  else p.enqueued env tx isLocal

theorem Tidy.replaced (ht : Tidy [] p) (hq : slotAt p.queue (slot tx) = none)
    (hnew : p.all.get tx.hash = none) (isLocal : Bool) : Tidy [] (p.replaced tx isLocal) := by
  have hget := get_entered (p := p.pend tx) hnew (slotAt p.pending (slot tx)) isLocal
  refine ⟨?_, ?_, disjoint_entered (p := p.pend tx) ht.disjoint hnew _ _, ht.loose,
    ht.strict.insert (ht.strict.getD tx.sender), ht.beating⟩
  · rw [show slotAt (p.replaced tx isLocal).pending = _ from slotAt_putIn _ _ _]
    exact ht.shelved.put hq (by simp)
  · rw [show slotAt (p.replaced tx isLocal).pending = _ from slotAt_putIn _ _ _,
      show (p.replaced tx isLocal).all.get = _ from hget]
    exact ht.covered.replace tx

theorem Tidy.enqueued (env : Env) (ht : Tidy [] p) (hp : slotAt p.pending (slot tx) = none)
    (hnew : p.all.get tx.hash = none) (isLocal : Bool) : Tidy [] (p.enqueued env tx isLocal) := by
  have hget := get_entered (p := p.enqueue tx) hnew (slotAt p.queue (slot tx)) isLocal
  refine ⟨?_, ?_, disjoint_entered (p := p.enqueue tx) ht.disjoint hnew _ _,
    ht.loose.insert (ht.loose.getD tx.sender), ht.strict, Tidy.beating_enqueue env ht.beating _ _⟩
  · rw [show slotAt (p.enqueued env tx isLocal).queue = _ from slotAt_putIn _ _ _]
    exact (ht.shelved.swap.put hp (by simp)).swap
  · rw [show slotAt (p.enqueued env tx isLocal).queue = _ from slotAt_putIn _ _ _,
      show (p.enqueued env tx isLocal).all.get = _ from hget]
    exact (ht.covered.swap.replace tx).swap

variable {list : TxList}

/-- **A new transaction for the slot of a pending one**: it is taken, or nothing happens. -/
theorem replacePending_cases (isLocal asLocal : Bool) (hlist : p.pending.get? tx.sender = some list) :
    (∃ e, replacePending tx isLocal asLocal list p = ⟨.error e, p, []⟩) ∨
      ∃ r, replacePending tx isLocal asLocal list p = ⟨.ok r, p.replaced tx isLocal,
        (p.pend tx).enterEvents (slotAt p.pending (slot tx)) tx isLocal ++
          [(.accept tx asLocal, p.replaced tx isLocal)]⟩ := by
  have hslot : slotAt p.pending (slot tx) = list.txs.get? tx.nonce := slotAt_of_get? hlist _
  have hput : putIn p.pending true tx = ⟨list.strict, list.txs.put tx⟩ := by
    rw [putIn, hlist]
    rfl
  unfold replacePending
  rw [get_bind]
  cases hadd : list.add tx p.config.priceBump with
  | none => exact .inl ⟨.panic, rfl⟩
  | some added =>
    rw [bind_ok_nil (x := orPanic _) rfl]
    cases hins : added.inserted with
    | false => exact .inl ⟨_, bind_error (ensure_error _ Bool.false_ne_true)⟩
    | true =>
      refine .inr ⟨added.old.isSome, ?_⟩
      rw [bind_ok_nil (ensure_run _ rfl), TxList.add_eq_some hadd hins,
        bind_ok_nil (x := setPending _ _) rfl, bind_ok (unregisterOld_run _ _)]
      unfold TxPool.replaced pend
      rw [hslot, hput]
      cases list.txs.get? tx.nonce with
      | none => rfl
      | some old => rfl

/-- **A new transaction for the queue**: it is taken, or nothing happens. -/
theorem enqueueNew_cases (env : Env) (tx : SignedTransaction) (isLocal : Bool) (p : TxPool) :
    (∃ e, enqueueTx env tx isLocal true p = ⟨.error e, p, []⟩) ∨
      ∃ r, enqueueTx env tx isLocal true p = ⟨.ok r, p.enqueued env tx isLocal,
        (p.enqueue tx).enterEvents (slotAt p.queue (slot tx)) tx isLocal⟩ := by
  have hslot : slotAt p.queue (slot tx) =
      ((p.queue.get? tx.sender).getD (TxList.new false)).txs.get? tx.nonce :=
    (slotAt_getD p.queue tx.sender false tx.nonce).symm
  unfold enqueueTx
  rw [get_bind]
  cases hadd : ((p.queue.get? tx.sender).getD (TxList.new false)).add tx p.config.priceBump with
  | none => exact .inl ⟨.panic, rfl⟩
  | some added =>
    rw [bind_ok_nil (x := orPanic _) rfl]
    cases hins : added.inserted with
    | false => exact .inl ⟨_, bind_error (ensure_error _ Bool.false_ne_true)⟩
    | true =>
      refine .inr ⟨added.old.isSome, ?_⟩
      rw [bind_ok_nil (ensure_run _ rfl), TxList.add_eq_some hadd hins,
        bind_ok_nil (x := setQueue _ _) rfl, bind_ok (unregisterOld_run _ _)]
      unfold TxPool.enqueued enqueue
      rw [hslot]
      cases ((p.queue.get? tx.sender).getD (TxList.new false)).txs.get? tx.nonce with
      | none => rfl
      | some old => rfl

theorem addFuture_cases (env : Env) (tx : SignedTransaction) (isLocal asLocal : Bool) (p : TxPool) :
    (∃ e, addFuture env tx isLocal asLocal p = ⟨.error e, p, []⟩) ∨
      ∃ r, addFuture env tx isLocal asLocal p = ⟨.ok r, p.welcomed env tx isLocal asLocal,
        (p.enqueue tx).enterEvents (slotAt p.queue (slot tx)) tx isLocal ++
          [(.accept tx asLocal, p.welcomed env tx isLocal asLocal)]⟩ := by
  unfold addFuture
  rcases enqueueNew_cases env tx isLocal p with ⟨e, hrun⟩ | ⟨r, hrun⟩
  · exact .inl ⟨e, bind_error hrun⟩
  · refine .inr ⟨r, bind_of_run hrun ?_⟩
    rw [get_bind]
    unfold welcomed
    rw [show (p.enqueued env tx isLocal).locals = p.locals from rfl]
    cases asLocal && !p.locals.contains tx.sender with
    | true =>
      rw [localize_run]
      exact bind_of_run (localize_run _ _) rfl
    | false => rfl

theorem tidy_localize (a : Address) : Preserves (Tidy []) (localize a) := by
  intro p ht
  rw [localize_run]
  have hcovered := ht.covered
  rw [← TxLookup.get_remoteToLocals ht.disjoint (p.locals.add a)] at hcovered
  exact ⟨ht.shelved, hcovered, ht.disjoint.remoteToLocals _, ht.loose, ht.strict, ht.beating⟩

theorem slotAt_of_not_overlaps (hlist : p.pending.get? tx.sender = some list)
    (ho : ¬ list.overlaps tx = true) : slotAt p.pending (slot tx) = none := by
  rw [slot, slotAt_of_get? hlist]
  rw [TxList.overlaps, contains, Bool.not_eq_true, Option.isSome_eq_false_iff] at ho
  exact Option.isNone_iff_eq_none.1 ho

theorem slotAt_of_overlaps (hlist : p.pending.get? tx.sender = some list)
    (ho : list.overlaps tx = true) : slotAt p.pending (slot tx) ≠ none := by
  rw [slot, slotAt_of_get? hlist]
  exact Option.isSome_iff_ne_none.1 ho

theorem queue_free_of_pending (ht : Tidy [] p) {k : Address × UInt64} (h : slotAt p.pending k ≠ none) :
    slotAt p.queue k = none := (ht.shelved.apart k).resolve_left h

theorem fresh_of_not_contains (ht : Tidy [] p) (h : ¬ p.all.contains tx.hash = true) :
    Fresh tx.hash p := by
  rw [TxLookup.contains_eq] at h
  exact ⟨ht, Option.not_isSome_iff_eq_none.1 h⟩

omit [Crypto] in
theorem not_local_byHeartbeat {accounts : List Address} {q : TxPool} {r : List (Address × Nat)}
    {addresses : List (Address × Nat)} (h : (byHeartbeat p accounts addresses q).res = .ok r)
    (haddr : ∀ e ∈ addresses, p.locals.contains e.1 = false) :
    ∀ e ∈ r, p.locals.contains e.1 = false := by
  induction accounts generalizing addresses with
  | nil =>
    cases h
    exact haddr
  | cons a accounts ih =>
    rw [byHeartbeat] at h
    cases hlocal : p.locals.contains a with
    | true =>
      rw [if_pos hlocal] at h
      exact ih h haddr
    | false =>
      rw [if_neg (by rw [hlocal]; exact Bool.false_ne_true)] at h
      cases hbeat : p.beats.get? a with
      | none =>
        rw [hbeat] at h
        cases h
      | some beat =>
        rw [hbeat, show (orPanic (some beat) : M Nat) = Pure.pure beat from rfl, pure_bind] at h
        refine ih h fun e he => ?_
        cases mem_insertBy he with
        | inl heq =>
          rw [heq]
          exact hlocal
        | inr hmem => exact haddr e hmem

/-- A list that is longer than what is left to drop is read one past its end. -/
theorem dropFrom_panics {ts : List SignedTransaction} {drop : UInt64} (hdrop : drop > 0) (p : TxPool) :
    dropFrom env ts (ts.length + 1) drop p = ⟨.error .panic, p, []⟩ := by
  rw [dropFrom, if_pos hdrop, List.getElem?_eq_none le_rfl]
  rfl

/-- What evictions keep; the transactions of the list are still to be evicted. -/
structure EvictRule (J : List SignedTransaction → History → TxPool → Prop) : Prop where
  gone : ∀ {t ts log p}, J (t :: ts) log p → J ts log p
  evicts : ∀ {t t' ts log p p' cause}, Tidy [] p → J (t :: ts) log p → p.all.get t.hash = some t' →
    Evicts p t' p' → (∀ x ∈ p'.priced.txs, x ∈ p.priced.txs) → cause = .discarded ∨ cause = .truncated →
      J ts (log ++ [(.drop cause t', p)]) p'

/-- What the steps of `add` keep: some transactions are evicted, then the new one takes its place. -/
structure AddRule (tx : SignedTransaction) (J : List SignedTransaction → History → TxPool → Prop) : Prop
    extends EvictRule J where
  discard : ∀ {log p} (slots : UInt64) (n : Int32), J [] log p → J (p.priced.discard slots).1 log
    { p with priced := (p.priced.discard slots).2, changesSinceRepack := n }
  pending : ∀ {log p isLocal asLocal}, Fresh tx.hash p → slotAt p.pending (slot tx) ≠ none →
    isLocal = (asLocal || p.locals.contains tx.sender) → J [] log p →
      J [] (log ++ ((p.pend tx).enterEvents (slotAt p.pending (slot tx)) tx isLocal ++
        [(.accept tx asLocal, p.replaced tx isLocal)])) (p.replaced tx isLocal)
  queue : ∀ {log p isLocal asLocal} (env : Env), Fresh tx.hash p → slotAt p.pending (slot tx) = none →
    isLocal = (asLocal || p.locals.contains tx.sender) → J [] log p →
      J [] (log ++ ((p.enqueue tx).enterEvents (slotAt p.queue (slot tx)) tx isLocal ++
        [(.accept tx asLocal, p.welcomed env tx isLocal asLocal)])) (p.welcomed env tx isLocal asLocal)

section EvictRule

variable {J : List SignedTransaction → History → TxPool → Prop} (hrule : EvictRule J)

include hrule

theorem EvictRule.evictAll (env : Env) (outofbound : Bool) (h : J ts log p) (ht : Tidy [] p) :
    ∃ q l, forEach (fun t => removeTx env t.hash outofbound) ts p = ⟨.ok (), q, l⟩ ∧ Tidy [] q ∧
      (∀ h, Fresh h p → Fresh h q) ∧ q.locals = p.locals ∧ J [] (log ++ l) q := by
  induction ts generalizing log p with
  | nil => exact ⟨p, [], rfl, ht, fun _ h => h, rfl, by rwa [List.append_nil]⟩
  | cons t ts ih =>
    cases hget : p.all.get t.hash with
    | none =>
      obtain ⟨q, l, hrun, hq⟩ := ih (hrule.gone h) ht
      exact ⟨q, l, (bind_ok_nil (removeTx_of_none env hget outofbound)).trans hrun, hq⟩
    | some t' =>
      obtain ⟨p', hrun, hevicts, hpriced⟩ := removeTx_run env ht hget outofbound
      have hcause : (if outofbound then Cause.truncated else .discarded) = .discarded ∨
          (if outofbound then Cause.truncated else .discarded) = .truncated := by cases outofbound <;> simp
      obtain ⟨q, l, hrun', hq, hfresh, hlocals, hend⟩ :=
        ih (hrule.evicts ht h hget hevicts hpriced hcause) (hevicts.tidy ht)
      refine ⟨q, _, bind_of_run hrun hrun', hq, fun h hp => hfresh h (hevicts.fresh hp),
        hlocals.trans hevicts.locals, ?_⟩
      rw [← List.append_assoc]
      exact hend

variable (hstart : ∀ {log p a list}, Tidy [] p → J [] log p → p.queue.get? a = some list →
  p.locals.contains a = false → J list.flatten log p)

include hstart

/-- The lists that `truncate_queue` empties are those of accounts that are not local. -/
theorem EvictRule.dropQueues {addresses : List (Address × Nat)} (ht : Tidy [] p) (h : J [] log p)
    (haddr : ∀ e ∈ addresses, p.locals.contains e.1 = false) (drop : UInt64) :
    Tidy [] (dropQueues env addresses drop p).state ∧
      J [] (log ++ (dropQueues env addresses drop p).log) (dropQueues env addresses drop p).state := by
  have hsame (r : Except (Fail TxPoolError) Unit) : Tidy [] (Run.mk (ι := Action × TxPool) r p []).state ∧
      J [] (log ++ []) p := ⟨ht, by rwa [List.append_nil]⟩
  induction addresses generalizing log p drop with
  | nil => exact hsame _
  | cons e addresses ih =>
    obtain ⟨he, haddr⟩ := List.forall_mem_cons.1 haddr
    rw [TxPool.dropQueues]
    by_cases hdrop : drop > 0
    · rw [if_pos hdrop, get_bind]
      cases hlist : p.queue.get? e.1 with
      | none => exact hsame _
      | some list =>
        dsimp only
        split
        · obtain ⟨q, l, hrun, hq, -, hlocals, hend⟩ :=
            hrule.evictAll env true (hstart ht h hlist he) ht
          rw [bind_ok hrun]
          have hrest := ih hq hend (fun e he => by rw [hlocals]; exact haddr e he)
            (drop - .ofNat list.len) fun _ => ⟨hq, by rwa [List.append_nil]⟩
          rwa [List.append_assoc] at hrest
        · rw [bind_error (dropFrom_panics hdrop p)]
          exact hsame _
    · rw [if_neg hdrop]
      exact hsame _

theorem EvictRule.truncateQueue (env : Env) :
    Maintains (fun log p => Tidy [] p ∧ J [] log p) (truncateQueue env) := by
  intro log p h
  rw [TxPool.truncateQueue, get_bind]
  split
  · obtain ⟨hs, hl⟩ := quiet_byHeartbeat (p := p) ((env.iter p p.queue).map Prod.fst) [] p
    rcases hrun : byHeartbeat p ((env.iter p p.queue).map Prod.fst) [] p with ⟨e | r, q, l⟩ <;>
      rw [hrun] at hs hl <;> obtain ⟨rfl, rfl⟩ : q = p ∧ l = [] := ⟨hs, hl⟩
    · rw [bind_error hrun, List.append_nil]
      exact h
    · rw [bind_ok_nil hrun]
      refine hrule.dropQueues hstart h.1 h.2 (fun e he => ?_) _
      exact not_local_byHeartbeat (by rw [hrun]) (by simp) e (List.mem_reverse.1 he)
  · exact maintains_pure (J := fun log p => Tidy [] p ∧ J [] log p) _ log p h

end EvictRule

/-- The run ends in `J`, with the hash of `tx` still new and the same local accounts. -/
abbrev Cleared (tx : SignedTransaction) (J : List SignedTransaction → History → TxPool → Prop)
    (log : History) (p : TxPool) (r : Run TxPoolError (Action × TxPool) TxPool Unit) : Prop :=
  Fresh tx.hash r.state ∧ r.state.locals = p.locals ∧ J [] (log ++ r.log) r.state

namespace AddRule

variable {J : List SignedTransaction → History → TxPool → Prop} (hrule : AddRule tx J)

include hrule

theorem makeRoom (env : Env) (isLocal : Bool) (hp : Fresh tx.hash p) (h : J [] log p) :
    Cleared tx J log p (makeRoom env tx isLocal p) := by
  have hsame (e : Except (Fail TxPoolError) Unit) : Cleared tx J log p ⟨e, p, []⟩ :=
    ⟨hp, rfl, by rwa [List.append_nil]⟩
  unfold TxPool.makeRoom
  rw [get_bind]
  dsimp only
  split
  · by_cases hunder : ¬ (!isLocal && p.priced.underpriced tx) = true
    · rw [bind_ok_nil (ensure_run _ hunder)]
      by_cases hover : p.changesSinceRepack < (p.config.globalSlots / 4).toUInt32.toInt32
      · rw [bind_ok_nil (ensure_run _ hover), bind_ok_nil (x := Exec.modify _) rfl]
        obtain ⟨q, l, hrun, -, hfresh, hlocals, hend⟩ := hrule.evictAll env false
          (hrule.discard _ _ h) (hp.1.congr rfl rfl rfl rfl)
        rw [hrun]
        exact ⟨hfresh _ ⟨hp.1.congr rfl rfl rfl rfl, hp.2⟩, hlocals, hend⟩
      · rw [bind_error (ensure_error _ hover)]
        exact hsame _
    · rw [bind_error (ensure_error _ hunder)]
      exact hsame _
  · exact hsame _

theorem place (env : Env) {isLocal asLocal : Bool} (hp : Fresh tx.hash p)
    (hlocal : isLocal = (asLocal || p.locals.contains tx.sender)) (h : J [] log p) :
    J [] (log ++ (place env tx isLocal asLocal p).log) (place env tx isLocal asLocal p).state := by
  have hfuture (hslot : slotAt p.pending (slot tx) = none) :
      J [] (log ++ (addFuture env tx isLocal asLocal p).log)
        (addFuture env tx isLocal asLocal p).state := by
    rcases addFuture_cases env tx isLocal asLocal p with ⟨e, hrun⟩ | ⟨r, hrun⟩
    · rw [hrun, List.append_nil]
      exact h
    · rw [hrun]
      exact hrule.queue env hp hslot hlocal h
  unfold TxPool.place
  rw [get_bind]
  cases hlist : p.pending.get? tx.sender with
  | none => exact hfuture (slotAt_of_none hlist _)
  | some list =>
    dsimp only
    split
    · rename_i ho
      rcases replacePending_cases isLocal asLocal hlist with ⟨e, hrun⟩ | ⟨r, hrun⟩
      · rw [hrun, List.append_nil]
        exact h
      · rw [hrun]
        exact hrule.pending hp (slotAt_of_overlaps hlist ho) hlocal h
    · rename_i ho
      exact hfuture (slotAt_of_not_overlaps hlist ho)

/-- **What the steps of `add` keep, `add` keeps**, whatever it returns. -/
theorem add (asLocal : Bool) (ht : Tidy [] p) (log : History) (h : J [] log p) :
    J [] (log ++ (add env tx asLocal p).log) (add env tx asLocal p).state := by
  rw [add_eq, get_bind]
  by_cases hknown : p.all.contains tx.hash = true
  · rw [bind_error (ensure_error _ (not_not.2 hknown)), List.append_nil]
    exact h
  rw [bind_ok_nil (ensure_run _ hknown)]
  obtain ⟨hs, hl⟩ := quiet_validateTx tx p
  rcases hvalid : validateTx tx p with ⟨e | u, q, l⟩ <;> rw [hvalid] at hs hl <;>
    obtain ⟨rfl, rfl⟩ : q = p ∧ l = [] := ⟨hs, hl⟩
  · rw [bind_error hvalid, List.append_nil]
    exact h
  · rw [bind_ok_nil hvalid]
    have hroom := hrule.makeRoom env (asLocal || q.locals.contains tx.sender)
      (fresh_of_not_contains ht hknown) h
    rcases hrun : TxPool.makeRoom env tx (asLocal || q.locals.contains tx.sender) q with ⟨e | u, r, l⟩ <;>
      rw [hrun] at hroom
    · rw [bind_error hrun]
      exact hroom.2.2
    · rw [bind_ok hrun]
      rw [← List.append_assoc]
      exact hrule.place env hroom.1 (by rw [hroom.2.1]) hroom.2.2

end AddRule

theorem tidy_rule (tx : SignedTransaction) : AddRule tx fun _ _ p => Tidy [] p where
  gone ht := ht
  evicts _ ht _ hevicts _ _ := hevicts.tidy ht
  discard _ _ ht := ht.congr rfl rfl rfl rfl
  pending hp hslot _ ht := ht.replaced (queue_free_of_pending ht hslot) hp.2 _
  queue env hp hslot _ ht := by
    unfold welcomed
    split
    · exact tidy_localize _ _ (ht.enqueued env hslot hp.2 _)
    · exact ht.enqueued env hslot hp.2 _

theorem tidy_add (asLocal : Bool) : Preserves (Tidy []) (add env tx asLocal) :=
  fun _ ht => (tidy_rule tx).add asLocal ht [] ht

end Uchain.TxPool
