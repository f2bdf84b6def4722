import Uchain.TxPool.Proof.Rows
import Uchain.TxPool.Proof.Tidy

/-!
# Promotion and demotion in a tidy pool

In a tidy pool the slots that transactions move to are free, so that promotion and demotion never fail
and replace nothing. Each method has a lemma with its run: which transactions of the lists it looks at
stay, leave or move.
-/

namespace Uchain

open Lib BTreeMap

namespace TxList

/-- What is neither stale nor over the balance. -/
def survivors (list : TxList) (account : AccountState) : TxList :=
  (((list.forward account.nonce).2.filter account.freeBalance).getD
    ⟨[], [], (list.forward account.nonce).2⟩).list

/-- What goes back from a pending list to the queue. -/
def demotes (list : TxList) (account : AccountState) : List SignedTransaction :=
  let filtered := ((list.forward account.nonce).2.filter account.freeBalance).getD
    ⟨[], [], (list.forward account.nonce).2⟩
  if !filtered.list.isEmpty && (filtered.list.txs.get? account.nonce).isNone then
    filtered.invalids ++ (filtered.list.cap 0).1
  else filtered.invalids

/-- What stays in a list is not stale, and not above a balance that is not zero. -/
theorem get?_survivors {list : TxList} {account : AccountState} {n : UInt64} {t : SignedTransaction}
    (h : (list.survivors account).txs.get? n = some t) :
    list.txs.get? n = some t ∧ ¬ n < account.nonce ∧
      (account.freeBalance = 0 ∨ ¬ account.freeBalance < t.price) := by
  have hrest {p : UInt64 → SignedTransaction → Bool} {txs : TxSortedList}
      (hn : (TxSortedList.filter p txs).2.get? n = some t) : txs.get? n = some t ∧ p n t = false := by
    rw [TxSortedList.get?_filter_snd, Option.filter_eq_some_iff] at hn
    exact ⟨hn.1, by simpa using hn.2⟩
  have hstart (hn : (list.forward account.nonce).2.txs.get? n = some t) :
      list.txs.get? n = some t ∧ ¬ n < account.nonce := (hrest hn).imp_right of_decide_eq_false
  unfold survivors TxList.filter at h
  split at h
  · exact ⟨(hstart h).1, (hstart h).2, .inl ‹_›⟩
  · have hpaid : (TxSortedList.filter (fun _ tx => account.freeBalance < tx.price)
        (list.forward account.nonce).2.txs).2.get? n = some t := by
      dsimp only at h
      split at h
      · exact (hrest h).1
      · exact h
    obtain ⟨hn, hprice⟩ := hrest hpaid
    exact ⟨(hstart hn).1, (hstart hn).2, .inr (of_decide_eq_false hprice)⟩

theorem get?_demoted {list : TxList} {account : AccountState} {n : UInt64} {t : SignedTransaction}
    (h : (Row.demoted account list).txs.get? n = some t) : (list.survivors account).txs.get? n = some t := by
  unfold Row.demoted at h
  dsimp only at h
  split at h
  · rw [Row.get?_cap_zero] at h
    cases h
  · exact h

end TxList

namespace TxPool

open Exec

variable [Crypto] {out : List SignedTransaction} {log : History} {p : TxPool}
  {tx : SignedTransaction} {env : Env} {a : Address} {α β : Type}
  {K : List SignedTransaction → History → TxPool → Prop}

/-! ## Promotion -/

/-- The nonce of the account after its transactions were promoted. -/
def raiseNonce (a : Address) (t : TxNoncer) (ts : List SignedTransaction) : TxNoncer :=
  ts.foldl (fun t tx => t.set a (tx.nonce + 1)) t

/-- **Promotion of transactions that are out.** -/
theorem promoteAll_run (hS : QueueShelf K) (env : Env) {ts : List SignedTransaction}
    (h : K (ts ++ out) log p) (hts : ∀ t ∈ ts, t.sender = a) :
    ∃ pending beats l, promoteAll env a ts p = ⟨.ok ts, { p with
        pending, beats, pendingNonce := raiseNonce a p.pendingNonce ts }, l⟩ ∧
      K out (log ++ l) { p with pending, beats, pendingNonce := raiseNonce a p.pendingNonce ts } ∧
      (∀ t ∈ ts, slotAt pending (slot t) = some t) ∧
      (∀ k, (∀ t ∈ ts, slot t ≠ k) → slotAt pending k = slotAt p.pending k) ∧
      ∀ b, b ≠ a → pending.get? b = p.pending.get? b := by
  induction ts generalizing log p with
  | nil =>
    exact ⟨p.pending, p.beats, [], rfl, by rwa [List.append_nil], by simp, fun _ _ => rfl, fun _ _ => rfl⟩
  | cons t ts ih =>
    have hsender := hts t List.mem_cons_self
    subst hsender
    have hfree := ((hS.tidy h).shelved.free t List.mem_cons_self).1
    have hrest := (hS.tidy h).shelved.not_mem_out
    obtain ⟨pending, beats, l, hrun, hkept, hin, hother, hacc⟩ := ih (hS.place_pending (env.now { p with
      pending := p.pending.insert t.sender (putIn p.pending true t) }) h)
      fun t' ht' => hts t' (List.mem_cons_of_mem t ht')
    refine ⟨pending, beats, [(.promote t.sender t, p)] ++ (l ++ []), ?_, ?_, ?_, ?_, ?_⟩
    · unfold promoteAll
      exact bind_of_run (promoteTx_run hfree) (bind_of_run hrun rfl)
    · rw [List.append_nil, ← List.append_assoc]
      exact hkept
    · refine List.forall_mem_cons.2 ⟨?_, hin⟩
      rw [hother (slot t) fun t' ht' => hrest t' (List.mem_append_left _ ht'), slotAt_putIn,
        Function.update_self]
    · intro k hk
      obtain ⟨hne, hk⟩ := List.forall_mem_cons.1 hk
      rw [hother k hk, slotAt_putIn, Function.update_of_ne hne.symm]
    · intro b hb
      rw [hacc b hb]
      exact get?_insert_of_ne _ _ hb

/-- What is ready leaves the queue list of an account, from the survivors. -/
def readied (p : TxPool) (a : Address) (list : TxList) : List SignedTransaction × TxList :=
  (list.survivors (p.currentState a)).ready (p.pendingNonce.nonce a)

/-- **Promotion of an account.** -/
theorem promoteAccount_run (hS : QueueShelf K) (env : Env) {list : TxList} (h : K [] log p)
    (hlist : p.queue.get? a = some list) :
    ∃ all pending beats l, promoteAccount env a p = ⟨.ok (p.readied a list).1, { p with
        all, pending, beats
        queue := p.queue.insert a (p.readied a list).2
        pendingNonce := raiseNonce a (p.pendingNonce.get a).2 (p.readied a list).1 }, l⟩ ∧
      K [] (log ++ l) { p with
        all, pending, beats
        queue := p.queue.insert a (p.readied a list).2
        pendingNonce := raiseNonce a (p.pendingNonce.get a).2 (p.readied a list).1 } ∧
      (∀ t ∈ (p.readied a list).1, slotAt pending (slot t) = some t) ∧
      (∀ k, (∀ t ∈ (p.readied a list).1, slot t ≠ k) → slotAt pending k = slotAt p.pending k) ∧
      ∀ b, b ≠ a → pending.get? b = p.pending.get? b := by
  have hloose := (hS.tidy h).loose a list hlist
  have hloose₁ : (list.forward (p.currentState a).nonce).2.strict = false := hloose
  have hsplit := TxList.split_filter (list.forward (p.currentState a).nonce).2
    (p.currentState a).freeBalance
  rw [TxList.invalids_of_loose hloose₁, List.append_nil] at hsplit
  have hstrict := TxList.strict_filter (list.forward (p.currentState a).nonce).2
    (p.currentState a).freeBalance
  unfold readied TxList.survivors promoteAccount
  rw [get_bind]
  simp only [hlist]
  generalize ((list.forward (p.currentState a).nonce).2.filter (p.currentState a).freeBalance).getD
    ⟨[], [], (list.forward (p.currentState a).nonce).2⟩ = filtered at hsplit hstrict ⊢
  -- the stale ones
  obtain ⟨l₁, hrun₁, hkept₁⟩ := forgetAll_run .stale (list.forward (p.currentState a).nonce).1
    { p with queue := p.queue.insert a (list.forward (p.currentState a).nonce).2 }
  have h₁ := hkept₁ hS (fun _ _ => .inl rfl)
    (hS.take_queue _ h hlist (list.split_forward (p.currentState a).nonce) rfl)
  -- those over the balance
  obtain ⟨l₂, hrun₂, hkept₂⟩ := forgetAll_run .unpayable filtered.drops { p with
    all := dropAll p.all (list.forward (p.currentState a).nonce).1
    queue := (p.queue.insert a (list.forward (p.currentState a).nonce).2).insert a filtered.list }
  have h₂ := hkept₂ hS (fun _ _ => .inl rfl)
    (hS.take_queue _ h₁ (get?_insert_self _ _ _) hsplit hstrict)
  -- those that are ready
  have hready := filtered.list.split_ready (p.pendingNonce.nonce a)
  have h₃ := hS.books _ (p.pendingNonce.get a).2 (fun _ ht => ht)
    (hS.take_queue _ h₂ (get?_insert_self _ _ _) hready rfl)
  have hsender := sender_of_split (hS.tidy h₂).shelved.slot_snd (get?_insert_self _ _ _)
    hready
  obtain ⟨pending, beats, l₃, hrun₃, hkept₃, hin, hother, hacc⟩ := promoteAll_run hS env h₃ hsender
  -- only the last of the three writes counts
  rw [← insert_insert p.queue a (list.forward (p.currentState a).nonce).2,
    ← insert_insert (p.queue.insert a _) a filtered.list]
  refine ⟨_, pending, beats, _, bind_of_run rfl (bind_of_run hrun₁ (bind_of_run rfl (bind_of_run hrun₂
    (bind_of_run rfl (bind_of_run rfl hrun₃))))), ?_, hin, hother, hacc⟩
  simpa only [List.append_assoc, List.nil_append] using hkept₃

def capped (p : TxPool) (a : Address) (list : TxList) : List SignedTransaction × TxList :=
  if p.locals.contains a then ([], list) else list.cap p.config.accountQueue.toNat

omit [Crypto] in
theorem split_capped (p : TxPool) (a : Address) (list : TxList) :
    Split list.txs (p.capped a list).1 (p.capped a list).2.txs := by
  unfold capped
  split
  · exact Split.nil _
  · exact list.split_cap _

omit [Crypto] in
theorem strict_capped (p : TxPool) (a : Address) (list : TxList) :
    (p.capped a list).2.strict = list.strict := by
  unfold capped
  split <;> rfl

omit [Crypto] in
theorem not_local_of_capped (p : TxPool) {list : TxList} (ht : tx ∈ (p.capped a list).1) :
    p.locals.contains a = false := by
  unfold capped at ht
  cases hlocal : p.locals.contains a with
  | true =>
    rw [if_pos hlocal] at ht
    cases ht
  | false => rfl

/-- **The cap of a queue list.** -/
theorem capAccount_run (hS : QueueShelf K) {list : TxList} (h : K [] log p)
    (hlist : p.queue.get? a = some list) :
    ∃ queue beats l, capAccount a p = ⟨.ok (), { p with
        all := dropAll p.all (p.capped a list).1, queue, beats }, l⟩ ∧
      K [] (log ++ l) { p with all := dropAll p.all (p.capped a list).1, queue, beats } ∧
      (∀ n, slotAt queue (a, n) = (p.capped a list).2.txs.get? n) ∧
      ∀ b, b ≠ a → queue.get? b = p.queue.get? b := by
  obtain ⟨l, hrun, hkept⟩ := forgetAll_run .capped (p.capped a list).1
    { p with queue := p.queue.insert a (p.capped a list).2 }
  have hsender := sender_of_split (hS.tidy h).shelved.slot_snd hlist (p.split_capped a list)
  have htaken := hkept hS (fun t ht => .inr ((hsender t ht).symm ▸ p.not_local_of_capped ht))
    (hS.take_queue _ h hlist (p.split_capped a list) (p.strict_capped a list))
  have hunfold : capAccount a p = ((do
      setQueue a (p.capped a list).2
      Exec.forEach (fun tx => forget .capped tx.hash tx) (p.capped a list).1
      if (p.capped a list).2.isEmpty then
        Exec.modify fun p => { p with queue := p.queue.erase a, beats := p.beats.erase a }) : M Unit) p := by
    unfold capAccount
    rw [get_bind]
    simp only [hlist]
    rfl
  rw [hunfold]
  have hget := get?_insert_self p.queue a (p.capped a list).2
  cases hempty : (p.capped a list).2.isEmpty with
  | false =>
    refine ⟨_, p.beats, _, bind_of_run rfl (bind_of_run hrun rfl), ?_, slotAt_of_get? hget, fun b hb => ?_⟩
    · rw [List.nil_append, List.append_nil]
      exact htaken
    · exact get?_insert_of_ne _ _ hb
  | true =>
    -- the account has no transaction left
    refine ⟨(p.queue.insert a (p.capped a list).2).erase a, p.beats.erase a, _,
      bind_of_run rfl (bind_of_run hrun rfl), ?_, fun n => ?_, fun b hb => ?_⟩
    · rw [List.nil_append, List.append_nil]
      exact hS.vacate htaken hget hempty
    · rw [slotAt_erase_of_isEmpty hget hempty]
      exact slotAt_of_get? hget n
    · rw [get?_erase, if_neg hb, get?_insert_of_ne _ _ hb]

/-! ## Demotion -/

omit [Crypto] in
theorem perm_append_left_comm (ts ts' out : List SignedTransaction) :
    (ts' ++ (ts ++ out)).Perm (ts ++ ts' ++ out) := by
  rw [← List.append_assoc]
  exact List.perm_append_comm.append_right out

/-- **Demotion of an account.** -/
theorem demoteAccount_run (hS : Shelf K) {list : TxList} (h : K out log p)
    (hlist : p.pending.get? a = some list) :
    ∃ all l, demoteAccount a list p = ⟨.ok (list.demotes (p.currentState a)), { p with
        all, pending := p.pending.insert a (Row.demoted (p.currentState a) list) }, l⟩ ∧
      K (list.demotes (p.currentState a) ++ out) (log ++ l) { p with
        all, pending := p.pending.insert a (Row.demoted (p.currentState a) list) } := by
  have hsplit := TxList.split_filter (list.forward (p.currentState a).nonce).2
    (p.currentState a).freeBalance
  have hstrict := TxList.strict_filter (list.forward (p.currentState a).nonce).2
    (p.currentState a).freeBalance
  unfold TxList.demotes Row.demoted demoteAccount
  rw [get_bind]
  simp only []
  generalize ((list.forward (p.currentState a).nonce).2.filter (p.currentState a).freeBalance).getD
    ⟨[], [], (list.forward (p.currentState a).nonce).2⟩ = filtered at hsplit hstrict ⊢
  obtain ⟨l₁, hrun₁, hkept₁⟩ := forgetAll_run .stale (list.forward (p.currentState a).nonce).1
    { p with pending := p.pending.insert a (list.forward (p.currentState a).nonce).2 }
  have h₁ := hkept₁ hS.toQueueShelf (fun _ _ => .inl rfl)
    (hS.take_pending _ h hlist (list.split_forward (p.currentState a).nonce) rfl)
  obtain ⟨l₂, hrun₂, hkept₂⟩ := forgetAll_run .unpayable filtered.drops { p with
    all := dropAll p.all (list.forward (p.currentState a).nonce).1
    pending :=
      (p.pending.insert a (list.forward (p.currentState a).nonce).2).insert a filtered.list }
  have h₂ := hS.take_pending _ h₁ (get?_insert_self _ _ _) hsplit hstrict
  rw [List.append_assoc] at h₂
  have h₃ := hkept₂ hS.toQueueShelf (fun _ _ => .inl rfl) h₂
  split
  · have h₄ := hS.take_pending _ h₃ (get?_insert_self _ _ _) (filtered.list.split_cap 0) rfl
    rw [← insert_insert p.pending a (list.forward (p.currentState a).nonce).2,
      ← insert_insert (p.pending.insert a _) a filtered.list]
    refine ⟨_, _, bind_of_run rfl (bind_of_run hrun₁ (bind_of_run rfl (bind_of_run hrun₂
      (bind_of_run rfl rfl)))), hS.perm ?_ (perm_append_left_comm _ _ _)⟩
    simpa only [List.append_assoc, List.nil_append, List.append_nil] using h₄
  · rw [← insert_insert p.pending a (list.forward (p.currentState a).nonce).2]
    refine ⟨_, _, bind_of_run rfl (bind_of_run hrun₁ (bind_of_run rfl (bind_of_run hrun₂ rfl))), ?_⟩
    simpa only [List.append_assoc, List.nil_append, List.append_nil] using h₃

def demotesOf (state : Address → AccountState) (entries : List (Address × TxList)) :
    List SignedTransaction :=
  entries.flatMap fun e => e.2.demotes (state e.1)

theorem demoteAccounts_run (hS : Shelf K) {entries : List (Address × TxList)} (h : K out log p)
    (hentries : ∀ e ∈ entries, p.pending.get? e.1 = some e.2)
    (hnodup : (entries.map Prod.fst).Nodup) :
    ∃ all pending l, demoteAccounts entries p =
        ⟨.ok (demotesOf p.currentState entries), { p with all, pending }, l⟩ ∧
      K (demotesOf p.currentState entries ++ out) (log ++ l) { p with all, pending } ∧
      ∀ b, pending.get? b = if b ∈ entries.map Prod.fst then
        (p.pending.get? b).map (Row.demoted (p.currentState b)) else p.pending.get? b := by
  induction entries generalizing p out log with
  | nil => exact ⟨p.all, p.pending, [], rfl, by rwa [List.append_nil], fun b => rfl⟩
  | cons e entries ih =>
    obtain ⟨hne, hnodup⟩ := List.nodup_cons.1 hnodup
    obtain ⟨hlist, hentries⟩ := List.forall_mem_cons.1 hentries
    obtain ⟨all, l, hrun, hkept⟩ := demoteAccount_run hS h hlist
    have hkey (e' : Address × TxList) (he' : e' ∈ entries) : e'.1 ≠ e.1 := fun heq =>
      hne (heq ▸ List.mem_map_of_mem he')
    obtain ⟨all', pending', l', hrun', hkept', hget⟩ := ih hkept (fun e' he' =>
      (get?_insert_of_ne _ _ (hkey e' he')).trans (hentries e' he')) hnodup
    refine ⟨all', pending', _, bind_of_run hrun (bind_of_run hrun' rfl), ?_, fun b => ?_⟩
    · rw [List.append_nil, ← List.append_assoc]
      exact hS.perm hkept' (perm_append_left_comm _ _ _)
    · rw [hget b, show (TxPool.pending _).get? b = _ from get?_insert _ _ _ _]
      by_cases hb : b = e.1
      · rw [hb, if_neg hne, if_pos rfl, List.map_cons, if_pos List.mem_cons_self, hlist]
        rfl
      · have hmem : b ∈ (e :: entries).map Prod.fst ↔ b ∈ entries.map Prod.fst := by
          rw [List.map_cons, List.mem_cons, or_iff_right hb]
        rw [if_neg hb]
        exact if_congr hmem.symm rfl rfl

/-- **Demotion**: each list is demoted, and what it loses is queued. -/
theorem demoteUnexecutable_run (hS : Shelf K) (env : Env) (h : K [] log p) :
    ∃ all pending queue beats l, demoteUnexecutable env p =
        ⟨.ok (), { p with all, pending, queue, beats }, l⟩ ∧
      K [] (log ++ l) { p with all, pending, queue, beats } ∧
      (∀ b, pending.get? b = ((p.pending.get? b).map (Row.demoted (p.currentState b))).filter
        fun list => !list.isEmpty) ∧
      (∀ t ∈ demotesOf p.currentState (env.iter p p.pending), slotAt queue (slot t) = some t) ∧
      ∀ k, (∀ t ∈ demotesOf p.currentState (env.iter p p.pending), slot t ≠ k) →
        slotAt queue k = slotAt p.queue k := by
  have hnodup : ((env.iter p p.pending).map Prod.fst).Nodup := nodup_iter _
  obtain ⟨all, pending, l, hrun, hkept, hget⟩ :=
    demoteAccounts_run hS h (fun e he => mem_iter he) hnodup
  obtain ⟨queue, beats, hrun', hkept', hin, hother, -⟩ := enqueueAll_run hS.toQueueShelf env _ hkept
  refine ⟨all, pending.filter fun _ list => !list.isEmpty, queue, beats, _,
    bind_of_run rfl (bind_of_run hrun (bind_of_run hrun' rfl)), ?_, fun b => ?_, hin, hother⟩
  · rw [List.nil_append, List.append_nil, List.append_nil]
    exact hS.sweep hkept'
  · rw [get?_filter, hget b]
    congr 1
    cases hb : p.pending.get? b with
    | none => exact ite_self _
    | some list => exact if_pos (List.mem_map.2 ⟨(b, list), mem_iter_of_get? hb, rfl⟩)

namespace QueueShelf

variable (hS : QueueShelf K)

include hS

theorem promoteAccount (a : Address) : Serves (K []) (promoteAccount env a) := by
  intro log p h
  cases hlist : p.queue.get? a with
  | none =>
    unfold TxPool.promoteAccount
    rw [get_bind]
    simp only [hlist]
    exact serves_pure _ log p h
  | some list =>
    obtain ⟨_, _, _, l, hrun, hkept, -⟩ := promoteAccount_run hS env h hlist
    exact ⟨_, _, l, hrun, hkept⟩

theorem capAccount (a : Address) : Serves (K []) (capAccount a) := by
  intro log p h
  cases hlist : p.queue.get? a with
  | none =>
    unfold TxPool.capAccount
    rw [get_bind]
    simp only [hlist]
    exact serves_pure _ log p h
  | some list =>
    obtain ⟨_, _, l, hrun, hkept, -⟩ := capAccount_run hS h hlist
    exact ⟨_, _, l, hrun, hkept⟩

theorem promoteExecutable (accounts : List Address) : Serves (K []) (promoteExecutable env accounts) := by
  have haccounts : Serves (K []) (promoteAccounts env accounts) := by
    induction accounts with
    | nil => exact serves_pure _
    | cons a accounts ih =>
      exact serves_bind (hS.promoteAccount a) fun _ => serves_bind ih fun _ => serves_pure _
  refine serves_bind haccounts fun _ => serves_bind (serves_forEach hS.capAccount _) fun _ => ?_
  exact serves_pure _

end QueueShelf

namespace Shelf

variable (hS : Shelf K)

include hS

theorem demoteUnexecutable : Serves (K []) (demoteUnexecutable env) := by
  intro log p h
  obtain ⟨_, _, _, _, l, hrun, hkept, -⟩ := demoteUnexecutable_run hS env h
  exact ⟨_, _, l, hrun, hkept⟩

theorem truncatePending : Maintains (K []) (truncatePending env) := by
  refine maintains_truncatePending fun a list log p h hlist hlocal => ?_
  obtain ⟨_, _, _, hrun, -, -, hkept⟩ := capFirst_run a list p
  rw [hrun]
  exact hkept hS h hlist hlocal

end Shelf

/-! ## Runs -/

section Runs

variable {P Q : TxLookup → Prop} {c : TxPoolConfig}

/-- The lookup satisfies `P` now, and it satisfied `Q` at every action so far. -/
def Throughout (P Q : TxLookup → Prop) (log : History) (p : TxPool) : Prop :=
  P p.all ∧ ∀ e ∈ log, Q e.2.all

omit [Crypto] in
theorem Throughout.note (h : Throughout Q Q log p) (action : Action) :
    Throughout Q Q (log ++ [(action, p)]) p :=
  ⟨h.1, List.forall_mem_append.2 ⟨h.2, List.forall_mem_singleton.2 h.1⟩⟩

/-- A property of the lookup that every step of the pool keeps. -/
structure LookupRule (Q : TxLookup → Prop) : Prop where
  remove : ∀ t h, Q t → Q (t.remove h)
  add : ∀ t tx isLocal, t.get tx.hash = none → Q t → Q (t.add tx isLocal)
  migrate : ∀ t accounts, Q t → Q (t.remoteToLocals accounts).2

/-- The configuration is `c`, and the lookup satisfies `Q` throughout. -/
abbrev Steady (c : TxPoolConfig) (Q : TxLookup → Prop) (log : History) (p : TxPool) : Prop :=
  p.config = c ∧ Throughout Q Q log p

section Rule

variable (hQ : LookupRule Q)

include hQ

theorem through_shelf : Shelf fun out log p => Tidy out p ∧ Steady c Q log p where
  tidy h := h.1
  perm h hperm := ⟨h.1.perm hperm, h.2⟩
  take_queue list' h hlist hsplit hstrict := ⟨h.1.take_queue list' hlist hsplit hstrict, h.2⟩
  take_pending list' h hlist hsplit hstrict := ⟨h.1.take_pending list' hlist hsplit hstrict, h.2⟩
  place_queue env q h := ⟨Tidy.place_queue env h.1 q, h.2⟩
  place_pending beat h := ⟨h.1.place_pending beat, h.2.1, h.2.2.note _⟩
  forget h _ := ⟨h.1.forget, h.2.1, hQ.remove _ _ h.2.2.1, (h.2.2.note _).2⟩
  books _ _ _ h := ⟨h.1.congr rfl rfl rfl rfl, h.2⟩
  cap _ h := ⟨h.1, h.2.1, h.2.2.note _⟩
  vacate h hlist hempty := ⟨h.1.vacate hlist hempty, h.2⟩
  sweep h := ⟨h.1.sweep, h.2⟩

theorem Throughout.evicts {p' : TxPool} (h : Throughout Q Q log p) (hevicts : Evicts p tx p')
    (action : Action) : Throughout Q Q (log ++ [(action, p)]) p' := by
  refine ⟨?_, (h.note action).2⟩
  rw [hevicts.all]
  exact hQ.remove _ _ h.1

theorem Throughout.entered (h : Throughout Q Q log p) (hnew : p.all.get tx.hash = none)
    (old : Option SignedTransaction) (isLocal : Bool) :
    Throughout Q Q (log ++ p.enterEvents old tx isLocal) (p.entered old tx isLocal) := by
  have hdrop : Throughout Q Q (log ++ p.dropEvents old) (p.dropOld old) := by
    cases old with
    | none => rwa [dropEvents, Option.map_none, Option.toList_none, List.append_nil]
    | some o => exact ⟨hQ.remove _ _ h.1, (h.note _).2⟩
  unfold enterEvents
  rw [← List.append_assoc]
  exact ⟨hQ.add _ tx isLocal (get_dropOld_of_none hnew old) hdrop.1, (hdrop.note _).2⟩

theorem through_evicts : EvictRule fun _ => Steady c Q where
  gone h := h
  evicts _ h _ hevicts _ _ := ⟨hevicts.config.trans h.1, h.2.evicts hQ hevicts _⟩

theorem through_add : AddRule tx fun _ => Steady c Q where
  toEvictRule := through_evicts hQ
  discard _ _ h := h
  pending {_ p isLocal _} hp _ _ h := by
    rw [← List.append_assoc]
    exact ⟨h.1, Throughout.note (p := p.replaced tx isLocal)
      (h.2.entered hQ (p := p.pend tx) hp.2 _ isLocal) _⟩
  queue {_ p isLocal _} env hp _ _ h := by
    have hdone := h.2.entered hQ (p := p.enqueue tx) hp.2 (slotAt p.queue (slot tx)) isLocal
    rw [← List.append_assoc]
    unfold welcomed
    rw [localize_run]
    split
    · exact ⟨h.1, Throughout.note ⟨hQ.migrate _ _ hdone.1, hdone.2⟩ _⟩
    · exact ⟨h.1, Throughout.note (p := p.enqueued env tx isLocal) hdone _⟩

/-- **Every method keeps a pool tidy**, none changes the configuration, and what removals and new
transactions keep of the lookup holds along a run. -/
theorem through_rule : RunRule fun log p => Tidy [] p ∧ Steady c Q log p where
  books _ _ _ _ _ h := ⟨h.1.congr rfl rfl rfl rfl, h.2⟩
  state _ _ _ _ h := ⟨h.1.congr rfl rfl rfl rfl, h.2⟩
  reinject _ _ _ h := ⟨h.1, h.2.1, h.2.2.note _⟩
  send _ _ _ h := ⟨h.1, h.2.1, h.2.2.note _⟩
  moved _ _ _ h := ⟨h.1, h.2.1, h.2.2.note _⟩
  add _ _ asLocal log p h := ⟨tidy_add asLocal p h.1, (through_add hQ).add asLocal h.1 log h.2⟩
  promote _ a := ((through_shelf hQ).promoteAccount a).maintains
  cap a := ((through_shelf hQ).capAccount a).maintains
  demote _ := (through_shelf hQ).demoteUnexecutable.maintains
  truncatePending _ := (through_shelf hQ).truncatePending
  truncateQueue env := (through_evicts hQ).truncateQueue (fun _ h _ _ => h) env

end Rule

variable (conf : Option TxPoolConfig) (accounts : Option (List Address)) (state : Address → AccountState)
  (calls : List (Env × Call))

theorem steady_of_run (hQ : LookupRule Q) (hnew : Q .new) :
    Tidy [] (run calls (TxPool.new conf accounts state)).state ∧
      Steady (TxPool.new conf accounts state).config Q (run calls (TxPool.new conf accounts state)).log
        (run calls (TxPool.new conf accounts state)).state :=
  (through_rule hQ).run calls [] _ ⟨tidy_new conf accounts state, rfl, hnew, by simp⟩

theorem lookupRule_true : LookupRule fun _ => True := ⟨fun _ _ h => h, fun _ _ _ _ h => h, fun _ _ h => h⟩

theorem tidy_of_run : Tidy [] (run calls (TxPool.new conf accounts state)).state :=
  (steady_of_run conf accounts state calls lookupRule_true trivial).1

theorem config_of_run :
    (run calls (TxPool.new conf accounts state)).state.config = (TxPool.new conf accounts state).config :=
  (steady_of_run conf accounts state calls lookupRule_true trivial).2.1

end Runs

end TxPool

end Uchain
