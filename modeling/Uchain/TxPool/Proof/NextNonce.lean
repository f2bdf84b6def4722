import Uchain.TxPool.Proof.Heads
import Uchain.TxPool.Proof.Within
import Uchain.TxPool.Sample

/-!
# The nonce that the pool suggests

`Ahead p`: the nonce that is remembered for an account is above its pending ones. Promotion and eviction
keep this. After a move to a new head the source sets the nonce from `last_element`, which is the *first*
pending transaction, and pending truncation lowers it to the transaction that it removes, the first one as
well; so both need lists of one transaction (`OneLeft`, `calm`).

`nonce_free_of_run`: then the nonce of `TxPool::nonce` is free, after every run of calls that return.
-/

namespace Uchain.TxPool

open Lib Exec BTreeMap

/-- The nonce that is remembered for an account is above its pending ones. -/
def Ahead (p : TxPool) : Prop :=
  ∀ k t, slotAt p.pending k = some t → ∃ n, p.pendingNonce.nonces.get? k.1 = some n ∧ k.2 < n

/-- No transaction with the last nonce enters, and no list of several transactions loses its first. -/
def calm : Action × TxPool → Bool
  | (.enter tx _, _) => tx.nonce < tx.nonce + 1
  | (.cap a, p) => p.pendingLen a ≤ 1
  | _ => true

def listed (p : TxPool) : List SignedTransaction :=
  (p.pending.values ++ p.queue.values).flatMap TxList.flatten

section Run

variable [Crypto]

/-- Each account has at most one nonce in `S` that is not stale. -/
def OneEach (state : Address → AccountState) (S : Set SignedTransaction) : Prop :=
  ∀ t ∈ S, ∀ t' ∈ S, t.sender = t'.sender → ¬ t.nonce < (state t.sender).nonce →
    ¬ t'.nonce < (state t.sender).nonce → t.nonce = t'.nonce

/-- A move to a new head that leaves each account at most one transaction. -/
structure OneLeft (env : Env) (request : ResetRequest) (p : TxPool) : Prop where
  stays : (orphans env request.oldHead request.newHead p).res = .ok none →
    OneEach p.currentState {t | t ∈ p.listed}
  moves : ∀ txs state, (orphans env request.oldHead request.newHead p).res = .ok (some txs) →
    env.getStateAt request.newHead.stateRoot = .ok state → OneEach state {t | t ∈ p.listed ++ txs}

/-- The transactions whose nonce is not the last one. -/
def bounded : Set SignedTransaction := {t | t.nonce < t.nonce + 1}

/-- What the pool may list while it moves to a new head. -/
def Single (txs : List SignedTransaction) (state : Address → AccountState) (S : Set SignedTransaction) :
    Prop := S ⊆ bounded ∧ OneEach state S ∧ ∀ t ∈ txs, t ∈ bounded → t ∈ S

abbrev Calm : Set (Action × TxPool) := {e | calm e = true}

abbrev AheadUnder : History → TxPool → Prop := Under Calm fun _ => Ahead

abbrev TidyAhead (log : History) (p : TxPool) : Prop :=
  TidyIn Calm (fun _ S => S = bounded) [] log p ∧ AheadUnder log p

variable {log : History} {p p' : TxPool} {tx : SignedTransaction} {env : Env} {a : Address}

/-! ## Evictions and new transactions -/

omit [Crypto] in
theorem Ahead.of_others (h : Ahead p) (hpending : ∀ b, b ≠ a → p'.pending.get? b = p.pending.get? b)
    (hnonces : ∀ b, b ≠ a → p'.pendingNonce.nonces.get? b = p.pendingNonce.nonces.get? b)
    (ha : ∀ n t, slotAt p'.pending (a, n) = some t → ∃ v, p'.pendingNonce.nonces.get? a = some v ∧ n < v) :
    Ahead p' := by
  rintro ⟨b, n⟩ t hk
  by_cases hb : b = a
  · subst hb
    exact ha n t hk
  · rw [slotAt, hpending b hb] at hk
    rw [hnonces b hb]
    exact h (b, n) t hk

omit [Crypto] in
theorem TxNoncer.nonce_of_get? {t : TxNoncer} {n : UInt64} (h : t.nonces.get? a = some n) : t.nonce a = n := by
  rw [TxNoncer.nonce, h]
  rfl

theorem Evicts.ahead (h : Evicts p tx p') (ha : Ahead p) : Ahead p' := by
  cases h with
  | pending list priced hlist hslot =>
    intro k t hk
    rw [show slotAt (TxPool.pending _) = Function.update (slotAt p.pending) (slot tx) none from
      slotAt_insert_erase hlist, Function.update_apply] at hk
    split at hk
    · cases hk
    · exact ha k t hk
  | queued future priced hlist hfuture hslot => exact ha
  | both list priced pending queue beats hlist hslot hmoves =>
    refine ha.of_others (fun b hb => (hmoves.others b hb).1) (fun b hb => get?_insert_of_ne _ _ hb)
      fun n t hk => ?_
    -- what is left is below the transaction
    obtain ⟨hk, hlt⟩ := hmoves.pending n t hk
    obtain ⟨v, hv, hn⟩ := ha _ t hk
    refine ⟨_, get?_insert_self _ _ _, ?_⟩
    rw [TxNoncer.nonce_of_get? hv]
    split
    · exact hn
    · exact hlt

theorem ahead_evicts : EvictRule fun _ => AheadUnder where
  gone h := h
  evicts _ h _ hevicts _ _ hall := hevicts.ahead (h.before hall)

theorem ahead_add (tx : SignedTransaction) : AddRule tx fun _ => AheadUnder where
  toEvictRule := ahead_evicts
  discard _ _ h := h
  pending {_ p isLocal _} _ hslot _ h hall k t hk := by
    rw [show slotAt (p.replaced tx isLocal).pending = _ from slotAt_putIn _ _ _,
      Function.update_apply] at hk
    split at hk
    · rename_i hkey
      obtain ⟨old, hold⟩ := Option.ne_none_iff_exists'.1 hslot
      exact hkey ▸ h.before hall _ old hold
    · exact h.before hall k t hk
  queue _ _ _ _ h hall := by
    unfold welcomed
    rw [localize_run]
    split <;> exact h.before hall

/-! ## Promotion -/

omit [Crypto] in
theorem raiseNonce_of_ne {b : Address} (hb : b ≠ a) (ts : List SignedTransaction) (t : TxNoncer) :
    (raiseNonce a t ts).nonces.get? b = t.nonces.get? b := by
  induction ts generalizing t with
  | nil => rfl
  | cons tx ts ih => exact (ih _).trans (get?_insert_of_ne _ _ hb)

omit [Crypto] in
/-- Promotion in the order of nonces, from the remembered one on. -/
theorem raiseNonce_ahead {ts : List SignedTransaction} {t : TxNoncer} {n v : UInt64}
    (hsorted : ts.Pairwise fun s s' => s.nonce < s'.nonce) (hmax : ∀ s ∈ ts, s ∈ bounded)
    (hv : t.nonces.get? a = some v) (hstart : ∀ s ∈ ts, v ≤ s.nonce)
    (hn : n < v ∨ ∃ s ∈ ts, s.nonce = n) : ∃ w, (raiseNonce a t ts).nonces.get? a = some w ∧ n < w := by
  induction ts generalizing t v with
  | nil => exact ⟨v, hv, hn.resolve_right (by simp)⟩
  | cons s ts ih =>
    obtain ⟨hlt, hsorted⟩ := List.pairwise_cons.1 hsorted
    obtain ⟨hs, hmax⟩ := List.forall_mem_cons.1 hmax
    have hs : s.nonce < s.nonce + 1 := hs
    have hle := hstart s List.mem_cons_self
    refine ih (t := t.set a (s.nonce + 1)) hsorted hmax (get?_insert_self _ _ _) (fun s' hs' => ?_) ?_
    · have := hlt s' hs'
      grind
    · rcases hn with hn | ⟨s', hs', rfl⟩
      · exact .inl (by grind)
      · rcases List.mem_cons.1 hs' with rfl | hmem
        · exact .inl hs
        · exact .inr ⟨s', hmem, rfl⟩

theorem ahead_promote (a : Address) : Maintains TidyAhead (promoteAccount env a) := by
  intro log p h
  cases hlist : p.queue.get? a with
  | none =>
    unfold promoteAccount
    rw [get_bind]
    simp only [hlist]
    exact maintains_pure _ log p h
  | some list =>
    obtain ⟨all, pending, beats, l, hrun, hkept, hin, hother, hacc⟩ :=
      promoteAccount_run (within_shelf Calm _).toQueueShelf env h.1 hlist
    rw [hrun]
    refine ⟨hkept, fun hall => ?_⟩
    have hahead := h.2.before hall
    obtain ⟨S, rfl, hS⟩ := hkept.2 hall
    refine hahead.of_others hacc (fun b hb => ?_) fun n t hk => ?_
    · exact (raiseNonce_of_ne hb _ _).trans (get?_insert_of_ne _ _ hb)
    · have hkeyed : (list.survivors (p.currentState a)).txs.Keyed := fun n t hn => congrArg Prod.snd
        (h.1.1.shelved.slot_snd (a, n) t ((slotAt_of_get? hlist n).trans (TxList.get?_survivors hn).1))
      obtain ⟨hsorted, hstart⟩ := TxList.sorted_ready hkeyed (p.pendingNonce.nonce a)
      refine raiseNonce_ahead hsorted (fun s hs => hS.pending _ s (hin s hs))
        (get?_insert_self _ _ _) hstart ?_
      by_cases hnew : ∃ s ∈ (p.readied a list).1, slot s = (a, n)
      · exact .inr (hnew.imp fun s hs => hs.imp_right (congrArg Prod.snd))
      · push Not at hnew
        obtain ⟨v, hv, hn⟩ := hahead (a, n) t ((hother _ hnew).symm.trans hk)
        exact .inl (by rwa [TxNoncer.nonce_of_get? hv])

theorem ahead_cap (a : Address) : Maintains TidyAhead (capAccount a) := by
  intro log p h
  cases hlist : p.queue.get? a with
  | none =>
    unfold capAccount
    rw [get_bind]
    simp only [hlist]
    exact maintains_pure _ log p h
  | some list =>
    obtain ⟨_, _, _, hrun, hkept, -⟩ := capAccount_run (within_shelf Calm _).toQueueShelf h.1 hlist
    rw [hrun]
    exact ⟨hkept, fun hall => h.2.before hall⟩

/-! ## Truncation -/

theorem ahead_finish (events : BTreeMap Address TxSortedList) : Maintains TidyAhead (finish env events) := by
  refine maintains_finish ?_ (fun log p h => ?_) (fun _ _ h => ?_) (fun _ _ _ h => ?_) events
  · refine maintains_truncatePending fun a list log p h hlist hlocal => ?_
    obtain ⟨_, _, l, hrun, -, hnonces, hkept⟩ := capFirst_run a list p
    rw [hrun]
    refine ⟨hkept (within_shelf Calm _) h.1 hlist hlocal, fun hall => ?_⟩
    refine (h.2.before hall).of_others (fun b hb => get?_insert_of_ne _ _ hb) hnonces fun n t hk => ?_
    -- a list of one transaction is empty now
    have hlen : p.pendingLen a ≤ 1 :=
      of_decide_eq_true (hall (.cap a, p) (List.mem_append_right _ List.mem_cons_self))
    rw [pendingLen, hlist] at hlen
    have hlen : list.len ≤ 1 := hlen
    rw [slotAt_of_get? (get?_insert_self _ _ _), Nat.sub_eq_zero_of_le hlen, Row.get?_cap_zero] at hk
    cases hk
  · exact ⟨(within_evicts Calm _).truncateQueue (fun _ h _ _ => h) env log p h.1,
      (ahead_evicts.truncateQueue (fun _ h _ _ => h) env log p ⟨h.1.1, h.2⟩).2⟩
  · exact ⟨h.1.congr rfl rfl rfl rfl rfl, h.2⟩
  · exact ⟨⟨h.1.1, Admits.imp h.1.2 (List.subset_append_left _ _) rfl fun _ hS => hS⟩,
      fun hall => h.2.before hall⟩

/-! ## A new head -/

omit [Crypto] in
/-- The nonce of an account with a list is set from the list, in whatever order the lists come. -/
theorem resetNonces_run (entries : List (Address × TxList)) (nonces : BTreeMap Address UInt64) (p : TxPool) :
    ∃ t, resetNonces entries nonces p = ⟨.ok (), { p with pendingNonce := t }, []⟩ ∧
      ∀ a n, (∀ e ∈ entries, e.1 = a → ∃ tx, e.2.lastElement = some tx ∧ tx.nonce + 1 = n) →
        (nonces.get? a = some n ∧ p.pendingNonce.nonces.get? a = some n) ∨ (∃ e ∈ entries, e.1 = a) →
          t.nonces.get? a = some n := by
  induction entries generalizing nonces p with
  | nil => exact ⟨p.pendingNonce, rfl, fun a n _ h => (h.resolve_right (by simp)).2⟩
  | cons e entries ih =>
    obtain ⟨nonces', hstep, hself, hother⟩ : ∃ nonces', resetNonces (e :: entries) nonces p =
        resetNonces entries nonces' { p with pendingNonce := p.pendingNonce.setAll nonces' } ∧
        (∀ tx, e.2.lastElement = some tx → nonces'.get? e.1 = some (tx.nonce + 1)) ∧
        ∀ b, b ≠ e.1 → nonces'.get? b = nonces.get? b := by
      rw [resetNonces]
      cases e.2.lastElement with
      | none => exact ⟨nonces, rfl, nofun, fun _ _ => rfl⟩
      | some tx =>
        refine ⟨_, rfl, fun tx' htx => ?_, fun b hb => get?_insert_of_ne _ _ hb⟩
        rw [← Option.some.inj htx]
        exact get?_insert_self _ _ _
    obtain ⟨t, hrun, ht⟩ := ih nonces' { p with pendingNonce := p.pendingNonce.setAll nonces' }
    refine ⟨t, hstep.trans hrun, fun a n hlast h => ?_⟩
    obtain ⟨hhead, hlast⟩ := List.forall_mem_cons.1 hlast
    refine ht a n hlast ?_
    by_cases hrest : ∃ e ∈ entries, e.1 = a
    · exact .inr hrest
    · refine .inl ((and_self_iff).2 ?_)
      by_cases he : e.1 = a
      · obtain ⟨tx, htx, rfl⟩ := hhead he
        exact he ▸ hself tx htx
      · rw [hother a (Ne.symm he)]
        rcases h with h | ⟨e', he', ha⟩
        · exact h.1
        · rcases List.mem_cons.1 he' with rfl | hmem
          · exact absurd ha he
          · exact absurd ⟨e', hmem, ha⟩ hrest

theorem ahead_demote {txs : List SignedTransaction} :
    Leads (TidyIn Calm (Single txs) []) TidyAhead (demote env) := by
  intro log p h
  obtain ⟨all, pending, queue, beats, l, hrun, hkept, hget, -⟩ :=
    demoteUnexecutable_run (within_shelf Calm _) env h
  obtain ⟨t, hrun', ht⟩ := resetNonces_run (env.iter { p with all, pending, queue, beats } pending) .empty
    { p with all, pending, queue, beats }
  rw [show demote env p = _ from bind_of_run hrun (bind_of_run rfl hrun'), List.nil_append, List.append_nil]
  refine ⟨⟨hkept.1.congr rfl rfl rfl rfl, fun hall => ?_⟩, fun hall => ?_⟩
  · obtain ⟨S, hS, hwithin⟩ := hkept.2 hall
    exact ⟨_, rfl, by simp, fun k t hk => hS.1 (hwithin.pending k t hk),
      fun k t hk => hS.1 (hwithin.queue k t hk)⟩
  · rintro ⟨a, n⟩ tx hk
    obtain ⟨S, hS, hwithin⟩ := hkept.2 hall
    obtain ⟨list, hlist, hn⟩ := Option.bind_eq_some_iff.1 hk
    obtain ⟨hmap, -⟩ := Option.filter_eq_some_iff.1 ((hget a).symm.trans hlist)
    obtain ⟨old, hold, hdemoted⟩ := Option.map_eq_some_iff.1 hmap
    have hslots {m : UInt64} {s : SignedTransaction} (hm : list.txs.get? m = some s) :
        s ∈ S ∧ slot s = (a, m) ∧ ¬ m < (p.currentState a).nonce := by
      have hslot : slotAt pending (a, m) = some s := (slotAt_of_get? hlist m).trans hm
      exact ⟨hwithin.pending _ s hslot, hkept.1.shelved.slot_fst _ s hslot,
        (TxList.get?_survivors (TxList.get?_demoted (hdemoted ▸ hm))).2.1⟩
    have hall {m : UInt64} {s : SignedTransaction} (hm : list.txs.get? m = some s) : s.nonce = n := by
      obtain ⟨hmem, hslot, hfresh⟩ := hslots hm
      obtain ⟨hmem', hslot', hfresh'⟩ := hslots hn
      have hsender : s.sender = a := congrArg Prod.fst hslot
      have hnonce : s.nonce = m := congrArg Prod.snd hslot
      have hnonce' : tx.nonce = n := congrArg Prod.snd hslot'
      refine (hS.2.1 s hmem tx hmem' (hsender.trans (congrArg Prod.fst hslot').symm) ?_ ?_).trans hnonce'
      · rwa [hsender, hnonce]
      · rwa [hsender, hnonce']
    have hbound : tx.nonce < tx.nonce + 1 := hS.1 (hslots hn).1
    rw [hall hn] at hbound
    refine ⟨n + 1, ht a (n + 1) (fun e he ha => ?_) (.inr ⟨(a, list), mem_iter_of_get? hlist, rfl⟩), hbound⟩
    obtain rfl : e.2 = list := Option.some.inj ((mem_iter he).symm.trans (ha ▸ hlist))
    cases hentries : e.2.txs.entries with
    | nil =>
      rw [get?, hentries] at hn
      cases hn
    | cons first rest =>
      refine ⟨first.2, by rw [TxList.lastElement, TxSortedList.lastElement, hentries]; rfl, ?_⟩
      rw [hall (mem_entries_iff.1 (hentries ▸ List.mem_cons_self))]

omit [Crypto] in
theorem mem_listed {k : Address × UInt64} {t : SignedTransaction}
    (h : slotAt p.pending k = some t ∨ slotAt p.queue k = some t) : t ∈ p.listed := by
  have hmem {m : BTreeMap Address TxList} (hk : slotAt m k = some t) : ∃ list ∈ m.values, t ∈ list.flatten := by
    obtain ⟨list, hlist, hn⟩ := Option.bind_eq_some_iff.1 hk
    exact ⟨list, List.mem_map_of_mem (mem_entries_iff.2 hlist),
      List.mem_map_of_mem (mem_entries_iff.2 hn)⟩
  refine List.mem_flatMap.2 (h.elim (fun h => ?_) fun h => ?_)
  · obtain ⟨list, hlist, ht⟩ := hmem h
    exact ⟨list, List.mem_append_left _ hlist, ht⟩
  · obtain ⟨list, hlist, ht⟩ := hmem h
    exact ⟨list, List.mem_append_right _ hlist, ht⟩

theorem single_listed {txs : List SignedTransaction} {state : Address → AccountState}
    (hone : OneEach state {t | t ∈ p.listed ++ txs}) (h : Within bounded [] p) :
    ∃ S, Single txs state S ∧ Within S [] p := by
  refine ⟨{t | t ∈ p.listed ++ txs} ∩ bounded, ⟨Set.inter_subset_right, fun t ht t' ht' => hone t ht.1 t' ht'.1,
    fun t ht hb => ⟨List.mem_append_right _ ht, hb⟩⟩, by simp, fun k t hk => ?_, fun k t hk => ?_⟩
  · exact ⟨List.mem_append_left _ (mem_listed (.inl hk)), h.pending k t hk⟩
  · exact ⟨List.mem_append_left _ (mem_listed (.inr hk)), h.queue k t hk⟩

theorem ahead_rule : ResetRule OneLeft TidyAhead fun txs => TidyIn Calm (Single txs) where
  start {_ _ _ p} hready hnone h := by
    refine ⟨h.1.1, fun hall => ?_⟩
    obtain ⟨_, rfl, hS⟩ := h.1.2 hall
    refine single_listed ?_ hS
    rw [List.append_nil]
    exact hready.stays hnone
  head {_ _ _ p _ _} hready hsome hstate h := by
    refine ⟨h.1.1.congr rfl rfl rfl rfl, fun hall => ?_⟩
    obtain ⟨_, rfl, hS⟩ := h.1.2.before hall
    obtain ⟨S, hsingle, hS⟩ := single_listed (hready.moves _ _ hsome hstate) hS
    exact ⟨S, hsingle, hS.out, hS.pending, hS.queue⟩
  shelf txs := (within_shelf Calm (Single txs)).toQueueShelf
  readd htx := tidyIn_add false fun henter hS => hS.2.2 _ htx (show _ < _ from of_decide_eq_true henter)
  demote := ahead_demote
  add env tx asLocal log p h := by
    refine ⟨tidyIn_add asLocal (fun henter hS => ?_) log p h.1, (ahead_add tx).add asLocal h.1.1 log h.2⟩
    rw [hS]
    exact show tx.nonce < tx.nonce + 1 from of_decide_eq_true henter
  promote _ a := ahead_promote a
  cap a := ahead_cap a
  finish _ events := ahead_finish events
  events _ h := ⟨h.1.congr rfl rfl rfl rfl rfl, h.2⟩
  nonce {_ p} a h := by
    refine ⟨h.1.congr rfl rfl rfl rfl rfl, fun hall => ?_⟩
    refine (h.2 hall).of_others (fun _ _ => rfl) (fun b hb => get?_insert_of_ne _ _ hb) fun n t hk => ?_
    obtain ⟨v, hv, hn⟩ := h.2 hall (a, n) t hk
    refine ⟨_, get?_insert_self _ _ _, lt_of_lt_of_le hn ?_⟩
    rw [nextNonce, TxNoncer.nonce_of_get? hv]
    exact le_max_right _ _
  moved accounts h := by
    refine ⟨⟨h.1.1.congr rfl rfl rfl rfl, fun hall => ?_⟩, fun hall => h.2.before hall⟩
    obtain ⟨S, rfl, hS⟩ := h.1.2.before hall
    exact ⟨_, rfl, hS.out, hS.pending, hS.queue⟩

/-- The nonce that `TxPool::nonce` gives for an account is not stale and above its pending ones. -/
def NonceFree (p : TxPool) : Prop :=
  ∀ a, ∃ n p', nonce a p = ⟨.ok n, p', []⟩ ∧ (p.currentState a).nonce ≤ n ∧
    ∀ m t, slotAt p.pending (a, m) = some t → m < n

omit [Crypto] in
theorem Ahead.nonceFree (h : Ahead p) : NonceFree p := by
  refine fun a => ⟨_, _, nonce_run a p, le_max_left _ _, fun m t hk => ?_⟩
  obtain ⟨v, hv, hn⟩ := h (a, m) t hk
  refine lt_of_lt_of_le hn ?_
  rw [nextNonce, TxNoncer.nonce_of_get? hv]
  exact le_max_right _ _

/-- **The suggested nonce is free**, after every run of calls that return, if truncation and new heads
find at most one pending transaction for each account. -/
theorem nonceFree_of_run (conf : Option TxPoolConfig) (accounts : Option (List Address))
    (state : Address → AccountState) (calls : List (Env × Call))
    (hok : (run calls (TxPool.new conf accounts state)).res = .ok ())
    (hcalm : ∀ e ∈ (run calls (TxPool.new conf accounts state)).log, calm e = true)
    (hready : ReadyAll OneLeft calls (TxPool.new conf accounts state)) :
    NonceFree (run calls (TxPool.new conf accounts state)).state := by
  have hnew : TidyAhead [] (TxPool.new conf accounts state) :=
    ⟨⟨tidy_new conf accounts state, fun _ => ⟨_, rfl, by simp, nofun, nofun⟩⟩, fun _ => nofun⟩
  exact ((ahead_rule.run hready hnew hok).2 hcalm).nonceFree

end Run

open Sample

/-- An account sends a transaction, a new head comes, and it sends the next one. -/
def paced : List (Env × Call) :=
  [(env, .addRemotes [pay 1 9 1 1 10]), (env, move),
    (env, .addRemotes [pay 1 9 2 1 10])]

theorem nonceFree_of_run_paced :
    (run paced (pool 4)).res = .ok () ∧ (∀ e ∈ (run paced (pool 4)).log, calm e = true) ∧
      ReadyAll OneLeft paced (pool 4) ∧ NonceFree (run paced (pool 4)).state := by
  have hok : (run paced (pool 4)).res = .ok () := by decide +kernel
  have hcalm : ∀ e ∈ (run paced (pool 4)).log, calm e = true := by decide +kernel
  have hready : ReadyAll OneLeft paced (pool 4) := by
    refine ⟨by simp, fun _ _ hr => ?_, by simp, trivial⟩
    have hlisted : (exec env (.addRemotes [pay 1 9 1 1 10]) (pool 4)).state.listed =
      [pay 1 9 1 1 10] := by decide +kernel
    cases hr
    constructor
    · intro hnone
      cases hnone
    · intro txs state hsome hstate
      cases hsome
      rw [hlisted]
      simp [OneEach]
  exact ⟨hok, hcalm, hready, nonceFree_of_run _ _ _ paced hok hcalm hready⟩

/-- An account with two transactions, and a new head. -/
def raced : List (Env × Call) :=
  [({ env with getStateAt := fun _ => .ok rich },
    .addRemotes [pay 1 9 1 1 10, pay 1 9 2 1 10]),
   ({ env with getStateAt := fun _ => .ok rich }, move)]

/-- **After a new head the nonce of a pending transaction is suggested.** -/
theorem run_suggests_taken_nonce :
    (run raced (pool 4)).res = .ok () ∧ ¬ NonceFree (run raced (pool 4)).state := by
  refine ⟨by decide +kernel, fun hfree => ?_⟩
  obtain ⟨n, p', hn, -, hlt⟩ := hfree (pay 1 9 1 1 10).sender
  have hsuggest : (nonce (pay 1 9 1 1 10).sender (run raced (pool 4)).state).res = .ok 2 := by
    decide +kernel
  rw [hn] at hsuggest
  obtain rfl := Except.ok.inj hsuggest
  exact absurd (hlt 2 (pay 1 9 2 1 10) (by decide +kernel)) (by decide)

end Uchain.TxPool
