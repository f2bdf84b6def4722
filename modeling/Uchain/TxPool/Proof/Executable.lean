import Uchain.TxPool.Proof.Heads
import Uchain.TxPool.Sample

/-!
# Pending transactions are executable

`PendingExecutable p`: the pending nonces of every account are consecutive and start at the nonce of
the account. It holds after every run of calls that return in which the actions are `Gapless`
(`pendingExecutable_of_run`): a promoted transaction continues its list, an evicted pending one is
the last of its list, no list of several transactions is capped from below, and the live state of
the chain does not move under a pending list.

The source meets none of these by itself. `TxSortedList::ready` promotes every transaction from the
start on, with or without a gap (`run_promotes_over_gap`).
-/

namespace Uchain.TxPool

open Lib Exec

/-- Every pending list is an interval of nonces; under `fixed` it starts at the nonce of the
account. -/
def Rows (fixed : Prop) (p : TxPool) : Prop :=
  ∀ a list, p.pending.get? a = some list → Row fixed (p.currentState a) list

def pendingList (p : TxPool) (a : Address) : TxList := (p.pending.get? a).getD (TxList.new true)

section Rows

variable {fixed : Prop} {p p' : TxPool} {a : Address} {list : TxList}

theorem Rows.pendingList (h : Rows fixed p) (a : Address) :
    Row fixed (p.currentState a) (p.pendingList a) := by
  unfold TxPool.pendingList
  cases hlist : p.pending.get? a with
  | none => exact Row.new _ _
  | some list => exact h a list hlist

theorem Rows.insert (h : Rows fixed p) (hrow : Row fixed (p.currentState a) list)
    (hpending : p'.pending = p.pending.insert a list) (hstate : p'.currentState = p.currentState) :
    Rows fixed p' := by
  intro b l hb
  rw [hpending, BTreeMap.get?_insert] at hb
  rw [hstate]
  split at hb
  · rename_i hba
    rw [← Option.some.inj hb, hba]
    exact hrow
  · exact h b l hb

end Rows

/-! ## The condition on actions -/

/-- The action leaves no gap in a pending list. -/
def Gapless [Crypto] (e : Action × TxPool) : Prop :=
  match e.1 with
  | .promote a tx => Row.Continues (e.2.currentState a) (e.2.pendingList a) tx
  | .drop cause tx => cause = .discarded ∨ cause = .truncated →
    ((e.2.pendingList tx.sender).txs.get? tx.nonce).isSome = true →
      ∀ entry ∈ (e.2.pendingList tx.sender).txs.entries, entry.1 ≤ tx.nonce
  | .cap a => e.2.pendingLen a ≤ 1
  | .moved accounts => ∀ entry ∈ e.2.pending.entries, entry.2.isEmpty = true ∨
    (accounts entry.1).nonce = (e.2.currentState entry.1).nonce
  | _ => True

instance [Crypto] : DecidablePred Gapless := fun e =>
  match e with
  | (.promote a tx, p) =>
    inferInstanceAs (Decidable (Row.Continues (p.currentState a) (p.pendingList a) tx))
  | (.drop cause tx, p) => inferInstanceAs (Decidable (cause = .discarded ∨ cause = .truncated →
      ((p.pendingList tx.sender).txs.get? tx.nonce).isSome = true →
        ∀ entry ∈ (p.pendingList tx.sender).txs.entries, entry.1 ≤ tx.nonce))
  | (.cap a, p) => inferInstanceAs (Decidable (p.pendingLen a ≤ 1))
  | (.moved accounts, p) => inferInstanceAs (Decidable (∀ entry ∈ p.pending.entries,
      entry.2.isEmpty = true ∨ (accounts entry.1).nonce = (p.currentState entry.1).nonce))
  | (.enter _ _, _) | (.accept _ _, _) | (.reinject _, _) | (.send _, _) => isTrue trivial

/-! ## What keeps rows -/

section Runs

variable [Crypto] {fixed : Prop} {log : History} {p p' : TxPool} {tx : SignedTransaction} {env : Env}

/-- The pending lists are rows, as long as every action is gapless. -/
abbrev RowsUnder (fixed : Prop) : History → TxPool → Prop := Under {e | Gapless e} fun _ => Rows fixed

abbrev TidyRows (fixed : Prop) (out : List SignedTransaction) (log : History) (p : TxPool) : Prop :=
  Tidy out p ∧ RowsUnder fixed log p

theorem rows_shelf (fixed : Prop) : QueueShelf (TidyRows fixed) where
  tidy h := h.1
  take_queue list' h hlist hsplit hstrict := ⟨h.1.take_queue list' hlist hsplit hstrict, h.2⟩
  place_queue env q h := ⟨Tidy.place_queue env h.1 q, h.2⟩
  place_pending {tx _ _ _} beat h := by
    refine ⟨h.1.place_pending beat, fun hall => ?_⟩
    have hr := h.2.before hall
    have hcont := hall _ (List.mem_append_right _ (List.mem_singleton_self _))
    exact hr.insert ((hr.pendingList tx.sender).put hcont) rfl rfl
  forget h _ := ⟨h.1.forget, fun hall => h.2.before hall⟩
  books _ _ _ h := ⟨h.1.congr rfl rfl rfl rfl, h.2⟩
  vacate h hlist hempty := ⟨h.1.vacate hlist hempty, h.2⟩

theorem Evicts.rows (h : Evicts p tx p') (hr : Rows fixed p)
    (hlast : ((p.pendingList tx.sender).txs.get? tx.nonce).isSome = true →
      ∀ entry ∈ (p.pendingList tx.sender).txs.entries, entry.1 ≤ tx.nonce) : Rows fixed p' := by
  have hrow {list : TxList} (hlist : p.pending.get? tx.sender = some list) :
      Row fixed (p.currentState tx.sender) (list.remove tx).list := by
    have hsame : p.pendingList tx.sender = list := by rw [pendingList, hlist, Option.getD_some]
    rw [hsame] at hlast
    refine (hr _ list hlist).remove fun hmem n hn => ?_
    obtain ⟨t, ht⟩ := Option.isSome_iff_exists.1 hn
    exact hlast hmem (n, t) (BTreeMap.mem_entries_iff.2 ht)
  cases h with
  | pending list priced hlist hslot =>
    have hmem : list.txs.get? tx.nonce = some tx := (slotAt_of_get? hlist _).symm.trans hslot
    have hrest := hrow hlist
    rw [TxList.remove_of_mem (by rw [hmem]; rfl)] at hrest
    exact hr.insert hrest rfl rfl
  | queued future priced hlist hfuture hslot => exact hr
  | both list priced pending queue beats hlist hslot hmoves =>
    intro b list' hlist'
    by_cases hb : b = tx.sender
    · subst hb
      obtain ⟨list, hlist, rfl⟩ := hmoves.rest list' hlist'
      exact hrow hlist
    · exact hr b list' ((hmoves.others b hb).1 ▸ hlist')

theorem rows_evicts (fixed : Prop) : EvictRule fun _ => RowsUnder fixed where
  gone h := h
  evicts _ h _ hevicts _ hcause hall := hevicts.rows (h.before hall)
    (hall _ (List.mem_append_right _ (List.mem_singleton_self _)) hcause)

theorem rows_place (fixed : Prop) (tx : SignedTransaction) : AddRule tx fun _ => RowsUnder fixed where
  toEvictRule := rows_evicts fixed
  discard _ _ h := h
  pending {_ p _ _} hp hslot _ h hall := by
    have hr := h.before hall
    refine Rows.insert (p := p) hr ((hr.pendingList tx.sender).put (.inl ?_)) rfl rfl
    exact Option.isSome_iff_ne_none.2 ((slotAt_getD p.pending tx.sender true tx.nonce).symm ▸ hslot)
  queue _ _ _ _ h hall := by
    unfold welcomed
    rw [localize_run]
    split <;> exact h.before hall

theorem rows_add (fixed : Prop) (tx : SignedTransaction) (asLocal : Bool) :
    Maintains (TidyRows fixed []) (add env tx asLocal) := fun log p h =>
  ⟨tidy_add asLocal p h.1, (rows_place fixed tx).add asLocal h.1 log h.2⟩

theorem rows_truncatePending : Maintains (TidyRows fixed []) (truncatePending env) := by
  refine maintains_truncatePending fun a list log p h hlist hlocal => ?_
  obtain ⟨_, _, l, hrun, -, -, hkept⟩ := capFirst_run a list p
  rw [hrun]
  refine ⟨hkept tidy_shelf (show TidyAt [] log p from h.1) hlist hlocal, fun hall => ?_⟩
  have hr := h.2.before hall
  have hlen : p.pendingLen a ≤ 1 := hall (.cap a, p) (List.mem_append_right _ List.mem_cons_self)
  rw [pendingLen, hlist] at hlen
  exact hr.insert ((hr a list hlist).capFirst hlen) rfl rfl

/-- Each list that was demoted starts at the nonce of its account. -/
theorem rows_demote : Leads (TidyRows False []) (TidyRows True []) (demote env) := by
  refine Leads.bind (fun log p h => ?_) fun _ => leads_get_bind fun _ =>
    maintains_resetNonces (fun _ _ _ h => ⟨h.1.congr rfl rfl rfl rfl, h.2⟩) _ _
  obtain ⟨_, _, _, _, l, hrun, hkept, hget, -⟩ :=
    demoteUnexecutable_run tidy_shelf env (show TidyAt [] log p from h.1)
  rw [hrun]
  refine ⟨hkept, fun hall a list hlist => ?_⟩
  obtain ⟨hmap, -⟩ := Option.filter_eq_some_iff.1 ((hget a).symm.trans hlist)
  obtain ⟨old, hold, rfl⟩ := Option.map_eq_some_iff.1 hmap
  exact Row.demote (h.2.before hall a old hold)

theorem rows_rule : ResetRule (fun _ _ _ => True) (TidyRows True []) fun _ => TidyRows False where
  start _ _ h := ⟨h.1, fun hall a list hlist => (h.2 hall a list hlist).mono False.elim⟩
  head _ _ _ h := by
    refine ⟨h.1.congr rfl rfl rfl rfl, fun hall a list hlist => ?_⟩
    have hrow := h.2.before hall a list hlist
    obtain ⟨s, e, -, hspans⟩ := hrow.spans
    exact ⟨hrow.strict, hrow.keyed, s, e, False.elim, hspans⟩
  shelf _ := rows_shelf False
  readd _ := rows_add False _ false
  demote := rows_demote
  add _ tx asLocal := rows_add True tx asLocal
  promote _ a := ((rows_shelf True).promoteAccount a).maintains
  cap a := ((rows_shelf True).capAccount a).maintains
  finish env events := maintains_finish rows_truncatePending
    ((rows_evicts True).truncateQueue (fun _ h _ _ => h) env)
    (fun _ _ h => ⟨h.1.congr rfl rfl rfl rfl, h.2⟩)
    (fun _ _ _ h => ⟨h.1, fun hall => h.2.before hall⟩) events
  events _ h := ⟨h.1.congr rfl rfl rfl rfl, h.2⟩
  nonce _ h := ⟨h.1.congr rfl rfl rfl rfl, h.2⟩
  moved accounts h := by
    refine ⟨h.1.congr rfl rfl rfl rfl, fun hall a list hlist => ?_⟩
    have hrow := h.2.before hall a list hlist
    rcases hall _ (List.mem_append_right _ (List.mem_singleton_self _)) (a, list)
      (BTreeMap.mem_entries_iff.2 hlist) with hempty | hnonce
    · exact Row.of_empty hrow.strict fun n => list.get?_of_isEmpty hempty n
    · exact hrow.congr hnonce

/-- The nonces of every pending list are consecutive and start at the nonce of the account. -/
def PendingExecutable (p : TxPool) : Prop :=
  ∀ a list, p.pending.get? a = some list → ∃ k, ∀ n : UInt64, list.txs.contains n = true ↔
    (p.currentState a).nonce.toNat ≤ n.toNat ∧ n.toNat < (p.currentState a).nonce.toNat + k

omit [Crypto] in
theorem Rows.pendingExecutable (hr : Rows True p) : PendingExecutable p := by
  intro a list hlist
  obtain ⟨s, e, hs, hspans⟩ := (hr a list hlist).spans
  have hs := hs trivial
  refine ⟨e - s, fun n => (hspans n).trans ?_⟩
  omega

/-- **Pending means executable**, after every run of calls that return in which no action leaves a
gap. -/
theorem pendingExecutable_of_run (conf : Option TxPoolConfig) (accounts : Option (List Address))
    (state : Address → AccountState) (calls : List (Env × Call))
    (hok : (run calls (TxPool.new conf accounts state)).res = .ok ())
    (hrun : ∀ e ∈ (run calls (TxPool.new conf accounts state)).log, Gapless e) :
    PendingExecutable (run calls (TxPool.new conf accounts state)).state := by
  have hnew : TidyRows True [] [] (TxPool.new conf accounts state) :=
    ⟨tidy_new conf accounts state, fun _ a list hlist => by cases hlist⟩
  exact Rows.pendingExecutable ((rows_rule.run (readyAll_of_forall (fun _ _ _ => trivial) _ _) hnew hok).2 hrun)

end Runs

open Sample

theorem pendingExecutable_of_run_crowd :
    (run crowd (pool 4)).res = .ok () ∧
      (∀ e ∈ (run crowd (pool 4)).log, Gapless e) ∧
      PendingExecutable (run crowd (pool 4)).state := by
  have hok : (run crowd (pool 4)).res = .ok () := by decide +kernel
  have hrun : ∀ e ∈ (run crowd (pool 4)).log, Gapless e := by decide +kernel
  exact ⟨hok, hrun, pendingExecutable_of_run _ _ _ crowd hok hrun⟩

/-- One transaction with the nonce `5` of an account with the nonce `1`. -/
def gapCalls : List (Env × Call) := [(env, .addRemotes [pay 1 9 5 1 10])]

/-- **A pending transaction beyond a gap.** -/
theorem run_promotes_over_gap :
    (run gapCalls (pool 4)).res = .ok () ∧
      ¬ PendingExecutable (run gapCalls (pool 4)).state := by
  refine ⟨by decide +kernel, fun hexec => ?_⟩
  obtain ⟨list, hlist, hnonce, hfive, hone⟩ :
      ∃ list, (run gapCalls (pool 4)).state.pending.get? (pay 1 9 5 1 10).sender =
          some list ∧ ((run gapCalls (pool 4)).state.currentState
            (pay 1 9 5 1 10).sender).nonce = 1 ∧
        list.txs.contains 5 = true ∧ list.txs.contains 1 = false :=
    ⟨pendingList (run gapCalls (pool 4)).state (pay 1 9 5 1 10).sender,
      by decide +kernel⟩
  obtain ⟨k, hk⟩ := hexec _ list hlist
  rw [hnonce] at hk
  have h5 := (hk 5).1 hfive
  have h1 := (hk 1).2 ⟨Nat.le_refl _, by have := h5.2; simp at this ⊢; omega⟩
  rw [hone] at h1
  cases h1

end Uchain.TxPool
