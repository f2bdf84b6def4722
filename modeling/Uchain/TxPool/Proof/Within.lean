import Uchain.TxPool.Proof.Moves

/-!
# Pools within a set of transactions

`Within S out p`: every transaction that is listed in the pool, or that is `out`, is in `S`. Moves and
evictions keep this, and a new transaction does if it is in `S`. As none of them touches the state of the
accounts, the set may depend on it (`Admits`).
-/

namespace Uchain.TxPool

open Lib Exec

/-- The transactions of the lists are in `S`. -/
def Lists (S : Set SignedTransaction) (m : BTreeMap Address TxList) : Prop :=
  ∀ k t, slotAt m k = some t → t ∈ S

structure Within (S : Set SignedTransaction) (out : List SignedTransaction) (p : TxPool) : Prop where
  out : ∀ t ∈ out, t ∈ S
  pending : Lists S p.pending
  queue : Lists S p.queue

/-- The pool is within a set that `G` admits for the state of its accounts. -/
def Admits (G : (Address → AccountState) → Set SignedTransaction → Prop) (out : List SignedTransaction)
    (_ : History) (p : TxPool) : Prop := ∃ S, G p.currentState S ∧ Within S out p

section Within

variable [Crypto] {S : Set SignedTransaction} {m : BTreeMap Address TxList} {tx : SignedTransaction}
  {out out' ts : List SignedTransaction} {a : Address} {list list' : TxList} {log log' : History}
  {p p' : TxPool} {C : Set (Action × TxPool)} {G : (Address → AccountState) → Set SignedTransaction → Prop}

theorem Lists.put (h : Lists S m) (htx : tx ∈ S) (strict : Bool) :
    Lists S (m.insert tx.sender (putIn m strict tx)) := by
  intro k t hk
  rw [slotAt_putIn, Function.update_apply] at hk
  split at hk
  · exact Option.some.inj hk ▸ htx
  · exact h k t hk

theorem Lists.take (h : Lists S m) (hm : ∀ k t, slotAt m k = some t → slot t = k)
    (hlist : m.get? a = some list) (hsplit : Split list.txs ts list'.txs) :
    (∀ t ∈ ts, t ∈ S) ∧ Lists S (m.insert a list') := by
  obtain ⟨hsub, hts, -⟩ := slots_of_split hm hlist hsplit
  refine ⟨fun t ht => h _ t ((hts t).1 ht).1, fun k t hk => ?_⟩
  rcases hsub k with heq | hnone
  · exact h k t (heq ▸ hk)
  · rw [hnone] at hk
    cases hk

omit [Crypto] in
theorem Admits.imp (h : Under C (Admits G out) log p) (hlog : log ⊆ log')
    (hstate : p'.currentState = p.currentState) (hkeep : ∀ S, Within S out p → Within S out' p') :
    Under C (Admits G out') log' p' := by
  intro hall
  obtain ⟨S, hG, hS⟩ := h fun e he => hall e (hlog he)
  exact ⟨S, hstate ▸ hG, hkeep S hS⟩

abbrev TidyIn (C : Set (Action × TxPool)) (G : (Address → AccountState) → Set SignedTransaction → Prop)
    (out : List SignedTransaction) (log : History) (p : TxPool) : Prop :=
  Tidy out p ∧ Under C (Admits G out) log p

theorem TidyIn.congr (h : TidyIn C G out log p) (hpending : p'.pending = p.pending)
    (hqueue : p'.queue = p.queue) (hall : p'.all = p.all) (hbeats : p'.beats = p.beats)
    (hstate : p'.currentState = p.currentState) : TidyIn C G out log p' :=
  ⟨h.1.congr hpending hqueue hall hbeats, Admits.imp h.2 (List.Subset.refl _) hstate fun _ hS =>
    ⟨hS.out, hpending ▸ hS.pending, hqueue ▸ hS.queue⟩⟩

theorem within_shelf (C : Set (Action × TxPool))
    (G : (Address → AccountState) → Set SignedTransaction → Prop) : Shelf (TidyIn C G) where
  tidy h := h.1
  perm h hperm := ⟨h.1.perm hperm, Admits.imp h.2 (List.Subset.refl _) rfl fun _ hS =>
    ⟨fun t ht => hS.out t (hperm.mem_iff.2 ht), hS.pending, hS.queue⟩⟩
  take_queue list' h hlist hsplit hstrict := by
    refine ⟨h.1.take_queue list' hlist hsplit hstrict, Admits.imp h.2 (List.Subset.refl _) rfl fun S hS => ?_⟩
    obtain ⟨hts, hqueue⟩ := hS.queue.take h.1.shelved.slot_snd hlist hsplit
    exact ⟨List.forall_mem_append.2 ⟨hts, hS.out⟩, hS.pending, hqueue⟩
  take_pending list' h hlist hsplit hstrict := by
    refine ⟨h.1.take_pending list' hlist hsplit hstrict, Admits.imp h.2 (List.Subset.refl _) rfl fun S hS => ?_⟩
    obtain ⟨hts, hpending⟩ := hS.pending.take h.1.shelved.slot_fst hlist hsplit
    exact ⟨List.forall_mem_append.2 ⟨hts, hS.out⟩, hpending, hS.queue⟩
  place_queue env q h := by
    refine ⟨Tidy.place_queue env h.1 q, Admits.imp h.2 (List.Subset.refl _) rfl fun S hS => ?_⟩
    obtain ⟨htx, hout⟩ := List.forall_mem_cons.1 hS.out
    exact ⟨hout, hS.pending, hS.queue.put htx false⟩
  place_pending beat h := by
    refine ⟨h.1.place_pending beat, Admits.imp h.2 (List.subset_append_left _ _) rfl fun S hS => ?_⟩
    obtain ⟨htx, hout⟩ := List.forall_mem_cons.1 hS.out
    exact ⟨hout, hS.pending.put htx true, hS.queue⟩
  forget h _ := ⟨h.1.forget, Admits.imp h.2 (List.subset_append_left _ _) rfl fun _ hS =>
    ⟨(List.forall_mem_cons.1 hS.out).2, hS.pending, hS.queue⟩⟩
  books _ _ _ h := h.congr rfl rfl rfl rfl rfl
  cap _ h := ⟨h.1, Admits.imp h.2 (List.subset_append_left _ _) rfl fun _ hS => hS⟩
  vacate h hlist hempty := by
    refine ⟨h.1.vacate hlist hempty, Admits.imp h.2 (List.Subset.refl _) rfl fun S hS => ⟨hS.out, hS.pending, ?_⟩⟩
    unfold Lists
    rw [slotAt_erase_of_isEmpty hlist hempty]
    exact hS.queue
  sweep {_ _ p} h := by
    refine ⟨h.1.sweep, Admits.imp h.2 (List.Subset.refl _) rfl fun S hS => ⟨hS.out, ?_, hS.queue⟩⟩
    unfold Lists
    rw [slotAt_filter_isEmpty p.pending]
    exact hS.pending

theorem Evicts.within (h : Evicts p tx p') (ht : Tidy [] p) (hS : Within S [] p) : Within S [] p' := by
  have hocc {k t} (hk : p'.occupant k = some t) : t ∈ S := by
    rcases h.occupant ht k with heq | ⟨hnone, -⟩
    · rcases Option.or_eq_some_iff.1 (heq ▸ hk) with hp | ⟨-, hq⟩
      · exact hS.pending k t hp
      · exact hS.queue k t hq
    · rw [hnone] at hk
      cases hk
  refine ⟨by simp, fun k t hk => hocc (k := k) (Option.or_eq_some_iff.2 (.inl hk)), fun k t hk => hocc (k := k) ?_⟩
  have hnone := ((h.tidy ht).shelved.apart k).resolve_right (by simp [hk])
  exact Option.or_eq_some_iff.2 (.inr ⟨hnone, hk⟩)

theorem within_evicts (C : Set (Action × TxPool))
    (G : (Address → AccountState) → Set SignedTransaction → Prop) : EvictRule fun _ => Under C (Admits G []) where
  gone h := h
  evicts ht h _ hevicts _ _ := Admits.imp h (List.subset_append_left _ _) hevicts.currentState fun _ hS =>
    hevicts.within ht hS

/-- A new transaction has to be in every set that is admitted. -/
theorem within_add (htx : ∀ {state S isLocal q}, (.enter tx isLocal, q) ∈ C → G state S → tx ∈ S) :
    AddRule tx fun _ => Under C (Admits G []) where
  toEvictRule := within_evicts C G
  discard _ _ h := Admits.imp h (List.Subset.refl _) rfl fun _ hS => ⟨hS.out, hS.pending, hS.queue⟩
  pending _ _ _ h hall := by
    obtain ⟨S, hG, hS⟩ := h.before hall
    have hmem := htx (hall _ (List.mem_append_right _ (List.mem_append_left _ mem_enterEvents))) hG
    exact ⟨S, hG, by simp, hS.pending.put hmem true, hS.queue⟩
  queue env _ _ _ h hall := by
    obtain ⟨S, hG, hS⟩ := h.before hall
    have hmem := htx (hall _ (List.mem_append_right _ (List.mem_append_left _ mem_enterEvents))) hG
    unfold welcomed
    rw [localize_run]
    split <;> exact ⟨S, hG, by simp, hS.pending, hS.queue.put hmem false⟩

theorem tidyIn_add {env : Env} (asLocal : Bool)
    (htx : ∀ {state S isLocal q}, (.enter tx isLocal, q) ∈ C → G state S → tx ∈ S) :
    Maintains (TidyIn C G []) (add env tx asLocal) := fun log p h =>
  ⟨tidy_add asLocal p h.1, (within_add htx).add asLocal h.1 log h.2⟩

end Within

end Uchain.TxPool
