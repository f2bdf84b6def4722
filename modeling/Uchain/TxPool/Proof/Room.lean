import Uchain.TxPool.Proof.Slots

/-!
# Room for a remote transaction

When a new transaction does not fit, `add` asks `discard` for room, with the number of slots that are
missing. The difference `slots - limit` underflows if the pool is not full yet (a transaction with more
than one slot), and `discard` takes the number for the length of what it *keeps*: it returns nothing if
the priced list is not longer.
-/

namespace Uchain

open Lib Function

namespace TxLookup

variable [Crypto] {t : TxLookup}

/-- Every transaction is at its own hash. -/
def Keyed (t : TxLookup) : Prop := ∀ h tx, t.get h = some tx → tx.hash = h

def slotsOf (t : TxLookup) (hashes : List H256) : Nat :=
  ((t.txs.filter fun tx => decide (tx.hash ∈ hashes)).map fun tx => (numSlots tx).toNat).sum

theorem Keyed.remove (hk : t.Keyed) (h : H256) : (t.remove h).Keyed := by
  intro h' tx hget
  rw [get_remove] at hget
  by_cases hh : h' = h
  · rw [hh, update_self] at hget
    cases hget
  · rw [update_of_ne hh] at hget
    exact hk h' tx hget

omit [Crypto] in
theorem get_of_mem_txs (hd : t.Disjoint) {tx : SignedTransaction} (hmem : tx ∈ t.txs) :
    ∃ h, t.get h = some tx := by
  rcases List.mem_append.1 hmem with hl | hr
  · obtain ⟨h, hget⟩ := BTreeMap.mem_values_iff.1 hl
    exact ⟨h, get_of_local hget⟩
  · obtain ⟨h, hget⟩ := BTreeMap.mem_values_iff.1 hr
    refine ⟨h, ?_⟩
    rw [get, (hd h).resolve_right (by rw [hget]; exact Option.some_ne_none tx)]
    exact hget

theorem hash_ne_of_mem_remove (hd : t.Disjoint) (hk : t.Keyed) {h : H256} {tx : SignedTransaction}
    (hmem : tx ∈ (t.remove h).txs) : tx.hash ≠ h := by
  obtain ⟨h', hget⟩ := get_of_mem_txs (hd.remove h) hmem
  rw [hk.remove h h' tx hget]
  intro heq
  rw [heq, get_remove, update_self] at hget
  cases hget

theorem slotsOf_remove (hd : t.Disjoint) (hk : t.Keyed) (h : H256) (hashes : List H256) :
    t.slotsOf (h :: hashes) + (t.remove h).slotsHeld =
      t.slotsHeld + (t.remove h).slotsOf hashes := by
  have hrest : (t.remove h).txs.filter (fun tx => decide (tx.hash ∈ h :: hashes)) =
      (t.remove h).txs.filter fun tx => decide (tx.hash ∈ hashes) := by
    refine List.filter_congr fun tx hmem => decide_eq_decide.2 ?_
    rw [List.mem_cons, or_iff_right (hash_ne_of_mem_remove hd hk hmem)]
  cases hget : t.get h with
  | none =>
    rw [txs_remove_of_none hget] at hrest ⊢
    unfold slotsOf
    rw [hrest, Nat.add_comm]
  | some tx =>
    have hperm := txs_remove hd hget
    have hin : decide (tx.hash ∈ h :: hashes) = true :=
      decide_eq_true (by rw [hk h tx hget]; exact List.mem_cons_self)
    unfold slotsOf slotsHeld
    rw [((hperm.filter _).map _).sum_nat, (hperm.map _).sum_nat,
      List.filter_cons_of_pos (p := fun tx : SignedTransaction => decide (tx.hash ∈ h :: hashes)) hin, hrest,
      List.map_cons, List.map_cons, List.sum_cons, List.sum_cons]
    omega

theorem get_dropAll_of_none {h : H256} (hget : t.get h = none) (ts : List SignedTransaction) :
    (TxPool.dropAll t ts).get h = none := by
  induction ts generalizing t with
  | nil => exact hget
  | cons tx ts ih =>
    refine ih ?_
    rw [get_remove]
    by_cases hh : h = tx.hash
    · rw [hh, update_self]
    · rw [update_of_ne hh]
      exact hget

theorem Counted.dropAll (hc : t.Counted) (ts : List SignedTransaction) :
    (TxPool.dropAll t ts).Counted := by
  induction ts generalizing t with
  | nil => exact hc
  | cons tx ts ih => exact ih (hc.remove tx.hash)

/-- **The slots after many removals.** -/
theorem slotsOf_dropAll (hd : t.Disjoint) (hk : t.Keyed) (ts : List SignedTransaction) :
    (TxPool.dropAll t ts).slotsHeld + t.slotsOf (ts.map SignedTransaction.hash) = t.slotsHeld := by
  induction ts generalizing t with
  | nil =>
    unfold slotsOf
    simp [TxPool.dropAll]
  | cons tx ts ih =>
    have hstep := slotsOf_remove hd hk tx.hash (ts.map SignedTransaction.hash)
    have hrest := ih (hd.remove tx.hash) (hk.remove tx.hash)
    rw [List.map_cons, show TxPool.dropAll t (tx :: ts) = TxPool.dropAll (t.remove tx.hash) ts from rfl]
    omega

end TxLookup

namespace TxPool

open Exec

section Limit

variable [Crypto] {p : TxPool} {tx : SignedTransaction} {env : Env}

/-- The slots that the pool may use. -/
def limit (p : TxPool) : UInt64 := p.config.globalSlots + p.config.globalQueue

/-- What `add` discards for a new transaction, if it comes so far. -/
def discards (p : TxPool) (tx : SignedTransaction) : List SignedTransaction :=
  if p.all.slots + numSlots tx > p.limit then
    (p.priced.discard (p.all.slots - p.limit + numSlots tx)).1
  else []

/-- `add` comes to the number of slots to free. -/
structure Frees (p : TxPool) (tx : SignedTransaction) : Prop where
  new : ¬ p.all.contains tx.hash = true
  nonce : ¬ (p.currentState tx.sender).nonce > tx.nonce
  funds : ¬ (p.currentState tx.sender).freeBalance < tx.fees + tx.price
  full : p.all.slots + numSlots tx > p.limit
  priced : ¬ (!p.locals.contains tx.sender && p.priced.underpriced tx) = true
  changes : p.changesSinceRepack < (p.config.globalSlots / 4).toUInt32.toInt32

/-- The number `all.slots() - limit + num_slots(tx)` that `add` passes to `discard` underflows. -/
def Underflows (p : TxPool) (tx : SignedTransaction) : Prop := p.Frees tx ∧ p.all.slots < p.limit

/-- The slots of the transactions that leave for `tx`: those discarded, and the one it replaces. -/
def freed (p : TxPool) (tx : SignedTransaction) : Nat :=
  p.all.slotsOf ((p.discards tx ++ (p.occupant (slot tx)).toList).map SignedTransaction.hash)

/-! ## Evictions -/

/-- A pool after the removal of the transactions with the hashes of some others. -/
structure Evicted (ds : List SignedTransaction) (p p' : TxPool) : Prop where
  tidy : Tidy [] p'
  all : p'.all = dropAll p.all ds
  config : p'.config = p.config
  occupant : ∀ k, p'.occupant k = p.occupant k ∨ p'.occupant k = none ∧
    ∃ t, p.occupant k = some t ∧ t.hash ∈ ds.map SignedTransaction.hash

theorem evictAll_run (env : Env) (ds : List SignedTransaction) (ht : Tidy [] p) :
    ∃ p' log, forEach (fun t => removeTx env t.hash false) ds p = ⟨.ok (), p', log⟩ ∧ Evicted ds p p' := by
  induction ds generalizing p with
  | nil => exact ⟨p, [], rfl, ht, rfl, rfl, fun _ => .inl rfl⟩
  | cons d ds ih =>
    obtain ⟨q, log, hrun, htidy, hall, hconfig, hocc⟩ : ∃ q log,
        removeTx env d.hash false p = ⟨.ok (), q, log⟩ ∧ Tidy [] q ∧ q.all = p.all.remove d.hash ∧
        q.config = p.config ∧ ∀ k, q.occupant k = p.occupant k ∨ q.occupant k = none ∧
          ∃ t, p.occupant k = some t ∧ t.hash = d.hash := by
      obtain ⟨q, log, hrun, ⟨rfl, hget⟩ | ⟨t, hget, hevicts⟩⟩ := removeTx_cases env ht d.hash false
      · exact ⟨q, log, hrun, ht, (TxLookup.txs_remove_of_none hget).symm, rfl, fun _ => .inl rfl⟩
      · refine ⟨q, log, hrun, hevicts.tidy ht, ?_, hevicts.config, fun k => ?_⟩
        · rw [hevicts.all, ht.hash_eq hget]
        · exact (hevicts.occupant ht k).imp_right fun h => ⟨h.1, t, h.2, ht.hash_eq hget⟩
    obtain ⟨p', log', hrun', hevicted⟩ := ih htidy
    refine ⟨p', _, bind_of_run hrun hrun', hevicted.tidy, ?_, hevicted.config.trans hconfig, fun k => ?_⟩
    · rw [hevicted.all, hall]
      rfl
    · rw [List.map_cons]
      rcases hevicted.occupant k with hsame | ⟨hnone, t, hk, hmem⟩
      · rw [hsame]
        exact (hocc k).imp_right fun h => ⟨h.1, h.2.imp fun t ht => ⟨ht.1, by simp [ht.2]⟩⟩
      · rcases hocc k with hsame | ⟨hgone, -⟩
        · exact .inr ⟨hnone, t, hsame.symm.trans hk, List.mem_cons_of_mem _ hmem⟩
        · rw [hgone] at hk
          cases hk

/-- **The eviction of `add`**, when it succeeds. -/
theorem makeRoom_ok {isLocal : Bool} {u : Unit} {q : TxPool} {log : History} (ht : Tidy [] p)
    (h : makeRoom env tx isLocal p = ⟨.ok u, q, log⟩) :
    Evicted (p.discards tx) p q ∧ (p.all.slots + numSlots tx > p.limit →
      ¬ (!isLocal && p.priced.underpriced tx) = true ∧
      p.changesSinceRepack < (p.config.globalSlots / 4).toUInt32.toInt32) := by
  unfold makeRoom at h
  rw [get_bind] at h
  unfold discards
  by_cases hfull : p.all.slots + numSlots tx > p.limit
  · rw [if_pos hfull]
    rw [if_pos (show p.all.slots + numSlots tx > p.config.globalSlots + p.config.globalQueue from
      hfull)] at h
    obtain ⟨_, _, _, _, hprice, h, -⟩ := bind_eq_ok h
    obtain ⟨hprice, hp₁⟩ := ensure_eq_ok hprice
    obtain ⟨_, _, _, _, hchanges, h, -⟩ := bind_eq_ok h
    obtain ⟨hchanges, hp₂⟩ := ensure_eq_ok hchanges
    rw [hp₂, hp₁, bind_ok_nil (x := Exec.modify _) rfl] at h
    obtain ⟨p', log', hrun, hevicted⟩ := evictAll_run env _ (p := { p with
      priced := (p.priced.discard (p.all.slots - p.limit + numSlots tx)).2
      changesSinceRepack :=
        .ofNat (p.priced.discard (p.all.slots - p.limit + numSlots tx)).1.length })
      (ht.congr rfl rfl rfl rfl)
    cases h.symm.trans hrun
    exact ⟨⟨hevicted.tidy, hevicted.all, hevicted.config, hevicted.occupant⟩, fun _ => ⟨hprice, hchanges⟩⟩
  · rw [if_neg hfull]
    rw [if_neg (show ¬ p.all.slots + numSlots tx > p.config.globalSlots + p.config.globalQueue from
      hfull)] at h
    cases h
    exact ⟨⟨ht, rfl, rfl, fun _ => .inl rfl⟩, fun hf => absurd hf hfull⟩

/-! ## The lookup after `add` -/

/-- **A transaction takes its place**: the one that was there leaves the lookup. -/
theorem place_ok {isLocal r : Bool} {p' : TxPool} {log : History} (hp : Fresh tx.hash p)
    (h : place env tx isLocal false p = ⟨.ok r, p', log⟩) :
    p'.all = (dropAll p.all (p.occupant (slot tx)).toList).add tx isLocal := by
  have hdrop (q : TxPool) (old : Option SignedTransaction) :
      (q.dropOld old).all = dropAll q.all old.toList := by
    cases old <;> rfl
  unfold occupant
  unfold place at h
  rw [get_bind] at h
  have hfuture (hnone : slotAt p.pending (slot tx) = none)
      (h : addFuture env tx isLocal false p = ⟨.ok r, p', log⟩) :
      p'.all = (dropAll p.all ((slotAt p.pending (slot tx)).or
        (slotAt p.queue (slot tx))).toList).add tx isLocal := by
    rw [hnone, Option.none_or]
    rcases addFuture_cases env tx isLocal false p with ⟨e, hrun⟩ | ⟨r', hrun⟩
    · cases h.symm.trans hrun
    · cases h.symm.trans hrun
      exact congrArg (·.add tx isLocal) (hdrop (p.enqueue tx) _)
  cases hlist : p.pending.get? tx.sender with
  | none =>
    rw [hlist] at h
    exact hfuture (slotAt_of_none hlist _) h
  | some list =>
    rw [hlist] at h
    dsimp only at h
    split at h
    · rename_i ho
      rw [queue_free_of_pending hp.1 (slotAt_of_overlaps hlist ho), Option.or_none]
      rcases replacePending_cases isLocal false hlist with ⟨e, hrun⟩ | ⟨r', hrun⟩
      · cases h.symm.trans hrun
      · cases h.symm.trans hrun
        exact congrArg (·.add tx isLocal) (hdrop (p.pend tx) _)
    · rename_i ho
      exact hfuture (slotAt_of_not_overlaps hlist ho) h

theorem validateTx_eq_ok {u : Unit} {q : TxPool} {log : History} (h : validateTx tx p = ⟨.ok u, q, log⟩) :
    ¬ (p.currentState tx.sender).nonce > tx.nonce ∧
      ¬ (p.currentState tx.sender).freeBalance < tx.fees + tx.price ∧ q = p := by
  unfold validateTx at h
  rw [get_bind] at h
  obtain ⟨_, _, _, _, hnonce, h, -⟩ := bind_eq_ok h
  obtain ⟨hnonce, hp₁⟩ := ensure_eq_ok hnonce
  rw [hp₁] at h
  obtain ⟨hfunds, hq⟩ := ensure_eq_ok h
  exact ⟨hnonce, hfunds, hq⟩

/-- **The lookup after a remote transaction was taken**, and what `add` checked before. -/
theorem add_all {r : Bool} {p' : TxPool} {log : History} (ht : Tidy [] p)
    (h : add env tx false p = ⟨.ok r, p', log⟩) :
    (∃ leaves : List SignedTransaction,
      (∀ hash, hash ∈ leaves.map SignedTransaction.hash ↔
        hash ∈ (p.discards tx ++ (p.occupant (slot tx)).toList).map SignedTransaction.hash) ∧
      (dropAll p.all leaves).get tx.hash = none ∧
      p'.all = (dropAll p.all leaves).add tx (p.locals.contains tx.sender)) ∧
    (p.all.slots + numSlots tx > p.limit → p.Frees tx) := by
  rw [add_eq, get_bind] at h
  obtain ⟨_, _, _, _, hknown, h, -⟩ := bind_eq_ok h
  obtain ⟨hknown, hp₁⟩ := ensure_eq_ok hknown
  obtain ⟨_, _, _, _, hvalid, h, -⟩ := bind_eq_ok h
  rw [hp₁] at hvalid
  obtain ⟨hnonce, hfunds, hp₂⟩ := validateTx_eq_ok hvalid
  rw [hp₂] at h
  obtain ⟨_, q, _, _, hroom, h, -⟩ := bind_eq_ok h
  rw [Bool.false_or] at hroom h
  obtain ⟨hevicted, hchecks⟩ := makeRoom_ok ht hroom
  have hnew : p.all.get tx.hash = none := (fresh_of_not_contains ht hknown).2
  have hgone (ts : List SignedTransaction) : (dropAll p.all ts).get tx.hash = none :=
    TxLookup.get_dropAll_of_none hnew ts
  refine ⟨⟨p.discards tx ++ (q.occupant (slot tx)).toList, fun hash => ?_, hgone _, ?_⟩, fun hfull =>
    ⟨hknown, hnonce, hfunds, hfull, (hchecks hfull).1, (hchecks hfull).2⟩⟩
  · rcases hevicted.occupant (slot tx) with hsame | ⟨hnone, t, hold, hmem⟩
    · rw [hsame]
    · rw [hnone, hold]
      simp only [Option.toList_none, Option.toList_some, List.append_nil, List.map_append, List.map_cons,
        List.map_nil, List.mem_append, List.mem_singleton]
      refine ⟨.inl, fun h => h.elim id fun heq => heq ▸ hmem⟩
  · have hfresh : Fresh tx.hash q := ⟨hevicted.tidy, by rw [hevicted.all]; exact hgone _⟩
    rw [place_ok hfresh h, hevicted.all]
    unfold dropAll
    rw [List.foldl_append]

/-! ## The limit -/

theorem slotsOf_congr (t : TxLookup) {hashes hashes' : List H256} (h : ∀ x, x ∈ hashes ↔ x ∈ hashes') :
    t.slotsOf hashes = t.slotsOf hashes' := by
  unfold TxLookup.slotsOf
  simp only [h]

/-- **When a remote transaction respects the limit of the pool**: it does exactly if it fits, or if the
pool is at its limit and at least as many slots leave as it takes. Where it does, the number of slots
to free does not underflow, whatever the call returns. -/
theorem remote_add_in_limit_iff (conf : Option TxPoolConfig) (accounts : Option (List Address))
    (state : Address → AccountState) (calls : List (Env × Call)) (env : Env) (tx : SignedTransaction)
    (p : TxPool) (hp : p = (run calls (TxPool.new conf accounts state)).state)
    (hfits : p.all.bytesHeld + Wire.signedTransaction.encodedLen tx < 2 ^ 64) :
    (∀ r p' log, add env tx false p = ⟨.ok r, p', log⟩ →
      (((p'.all.slots ≤ p.limit ∨ p'.all.slots ≤ p.all.slots) ∧ ¬ p.Underflows tx) ↔
        p.all.slots + numSlots tx ≤ p.limit ∨
          p.limit ≤ p.all.slots ∧ (numSlots tx).toNat ≤ p.freed tx)) ∧
    (p.all.slots + numSlots tx ≤ p.limit ∨ p.limit ≤ p.all.slots → ¬ p.Underflows tx) := by
  have ht : Tidy [] p := hp ▸ tidy_of_run conf accounts state calls
  have hc : p.all.Counted := by
    rw [hp]
    exact (steady_of_run conf accounts state calls counted_rule TxLookup.counted_new).2.2.1
  have hslots : p.all.slots.toNat = p.all.slotsHeld := hc.toNat_slots (by omega)
  have hnum := TxLookup.numSlots_le tx
  have hheld := p.all.slotsHeld_le_bytesHeld
  have hsum : (p.all.slots + numSlots tx).toNat = p.all.slotsHeld + (numSlots tx).toNat := by
    rw [UInt64.toNat_add, hslots, Nat.mod_eq_of_lt (by omega)]
  refine ⟨fun r p' log hok => ?_, fun hfit hunder => ?_⟩
  · obtain ⟨⟨leaves, hleaves, hgone, hall⟩, hfrees⟩ := add_all ht hok
    have hfreed : p.freed tx = p.all.slotsOf (leaves.map SignedTransaction.hash) :=
      slotsOf_congr _ fun hash => (hleaves hash).symm
    have hdropped := TxLookup.slotsOf_dropAll hc.disjoint (fun h t hget => ht.hash_eq hget) leaves
    have hafter : p'.all.slots.toNat = (dropAll p.all leaves).slotsHeld + (numSlots tx).toNat := by
      rw [hall, TxLookup.slots_add, (hc.dropAll leaves).slots, UInt64.toNat_add, UInt64.toNat_ofNat',
        Nat.mod_add_mod, Nat.mod_eq_of_lt (by omega)]
    have hunder : p.Underflows tx ↔ p.limit < p.all.slots + numSlots tx ∧ p.all.slots < p.limit :=
      ⟨fun h => ⟨h.1.full, h.2⟩, fun h => ⟨hfrees h.1, h.2⟩⟩
    rw [hunder, hfreed]
    simp only [UInt64.le_iff_toNat_le, UInt64.lt_iff_toNat_lt, hsum, hafter, hslots]
    omega
  · have h₁ := UInt64.lt_iff_toNat_lt.1 hunder.1.full
    have h₂ := UInt64.lt_iff_toNat_lt.1 hunder.2
    rcases hfit with hfit | hfit
    · have := UInt64.le_iff_toNat_le.1 hfit
      omega
    · have := UInt64.le_iff_toNat_le.1 hfit
      omega

end Limit

open Sample

def fullOfRemotes : TxPool :=
  (run [(env, .addRemotes [pay 1 9 1 1 10, pay 2 9 1 1 11, pay 3 9 1 1 12,
    pay 4 9 1 1 13, pay 5 9 1 1 14])] (pool 4)).state

theorem remote_add_in_limit_iff_full :
    (add env (pay 6 9 1 1 5) false fullOfRemotes).res = .ok false ∧
      ((add env (pay 6 9 1 1 5) false fullOfRemotes).state.all.slots ≤ fullOfRemotes.limit ∨
        (add env (pay 6 9 1 1 5) false fullOfRemotes).state.all.slots ≤
          fullOfRemotes.all.slots) ∧
      ¬ fullOfRemotes.Underflows (pay 6 9 1 1 5) := by
  have hok : (add env (pay 6 9 1 1 5) false fullOfRemotes).res = .ok false := by
    decide +kernel
  obtain ⟨hiff, -⟩ := remote_add_in_limit_iff (some ⟨10, 1, 4, 1, 1⟩) none rich _ env
    (pay 6 9 1 1 5) fullOfRemotes (by unfold fullOfRemotes pool; rfl) (by decide +kernel)
  exact ⟨hok, (hiff _ _ _ (Run.eq_of_res hok)).2 (.inr (by decide +kernel))⟩

def fullOfLocals : TxPool :=
  (run [(env, .addLocals [pay 7 9 1 1 10, pay 7 9 2 1 10, pay 7 9 3 1 10,
    pay 7 9 4 1 10, pay 7 9 5 1 10])] (pool 4)).state

/-- A full pool takes another remote transaction, since there is nothing to discard. -/
theorem remote_add_over_limit :
    (add env (pay 1 8 1 1 10) false fullOfLocals).res = .ok false ∧
      fullOfLocals.all.slots = fullOfLocals.limit ∧
      fullOfLocals.limit < (add env (pay 1 8 1 1 10) false fullOfLocals).state.all.slots := by
  decide +kernel

end TxPool

end Uchain
