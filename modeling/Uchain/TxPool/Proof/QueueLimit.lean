import Uchain.Lib.Weight
import Uchain.TxPool.Proof.Moves
import Uchain.TxPool.Sample

/-!
# The limit of the queue

`truncate_queue` takes the length of the *last* queue list for the number of queued transactions. If that
is over `global_queue`, it drops whole lists of remote accounts as long as they are not longer than what is
left to drop; for a longer list it reads one past its end. Accounts with the same heartbeat hide each
other, and `remove_tx` leaves a queued transaction where it is if the account has a pending list.

* `drain_run`: what happens if no account is `Stuck`.
-/

namespace Uchain

open Lib BTreeMap Function

/-! ## The length of a list -/

namespace TxSortedList

variable {txs txs' : TxSortedList}

/-- A list with a free nonce has less than `2 ^ 64` transactions. -/
theorem len_lt_of_free {n : UInt64} (h : txs.get? n = none) : txs.len < 2 ^ 64 := by
  have hnot : n ∉ txs.keys := by
    rw [mem_keys_iff, h]
    exact Bool.false_ne_true
  have hnodup : ((n :: txs.keys).map UInt64.toNat).Nodup :=
    (List.nodup_cons.2 ⟨hnot, txs.nodup_keys⟩).map fun _ _ => UInt64.toNat_inj.1
  have hsub : ((n :: txs.keys).map UInt64.toNat) ⊆ List.range (2 ^ 64) := by
    intro k hk
    obtain ⟨m, -, rfl⟩ := List.mem_map.1 hk
    exact List.mem_range.2 m.toNat_lt
  have hlen := (hnodup.subperm hsub).length_le
  rw [List.length_range, List.length_map, List.length_cons, BTreeMap.keys, List.length_map] at hlen
  exact hlen

theorem len_le_of_sub (h : ∀ n, txs.get? n ≠ none → txs'.get? n ≠ none) : txs.len ≤ txs'.len := by
  have hsub : txs.keys ⊆ txs'.keys := by
    intro n hn
    rw [mem_keys_iff] at hn ⊢
    exact Option.isSome_iff_ne_none.2 (h n (Option.isSome_iff_ne_none.1 hn))
  have hlen := (txs.nodup_keys.subperm hsub).length_le
  unfold BTreeMap.keys at hlen
  rwa [List.length_map, List.length_map] at hlen

theorem len_erase {n : UInt64} {tx : SignedTransaction} (h : txs.get? n = some tx) :
    (BTreeMap.erase txs n).entries.length + 1 = txs.len := by
  have hperm := (values_erase h).length_eq
  rw [List.length_cons, BTreeMap.values, BTreeMap.values, List.length_map, List.length_map] at hperm
  exact hperm.symm

theorem len_eq_zero_iff : txs.len = 0 ↔ ∀ n, txs.get? n = none := by
  constructor
  · intro h n
    have hempty : txs.entries = [] := List.length_eq_zero_iff.1 h
    rw [BTreeMap.get?, hempty]
    rfl
  · intro h
    have hle : txs.len ≤ len (BTreeMap.empty : TxSortedList) :=
      len_le_of_sub fun n hn => absurd (h n) hn
    exact Nat.le_zero.1 hle

end TxSortedList

namespace TxPool

open Exec

section Heartbeats

variable {p : TxPool} {env : Env} {a : Address}

/-! ## The accounts by heartbeat -/

instance instTransCmpHeartbeat : Std.TransCmp cmpHeartbeat :=
  inferInstanceAs (Std.TransCmp (compareOn (Prod.snd : Address × Nat → Nat)))

/-- The remote accounts with a queue list and their heartbeats, in the order of the hash map. -/
def remoteBeats (p : TxPool) (accounts : List Address) : List (Address × Nat) :=
  accounts.filterMap fun a => if p.locals.contains a then none else (p.beats.get? a).map (a, ·)

theorem byHeartbeat_run {accounts : List Address} {q : TxPool}
    (hbeats : ∀ a ∈ accounts, p.beats.contains a = true) (addresses : List (Address × Nat)) :
    byHeartbeat p accounts addresses q =
      ⟨.ok ((p.remoteBeats accounts).foldl (fun set e => insertBy cmpHeartbeat e set) addresses), q, []⟩ := by
  induction accounts generalizing addresses with
  | nil => rfl
  | cons a accounts ih =>
    obtain ⟨hbeat, hbeats⟩ := List.forall_mem_cons.1 hbeats
    obtain ⟨beat, hbeat⟩ := Option.isSome_iff_exists.1 hbeat
    rw [byHeartbeat]
    cases hlocal : p.locals.contains a with
    | true =>
      rw [if_pos rfl, ih hbeats, remoteBeats, remoteBeats, List.filterMap_cons, hlocal]
      rfl
    | false =>
      rw [if_neg Bool.false_ne_true, hbeat]
      refine (bind_ok_nil (x := orPanic (some beat)) rfl).trans ?_
      rw [ih hbeats, remoteBeats, remoteBeats, List.filterMap_cons, hlocal, hbeat]
      rfl

/-- The accounts that `truncate_queue` takes, in this order. -/
def victims (env : Env) (p : TxPool) : List (Address × Nat) :=
  ((p.remoteBeats ((env.iter p p.queue).map Prod.fst)).foldl
    (fun set e => insertBy cmpHeartbeat e set) []).reverse

/-- No remote account with the same heartbeat comes before the account. -/
def FirstBeat (env : Env) (p : TxPool) (a : Address) : Prop :=
  ∀ beat, p.beats.get? a = some beat →
    ((p.remoteBeats ((env.iter p p.queue).map Prod.fst)).find? fun e => e.2 = beat) = some (a, beat)

variable {e : Address × Nat}

theorem mem_remoteBeats {accounts : List Address} :
    e ∈ p.remoteBeats accounts ↔
      e.1 ∈ accounts ∧ p.locals.contains e.1 = false ∧ p.beats.get? e.1 = some e.2 := by
  unfold remoteBeats
  rw [List.mem_filterMap]
  constructor
  · intro h
    obtain ⟨a, hmem, h⟩ := h
    split at h
    · cases h
    · rename_i hlocal
      obtain ⟨beat, hbeat, rfl⟩ := Option.map_eq_some_iff.1 h
      exact ⟨hmem, Bool.eq_false_iff.2 hlocal, hbeat⟩
  · intro h
    refine ⟨e.1, h.1, ?_⟩
    rw [if_neg (Bool.eq_false_iff.1 h.2.1), h.2.2]
    rfl

theorem mem_victims : e ∈ victims env p ↔
    ((p.remoteBeats ((env.iter p p.queue).map Prod.fst)).find? fun x => cmpHeartbeat e x = .eq) = some e := by
  unfold victims
  rw [List.mem_reverse, mem_foldl_insertBy_iff List.Pairwise.nil]
  simp

theorem mem_accounts_iff : a ∈ (env.iter p p.queue).map Prod.fst ↔ p.queue.get? a ≠ none := by
  constructor
  · intro h
    obtain ⟨e, he, rfl⟩ := List.mem_map.1 h
    rw [mem_iter he]
    exact Option.some_ne_none _
  · intro h
    obtain ⟨list, hlist⟩ := Option.ne_none_iff_exists'.1 h
    exact List.mem_map.2 ⟨(a, list), mem_iter_of_get? hlist, rfl⟩

theorem victims_spec (he : e ∈ victims env p) :
    p.queue.get? e.1 ≠ none ∧ p.locals.contains e.1 = false ∧ p.beats.get? e.1 = some e.2 := by
  obtain ⟨hmem, hspec⟩ := mem_remoteBeats.1 (List.mem_of_find?_eq_some (mem_victims.1 he))
  exact ⟨mem_accounts_iff.1 hmem, hspec⟩

theorem nodup_victims : ((victims env p).map Prod.fst).Nodup := by
  have hsorted (l : List (Address × Nat)) : ∀ set : List (Address × Nat),
      (set.Pairwise fun y z => cmpHeartbeat y z = .lt) →
      (l.foldl (fun set e => insertBy cmpHeartbeat e set) set).Pairwise
        fun y z => cmpHeartbeat y z = .lt := by
    induction l with
    | nil => exact fun _ h => h
    | cons x l ih => exact fun _ h => ih _ (sorted_insertBy h)
  refine List.Nodup.map_on (fun e he e' he' heq => ?_) ?_
  · have h := (victims_spec he).2.2
    rw [heq, (victims_spec he').2.2] at h
    exact Prod.ext heq (Option.some.inj h).symm
  · refine List.nodup_reverse.2 ((hsorted _ [] List.Pairwise.nil).imp fun hlt heq => ?_)
    rw [heq, show cmpHeartbeat _ _ = .eq from Std.ReflCmp.compare_self] at hlt
    cases hlt

theorem mem_victims_iff (hbeat : p.beats.contains a = true) :
    a ∈ (victims env p).map Prod.fst ↔ FirstBeat env p a := by
  have hcmp (e : Address × Nat) : (fun x => decide (cmpHeartbeat e x = .eq)) =
      fun x : Address × Nat => decide (x.2 = e.2) := by
    funext x
    refine decide_eq_decide.2 ?_
    rw [cmpHeartbeat, Nat.compare_eq_eq]
    exact eq_comm
  constructor
  · intro h beat hget
    obtain ⟨e, he, rfl⟩ := List.mem_map.1 h
    have hbeat : e.2 = beat := Option.some.inj ((victims_spec he).2.2.symm.trans hget)
    rw [← hbeat, ← mem_victims.1 he, hcmp]
  · intro h
    obtain ⟨beat, hget⟩ := Option.isSome_iff_exists.1 hbeat
    refine List.mem_map.2 ⟨(a, beat), mem_victims.2 ?_, rfl⟩
    rw [hcmp]
    exact h beat hget

end Heartbeats

section Truncation

variable {p p' : TxPool} {tx : SignedTransaction} {env : Env} {a : Address}

def queueLen (p : TxPool) (a : Address) : Nat := p.queue.weightAt TxList.len a

def queuedTotal (p : TxPool) : Nat := p.queue.weight TxList.len

def remoteQueued (p : TxPool) : Nat :=
  (p.queue.filter fun a _ => !p.locals.contains a).weight TxList.len

def OnlyLocalsQueued (p : TxPool) : Prop := ∀ a, p.locals.contains a = false → p.queueLen a = 0

def lastLen (env : Env) (p : TxPool) : Nat :=
  ((env.iter p p.queue).getLast?.map fun e => e.2.len).getD 0

/-- Every account has a nonce for which no transaction is listed. -/
def Roomy (p : TxPool) : Prop := ∀ a, ∃ n, p.occupant (a, n) = none

theorem slotAt_of_occupant {k : Address × UInt64} (h : p.occupant k = none) : slotAt p.queue k = none := by
  rw [occupant, Option.or_eq_none_iff] at h
  exact h.2

theorem Roomy.len_lt (hr : Roomy p) {list : TxList} (hlist : p.queue.get? a = some list) :
    list.len < 2 ^ 64 := by
  obtain ⟨n, hn⟩ := hr a
  exact TxSortedList.len_lt_of_free ((slotAt_of_get? hlist n).symm.trans (slotAt_of_occupant hn))

theorem queueLen_eq_zero_iff : p.queueLen a = 0 ↔ ∀ n, slotAt p.queue (a, n) = none := by
  cases h : p.queue.get? a with
  | none =>
    rw [queueLen, weightAt_of_none h]
    exact ⟨fun _ n => slotAt_of_none h n, fun _ => rfl⟩
  | some list =>
    rw [queueLen, weightAt_of_get? h]
    refine TxSortedList.len_eq_zero_iff.trans (forall_congr' fun n => ?_)
    rw [slotAt_of_get? h]

theorem lastLen_eq (env : Env) (p : TxPool) :
    lastLen env p = 0 ∨ ∃ z list, p.queue.get? z = some list ∧ lastLen env p = list.len := by
  unfold lastLen
  cases hlast : (env.iter p p.queue).getLast? with
  | none => exact .inl rfl
  | some e => exact .inr ⟨e.1, e.2, mem_iter (List.mem_of_getLast? hlast), rfl⟩

theorem Roomy.lastLen_lt (hr : Roomy p) (env : Env) : lastLen env p < 2 ^ 64 := by
  rcases lastLen_eq env p with hzero | ⟨z, list, hlist, hlen⟩
  · rw [hzero]
    exact Nat.two_pow_pos 64
  · rw [hlen]
    exact hr.len_lt hlist

/-- An account that has as many queued transactions as there are at most has all of them. -/
theorem queueLen_of_ne {z b : Address} (htotal : p.queuedTotal ≤ p.queueLen z) (hb : b ≠ z) :
    p.queueLen b = 0 := by
  have hsplit : p.queuedTotal = p.queueLen z + (p.queue.erase z).weight TxList.len :=
    weight_erase _ _ _
  have hle := weightAt_le_weight TxList.len (p.queue.erase z) b
  rw [weightAt_congr ((get?_erase p.queue z b).trans (if_neg hb))] at hle
  unfold queueLen at *
  omega

theorem weightAt_remote (p : TxPool) (a : Address) :
    (p.queue.filter fun a _ => !p.locals.contains a).weightAt TxList.len a =
      if p.locals.contains a then 0 else p.queueLen a := by
  unfold BTreeMap.weightAt queueLen BTreeMap.weightAt
  rw [get?_filter]
  cases p.queue.get? a with
  | none => simp
  | some list => cases p.locals.contains a <;> simp [Option.filter]

theorem remoteQueued_eq {accounts : List Address} (hnodup : accounts.Nodup)
    (hremote : ∀ a ∈ accounts, p.locals.contains a = false)
    (hall : ∀ a, p.locals.contains a = false → a ∉ accounts → p.queueLen a = 0) :
    p.remoteQueued = (accounts.map p.queueLen).sum := by
  rw [remoteQueued, weight_eq_sum hnodup fun a ha => ?_]
  · refine congrArg List.sum (List.map_congr_left fun a ha => ?_)
    rw [weightAt_remote, if_neg (Bool.eq_false_iff.1 (hremote a ha))]
  · rw [weightAt_remote]
    split
    · rfl
    · rename_i hlocal
      exact hall a (Bool.eq_false_iff.2 hlocal) ha

theorem onlyLocals_iff : OnlyLocalsQueued p ↔ p.remoteQueued = 0 := by
  constructor
  · intro h
    rw [remoteQueued_eq List.nodup_nil (by simp) fun a ha _ => h a ha, List.map_nil, List.sum_nil]
  · intro h a ha
    have hle := weightAt_le_weight TxList.len (p.queue.filter fun a _ => !p.locals.contains a) a
    rw [weightAt_remote, if_neg (Bool.eq_false_iff.1 ha)] at hle
    exact Nat.le_zero.1 (h ▸ hle)

theorem roomy_of_free (n : UInt64)
    (h : ((p.pending.values ++ p.queue.values).all fun list => (list.txs.get? n).isNone) = true) :
    Roomy p := by
  have hfree (m : BTreeMap Address TxList) (hm : ∀ list ∈ m.values, list.txs.get? n = none) (a : Address) :
      slotAt m (a, n) = none := by
    cases hget : m.get? a with
    | none => exact slotAt_of_none hget n
    | some list =>
      exact (slotAt_of_get? hget n).trans (hm list (mem_values_iff.2 ⟨a, hget⟩))
  rw [List.all_append, Bool.and_eq_true, List.all_eq_true, List.all_eq_true] at h
  refine fun a => ⟨n, Option.or_eq_none_iff.2 ⟨hfree p.pending (fun list hl => ?_) a,
    hfree p.queue (fun list hl => ?_) a⟩⟩
  · exact Option.isNone_iff_eq_none.1 (h.1 list hl)
  · exact Option.isNone_iff_eq_none.1 (h.2 list hl)

variable [Crypto]

theorem Evicts.roomy (h : Evicts p tx p') (ht : Tidy [] p) (hr : Roomy p) : Roomy p' := by
  intro a
  obtain ⟨n, hn⟩ := hr a
  refine ⟨n, ?_⟩
  rcases h.occupant ht (a, n) with hsame | hgone
  · rw [hsame, hn]
  · exact hgone.1

/-! ## At most one transaction leaves the queue in each step -/

theorem Evicts.queueLen_le (h : Evicts p tx p') : p.queueLen tx.sender ≤ p'.queueLen tx.sender + 1 := by
  cases h with
  | pending list priced hlist hslot => exact Nat.le_succ _
  | queued future priced hlist hfuture hslot =>
    have hmem : future.txs.get? tx.nonce = some tx := (slotAt_of_get? hfuture _).symm.trans hslot
    have hlen := TxSortedList.len_erase hmem
    rw [queueLen, queueLen, weightAt_of_get? hfuture,
      show BTreeMap.weightAt TxList.len (TxPool.queue _) tx.sender = _ from
        weightAt_of_get? (get?_insert_self _ _ _)]
    exact hlen.symm.le
  | both list priced pending queue beats hlist hslot hmoves =>
    refine Nat.le_succ_of_le ?_
    cases hold : p.queue.get? tx.sender with
    | none =>
      rw [queueLen, weightAt_of_none hold]
      exact Nat.zero_le _
    | some old =>
      have hkeep : ∀ n, old.txs.get? n ≠ none → slotAt queue (tx.sender, n) ≠ none := by
        intro n hn
        rw [← slotAt_of_get? hold] at hn
        rw [hmoves.queue _ hn]
        exact hn
      cases hnew : queue.get? tx.sender with
      | none =>
        have hzero : old.len = 0 := TxSortedList.len_eq_zero_iff.2 fun n => by
          by_contra hn
          exact hkeep n hn (slotAt_of_none hnew n)
        rw [queueLen, weightAt_of_get? hold, hzero]
        exact Nat.zero_le _
      | some new =>
        rw [queueLen, queueLen, weightAt_of_get? hold, weightAt_of_get? hnew]
        refine TxSortedList.len_le_of_sub fun n hn => ?_
        rw [← slotAt_of_get? hnew]
        exact hkeep n hn

theorem Evicts.queuedTotal_le (h : Evicts p tx p') : p.queuedTotal ≤ p'.queuedTotal + 1 := by
  have hlen := h.queueLen_le
  have hsum := weight_add_weightAt (f := TxList.len) fun b hb => (h.others hb).2
  unfold queuedTotal
  unfold queueLen at hlen
  omega

theorem removeAll_run (env : Env) (ht : Tidy [] p) (hr : Roomy p) (ts : List SignedTransaction) :
    ∃ p' log, forEach (fun t => removeTx env t.hash true) ts p = ⟨.ok (), p', log⟩ ∧ Tidy [] p' ∧
      Roomy p' ∧ p.queuedTotal ≤ p'.queuedTotal + ts.length := by
  induction ts generalizing p with
  | nil => exact ⟨p, [], rfl, ht, hr, le_rfl⟩
  | cons t ts ih =>
    obtain ⟨q, log, hrun, hq⟩ := removeTx_cases env ht t.hash true
    have hstep : Tidy [] q ∧ Roomy q ∧ p.queuedTotal ≤ q.queuedTotal + 1 := by
      rcases hq with ⟨rfl, -⟩ | ⟨tx, -, hevicts⟩
      · exact ⟨ht, hr, Nat.le_succ _⟩
      · exact ⟨hevicts.tidy ht, hevicts.roomy ht hr, hevicts.queuedTotal_le⟩
    obtain ⟨p', log', hrun', htidy, hroomy, hcount⟩ := ih hstep.1 hstep.2.1
    refine ⟨p', _, bind_of_run hrun hrun', htidy, hroomy, ?_⟩
    have := hstep.2.2
    rw [List.length_cons]
    omega

variable {drop : UInt64} {addresses : List (Address × Nat)}

/-- An account with a queue list: all of the list leaves, or one past its end is read. -/
theorem dropQueues_cons (env : Env) (addresses : List (Address × Nat)) {e : Address × Nat} {list : TxList}
    (hr : Roomy p) (hdrop : drop > 0) (hlist : p.queue.get? e.1 = some list) :
    (list.len ≤ drop.toNat → (drop - .ofNat list.len).toNat = drop.toNat - list.len ∧
      dropQueues env (e :: addresses) drop p = (do
        Exec.forEach (fun tx => removeTx env tx.hash true) list.flatten
        dropQueues env addresses (drop - .ofNat list.len) : M Unit) p) ∧
    (drop.toNat < list.len → dropQueues env (e :: addresses) drop p = ⟨.error .panic, p, []⟩) := by
  have hlen : (UInt64.ofNat list.len).toNat = list.len := by
    rw [UInt64.toNat_ofNat', Nat.mod_eq_of_lt (hr.len_lt hlist)]
  rw [dropQueues, if_pos hdrop, get_bind]
  simp only [hlist]
  refine ⟨fun hle => ?_, fun hlt => ?_⟩
  · rw [← hlen, ← UInt64.le_iff_toNat_le] at hle
    rw [if_pos hle, UInt64.toNat_sub_of_le _ _ hle, hlen]
    exact ⟨rfl, rfl⟩
  · rw [← hlen, ← UInt64.lt_iff_toNat_lt] at hlt
    rw [if_neg (UInt64.not_le.2 hlt), bind_error (dropFrom_panics hdrop p)]

/-- **No more transactions leave the queue than are counted.** -/
theorem removal_count {u : Unit} {log : History} (ht : Tidy [] p) (hr : Roomy p)
    (h : dropQueues env addresses drop p = ⟨.ok u, p', log⟩) :
    p.queuedTotal ≤ p'.queuedTotal + drop.toNat := by
  induction addresses generalizing p drop log with
  | nil =>
    cases h
    exact Nat.le_add_right _ _
  | cons e addresses ih =>
    by_cases hdrop : drop > 0
    · cases hlist : p.queue.get? e.1 with
      | none =>
        rw [dropQueues, if_pos hdrop, get_bind, hlist] at h
        cases h
        exact Nat.le_add_right _ _
      | some list =>
        obtain ⟨hfits, hpanics⟩ := dropQueues_cons env addresses hr hdrop hlist
        by_cases hle : list.len ≤ drop.toNat
        · obtain ⟨hsub, hstep⟩ := hfits hle
          obtain ⟨q, log', hrun, htidy, hroomy, hcount⟩ := removeAll_run env ht hr list.flatten
          obtain ⟨_, _, _, _, hloop, hrest, -⟩ := bind_eq_ok (hstep.symm.trans h)
          cases hloop.symm.trans hrun
          have hih := ih htidy hroomy hrest
          have hflat : list.flatten.length = list.len := List.length_map _
          omega
        · cases (hpanics (Nat.lt_of_not_le hle)).symm.trans h
    · rw [dropQueues, if_neg hdrop] at h
      cases h
      exact Nat.le_add_right _ _

/-! ## Accounts that cannot be emptied -/

/-- The account has a queued transaction that the lookup does not have, or queued transactions beside a
pending list. -/
def Stuck (a : Address) (p : TxPool) : Prop :=
  (∃ n t, slotAt p.queue (a, n) = some t ∧ p.all.get t.hash ≠ some t) ∨
    p.queueLen a ≠ 0 ∧ p.pending.get? a ≠ none

theorem Stuck.queueLen_ne_zero (h : Stuck a p) : p.queueLen a ≠ 0 := by
  rcases h with ⟨n, t, hslot, -⟩ | ⟨hlen, -⟩
  · intro hzero
    rw [queueLen_eq_zero_iff.1 hzero n] at hslot
    cases hslot
  · exact hlen

theorem get_ne_of_remove {t : SignedTransaction} {h : H256} (hget : p.all.get t.hash ≠ some t) :
    (p.all.remove h).get t.hash ≠ some t := by
  rw [TxLookup.get_remove]
  by_cases hh : t.hash = h
  · rw [hh, update_self]
    exact (Option.some_ne_none t).symm
  · rw [update_of_ne hh]
    exact hget

theorem Evicts.stuck (h : Evicts p tx p') (hget : p.all.get tx.hash = some tx) (hs : Stuck a p) :
    Stuck a p' := by
  by_cases ha : a = tx.sender
  · subst ha
    cases h with
    | pending list priced hlist hslot =>
      rcases hs with ⟨n, t, ht, hne⟩ | ⟨hlen, -⟩
      · exact .inl ⟨n, t, ht, get_ne_of_remove hne⟩
      · refine .inr ⟨hlen, ?_⟩
        rw [show (TxPool.pending _).get? tx.sender = _ from get?_insert_self _ _ _]
        exact Option.some_ne_none _
    | queued future priced hlist hfuture hslot =>
      rcases hs with ⟨n, t, ht, hne⟩ | ⟨-, hpending⟩
      · refine .inl ⟨n, t, ?_, get_ne_of_remove hne⟩
        rw [show slotAt (TxPool.queue _) = _ from slotAt_insert_erase hfuture]
        by_cases hn : n = tx.nonce
        · -- the transaction that leaves is in the lookup
          rw [hn, show slotAt p.queue (tx.sender, tx.nonce) = some tx from hslot] at ht
          rw [Option.some.inj ht] at hget
          exact absurd hget hne
        · rw [update_of_ne fun heq => hn (congrArg Prod.snd heq)]
          exact ht
      · exact absurd hlist hpending
    | both list priced pending queue beats hlist hslot hmoves =>
      have hgone : ((p.all.remove tx.hash).get tx.hash) ≠ some tx := by
        rw [TxLookup.get_remove, update_self]
        exact (Option.some_ne_none tx).symm
      have hsome : slotAt p.queue (slot tx) ≠ none := by
        rw [hslot]
        exact Option.some_ne_none tx
      exact .inl ⟨tx.nonce, tx, (hmoves.queue _ hsome).trans hslot, hgone⟩
  · obtain ⟨hpending, hqueue⟩ := h.others ha
    have hslot (n : UInt64) : slotAt p'.queue (a, n) = slotAt p.queue (a, n) := by
      unfold slotAt
      rw [hqueue]
    rcases hs with ⟨n, t, ht, hne⟩ | ⟨hlen, hpend⟩
    · refine .inl ⟨n, t, (hslot n).trans ht, ?_⟩
      rw [h.all]
      exact get_ne_of_remove hne
    · refine .inr ⟨?_, by rw [hpending]; exact hpend⟩
      rw [queueLen, weightAt_congr hqueue]
      exact hlen

theorem locals_truncateQueue (env : Env) (ht : Tidy [] p) :
    (truncateQueue env p).state.locals = p.locals := by
  have hrule : EvictRule fun _ _ q => q.locals = p.locals :=
    ⟨fun h => h, fun _ h _ hevicts _ _ => hevicts.locals.trans h⟩
  exact (hrule.truncateQueue (fun _ h _ _ => h) env [] p ⟨ht, rfl⟩).2

theorem stuck_truncateQueue (env : Env) (ht : Tidy [] p) (hs : Stuck a p) :
    Stuck a (truncateQueue env p).state := by
  have hrule : EvictRule fun _ _ q => Stuck a q :=
    ⟨fun h => h, fun ht h hget hevicts _ _ => hevicts.stuck (ht.hash_eq hget ▸ hget) h⟩
  exact (hrule.truncateQueue (fun _ h _ _ => h) env [] p ⟨ht, hs⟩).2

/-! ## Accounts that can be emptied -/

theorem drain_run (env : Env) (ht : Tidy [] p) (hr : Roomy p) (hpending : p.pending.get? a = none)
    {ts : List SignedTransaction} (hnodup : ts.Nodup) (hts : ∀ t ∈ ts, t.sender = a ∧
      slotAt p.queue (slot t) = some t ∧ p.all.get t.hash = some t) :
    ∃ p' log, forEach (fun t => removeTx env t.hash true) ts p = ⟨.ok (), p', log⟩ ∧ Tidy [] p' ∧
      Roomy p' ∧ p'.locals = p.locals ∧ p'.pending = p.pending ∧
      (∀ b, b ≠ a → p'.queue.get? b = p.queue.get? b) ∧
      (∀ t ∈ ts, slotAt p'.queue (slot t) = none) ∧
      (∀ k, slotAt p'.queue k = none ∨ slotAt p'.queue k = slotAt p.queue k) ∧
      ∀ t, p.all.get t.hash = some t → t ∉ ts → p'.all.get t.hash = some t := by
  induction ts generalizing p with
  | nil =>
    exact ⟨p, [], rfl, ht, hr, rfl, rfl, fun _ _ => rfl, by simp, fun _ => .inr rfl, fun _ h _ => h⟩
  | cons t ts ih =>
    obtain ⟨hmem, hnodup⟩ := List.nodup_cons.1 hnodup
    obtain ⟨⟨hsender, hslot, hget⟩, hrest⟩ := List.forall_mem_cons.1 hts
    obtain ⟨q, hrun, hevicts, -⟩ := removeTx_run env ht hget true
    have htq := hevicts.tidy ht
    have hrq := hevicts.roomy ht hr
    have hothers (b : Address) (hb : b ≠ a) : q.queue.get? b = p.queue.get? b :=
      (hevicts.others (hsender.symm ▸ hb)).2
    have hlookup (t' : SignedTransaction) (h : p.all.get t'.hash = some t') (hne : t' ≠ t) :
        q.all.get t'.hash = some t' := by
      have hhash : t'.hash ≠ t.hash := fun heq => hne (Option.some.inj (h.symm.trans (heq ▸ hget)))
      rw [hevicts.all, TxLookup.get_remove, update_of_ne hhash]
      exact h
    cases hevicts with
    | pending list priced hlist hslot' =>
      rw [hsender, hpending] at hlist
      cases hlist
    | both list priced pending queue beats hlist hslot' hmoves =>
      rw [hsender, hpending] at hlist
      cases hlist
    | queued future priced hlist hfuture hslot' =>
      have hqueue : slotAt (p.queue.insert t.sender { future with txs := future.txs.erase t.nonce }) =
        update (slotAt p.queue) (slot t) none := slotAt_insert_erase hfuture
      obtain ⟨p', log', hrun', htidy, hroomy, hlocals, hpend, hsame, hin, hsub, hall⟩ := ih htq hrq hpending
        hnodup fun t' ht' => by
          have hne : t' ≠ t := fun heq => hmem (heq ▸ ht')
          obtain ⟨hsender', hslot'', hget'⟩ := hrest t' ht'
          refine ⟨hsender', ?_, hlookup t' hget' hne⟩
          rw [hqueue, update_of_ne, hslot'']
          intro heq
          rw [heq, hslot] at hslot''
          exact hne (Option.some.inj hslot'').symm
      refine ⟨p', _, bind_of_run hrun hrun', htidy, hroomy, hlocals, hpend, fun b hb =>
        (hsame b hb).trans (hothers b hb), List.forall_mem_cons.2 ⟨?_, hin⟩, fun k => ?_, fun t' h hnot => ?_⟩
      · rcases hsub (slot t) with hnone | heq
        · exact hnone
        · rw [heq, hqueue, update_self]
      · rcases hsub k with hnone | heq
        · exact .inl hnone
        · rw [heq, hqueue]
          by_cases hk : k = slot t
          · rw [hk, update_self]
            exact .inl rfl
          · exact .inr (update_of_ne hk _ _)
      · rw [List.mem_cons, not_or] at hnot
        exact hall t' (hlookup t' h hnot.1) hnot.2

/-- **The whole list of an account that is not stuck leaves.** -/
theorem drainAccount_run (env : Env) (ht : Tidy [] p) (hr : Roomy p) (hs : ¬ Stuck a p) {list : TxList}
    (hlist : p.queue.get? a = some list) :
    ∃ p' log, forEach (fun t => removeTx env t.hash true) list.flatten p = ⟨.ok (), p', log⟩ ∧
      Tidy [] p' ∧ Roomy p' ∧ p'.locals = p.locals ∧ p'.queueLen a = 0 ∧
      (∀ b, b ≠ a → p'.queue.get? b = p.queue.get? b) ∧ ∀ b, Stuck b p' → Stuck b p := by
  have hslot : ∀ t ∈ list.flatten, slotAt p.queue (slot t) = some t ∧ slot t = (a, t.nonce) := by
    intro t hmem
    obtain ⟨n, hn⟩ := mem_values_iff.1 hmem
    have hat : slotAt p.queue (a, n) = some t := (slotAt_of_get? hlist n).trans hn
    have heq : slot t = (a, n) := ht.shelved.slot_snd _ _ hat
    exact ⟨heq ▸ hat, by rw [heq, show t.nonce = n from congrArg Prod.snd heq]⟩
  have hnonce (n : UInt64) (t : SignedTransaction) (hn : list.txs.get? n = some t) : t.nonce = n :=
    congrArg Prod.snd (ht.shelved.slot_snd (a, n) t ((slotAt_of_get? hlist n).trans hn))
  have hnodup : list.flatten.Nodup := (nodup_nonces (List.Sublist.refl list.txs.entries) hnonce).of_map
  rw [Stuck, not_or, not_exists, not_and_or, not_ne_iff, not_ne_iff] at hs
  rcases hs with ⟨hknown, hzero | hpending⟩
  · -- nothing to do
    have hflat : list.flatten = [] := by
      rw [queueLen, weightAt_of_get? hlist] at hzero
      exact List.map_eq_nil_iff.2 (List.length_eq_zero_iff.1 hzero)
    rw [hflat]
    exact ⟨p, [], rfl, ht, hr, rfl, hzero, fun _ _ => rfl, fun _ h => h⟩
  · obtain ⟨p', log, hrun, htidy, hroomy, hlocals, hpend, hsame, hin, hsub, hall⟩ := drain_run env ht hr
      hpending hnodup fun t hmem => by
        obtain ⟨hat, heq⟩ := hslot t hmem
        refine ⟨congrArg Prod.fst heq, hat, ?_⟩
        by_contra hne
        exact hknown t.nonce ⟨t, heq ▸ hat, hne⟩
    have hlen : p'.queueLen a = 0 := by
      refine queueLen_eq_zero_iff.2 fun n => (hsub (a, n)).elim id fun heq => ?_
      cases hn : slotAt p.queue (a, n) with
      | none => exact heq.trans hn
      | some t =>
        have hmem : t ∈ list.flatten := mem_values_iff.2 ⟨n, (slotAt_of_get? hlist n).symm.trans hn⟩
        rw [← ht.shelved.slot_snd _ _ hn]
        exact hin t hmem
    refine ⟨p', log, hrun, htidy, hroomy, hlocals, hlen, hsame, fun b hb => ?_⟩
    have hne : b ≠ a := fun heq => hb.queueLen_ne_zero (heq ▸ hlen)
    have hqueue := hsame b hne
    rcases hb with ⟨n, t, ht', hget⟩ | ⟨hlen', hpend'⟩
    · have hat : slotAt p.queue (b, n) = some t := by
        unfold slotAt at ht' ⊢
        rwa [hqueue] at ht'
      refine .inl ⟨n, t, hat, fun hold => hget (hall t hold fun hmem => hne ?_)⟩
      exact (congrArg Prod.fst (ht.shelved.slot_snd _ _ hat)).symm.trans
        (congrArg Prod.fst (hslot t hmem).2)
    · refine .inr ⟨?_, by rw [← hpend]; exact hpend'⟩
      rw [queueLen, ← weightAt_congr hqueue]
      exact hlen'

def queuedBy (p : TxPool) (addresses : List (Address × Nat)) : Nat :=
  (addresses.map fun e => p.queueLen e.1).sum

/-- **The loop of `truncate_queue`** where no account is stuck: it empties all accounts or fails to. -/
theorem dropQueues_run (env : Env) (ht : Tidy [] p) (hr : Roomy p)
    (hnodup : (addresses.map Prod.fst).Nodup) (hqueue : ∀ e ∈ addresses, p.queue.get? e.1 ≠ none)
    (hgood : ∀ e ∈ addresses, ¬ Stuck e.1 p) (drop : UInt64) :
    (p.queuedBy addresses ≤ drop.toNat → ∃ p' log, dropQueues env addresses drop p = ⟨.ok (), p', log⟩ ∧
      (∀ e ∈ addresses, p'.queueLen e.1 = 0) ∧
      ∀ b, b ∉ addresses.map Prod.fst → p'.queueLen b = p.queueLen b) ∧
    (drop.toNat < p.queuedBy addresses → ∀ p' log, dropQueues env addresses drop p = ⟨.ok (), p', log⟩ →
      ∃ e ∈ addresses, p'.queueLen e.1 ≠ 0) := by
  induction addresses generalizing p drop with
  | nil => exact ⟨fun _ => ⟨p, [], rfl, by simp, fun _ _ => rfl⟩, fun h => absurd h (Nat.not_lt_zero _)⟩
  | cons e addresses ih =>
    obtain ⟨hne, hnodup⟩ := List.nodup_cons.1 hnodup
    obtain ⟨hhead, hqueue⟩ := List.forall_mem_cons.1 hqueue
    obtain ⟨hgoodhead, hgood⟩ := List.forall_mem_cons.1 hgood
    have hkey (e' : Address × Nat) (he' : e' ∈ addresses) : e'.1 ≠ e.1 := fun heq =>
      hne (heq ▸ List.mem_map_of_mem he')
    have hsum : p.queuedBy (e :: addresses) = p.queueLen e.1 + p.queuedBy addresses := by
      rw [queuedBy, List.map_cons, List.sum_cons]
      rfl
    by_cases hdrop : drop > 0
    · cases hlist : p.queue.get? e.1 with
      | none => exact absurd hlist hhead
      | some list =>
        have hat : p.queueLen e.1 = list.len := weightAt_of_get? hlist
        obtain ⟨hfits, hpanics⟩ := dropQueues_cons env addresses hr hdrop hlist
        rw [hsum, hat]
        by_cases hle : list.len ≤ drop.toNat
        · obtain ⟨hsub, hstep⟩ := hfits hle
          obtain ⟨q, log, hrun, htq, hrq, -, hzero, hsame, hstuck⟩ :=
            drainAccount_run env ht hr hgoodhead hlist
          have hother (b : Address) (hb : b ≠ e.1) : q.queueLen b = p.queueLen b :=
            weightAt_congr (hsame b hb)
          have hrest : q.queuedBy addresses = p.queuedBy addresses :=
            congrArg List.sum (List.map_congr_left fun e' he' => hother e'.1 (hkey e' he'))
          obtain ⟨hall, hsome⟩ := ih htq hrq hnodup (fun e' he' => by
            rw [hsame e'.1 (hkey e' he')]
            exact hqueue e' he') (fun e' he' h => hgood e' he' (hstuck e'.1 h)) (drop - .ofNat list.len)
          rw [hrest, hsub] at hall hsome
          refine ⟨fun hfits => ?_, fun hover p' log' h => ?_⟩
          · obtain ⟨p', log', hrun', hin, hout⟩ := hall (by omega)
            refine ⟨p', _, hstep.trans (bind_of_run hrun hrun'), List.forall_mem_cons.2 ⟨?_, hin⟩,
              fun b hb => ?_⟩
            · rw [hout e.1 hne, hzero]
            · rw [List.map_cons, List.mem_cons, not_or] at hb
              rw [hout b hb.2, hother b hb.1]
          · obtain ⟨_, _, _, _, hloop, h, -⟩ := bind_eq_ok (hstep.symm.trans h)
            cases hloop.symm.trans hrun
            obtain ⟨e', he', hlen'⟩ := hsome (by omega) p' _ h
            exact ⟨e', List.mem_cons_of_mem e he', hlen'⟩
        · refine ⟨fun hfits => ?_, fun _ p' log' h => ?_⟩
          · omega
          · cases (hpanics (Nat.lt_of_not_le hle)).symm.trans h
    · have hdone : dropQueues env (e :: addresses) drop p = ⟨.ok (), p, []⟩ := by
        rw [dropQueues, if_neg hdrop]
        rfl
      have hzero : drop.toNat = 0 := by
        rw [gt_iff_lt, UInt64.lt_iff_toNat_lt] at hdrop
        exact Nat.eq_zero_of_not_pos hdrop
      rw [hdone, hzero]
      refine ⟨fun hfits => ⟨p, [], rfl, fun e' he' => ?_, fun _ _ => rfl⟩, fun hover p' log' h => ?_⟩
      · have hle : p.queueLen e'.1 ≤ p.queuedBy (e :: addresses) :=
          List.single_le_sum (fun n _ => Nat.zero_le n) _ (List.mem_map.2 ⟨e', he', rfl⟩)
        omega
      · cases h
        by_contra hall
        push Not at hall
        have hnone : p.queuedBy (e :: addresses) = 0 := List.sum_eq_zero fun n hn => by
          obtain ⟨e', he', rfl⟩ := List.mem_map.1 hn
          exact hall e' he'
        omega

/-- If one account has all the queued transactions, more than are to be dropped, then nothing happens as
long as it is not its turn. -/
theorem dropQueues_of_single {u : Unit} {log : History} {z : Address} (hr : Roomy p)
    (hqueue : ∀ e ∈ addresses, p.queue.get? e.1 ≠ none) (hempty : ∀ b, b ≠ z → p.queueLen b = 0)
    (hdrop : drop > 0) (hlong : drop.toNat < p.queueLen z)
    (h : dropQueues env addresses drop p = ⟨.ok u, p', log⟩) : p' = p := by
  induction addresses generalizing log with
  | nil =>
    cases h
    rfl
  | cons e addresses ih =>
    obtain ⟨hhead, hqueue⟩ := List.forall_mem_cons.1 hqueue
    obtain ⟨list, hlist⟩ := Option.ne_none_iff_exists'.1 hhead
    obtain ⟨hfits, hpanics⟩ := dropQueues_cons env addresses hr hdrop hlist
    have hat : p.queueLen e.1 = list.len := weightAt_of_get? hlist
    by_cases he : e.1 = z
    · cases (hpanics (by rwa [← hat, he])).symm.trans h
    · have hzero : list.len = 0 := hat.symm.trans (hempty e.1 he)
      have hflat : list.flatten = [] := List.map_eq_nil_iff.2 (List.length_eq_zero_iff.1 hzero)
      obtain ⟨-, hstep⟩ := hfits (hzero ▸ Nat.zero_le _)
      rw [hstep, hzero, hflat, show UInt64.ofNat 0 = 0 from rfl, UInt64.sub_zero] at h
      obtain ⟨_, _, _, _, hloop, h, -⟩ := bind_eq_ok h
      cases hloop
      exact ih hqueue h

/-! ## The limit -/

theorem truncateQueue_run (env : Env) (ht : Tidy [] p) :
    truncateQueue env p = if UInt64.ofNat (lastLen env p) > p.config.globalQueue then
      dropQueues env (victims env p) (.ofNat (lastLen env p) - p.config.globalQueue) p
    else ⟨.ok (), p, []⟩ := by
  have hbeats : ∀ a ∈ (env.iter p p.queue).map Prod.fst, p.beats.contains a = true := fun a ha =>
    ht.beating a (Option.isSome_iff_ne_none.2 (mem_accounts_iff.1 ha))
  rw [truncateQueue, get_bind]
  unfold lastLen
  split
  · exact bind_ok_nil (byHeartbeat_run hbeats [])
  · rfl

def QueueInLimit (limit : UInt64) (p : TxPool) : Prop :=
  p.queuedTotal ≤ limit.toNat ∨ OnlyLocalsQueued p

/-- The remote accounts with queued transactions can all be emptied. -/
structure Drainable (env : Env) (p : TxPool) : Prop where
  pending : ∀ a, p.locals.contains a = false → p.queueLen a ≠ 0 → p.pending.get? a = none
  known : ∀ a n t, p.locals.contains a = false → slotAt p.queue (a, n) = some t →
    p.all.get t.hash = some t
  first : ∀ a, p.locals.contains a = false → p.queueLen a ≠ 0 → FirstBeat env p a
  few : p.remoteQueued + p.config.globalQueue.toNat ≤ lastLen env p

theorem Drainable.not_stuck (hd : Drainable env p) (ha : p.locals.contains a = false) : ¬ Stuck a p := by
  intro h
  rcases h with ⟨n, t, hslot, hget⟩ | ⟨hlen, hpending⟩
  · exact hget (hd.known a n t ha hslot)
  · exact hpending (hd.pending a ha hlen)

theorem Drainable.of_onlyLocals (honly : OnlyLocalsQueued p)
    (hover : p.config.globalQueue.toNat ≤ lastLen env p) : Drainable env p where
  pending a ha hlen := absurd (honly a ha) hlen
  known a n t ha hslot := by
    rw [queueLen_eq_zero_iff.1 (honly a ha) n] at hslot
    cases hslot
  first a ha hlen := absurd (honly a ha) hlen
  few := by
    rw [onlyLocals_iff.1 honly, Nat.zero_add]
    exact hover

theorem beats_of_queueLen (ht : Tidy [] p) (hlen : p.queueLen a ≠ 0) : p.beats.contains a = true := by
  refine ht.beating a (Option.isSome_iff_ne_none.2 fun hnone => hlen ?_)
  exact weightAt_of_none hnone

omit [Crypto] in
/-- The remote accounts with queued transactions are all taken. -/
theorem remoteQueued_victims (hfirst : ∀ a, p.locals.contains a = false → p.queueLen a ≠ 0 →
    a ∈ (victims env p).map Prod.fst) : p.remoteQueued = p.queuedBy (victims env p) := by
  have hnodup : ((victims env p).map Prod.fst).Nodup := nodup_victims
  rw [remoteQueued_eq hnodup (fun a ha => ?_) fun a ha hnot => ?_, List.map_map]
  · rfl
  · obtain ⟨e, he, rfl⟩ := List.mem_map.1 ha
    exact (victims_spec he).2.1
  · by_contra hlen
    exact hnot (hfirst a ha hlen)

section Over

variable (ht : Tidy [] p) (hroomy : Roomy p)

include ht hroomy

theorem drainable_of_onlyLocals {log : History} (hover : p.config.globalQueue.toNat < lastLen env p)
    (hrun : truncateQueue env p = ⟨.ok (), p', log⟩)
    (hdrop : drop.toNat = lastLen env p - p.config.globalQueue.toNat)
    (hloop : dropQueues env (victims env p) drop p = ⟨.ok (), p', log⟩)
    (honly : OnlyLocalsQueued p') :
    Drainable env p := by
  have hlocals : p'.locals = p.locals := by
    have h := locals_truncateQueue env ht
    rwa [hrun] at h
  have honly (a : Address) (ha : p.locals.contains a = false) : p'.queueLen a = 0 :=
    honly a (by rw [hlocals]; exact ha)
  have hgood (a : Address) (ha : p.locals.contains a = false) : ¬ Stuck a p := by
    intro hs
    have h := stuck_truncateQueue env ht hs
    rw [hrun] at h
    exact h.queueLen_ne_zero (honly a ha)
  obtain ⟨hall, hsome⟩ := dropQueues_run env ht hroomy nodup_victims (fun e he => (victims_spec he).1)
    (fun e he => hgood e.1 (victims_spec he).2.1) drop
  have hsum : p.queuedBy (victims env p) ≤ drop.toNat := by
    by_contra hlt
    obtain ⟨e, he, hlen⟩ := hsome (Nat.lt_of_not_le hlt) p' log hloop
    exact hlen (honly e.1 (victims_spec he).2.1)
  obtain ⟨q, log', hq, -, hout⟩ := hall hsum
  cases hloop.symm.trans hq
  have hfirst (a : Address) (ha : p.locals.contains a = false) (hlen : p.queueLen a ≠ 0) :
      a ∈ (victims env p).map Prod.fst := by
    by_contra hnot
    exact hlen ((hout a hnot).symm.trans (honly a ha))
  refine ⟨fun a ha hlen => ?_, fun a n t ha hslot => ?_, fun a ha hlen => ?_, ?_⟩
  · by_contra hpending
    exact hgood a ha (.inr ⟨hlen, hpending⟩)
  · by_contra hget
    exact hgood a ha (.inl ⟨n, t, hslot, hget⟩)
  · exact (mem_victims_iff (beats_of_queueLen ht hlen)).1 (hfirst a ha hlen)
  · rw [remoteQueued_victims hfirst]
    omega

theorem drainable_of_total {log : History} (hover : p.config.globalQueue.toNat < lastLen env p)
    (hrun : truncateQueue env p = ⟨.ok (), p', log⟩)
    (hdrop : drop.toNat = lastLen env p - p.config.globalQueue.toNat)
    (hloop : dropQueues env (victims env p) drop p = ⟨.ok (), p', log⟩)
    (htotal : p'.queuedTotal ≤ p.config.globalQueue.toNat) : Drainable env p := by
  by_cases honly : OnlyLocalsQueued p
  · exact .of_onlyLocals honly hover.le
  · -- the last list is that of a remote account, and all others are empty
    have hcount := removal_count ht hroomy hloop
    obtain ⟨z, list, hlist, hlen⟩ := (lastLen_eq env p).resolve_left (by omega)
    have hz : p.queueLen z = lastLen env p := (weightAt_of_get? hlist).trans hlen.symm
    have hempty (b : Address) (hb : b ≠ z) : p.queueLen b = 0 := queueLen_of_ne (by omega) hb
    have hpos : drop > 0 := by
      rw [gt_iff_lt, UInt64.lt_iff_toNat_lt, hdrop]
      exact Nat.sub_pos_of_lt hover
    by_cases hlong : drop.toNat < p.queueLen z
    · have hsame := dropQueues_of_single hroomy (fun e he => (victims_spec he).1) hempty hpos hlong hloop
      have hle := weightAt_le_weight TxList.len p.queue z
      rw [hsame] at htotal
      unfold queuedTotal at htotal
      unfold queueLen at hz
      omega
    · -- the limit is zero
      refine drainable_of_onlyLocals ht hroomy hover hrun hdrop hloop fun a _ => ?_
      have hle := weightAt_le_weight TxList.len p'.queue a
      unfold queuedTotal at htotal
      unfold queueLen
      omega

theorem inLimit_of_drainable (hover : p.config.globalQueue.toNat < lastLen env p)
    (hdrop : drop.toNat = lastLen env p - p.config.globalQueue.toNat)
    (hrun : truncateQueue env p = dropQueues env (victims env p) drop p) (hd : Drainable env p) :
    ∃ p' log, truncateQueue env p = ⟨.ok (), p', log⟩ ∧ OnlyLocalsQueued p' := by
  have hfirst (a : Address) (ha : p.locals.contains a = false) (hlen : p.queueLen a ≠ 0) :
      a ∈ (victims env p).map Prod.fst :=
    (mem_victims_iff (beats_of_queueLen ht hlen)).2 (hd.first a ha hlen)
  have hfew := hd.few
  rw [remoteQueued_victims hfirst] at hfew
  have hsum : p.queuedBy (victims env p) ≤ drop.toNat := by omega
  obtain ⟨p', log, hloop, hin, hout⟩ := (dropQueues_run env ht hroomy nodup_victims
    (fun e he => (victims_spec he).1) (fun e he => hd.not_stuck (victims_spec he).2.1) drop).1 hsum
  have hlocals := locals_truncateQueue env ht
  rw [hrun, hloop] at hlocals
  refine ⟨p', log, hrun.trans hloop, fun a ha => ?_⟩
  rw [show p'.locals = p.locals from hlocals] at ha
  by_cases hmem : a ∈ (victims env p).map Prod.fst
  · obtain ⟨e, he, rfl⟩ := List.mem_map.1 hmem
    exact hin e he
  · by_contra hlen
    rw [hout a hmem] at hlen
    exact hmem (hfirst a ha hlen)

end Over

/-- **When `truncate_queue` enforces the limit of the queue**: if the last list is not over the limit, it
does nothing; otherwise it has to empty all remote accounts. -/
theorem truncateQueue_in_limit_iff (conf : Option TxPoolConfig) (accounts : Option (List Address))
    (state : Address → AccountState) (calls : List (Env × Call)) (env : Env) (p : TxPool)
    (hp : p = (run calls (TxPool.new conf accounts state)).state) (hroomy : Roomy p) :
    (∃ p' log, truncateQueue env p = ⟨.ok (), p', log⟩ ∧ QueueInLimit p.config.globalQueue p') ↔
      if lastLen env p ≤ p.config.globalQueue.toNat then QueueInLimit p.config.globalQueue p
      else Drainable env p := by
  have ht : Tidy [] p := hp ▸ tidy_of_run conf accounts state calls
  have hrun := truncateQueue_run env ht
  have hlast : (UInt64.ofNat (lastLen env p)).toNat = lastLen env p := by
    rw [UInt64.toNat_ofNat', Nat.mod_eq_of_lt (hroomy.lastLen_lt env)]
  by_cases hfew : lastLen env p ≤ p.config.globalQueue.toNat
  · rw [if_pos hfew]
    rw [if_neg (by rw [gt_iff_lt, UInt64.lt_iff_toNat_lt, hlast]; omega)] at hrun
    rw [hrun]
    constructor
    · intro h
      obtain ⟨p', log, h, hlimit⟩ := h
      cases h
      exact hlimit
    · exact fun h => ⟨p, [], rfl, h⟩
  · rw [if_neg hfew]
    have hover : p.config.globalQueue < UInt64.ofNat (lastLen env p) := by
      rw [UInt64.lt_iff_toNat_lt, hlast]
      omega
    have hdrop : (UInt64.ofNat (lastLen env p) - p.config.globalQueue).toNat =
        lastLen env p - p.config.globalQueue.toNat := by
      rw [UInt64.toNat_sub_of_le _ _ (UInt64.le_of_lt hover), hlast]
    rw [if_pos hover] at hrun
    have hover := Nat.lt_of_not_le hfew
    constructor
    · intro h
      obtain ⟨p', log, hok, htotal | honly⟩ := h
      · exact drainable_of_total ht hroomy hover hok hdrop (hrun.symm.trans hok) htotal
      · exact drainable_of_onlyLocals ht hroomy hover hok hdrop (hrun.symm.trans hok) honly
    · intro hd
      obtain ⟨p', log, hok, honly⟩ := inLimit_of_drainable ht hroomy hover hdrop hrun hd
      exact ⟨p', log, hok, .inr honly⟩

end Truncation

open Sample

/-- After a move to a new head, a local account has three queued transactions and a remote one has one. -/
def demotedPool : TxPool :=
  (run [(env, .addLocals [pay 1 9 5 1 10]),
    (env, .addLocals [pay 1 9 3 1 10, pay 1 9 4 1 10]),
    (env, .addRemotes [pay 2 9 5 1 11]), (env, move)] (pool 4)).state

def reversedEnv : Env := { env with keyOrder := fun _ => ⟨List.reverse, List.reverse_perm⟩ }

theorem truncateQueue_in_limit_iff_demoted :
    demotedPool.remoteQueued = 1 ∧ Drainable reversedEnv demotedPool := by
  refine ⟨by decide +kernel, ?_⟩
  have hiff := truncateQueue_in_limit_iff (some ⟨10, 1, 4, 1, 1⟩) none rich _ reversedEnv demotedPool
    (by unfold demotedPool pool; rfl) (roomy_of_free 0 (by decide +kernel))
  rw [if_neg (by decide +kernel)] at hiff
  have hok : (truncateQueue reversedEnv demotedPool).res = .ok () := by decide +kernel
  refine hiff.1 ⟨_, _, Run.eq_of_res hok, .inr (onlyLocals_iff.2 (by decide +kernel))⟩

/-- Two remote accounts have a queued transaction each: the limit is one, and nothing happens. -/
theorem truncateQueue_keeps_two :
    ∃ p, p = (run [(env, .addRemotes [pay 1 9 5 1 10]),
        (env, .addRemotes [pay 1 9 3 1 10]), (env, .addRemotes [pay 2 9 5 1 11]),
        (env, .addRemotes [pay 2 9 3 1 11])] (pool 4)).state ∧
      p.config.globalQueue = 1 ∧ (truncateQueue env p).state.queuedTotal = 2 ∧
      ¬ QueueInLimit p.config.globalQueue (truncateQueue env p).state := by
  refine ⟨_, rfl, by decide +kernel, by decide +kernel, fun h => ?_⟩
  rcases h with htotal | honly
  · exact absurd htotal (by decide +kernel)
  · exact absurd (onlyLocals_iff.1 honly) (by decide +kernel)

end TxPool

end Uchain
