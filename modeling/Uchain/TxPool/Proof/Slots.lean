import Mathlib.Algebra.Order.BigOperators.Group.List
import Uchain.TxPool.Proof.Moves
import Uchain.TxPool.Sample

/-!
# The slots of the lookup

`TxLookup::add` adds the slots of a transaction without a look at what is there. The pool adds a hash
only after it found that it is new, so that the counter is exact.

`slots_exact_of_run`: in every pool along a run the two maps are disjoint and the counter is the sum of
the slots of the transactions in them; in a pool that fits a memory no removal underflows it.
-/

namespace Uchain

open Lib Exec BTreeMap

namespace TxLookup

def txs (t : TxLookup) : List SignedTransaction := t.locals.values ++ t.remotes.values

def slotsHeld (t : TxLookup) : Nat := (t.txs.map fun tx => (numSlots tx).toNat).sum

def bytesHeld (t : TxLookup) : Nat := (t.txs.map Wire.signedTransaction.encodedLen).sum

/-- The maps are disjoint, and the counter is the sum, as a 64-bit number. -/
structure Counted (t : TxLookup) : Prop where
  disjoint : t.Disjoint
  slots : t.slots = .ofNat t.slotsHeld

theorem counted_new : Counted new := ⟨fun _ => .inl rfl, rfl⟩

variable {t : TxLookup}

variable {tx : SignedTransaction}

theorem slotsHeld_of_perm {t' : TxLookup} (h : t'.txs.Perm (tx :: t.txs)) :
    t'.slotsHeld = (numSlots tx).toNat + t.slotsHeld := by
  unfold slotsHeld
  rw [(h.map _).sum_nat, List.map_cons, List.sum_cons]

/-! ## What the operations do to the transactions -/

variable {h : H256}

theorem txs_remove_of_none (hget : t.get h = none) : t.remove h = t := by
  obtain ⟨hl, hr⟩ := get_eq_none_iff.1 hget
  unfold remove
  rw [erase_of_none hl, erase_of_none hr, hl, hr]
  rfl

theorem txs_remove (hd : t.Disjoint) (hget : t.get h = some tx) :
    t.txs.Perm (tx :: (t.remove h).txs) := by
  unfold txs remove
  rcases Option.or_eq_some_iff.1 hget with hl | ⟨hl, hr⟩
  · have hr : t.remotes.get? h = none := (hd h).resolve_left (by rw [hl]; exact Option.some_ne_none tx)
    rw [erase_of_none hr]
    exact (values_erase hl).append_right _
  · rw [erase_of_none hl]
    exact ((values_erase hr).append_left _).trans List.perm_middle

theorem slots_remove (hget : t.get h = some tx) :
    (t.remove h).slots = t.slots - numSlots tx := by
  unfold remove
  rw [show (t.locals.get? h).or (t.remotes.get? h) = some tx from hget]

theorem Counted.remove (hc : t.Counted) (h : H256) : (t.remove h).Counted := by
  refine ⟨hc.disjoint.remove h, ?_⟩
  cases hget : t.get h with
  | none =>
    rw [txs_remove_of_none hget]
    exact hc.slots
  | some tx =>
    have hsum := slotsHeld_of_perm (txs_remove hc.disjoint hget)
    rw [slots_remove hget, hc.slots, hsum, UInt64.ofNat_add, UInt64.ofNat_toNat,
      UInt64.add_comm, UInt64.add_sub_cancel]

variable [Crypto]

theorem txs_add (hnew : t.get tx.hash = none) (isLocal : Bool) :
    (t.add tx isLocal).txs.Perm (tx :: t.txs) := by
  obtain ⟨hl, hr⟩ := get_eq_none_iff.1 hnew
  unfold txs add
  cases isLocal with
  | true => exact (values_insert t.locals tx hl).append_right _
  | false =>
    exact ((values_insert t.remotes tx hr).append_left _).trans List.perm_middle

theorem slots_add (t : TxLookup) (tx : SignedTransaction) (isLocal : Bool) :
    (t.add tx isLocal).slots = t.slots + numSlots tx := by
  cases isLocal <;> rfl

theorem Counted.add (hc : t.Counted) (hnew : t.get tx.hash = none) (isLocal : Bool) :
    (t.add tx isLocal).Counted := by
  refine ⟨hc.disjoint.add hnew isLocal, ?_⟩
  rw [slots_add, slotsHeld_of_perm (txs_add hnew isLocal), hc.slots, UInt64.ofNat_add,
    UInt64.ofNat_toNat, UInt64.add_comm]

theorem txs_remoteToLocals (hd : t.Disjoint) (accounts : AccountSet) :
    (t.remoteToLocals accounts).2.txs.Perm t.txs := by
  have hnew : ∀ e ∈ (t.migrated accounts).entries, t.locals.get? e.1 = none := by
    intro e he
    have hmem : t.remotes.get? e.1 = some e.2 :=
      mem_entries_iff.1 (List.mem_filter.1 he).1
    exact (hd e.1).resolve_right (by rw [hmem]; exact Option.some_ne_none _)
  have hlocals : (t.remoteToLocals accounts).2.locals.values.Perm
      ((t.migrated accounts).values ++ t.locals.values) :=
    values_foldl_insert t.locals (t.migrated accounts).sorted hnew
  have hremotes := values_filter (fun _ tx => accounts.contains tx.sender) t.remotes
  unfold txs
  refine (hlocals.append_right _).trans ?_
  refine (List.perm_append_comm.append_right _).trans ?_
  rw [List.append_assoc]
  exact hremotes.append_left _

theorem Counted.remoteToLocals (hc : t.Counted) (accounts : AccountSet) :
    (t.remoteToLocals accounts).2.Counted := by
  refine ⟨hc.disjoint.remoteToLocals accounts, ?_⟩
  have hsum : (t.remoteToLocals accounts).2.slotsHeld = t.slotsHeld :=
    ((txs_remoteToLocals hc.disjoint accounts).map _).sum_nat
  rw [hsum]
  exact hc.slots

omit [Crypto]

/-! ## A pool that fits a memory -/

theorem numSlots_le (tx : SignedTransaction) :
    (numSlots tx).toNat ≤ Wire.signedTransaction.encodedLen tx := by
  have hlen := UInt64.toNat_ofNat' (n := Wire.signedTransaction.encodedLen tx)
  unfold numSlots txSlotSize
  generalize Wire.signedTransaction.encodedLen tx = len at hlen ⊢
  have hsize : (32 * 1024 : UInt64).toNat = 32768 := rfl
  rw [UInt64.toNat_div, UInt64.toNat_sub, UInt64.toNat_add, hlen, hsize]
  have hone : (1 : UInt64).toNat = 1 := rfl
  rw [hone]
  omega

theorem slotsHeld_le_bytesHeld (t : TxLookup) : t.slotsHeld ≤ t.bytesHeld :=
  List.sum_le_sum fun tx _ => numSlots_le tx

theorem mem_txs_of_get (hget : t.get h = some tx) :
    tx ∈ t.txs := by
  rcases Option.or_eq_some_iff.1 hget with hl | ⟨-, hr⟩
  · exact List.mem_append_left _ (mem_values_iff.2 ⟨h, hl⟩)
  · exact List.mem_append_right _ (mem_values_iff.2 ⟨h, hr⟩)

theorem Counted.toNat_slots (hc : t.Counted) (hfits : t.bytesHeld < 2 ^ 64) :
    t.slots.toNat = t.slotsHeld := by
  rw [hc.slots, UInt64.toNat_ofNat', Nat.mod_eq_of_lt]
  exact t.slotsHeld_le_bytesHeld.trans_lt hfits

theorem Counted.numSlots_le_slots (hc : t.Counted) (hfits : t.bytesHeld < 2 ^ 64)
    (hget : t.get h = some tx) : numSlots tx ≤ t.slots := by
  rw [UInt64.le_iff_toNat_le, hc.toNat_slots hfits]
  exact List.single_le_sum (fun n _ => Nat.zero_le n) _
    (List.mem_map.2 ⟨tx, mem_txs_of_get hget, rfl⟩)

end TxLookup

namespace TxPool

theorem counted_rule [Crypto] : LookupRule TxLookup.Counted where
  remove _ h hc := hc.remove h
  add _ _ isLocal hnew hc := hc.add hnew isLocal
  migrate _ accounts hc := hc.remoteToLocals accounts

/-- **The slots are counted exactly**: in every pool that a run from an empty pool goes through, the
maps of the lookup are disjoint and the counter is the sum of the slots of the transactions in them.
If the transactions fit a memory of 2^64 bytes, the sum is below 2^64 and there is enough in the counter
for the removal of each of them. -/
theorem slots_exact_of_run [Crypto] (conf : Option TxPoolConfig) (accounts : Option (List Address))
    (state : Address → AccountState) (calls : List (Env × Call)) (q : TxPool)
    (hq : q = (run calls (TxPool.new conf accounts state)).state ∨
      ∃ action, (action, q) ∈ (run calls (TxPool.new conf accounts state)).log) :
    q.all.Disjoint ∧ q.all.slots = .ofNat q.all.slotsHeld ∧
      (q.all.bytesHeld < 2 ^ 64 → q.all.slots.toNat = q.all.slotsHeld ∧
        ∀ h tx, q.all.get h = some tx → numSlots tx ≤ q.all.slots) := by
  have hthrough := (steady_of_run conf accounts state calls counted_rule TxLookup.counted_new).2.2
  have hcounted : q.all.Counted := by
    rcases hq with rfl | ⟨action, hmem⟩
    · exact hthrough.1
    · exact hthrough.2 (action, q) hmem
  refine ⟨hcounted.disjoint, hcounted.slots, fun hfits => ⟨hcounted.toNat_slots hfits, ?_⟩⟩
  intro h tx hget
  exact hcounted.numSlots_le_slots hfits hget

open Sample

theorem slots_exact_of_run_crowd :
    (run crowd (pool 4)).state.all.txs ≠ [] ∧
      (run crowd (pool 4)).state.all.slots.toNat =
        (run crowd (pool 4)).state.all.slotsHeld := by
  obtain ⟨-, -, hexact⟩ := slots_exact_of_run (some ⟨10, 1, 4, 1, 1⟩) none rich crowd
    (run crowd (pool 4)).state (.inl (by unfold pool; rfl))
  have hfits : (run crowd (pool 4)).state.all.bytesHeld < 2 ^ 64 := by decide +kernel
  exact ⟨by decide +kernel, (hexact hfits).1⟩

end TxPool

end Uchain
