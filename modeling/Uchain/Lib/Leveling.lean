import Mathlib.Algebra.Order.BigOperators.Group.List
import Mathlib.Algebra.Order.Ring.Nat

/-!
# Levelling by rounds

Items with a length each join a group one after the other, the longest first, and every round takes one
from each item of the group. The next item joins once the last but one of the group is not longer than the
last one was when it joined. An item that joined in round `u` has lost `t - u` after `t` rounds.

`joins len items`: the items with the rounds they join in, in closed form.
-/

namespace Lib.Leveling

variable {ι : Type} (len : ι → Nat)

/-- The round in which an item joins after `prev` and `last`, which joined last. -/
def passEnd (prev last : ι × Nat) : Nat := max last.2 (prev.2 + (len prev.1 - len last.1))

def joinsFrom (prev last : ι × Nat) : List ι → List (ι × Nat)
  | [] => []
  | i :: items => (i, passEnd len prev last) :: joinsFrom last (i, passEnd len prev last) items

/-- The first item stands for the one before it too. -/
def joins : List ι → List (ι × Nat)
  | [] => []
  | i :: items => (i, 0) :: joinsFrom len (i, 0) (i, 0) items

/-- The round after which nobody is left to join. -/
def endFrom (prev last : ι × Nat) : List ι → Nat
  | [] => passEnd len prev last
  | i :: items => endFrom last (i, passEnd len prev last) items

def allJoined : List ι → Nat
  | [] => 0
  | i :: items => endFrom len (i, 0) (i, 0) items

/-- What the items lose in `t` rounds. -/
def lost (js : List (ι × Nat)) (t : Nat) : Nat := (js.map fun e => t - e.2).sum

variable {len} {prev last : ι × Nat} {items : List ι} {js js' : List (ι × Nat)} {t u : Nat}

theorem joinsFrom_fst : (joinsFrom len prev last items).map Prod.fst = items := by
  induction items generalizing prev last with
  | nil => rfl
  | cons i items ih => rw [joinsFrom, List.map_cons, ih]

theorem joins_fst : (joins len items).map Prod.fst = items := by
  cases items with
  | nil => rfl
  | cons i items => rw [joins, List.map_cons, joinsFrom_fst]

theorem passEnd_le_of_mem {e : ι × Nat} (he : e ∈ joinsFrom len prev last items) :
    passEnd len prev last ≤ e.2 := by
  induction items generalizing prev last with
  | nil => cases he
  | cons i items ih =>
    rcases List.mem_cons.1 he with rfl | he
    · exact le_rfl
    · exact le_trans (le_max_left (passEnd len prev last) _) (ih he)

theorem passEnd_le_endFrom : passEnd len prev last ≤ endFrom len prev last items := by
  induction items generalizing prev last with
  | nil => exact le_rfl
  | cons i items ih =>
    have hnext : passEnd len prev last ≤ passEnd len last (i, passEnd len prev last) := le_max_left _ _
    exact hnext.trans ih

theorem le_endFrom_of_mem {e : ι × Nat} (he : e ∈ joinsFrom len prev last items) :
    e.2 ≤ endFrom len prev last items := by
  induction items generalizing prev last with
  | nil => cases he
  | cons i items ih =>
    rcases List.mem_cons.1 he with rfl | he
    · have hnext : passEnd len prev last ≤ passEnd len last (i, passEnd len prev last) := le_max_left _ _
      exact hnext.trans passEnd_le_endFrom
    · exact ih he

theorem le_allJoined_of_mem {e : ι × Nat} (he : e ∈ joins len items) : e.2 ≤ allJoined len items := by
  cases items with
  | nil => cases he
  | cons i items =>
    rcases List.mem_cons.1 he with rfl | he
    · exact Nat.zero_le _
    · exact le_endFrom_of_mem he

theorem lost_append : lost (js ++ js') t = lost js t + lost js' t := by
  rw [lost, lost, lost, List.map_append, List.sum_append]

theorem lost_zero (js : List (ι × Nat)) : lost js 0 = 0 := by
  refine List.sum_eq_zero fun n hn => ?_
  obtain ⟨e, -, rfl⟩ := List.mem_map.1 hn
  exact Nat.zero_sub e.2

theorem lost_eq_zero (h : ∀ e ∈ js, t ≤ e.2) : lost js t = 0 := by
  refine List.sum_eq_zero fun n hn => ?_
  obtain ⟨e, he, rfl⟩ := List.mem_map.1 hn
  exact Nat.sub_eq_zero_of_le (h e he)

theorem lost_succ (h : ∀ e ∈ js, e.2 ≤ t) : lost js (t + 1) = lost js t + js.length := by
  induction js with
  | nil => rfl
  | cons e js ih =>
    obtain ⟨he, hjs⟩ := List.forall_mem_cons.1 h
    have ih := ih hjs
    unfold lost at ih ⊢
    rw [List.map_cons, List.sum_cons, List.map_cons, List.sum_cons, ih, List.length_cons]
    omega

theorem lost_round (hjs : ∀ e ∈ js, e.2 ≤ t) (hjs' : ∀ e ∈ js', t < e.2) :
    lost (js ++ js') (t + 1) = lost (js ++ js') t + js.length := by
  have hzero : lost js' t = 0 := lost_eq_zero fun e he => (hjs' e he).le
  have hzero' : lost js' (t + 1) = 0 := lost_eq_zero hjs'
  rw [lost_append, lost_append, lost_succ hjs, hzero, hzero']
  omega

/-- What is lost is no more than the items have, if none loses more than it has. -/
theorem lost_le (h : ∀ e ∈ js, t - e.2 ≤ len e.1) : lost js t ≤ ((js.map Prod.fst).map len).sum := by
  rw [List.map_map]
  exact List.sum_le_sum h

/-! ## Items of one length -/

theorem passEnd_of_eq (prev last : ι × Nat) (hlen : len prev.1 = len last.1) (hprev : prev.2 = 0) (hlast : last.2 = 0) :
    passEnd len prev last = 0 := by
  rw [passEnd, hlen, hprev, hlast]
  simp

theorem joinsFrom_of_equal {n : Nat} (prev last : ι × Nat) (hprev : len prev.1 = n ∧ prev.2 = 0)
    (hlast : len last.1 = n ∧ last.2 = 0) (h : ∀ i ∈ items, len i = n) :
    (∀ e ∈ joinsFrom len prev last items, e.2 = 0) ∧ endFrom len prev last items = 0 := by
  have hend := passEnd_of_eq prev last (hprev.1.trans hlast.1.symm) hprev.2 hlast.2
  induction items generalizing prev last with
  | nil => exact ⟨fun e he => absurd he List.not_mem_nil, hend⟩
  | cons i items ih =>
    obtain ⟨hi, hitems⟩ := List.forall_mem_cons.1 h
    have hend' := passEnd_of_eq last (i, passEnd len prev last) (hlast.1.trans hi.symm) hlast.2 hend
    obtain ⟨hjoins, hlastEnd⟩ := ih last _ hlast ⟨hi, hend⟩ hitems hend'
    exact ⟨List.forall_mem_cons.2 ⟨hend, hjoins⟩, hlastEnd⟩

theorem joins_of_equal {n : Nat} (h : ∀ i ∈ items, len i = n) :
    (∀ e ∈ joins len items, e.2 = 0) ∧ allJoined len items = 0 := by
  cases items with
  | nil => exact ⟨fun e he => absurd he List.not_mem_nil, rfl⟩
  | cons i items =>
    obtain ⟨hi, hitems⟩ := List.forall_mem_cons.1 h
    obtain ⟨hjoins, hend⟩ := joinsFrom_of_equal (i, 0) (i, 0) ⟨hi, rfl⟩ ⟨hi, rfl⟩ hitems
    exact ⟨List.forall_mem_cons.2 ⟨rfl, hjoins⟩, hend⟩

/-- **Only items of one length get down to one level together.** -/
theorem equal_of_level {n : Nat} (h : ∀ e ∈ joins len items, len e.1 = n + (t - e.2)) :
    ∀ i ∈ items, len i = n + t := by
  have hfrom {prev last : ι × Nat} {items : List ι} (hprev : len prev.1 = n + t ∧ prev.2 = 0)
      (hlast : len last.1 = n + t ∧ last.2 = 0)
      (h : ∀ e ∈ joinsFrom len prev last items, len e.1 = n + (t - e.2)) :
      ∀ i ∈ items, len i = n + t := by
    induction items generalizing prev last with
    | nil => exact fun i hi => absurd hi List.not_mem_nil
    | cons i items ih =>
      have hend := passEnd_of_eq prev last (hprev.1.trans hlast.1.symm) hprev.2 hlast.2
      obtain ⟨hi, hitems⟩ := List.forall_mem_cons.1 h
      have hlen : len i = n + t := by
        rw [hi, hend, Nat.sub_zero]
      exact List.forall_mem_cons.2 ⟨hlen, ih hlast ⟨hlen, hend⟩ hitems⟩
  cases items with
  | nil => exact fun i hi => absurd hi List.not_mem_nil
  | cons i items =>
    obtain ⟨hi, hitems⟩ := List.forall_mem_cons.1 h
    have hlen : len i = n + t := by
      rw [hi, Nat.sub_zero]
    exact List.forall_mem_cons.2 ⟨hlen, hfrom ⟨hlen, rfl⟩ ⟨hlen, rfl⟩ hitems⟩

end Lib.Leveling
