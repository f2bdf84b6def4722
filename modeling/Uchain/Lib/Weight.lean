import Mathlib.Algebra.Order.BigOperators.Group.List
import Mathlib.Algebra.Order.Ring.Nat
import Uchain.Lib.BTreeMap

/-!
# Weights of a map

`m.weight f` is the sum of `f` over the values of a map, `m.weightAt f k` the part of one key. A change of
one key changes the weight by what it changes there.
-/

namespace Lib.BTreeMap

variable {κ ν : Type} [LinearOrder κ]

def weight (f : ν → Nat) (m : BTreeMap κ ν) : Nat := (m.values.map f).sum

def weightAt (f : ν → Nat) (m : BTreeMap κ ν) (k : κ) : Nat := ((m.get? k).map f).getD 0

variable {f : ν → Nat} {m m' : BTreeMap κ ν} {k : κ} {v : ν}

theorem weightAt_of_get? (h : m.get? k = some v) : m.weightAt f k = f v := by
  rw [weightAt, h]
  rfl

theorem weightAt_of_none (h : m.get? k = none) : m.weightAt f k = 0 := by
  rw [weightAt, h]
  rfl

theorem weightAt_congr (h : m'.get? k = m.get? k) : m'.weightAt f k = m.weightAt f k := by
  rw [weightAt, h, weightAt]

theorem weight_erase (f : ν → Nat) (m : BTreeMap κ ν) (k : κ) :
    m.weight f = m.weightAt f k + (m.erase k).weight f := by
  cases h : m.get? k with
  | none => rw [weightAt_of_none h, erase_of_none h, Nat.zero_add]
  | some v =>
    rw [weightAt_of_get? h, weight, ((values_erase h).map f).sum_nat]
    exact List.sum_cons

theorem weightAt_le_weight (f : ν → Nat) (m : BTreeMap κ ν) (k : κ) : m.weightAt f k ≤ m.weight f := by
  have h := m.weight_erase f k
  omega

theorem weight_add_weightAt (h : ∀ j, j ≠ k → m'.get? j = m.get? j) :
    m'.weight f + m.weightAt f k = m.weight f + m'.weightAt f k := by
  have herase : m'.erase k = m.erase k := by
    refine ext_get? fun j => ?_
    rw [get?_erase, get?_erase]
    split
    · rfl
    · rename_i hj
      exact h j hj
  have h₁ := m.weight_erase f k
  have h₂ := m'.weight_erase f k
  rw [herase] at h₂
  omega

theorem weight_eq_zero (h : ∀ k, m.weightAt f k = 0) : m.weight f = 0 := by
  refine List.sum_eq_zero fun n hn => ?_
  obtain ⟨v, hv, rfl⟩ := List.mem_map.1 hn
  obtain ⟨k, hk⟩ := mem_values_iff.1 hv
  exact (weightAt_of_get? hk).symm.trans (h k)

/-- **The weight is the sum over any keys that have all of it.** -/
theorem weight_eq_sum : ∀ {ks : List κ} {m : BTreeMap κ ν}, ks.Nodup →
    (∀ k, k ∉ ks → m.weightAt f k = 0) → m.weight f = (ks.map (m.weightAt f)).sum
  | [], m, _, h => weight_eq_zero fun k => h k List.not_mem_nil
  | k :: ks, m, hks, h => by
    obtain ⟨hk, hks⟩ := List.nodup_cons.1 hks
    have hother (j : κ) (hj : j ≠ k) : (m.erase k).weightAt f j = m.weightAt f j :=
      weightAt_congr ((get?_erase m k j).trans (if_neg hj))
    have hrest : (m.erase k).weight f = (ks.map ((m.erase k).weightAt f)).sum := by
      refine weight_eq_sum hks fun j hj => ?_
      by_cases hjk : j = k
      · rw [hjk]
        exact weightAt_of_none ((get?_erase m k k).trans (if_pos rfl))
      · rw [hother j hjk]
        exact h j (by simp [hjk, hj])
    rw [m.weight_erase f k, hrest, List.map_cons, List.sum_cons]
    congr 2
    exact List.map_congr_left fun j hj => hother j fun heq => hk (heq ▸ hj)

theorem weight_add_sum : ∀ {ks : List κ} (m m' : BTreeMap κ ν), ks.Nodup →
    (∀ j, j ∉ ks → m'.get? j = m.get? j) →
      m'.weight f + (ks.map (m.weightAt f)).sum = m.weight f + (ks.map (m'.weightAt f)).sum
  | [], m, m', _, h => by
    rw [ext_get? fun j => h j List.not_mem_nil]
  | k :: ks, m, m', hks, h => by
    obtain ⟨hk, hks⟩ := List.nodup_cons.1 hks
    have hother (m : BTreeMap κ ν) : ks.map ((m.erase k).weightAt f) = ks.map (m.weightAt f) :=
      List.map_congr_left fun j hj => weightAt_congr
        ((get?_erase m k j).trans (if_neg fun heq : j = k => hk (heq ▸ hj)))
    have ih := weight_add_sum (m.erase k) (m'.erase k) hks fun j hj => by
      rw [get?_erase, get?_erase]
      split
      · rfl
      · rename_i hjk
        exact h j (by simp [hjk, hj])
    rw [hother, hother] at ih
    have h₁ := m.weight_erase f k
    have h₂ := m'.weight_erase f k
    simp only [List.map_cons, List.sum_cons]
    omega

theorem sum_weightAt_le_weight {ks : List κ} (hks : ks.Nodup) :
    (ks.map (m.weightAt f)).sum ≤ m.weight f := by
  have hzero : (ks.map ((m.filter fun k _ => decide (k ∉ ks)).weightAt f)).sum = 0 := by
    refine List.sum_eq_zero fun n hn => ?_
    obtain ⟨k, hk, rfl⟩ := List.mem_map.1 hn
    refine weightAt_of_none ?_
    rw [get?_filter]
    cases m.get? k <;> simp [hk]
  have hsum := weight_add_sum (f := f) m (m.filter fun k _ => decide (k ∉ ks)) hks fun j hj => by
    rw [get?_filter]
    cases m.get? j <;> simp [hj]
  omega

end Lib.BTreeMap
