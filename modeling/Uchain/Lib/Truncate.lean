import Mathlib.Data.Nat.Size
import Mathlib.Order.Monotone.Basic
import Mathlib.Tactic.Positivity

/-!
# Truncation to the leading bits

A number format that keeps the leading bits of a number: `drop v` says how many low bits of `v` are
lost. If larger numbers lose no fewer bits, and a truncated number loses as many as before, then
truncation is idempotent and monotone.
-/

namespace Lib

/-- Clearing low bits below the leading one keeps the size. -/
theorem size_div_mul_pow {v k : Nat} (hk : k < Nat.size v) :
    Nat.size (v / 2 ^ k * 2 ^ k) = Nat.size v := by
  refine le_antisymm (Nat.size_le_size (Nat.div_mul_le_self v _)) ?_
  have hlead : 2 ^ (Nat.size v - 1) ≤ v := Nat.lt_size.1 (by omega)
  have hmul : 2 ^ (Nat.size v - 1) = 2 ^ (Nat.size v - 1 - k) * 2 ^ k := by
    rw [← pow_add]
    congr 1
    omega
  have hle : 2 ^ (Nat.size v - 1) ≤ v / 2 ^ k * 2 ^ k := by
    rw [hmul] at hlead ⊢
    exact Nat.mul_le_mul_right _ ((Nat.le_div_iff_mul_le (by positivity)).2 hlead)
  have := Nat.lt_size.2 hle
  omega

structure Precision where
  drop : Nat → Nat
  mono : Monotone drop
  stable : ∀ v, drop (v / 2 ^ drop v * 2 ^ drop v) = drop v

namespace Precision

variable (p : Precision) {v w : Nat}

def truncate (v : Nat) : Nat := v / 2 ^ p.drop v * 2 ^ p.drop v

theorem truncate_le (v : Nat) : p.truncate v ≤ v := Nat.div_mul_le_self v _

theorem sub_truncate_lt (v : Nat) : v - p.truncate v < 2 ^ p.drop v := by
  have hmod := Nat.mod_lt v (show 2 ^ p.drop v > 0 by positivity)
  have hsplit := Nat.div_add_mod' v (2 ^ p.drop v)
  rw [truncate]
  omega

theorem drop_truncate (v : Nat) : p.drop (p.truncate v) = p.drop v := p.stable v

/-- Where the larger number loses more bits, the smaller one lies below its truncation. -/
theorem truncate_mono (h : v ≤ w) : p.truncate v ≤ p.truncate w := by
  rcases (p.mono h).lt_or_eq with hlt | heq
  · refine (p.truncate_le v).trans (le_of_lt (lt_of_not_ge fun hle => ?_))
    have hdrop := p.mono hle
    rw [drop_truncate] at hdrop
    exact absurd hlt (not_lt_of_ge hdrop)
  · rw [truncate, truncate, heq]
    exact Nat.mul_le_mul_right _ (Nat.div_le_div_right h)

end Precision

end Lib
