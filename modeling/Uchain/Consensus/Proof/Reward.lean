import Mathlib.Algebra.BigOperators.Intervals
import Mathlib.Algebra.Order.BigOperators.Group.Finset
import Mathlib.Tactic.NormNum
import Uchain.Consensus.Barossa

/-!
# The reward schedule

The reward of a level is `initialReward` less the fourth power of the level over `spread`, rounded
down. The rewards of all levels together stay within `maxSupplyPrecomputed`: the fourth powers sum up
to at least `n ^ 5 / 5 + n ^ 4 / 2`, and the rounding loses less than one at each level. Above
`maxBlockHeight` the subtraction underflows.
-/

namespace Uchain

theorem le_sum_pow_four (n : Nat) : 2 * n ^ 5 + 5 * n ^ 4 ≤ 10 * ∑ l ∈ Finset.Icc 1 n, l ^ 4 := by
  induction n with
  | zero => simp
  | succ n ih =>
    rw [Finset.sum_Icc_succ_top (by omega), Nat.mul_add]
    have hstep : 2 * (n + 1) ^ 5 + 5 * (n + 1) ^ 4 + (10 * n ^ 2 + 10 * n + 3) =
        2 * n ^ 5 + 5 * n ^ 4 + 10 * (n + 1) ^ 4 := by ring
    omega

/-- Rounding each quotient down loses less than one each time. -/
theorem sum_le_mul_sum_div {d : Nat} (hd : 0 < d) (f : Nat → Nat) (n : Nat) :
    ∑ l ∈ Finset.Icc 1 n, f l ≤ d * ∑ l ∈ Finset.Icc 1 n, f l / d + n * d := by
  induction n with
  | zero => simp
  | succ n ih =>
    rw [Finset.sum_Icc_succ_top (by omega), Finset.sum_Icc_succ_top (by omega), Nat.mul_add,
      Nat.succ_mul]
    have hdiv := Nat.div_add_mod (f (n + 1)) d
    have hmod := Nat.mod_lt (f (n + 1)) hd
    omega

theorem spread_eq : spread = 39062500000000000000 := by
  norm_num [spread, maxBlockHeight, initialReward]

theorem sum_pow_four_le (n : Nat) : ∑ l ∈ Finset.Icc 1 n, l ^ 4 ≤
    spread * ∑ l ∈ Finset.Icc 1 n, l ^ 4 / spread + n * spread := by
  refine sum_le_mul_sum_div ?_ (· ^ 4) n
  norm_num [spread_eq]

theorem maxSupplyPrecomputed_eq : maxSupplyPrecomputed = 200000005012475762 := by
  norm_num [maxSupplyPrecomputed, maxSupplyApprox, spread_eq, maxBlockHeight, initialReward,
    precisionCorrection]

theorem pow_div_spread_le {l : Nat} (hl : l ≤ maxBlockHeight) : l ^ 4 / spread ≤ initialReward :=
  calc l ^ 4 / spread ≤ maxBlockHeight ^ 4 / spread := Nat.div_le_div_right (Nat.pow_le_pow_left hl 4)
    _ = initialReward := by norm_num [spread_eq, maxBlockHeight, initialReward]

/-- Up to the last height with a reward nothing wraps. -/
theorem minerRewardAt_eq {l : Nat} (hl : l ≤ maxBlockHeight) :
    minerRewardAt l = initialReward - l ^ 4 / spread := by
  have hpow : l ^ 4 < 2 ^ 128 :=
    calc l ^ 4 ≤ maxBlockHeight ^ 4 := Nat.pow_le_pow_left hl 4
      _ < 2 ^ 128 := by norm_num [maxBlockHeight]
  have hdiv := pow_div_spread_le hl
  have hinitial : initialReward < 2 ^ 128 := by norm_num [initialReward]
  rw [minerRewardAt, Nat.mod_eq_of_lt hpow, Nat.add_sub_assoc hdiv, Nat.add_mod_left,
    Nat.mod_eq_of_lt ((Nat.sub_le _ _).trans_lt hinitial)]

theorem minerRewardAt_antitone {l l' : Nat} (hle : l ≤ l') (hl' : l' ≤ maxBlockHeight) :
    minerRewardAt l' ≤ minerRewardAt l := by
  rw [minerRewardAt_eq hl', minerRewardAt_eq (hle.trans hl')]
  exact Nat.sub_le_sub_left (Nat.div_le_div_right (Nat.pow_le_pow_left hle 4)) _

theorem minerRewardAt_maxBlockHeight : minerRewardAt maxBlockHeight = 0 := by
  rw [minerRewardAt_eq le_rfl]
  norm_num [spread_eq, maxBlockHeight, initialReward]

theorem sum_minerRewardAt_add {n : Nat} (hn : n ≤ maxBlockHeight) :
    ∑ l ∈ Finset.Icc 1 n, minerRewardAt l + ∑ l ∈ Finset.Icc 1 n, l ^ 4 / spread =
      n * initialReward := by
  rw [← Finset.sum_add_distrib, Finset.sum_congr rfl (g := fun _ => initialReward)]
  · simp
  · intro l hl
    have hl := (Finset.mem_Icc.1 hl).2.trans hn
    rw [minerRewardAt_eq hl, Nat.sub_add_cancel (pow_div_spread_le hl)]

theorem rewards_le {n reward d rewards floors powers : Nat} (hn : n = 25000000)
    (hreward : reward = 10000000000) (hd : d = 39062500000000000000)
    (hsum : rewards + floors = n * reward) (hpow : 2 * n ^ 5 + 5 * n ^ 4 ≤ 10 * powers)
    (hfloor : powers ≤ d * floors + n * d) : rewards ≤ 200000005012475762 := by
  subst hn hreward hd
  norm_num at hpow
  omega

theorem sum_minerRewardAt_le {n : Nat} (hn : n ≤ maxBlockHeight) :
    ∑ l ∈ Finset.Icc 1 n, minerRewardAt l ≤ maxSupplyPrecomputed := by
  refine (Finset.sum_le_sum_of_subset (Finset.Icc_subset_Icc_right hn)).trans ?_
  rw [maxSupplyPrecomputed_eq]
  have hheight : maxBlockHeight = 25000000 := rfl
  have hreward : initialReward = 10000000000 := rfl
  exact rewards_le hheight hreward spread_eq (sum_minerRewardAt_add le_rfl)
    (le_sum_pow_four maxBlockHeight) (sum_pow_four_le maxBlockHeight)

theorem BarossaProtocol.minerReward_toNat (p : BarossaProtocol) {l : Nat}
    (hl : l ≤ maxBlockHeight) : (p.minerReward (.ofNat l)).toNat = minerRewardAt l := by
  have hle : minerRewardAt l ≤ initialReward := by
    rw [minerRewardAt_eq hl]
    exact Nat.sub_le _ _
  have hlevel : (UInt32.ofNat l).toNat = l := by
    refine UInt32.toNat_ofNat_of_lt' (hl.trans_lt ?_)
    norm_num [maxBlockHeight, UInt32.size]
  rw [minerReward, hlevel]
  refine UInt64.toNat_ofNat_of_lt' (hle.trans_lt ?_)
  norm_num [initialReward, UInt64.size]

/-- **The reward schedule respects the supply cap**: the rewards of the levels `1` to `n` stay within
it, they never rise, and the last one is zero. -/
theorem BarossaProtocol.minerReward_schedule (p : BarossaProtocol) :
    (∀ n ≤ maxBlockHeight,
        ∑ l ∈ Finset.Icc 1 n, (p.minerReward (.ofNat l)).toNat ≤ maxSupplyPrecomputed) ∧
      (∀ l' ≤ maxBlockHeight, ∀ l ≤ l', p.minerReward (.ofNat l') ≤ p.minerReward (.ofNat l)) ∧
      p.minerReward (.ofNat maxBlockHeight) = 0 ∧
      ∀ l ≤ maxBlockHeight, (p.minerReward (.ofNat l)).toNat = minerRewardAt l := by
  refine ⟨fun n hn => ?_, fun l' hl' l hle => ?_, ?_, fun l hl => p.minerReward_toNat hl⟩
  · refine (le_of_eq (Finset.sum_congr rfl fun l hl => ?_)).trans (sum_minerRewardAt_le hn)
    exact p.minerReward_toNat ((Finset.mem_Icc.1 hl).2.trans hn)
  · rw [UInt64.le_iff_toNat_le, p.minerReward_toNat hl', p.minerReward_toNat (hle.trans hl')]
    exact minerRewardAt_antitone hle hl'
  · refine UInt64.toNat_inj.1 ?_
    rw [p.minerReward_toNat le_rfl, minerRewardAt_maxBlockHeight]
    rfl

/-- The first two levels on the main network. -/
theorem BarossaProtocol.minerReward_schedule_two :
    (2 : Nat) ≤ maxBlockHeight ∧
      ∑ l ∈ Finset.Icc 1 2, ((⟨.mainnet⟩ : BarossaProtocol).minerReward (.ofNat l)).toNat ≤
        maxSupplyPrecomputed := by
  have h : (2 : Nat) ≤ maxBlockHeight := by norm_num [maxBlockHeight]
  exact ⟨h, (BarossaProtocol.minerReward_schedule ⟨.mainnet⟩).1 2 h⟩

/-! ## Above the last height -/

/-- The first height at which the subtraction underflows is the one after `maxBlockHeight`. -/
theorem pow_div_spread_le_iff {l : Nat} :
    l ^ 4 / spread ≤ initialReward ↔ l ≤ maxBlockHeight := by
  refine ⟨fun h => ?_, pow_div_spread_le⟩
  by_contra hlt
  have hpow : (maxBlockHeight + 1) ^ 4 ≤ l ^ 4 := Nat.pow_le_pow_left (by omega) 4
  have hdiv : (maxBlockHeight + 1) ^ 4 / spread ≤ l ^ 4 / spread := Nat.div_le_div_right hpow
  have hfirst : initialReward < (maxBlockHeight + 1) ^ 4 / spread := by
    norm_num [spread_eq, maxBlockHeight, initialReward]
  omega

/-- **When a reward does not underflow**: exactly up to `maxBlockHeight`, and exactly then the reward
is at most the initial one. -/
theorem BarossaProtocol.minerReward_underflow_iff (p : BarossaProtocol) (blockLevel : UInt32) :
    (blockLevel.toNat ^ 4 % 2 ^ 128 / spread ≤ initialReward ∧
        (p.minerReward blockLevel).toNat ≤ initialReward) ↔
      blockLevel.toNat ≤ maxBlockHeight := by
  have hlevel := blockLevel.toNat_lt
  have hpow : blockLevel.toNat ^ 4 < 2 ^ 128 :=
    calc blockLevel.toNat ^ 4 < (2 ^ 32) ^ 4 := Nat.pow_lt_pow_left hlevel (by omega)
      _ = 2 ^ 128 := by norm_num
  rw [Nat.mod_eq_of_lt hpow, pow_div_spread_le_iff]
  refine ⟨fun h => h.1, fun h => ⟨h, ?_⟩⟩
  have hreward := p.minerReward_toNat h
  rw [UInt32.ofNat_toNat] at hreward
  rw [hreward, minerRewardAt_eq h]
  exact Nat.sub_le _ _

/-- The first level above it has more than a billion times the initial reward. -/
theorem BarossaProtocol.minerReward_underflows :
    ¬ (25000001 ^ 4 % 2 ^ 128 / spread ≤ initialReward) ∧
      ((⟨.mainnet⟩ : BarossaProtocol).minerReward 25000001).toNat = 18446744073709550016 := by
  decide +kernel

end Uchain
