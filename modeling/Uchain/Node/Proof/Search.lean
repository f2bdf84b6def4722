import Uchain.Node.Proof.Crash

/-!
# The blocks of a sync

`validate_chain` walks over the levels from the highest to the lowest, which is an empty range, so that it
refuses nothing. The search for a common ancestor lowers the request index with every answer that starts at
an unknown block, but never below one, where it asks for the same blocks again and again.
-/

namespace Uchain.Node

open Lib Lib.Exec

/-! ## Connected blocks -/

section Connected

variable [Crypto]

/-- Every level from the lowest to the highest one has a block, and above the lowest one some block of the
level has its parent in the list. -/
structure Connected (blocks : List Block) : Prop where
  contiguous : ∀ b ∈ blocks, ∀ c ∈ blocks, ∀ level, b.level ≤ level → level ≤ c.level →
    ∃ d ∈ blocks, d.level = level
  linked : ∀ b ∈ blocks, (∃ c ∈ blocks, c.level < b.level) → ∃ c ∈ blocks, c.level = b.level ∧
    ∃ d ∈ blocks, d.level.toNat + 1 = c.level.toNat ∧ d.hash = c.parentHash

/-- **Every list of blocks is accepted.** -/
theorem validateChain_eq_true (blocks : List Block) : validateChain blocks = true := by
  unfold validateChain
  dsimp only
  split
  · rfl
  · rename_i hlen
    have hempty : ((blocksByLevel blocks).keys.head?.getD 0).toNat -
        ((blocksByLevel blocks).keys.getLast?.getD 0).toNat = 0 := by
      have hsorted : (blocksByLevel blocks).keys.Pairwise (· < ·) :=
        List.pairwise_map.2 (blocksByLevel blocks).sorted
      cases hkeys : (blocksByLevel blocks).keys with
      | nil => rfl
      | cons lowest levels =>
        rw [hkeys] at hsorted
        rw [List.head?_cons, List.getLast?_eq_some_getLast (List.cons_ne_nil _ _), Option.getD_some,
          Option.getD_some]
        rcases List.mem_cons.1 (List.getLast_mem (List.cons_ne_nil lowest levels)) with hlast | hlast
        · rw [hlast, Nat.sub_self]
        · have hlt := UInt32.lt_iff_toNat_lt.1 ((List.pairwise_cons.1 hsorted).1 _ hlast)
          omega
    rw [hempty]
    rfl

/-- Links at every level leave no gap. The induction goes down from the higher block. -/
theorem contiguous_of_linked {blocks : List Block}
    (h : ∀ b ∈ blocks, (∃ c ∈ blocks, c.level < b.level) → ∃ c ∈ blocks, c.level = b.level ∧
      ∃ d ∈ blocks, d.level.toNat + 1 = c.level.toNat ∧ d.hash = c.parentHash)
    {b : Block} (hb : b ∈ blocks) : ∀ (k : Nat) (c : Block), c ∈ blocks → ∀ level : UInt32,
      b.level ≤ level → c.level.toNat = level.toNat + k → ∃ d ∈ blocks, d.level = level
  | 0, c, hc, level, _, hk => ⟨c, hc, UInt32.toNat_inj.1 hk⟩
  | k + 1, c, hc, level, hlevel, hk => by
    have hle := UInt32.le_iff_toNat_le.1 hlevel
    obtain ⟨c', -, hsame, d, hd, hdown, -⟩ := h c hc ⟨b, hb, UInt32.lt_iff_toNat_lt.2 (by omega)⟩
    rw [hsame] at hdown
    exact contiguous_of_linked h hb k d hd level hlevel (by omega)

/-- **When an accepted list is connected**: every level above the lowest one has a block with its parent in
the list. -/
theorem validateChain_connected_iff (blocks : List Block) :
    (validateChain blocks = true → Connected blocks) ↔
      ∀ b ∈ blocks, (∃ c ∈ blocks, c.level < b.level) → ∃ c ∈ blocks, c.level = b.level ∧
        ∃ d ∈ blocks, d.level.toNat + 1 = c.level.toNat ∧ d.hash = c.parentHash := by
  constructor
  · exact fun h => (h (validateChain_eq_true blocks)).linked
  · refine fun h _ => ⟨fun b hb c hc level hlow hhigh => ?_, h⟩
    have hle := UInt32.le_iff_toNat_le.1 hhigh
    exact contiguous_of_linked h hb (c.level.toNat - level.toNat) c hc level hlow (by omega)

end Connected

open scoped Sample in
/-- Two blocks with three levels between them. -/
theorem validateChain_accepts_gap :
    validateChain [SampleChain.e1, SampleChain.b5] = true ∧
      ¬ Connected [SampleChain.e1, SampleChain.b5] := by
  refine ⟨validateChain_eq_true _, fun h => ?_⟩
  obtain ⟨d, hd, hlevel⟩ := h.contiguous SampleChain.e1 (by simp) SampleChain.b5 (by simp) 2
    (by decide) (by decide)
  rcases List.mem_cons.1 hd with rfl | hd
  · exact absurd hlevel (by decide)
  · rw [List.mem_singleton.1 hd] at hlevel
    exact absurd hlevel (by decide)

/-! ## The search -/

section Search

variable {env : Env} {n : Node}

variable [Crypto] [Codec AccountState]

/-- A list of blocks whose first one has a parent that is looked up and not known. -/
def Unanchored (n : Node) (blocks : List Block) : Prop :=
  ∃ start rest, orderedBlocks blocks = start :: rest ∧
    Returns (BlockStorage.getBlockByHash start.parentHash) n.chain.blockStorage ∧
    anchored n.chain start = false

variable {head : BlockHeader} {blocks : List Block}

/-- The number of requests has a bound, whatever blocks without a known parent come back. -/
def Ends (env : Env) (n : Node) : Prop :=
  ∃ bound, ∀ msgs : List (List Block), (∀ b ∈ msgs, Unanchored n b) →
    (run env (msgs.map .blocks) n).log.length ≤ bound

end Search

end Uchain.Node

namespace Uchain

open Lib

open scoped Sample

namespace Crash

end Crash

end Uchain
