import Uchain.Consensus.Reader
import Uchain.Types.Proof.Compact

/-!
# Retargeting stays within its bounds

A retarget multiplies the last target by a timespan between a quarter and four times the intended
one. For a target within the maximum of the network the product fits 256 bits, on the test network
with little to spare, and the new target is within the maximum, at most four times the old one and
at least the rounding of a quarter of it (`retarget_bounded`).

Hence no rule of the consensus asks for less work than the network's maximum target allows, on a
chain whose headers keep to it (`workRequired_bounded`).
-/

namespace Uchain

open Lib

namespace Compact

theorem toU256_of_toU256? {c : Compact} {t : U256} (h : c.toU256? = some t) : c.toU256 = t := by
  unfold toU256? at h
  split at h
  · cases h
  · exact Option.some.inj h

theorem toU256_fromU256 (v : U256) : (fromU256 v).toU256 = rounded v :=
  toU256_of_toU256? (toU256?_fromU256 v)

end Compact

namespace BarossaProtocol

open Uchain.Compact

/-! ## The timespan and the product -/

theorem retargetTimespan_toNat (a b : UInt32) :
    302400 ≤ (retargetTimespan a b).toNat ∧ (retargetTimespan a b).toNat ≤ 4838400 := by
  have hmin : (minTimespan.toNat : Int) = 302400 := by decide
  have hmax : (maxTimespan.toNat : Int) = 4838400 := by decide
  unfold retargetTimespan rangeConstrain
  simp only [hmin, hmax]
  generalize (b.toNat : Int) - a.toNat = timespan
  rw [UInt32.toNat_ofNat_of_lt' (by simp only [UInt32.size]; omega)]
  omega

theorem targetTimespanSeconds_toNat : targetTimespanSeconds.toNat = 1209600 := by decide

theorem maxDifficulty_le (n : Network) : n.maxDifficulty.toNat ≤ 227246 * 2 ^ 216 := by
  cases n <;> simp [Network.maxDifficulty]

theorem product_lt {n : Network} {t span : Nat} (ht : t ≤ n.maxDifficulty.toNat)
    (hspan : span ≤ 4838400) : t * span < 2 ^ 256 :=
  calc t * span ≤ (227246 * 2 ^ 216) * 4838400 := Nat.mul_le_mul (ht.trans (maxDifficulty_le n)) hspan
    _ < 2 ^ 256 := by norm_num

/-- A quarter of the target is the least that a retarget can give before it is rounded, four times
the target the most. -/
theorem quotient_bounds {t span : Nat} (hmin : 302400 ≤ span) (hmax : span ≤ 4838400) :
    t / 4 ≤ t * span / 1209600 ∧ t * span / 1209600 ≤ 4 * t := by
  constructor
  · calc t / 4 = t * 302400 / (4 * 302400) := (Nat.mul_div_mul_right t 4 (by norm_num)).symm
      _ ≤ t * span / 1209600 := Nat.div_le_div_right (Nat.mul_le_mul_left t hmin)
  · refine Nat.div_le_of_le_mul ?_
    calc t * span ≤ t * 4838400 := Nat.mul_le_mul_left t hmax
      _ = 1209600 * (4 * t) := by ring

/-! ## One retarget -/

/-- The target of an answer: within the maximum, at most `4 * t`, at least the rounding of `t / 4`. -/
structure Bounded (n : Network) (t : U256) (c : Compact) (t' : U256) : Prop where
  decodes : c.toU256? = some t'
  le_max : t' ≤ n.maxDifficulty
  le_mul : t'.toNat ≤ 4 * t.toNat
  ge_div : ∀ q, (fromU256 (BitVec.ofNat 256 (t.toNat / 4))).toU256? = some q → q ≤ t'

theorem toNat_quarter (t : U256) : (BitVec.ofNat 256 (t.toNat / 4)).toNat = t.toNat / 4 := by
  rw [BitVec.toNat_ofNat]
  exact Nat.mod_eq_of_lt ((Nat.div_le_self _ _).trans_lt t.isLt)

theorem bounded_rounded {n : Network} {t v : U256} {c : Compact} (hc : c = fromU256 v)
    (hmax : rounded v ≤ n.maxDifficulty) (hmul : (rounded v).toNat ≤ 4 * t.toNat)
    (hdiv : t.toNat / 4 ≤ v.toNat) : Bounded n t c (rounded v) where
  decodes := by rw [hc, toU256?_fromU256]; rfl
  le_max := hmax
  le_mul := hmul
  ge_div q hq := by
    rw [toU256?_fromU256] at hq
    rw [← Option.some.inj hq]
    refine rounded_mono (v := BitVec.ofNat 256 (t.toNat / 4)) ?_
    rw [BitVec.le_def, toNat_quarter]
    exact hdiv

theorem retarget_bounded (n : Network) {bits : Compact} {t : U256} (hbits : bits.toU256? = some t)
    (ht : t ≤ n.maxDifficulty) (a b : UInt32) :
    ∃ c t', retarget n.maxDifficultyCompact bits a b = .ok c ∧ Bounded n t c t' := by
  obtain ⟨hmin, hmax⟩ := retargetTimespan_toNat a b
  have hproduct := product_lt ht hmax
  obtain ⟨hquarter, hfour⟩ := quotient_bounds (t := t.toNat) hmin hmax
  unfold retarget
  simp only [toU256_of_toU256? hbits, targetTimespanSeconds_toNat]
  rw [if_neg (not_le_of_gt hproduct), Network.maxDifficultyCompact, toU256_fromU256]
  generalize hquotient : t.toNat * (retargetTimespan a b).toNat / 1209600 = quotient at *
  have hlt : quotient < 2 ^ 256 := by
    rw [← hquotient]
    exact (Nat.div_le_self _ _).trans_lt hproduct
  have hvalue : (BitVec.ofNat 256 quotient).toNat = quotient := by
    rw [BitVec.toNat_ofNat]
    exact Nat.mod_eq_of_lt hlt
  split
  · -- the ceiling: the new target is the rounded maximum
    rename_i hgt
    refine ⟨_, rounded n.maxDifficulty, rfl, bounded_rounded rfl (rounded_le _) ?_ ?_⟩
    · have hgt : (rounded n.maxDifficulty).toNat < (BitVec.ofNat 256 quotient).toNat := hgt
      omega
    · exact (Nat.div_le_self _ _).trans ht
  · rename_i hle
    have hle : BitVec.ofNat 256 quotient ≤ rounded n.maxDifficulty := BitVec.not_lt.1 hle
    refine ⟨_, rounded (BitVec.ofNat 256 quotient), rfl, bounded_rounded rfl ?_ ?_ ?_⟩
    · exact BitVec.le_trans (rounded_le _) (BitVec.le_trans hle (rounded_le _))
    · have hround : (rounded (BitVec.ofNat 256 quotient)).toNat ≤ _ := rounded_le _
      omega
    · omega

/-! ## All rules -/

/-- The target is within the maximum of the network. -/
def Within (n : Network) (c : Compact) : Prop := ∃ t, c.toU256? = some t ∧ t ≤ n.maxDifficulty

theorem within_max (n : Network) : Within n n.maxDifficultyCompact :=
  ⟨rounded n.maxDifficulty, toU256?_fromU256 _, rounded_le _⟩

/-- The headers that a reader returns have targets within the maximum. -/
structure Respects (p : BarossaProtocol) (chain : ChainHeadReader) : Prop where
  byHash : ∀ hash header, chain.getHeaderByHash hash = .ok (some header) →
    Within p.network header.raw.bits
  byLevel : ∀ level header, chain.getHeaderByLevel level = .ok (some header) →
    Within p.network header.raw.bits

variable {p : BarossaProtocol} {chain : ChainHeadReader} {c : Compact} {time height : UInt32}
  {parentHash : H256}

theorem read_eq_ok {r : Answer (Option IndexedBlockHeader)} {f : IndexedBlockHeader → Answer Compact}
    (h : (r.unwrap >>= fun o => Answer.expect o >>= f) = .ok c) :
    ∃ header, r = .ok (some header) ∧ f header = .ok c := by
  obtain ⟨o, ho, h⟩ := Answer.bind_eq_ok h
  obtain ⟨header, hheader, h⟩ := Answer.bind_eq_ok h
  rw [Answer.expect_eq_ok hheader] at ho
  exact ⟨header, Answer.unwrap_eq_ok ho, h⟩

theorem within_retargetOn {parent : IndexedBlockHeader} (hparent : Within p.network parent.raw.bits)
    (h : retargetOn chain parent height p.network.maxDifficultyCompact = .ok c) :
    Within p.network c := by
  obtain ⟨header, -, h⟩ := read_eq_ok h
  obtain ⟨t, ht, hle⟩ := hparent
  obtain ⟨c', t', hc', hb⟩ := retarget_bounded p.network ht hle header.raw.time parent.raw.time
  rw [hc'] at h
  cases h
  exact ⟨t', hb.decodes, hb.le_max⟩

theorem within_collectBitsOn (hr : Respects p chain) (n : Nat) {blockRef : H256}
    {bits : List Compact} (h : collectBitsOn chain n blockRef = .ok bits) :
    ∀ b ∈ bits, Within p.network b := by
  induction n generalizing blockRef bits with
  | zero =>
    cases h
    simp
  | succ n ih =>
    obtain ⟨o, ho, h⟩ := Answer.bind_eq_ok h
    cases o with
    | none =>
      cases h
      simp
    | some header =>
      obtain ⟨rest, hrest, h⟩ := Answer.bind_eq_ok h
      cases h
      exact List.forall_mem_cons.2 ⟨hr.byHash _ _ (Answer.unwrap_eq_ok ho), ih hrest⟩

theorem within_firstBits {bits : List Compact} (hbits : ∀ b ∈ bits, Within p.network b) (i : Nat) :
    Within p.network (firstBits p.network.maxDifficultyCompact height i bits) := by
  induction bits generalizing i with
  | nil => exact within_max _
  | cons b bits ih =>
    unfold firstBits
    split
    · exact hbits b List.mem_cons_self
    · exact ih (fun b hb => hbits b (List.mem_cons_of_mem _ hb)) _

theorem within_testnetOn (hr : Respects p chain)
    (h : p.testnetOn chain parentHash time height = .ok c) : Within p.network c := by
  unfold testnetOn at h
  split at h
  · cases h
  · obtain ⟨header, -, h⟩ := read_eq_ok h
    split at h
    · cases h
      exact within_max _
    · obtain ⟨bits, hbits, h⟩ := Answer.bind_eq_ok h
      cases h
      exact within_firstBits (within_collectBitsOn hr _ hbits) 0

theorem within_workRequiredOn (hr : Respects p chain)
    (h : p.workRequiredOn chain parentHash time height = .ok c) : Within p.network c := by
  unfold workRequiredOn at h
  split at h
  · cases h
    exact within_max _
  · obtain ⟨header, hheader, h⟩ := read_eq_ok h
    have hwithin := hr.byHash _ _ hheader
    split at h
    · exact within_retargetOn hwithin h
    · split at h
      · exact within_testnetOn hr h
      · cases h
        exact hwithin

/-- **Retargeting is bounded**: for a parent within the maximum the product fits and the new target
keeps the bounds, whatever the two times; and no rule leaves the maximum of the network on a chain
whose headers keep it. -/
theorem workRequired_bounded (p : BarossaProtocol) (chain : ChainHeadReader) :
    (∀ (parent header : IndexedBlockHeader) (height : UInt32) (t : U256),
      parent.raw.bits.toU256? = some t → t ≤ p.network.maxDifficulty →
      chain.getHeaderByLevel (height - retargetingInterval) = .ok (some header) →
        t.toNat * (retargetTimespan header.raw.time parent.raw.time).toNat < 2 ^ 256 ∧
          ∃ c t', retargetOn chain parent height p.network.maxDifficultyCompact = .ok c ∧
            Bounded p.network t c t') ∧
      (Respects p chain → ∀ parentHash time height c,
        p.workRequiredOn chain parentHash time height = .ok c → Within p.network c) := by
  refine ⟨fun parent header height t ht hle hheader => ⟨?_, ?_⟩, fun hr parentHash time height c h =>
    within_workRequiredOn hr h⟩
  · exact product_lt hle (retargetTimespan_toNat _ _).2
  · obtain ⟨c, t', hc, hb⟩ :=
      retarget_bounded p.network ht hle header.raw.time parent.raw.time
    refine ⟨c, t', ?_, hb⟩
    rw [retargetOn, hheader]
    exact hc

/-- A chain of one header, found under every hash and level. -/
def constantReader (header : IndexedBlockHeader) : ChainHeadReader where
  getHeader _ _ := .ok (some header)
  getHeaderByHash _ := .ok (some header)
  getHeaderByLevel _ := .ok (some header)

def headerOf (c : Compact) : IndexedBlockHeader :=
  ⟨.zero, ⟨.zero, .zero, .zero, .zero, 0, .zero, c.bits, 1, 10079, 0, 0⟩⟩

theorem headerOf_bits (c : Compact) : (headerOf c).raw.bits = c := rfl

/-- The header with the largest target of the test network. -/
def easiest : IndexedBlockHeader := headerOf Network.testnet.maxDifficultyCompact

theorem workRequired_bounded_easiest :
    Respects ⟨.testnet⟩ (constantReader easiest) ∧
      (∃ c t', retargetOn (constantReader easiest) easiest 10080
        Network.testnet.maxDifficultyCompact = .ok c ∧
          Bounded .testnet (rounded Network.testnet.maxDifficulty) c t') ∧
      Within .testnet (fromU256 Network.testnet.maxDifficulty) := by
  have hbits : easiest.raw.bits.toU256? = some (rounded Network.testnet.maxDifficulty) := by
    rw [easiest, headerOf_bits, Network.maxDifficultyCompact, toU256?_fromU256, rounded]
  have hwithin : Within .testnet easiest.raw.bits := by
    rw [easiest, headerOf_bits]
    exact within_max .testnet
  have hr : Respects ⟨.testnet⟩ (constantReader easiest) := by
    constructor
    · intro hash header h
      cases h
      exact hwithin
    · intro level header h
      cases h
      exact hwithin
  have h := workRequired_bounded ⟨.testnet⟩ (constantReader easiest)
  exact ⟨hr, (h.1 easiest easiest 10080 _ hbits (rounded_le _) rfl).2,
    h.2 hr .zero 0 0 _ rfl⟩

end BarossaProtocol

end Uchain
