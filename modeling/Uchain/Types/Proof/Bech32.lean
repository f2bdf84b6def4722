import Mathlib.Tactic.IntervalCases
import Uchain.Types.Bech32

/-!
# Bech32 texts read back

* `length_toBase32`: a group for every five bits, the last one filled up.

Both regroupings are compared through the number that bytes and groups spell. The checksum is linear
in exclusive or, so the six digits behind the data add to the remainder what they spell.
-/

namespace Uchain.Bech32

open Lib
open Lib.Protobuf (stringBytes)

/-! ## Groups of a byte string -/

theorem two_pow_eight_mul (n : Nat) : 2 ^ (8 * n) = 256 ^ n := pow_mul 2 8 n

theorem two_pow_five_mul (n : Nat) : 2 ^ (5 * n) = 32 ^ n := pow_mul 2 5 n

theorem val_u5 {b : UInt8} (h : b.toNat < 32) : (u5 b).val = b.toNat := Nat.mod_eq_of_lt h

theorem toNat_top (b : UInt8) : ((b &&& 0b11111000) >>> 3).toNat = b.toNat / 8 := by
  have hall : ∀ n < 256, (n &&& 248) >>> 3 = n / 8 := by decide +kernel
  rw [UInt8.toNat_shiftRight, UInt8.toNat_and]
  exact hall b.toNat b.toNat_lt

theorem toNat_shiftRight_three (b : UInt8) : (b >>> 3).toNat = b.toNat / 8 := by
  rw [UInt8.toNat_shiftRight, Nat.shiftRight_eq_div_pow]
  rfl

theorem toNat_shiftLeft_five (b : UInt8) : (b <<< 5).toNat = b.toNat * 32 % 256 := by
  rw [UInt8.toNat_shiftLeft, Nat.shiftLeft_eq]
  rfl

variable {k : Nat}

theorem toNat_rest (hk : k ≤ 4) (b : UInt8) :
    (b <<< .ofNat (5 - k)).toNat = b.toNat * 2 ^ (5 - k) % 256 := by
  rw [UInt8.toNat_shiftLeft, Nat.shiftLeft_eq, UInt8.toNat_ofNat', Nat.mod_eq_of_lt (a := 5 - k)
    (by omega), Nat.mod_eq_of_lt (a := 5 - k) (by omega)]

/-- The buffer holds `k` bits, from the most significant one on. -/
def Holds (k : Nat) (buffer : UInt8) : Prop := 2 ^ (8 - k) ∣ buffer.toNat

theorem holds_zero : Holds 0 0 := Dvd.intro 0 rfl

variable {buffer : UInt8}

theorem Holds.shift (hk : 5 ≤ k) (hk' : k ≤ 7) (h : Holds k buffer) :
    Holds (k - 5) (buffer <<< 5) := by
  unfold Holds at h ⊢
  rw [toNat_shiftLeft_five]
  interval_cases k
  all_goals
    simp only [Nat.reduceSub, Nat.reducePow] at h ⊢
    omega

theorem holds_rest (hk : k ≤ 4) (b : UInt8) : Holds (k + 3) (b <<< .ofNat (5 - k)) := by
  unfold Holds
  rw [toNat_rest hk]
  interval_cases k
  all_goals
    simp only [Nat.reduceSub, Nat.reducePow, Nat.reduceAdd]
    omega

/-- A group: the bits of the buffer, then the first bits of the byte. -/
theorem toNat_group (hk : k ≤ 4) (h : Holds k buffer) (b : UInt8) :
    ((buffer >>> 3) ||| (b >>> .ofNat (3 + k))).toNat =
      buffer.toNat / 8 + b.toNat / 2 ^ (3 + k) := by
  obtain ⟨v, hv⟩ := h
  have hb := b.toNat_lt
  rw [UInt8.toNat_or, toNat_shiftRight_three, UInt8.toNat_shiftRight, Nat.shiftRight_eq_div_pow,
    UInt8.toNat_ofNat', Nat.mod_eq_of_lt (a := 3 + k) (by omega), Nat.mod_eq_of_lt (by omega)]
  have hfirst : buffer.toNat / 8 = 2 ^ (5 - k) * v := by
    rw [hv]
    interval_cases k
    all_goals
      simp only [Nat.reduceSub, Nat.reducePow]
      omega
  have hlt : b.toNat / 2 ^ (3 + k) < 2 ^ (5 - k) := by
    interval_cases k
    all_goals
      simp only [Nat.reduceSub, Nat.reducePow, Nat.reduceAdd]
      omega
  rw [hfirst, ← Nat.two_pow_add_eq_or_of_lt hlt]

/-- The number that groups of five bits spell. -/
def ofGroups : List U5 → Nat
  | [] => 0
  | v :: l => v.val * 32 ^ l.length + ofGroups l

/-- The number that the bits of the buffer and the bytes behind them spell. -/
def held (bs : Bytes) (k : Nat) (buffer : UInt8) : Nat :=
  buffer.toNat / 2 ^ (8 - k) * 256 ^ bs.length + ofBeBytes bs

/-- The groups spell what is held, filled up with at most four zeros. -/
def Spells (bs : Bytes) (k : Nat) (buffer : UInt8) (groups : List U5) : Prop :=
  ∃ pad ≤ 4, 5 * groups.length = k + 8 * bs.length + pad ∧
    ofGroups groups = held bs k buffer * 2 ^ pad

variable {bs : Bytes}

theorem Spells.cons {bs' : Bytes} {k' : Nat} {buffer' : UInt8} {v : U5} {groups : List U5}
    (hlen : k + 8 * bs.length = 5 + (k' + 8 * bs'.length))
    (hheld : held bs k buffer = v.val * 2 ^ (k' + 8 * bs'.length) + held bs' k' buffer')
    (h : Spells bs' k' buffer' groups) : Spells bs k buffer (v :: groups) := by
  obtain ⟨pad, hpad, hgroups, hval⟩ := h
  refine ⟨pad, hpad, by rw [List.length_cons]; omega, ?_⟩
  have hpow : 32 ^ groups.length = 2 ^ (k' + 8 * bs'.length) * 2 ^ pad := by
    rw [← pow_add, ← hgroups, two_pow_five_mul]
  rw [ofGroups, hval, hpow, hheld]
  ring

theorem toBase32Loop_full (hk : 5 ≤ k) (hk' : k ≤ 7) (buffer : UInt8) : ∀ bs : Bytes,
    toBase32Loop bs k buffer =
      u5 ((buffer &&& 0b11111000) >>> 3) :: toBase32Loop bs (k - 5) (buffer <<< 5)
  | [] => by
    rw [toBase32Loop, toBase32Loop, flush, flush, if_pos hk, if_neg (by omega : ¬ k - 5 ≥ 5)]
  | b :: bs => by
    rw [toBase32Loop, toBase32Loop]
    simp only [if_pos hk, if_neg (by omega : ¬ k - 5 ≥ 5), List.cons_append, List.nil_append]

theorem Spells.full (hk : 5 ≤ k) (hk' : k ≤ 7)
    (h : Spells bs (k - 5) (buffer <<< 5) (toBase32Loop bs (k - 5) (buffer <<< 5))) :
    Spells bs k buffer (toBase32Loop bs k buffer) := by
  rw [toBase32Loop_full hk hk']
  refine .cons (by omega) ?_ h
  have hlt := buffer.toNat_lt
  have hsplit : buffer.toNat / 2 ^ (8 - k) =
      buffer.toNat / 8 * 2 ^ (k - 5) + (buffer <<< 5).toNat / 2 ^ (8 - (k - 5)) := by
    rw [toNat_shiftLeft_five]
    interval_cases k
    all_goals
      simp only [Nat.reduceSub, Nat.reducePow]
      omega
  rw [val_u5 (by rw [toNat_top]; omega), toNat_top, held, held, hsplit, pow_add, two_pow_eight_mul]
  ring

theorem Spells.group {b : UInt8} (hk : k ≤ 4) (hholds : Holds k buffer)
    (h : Spells bs (k + 3) (b <<< .ofNat (5 - k)) (toBase32Loop bs (k + 3) (b <<< .ofNat (5 - k))))
    :
    Spells (b :: bs) k buffer (toBase32Loop (b :: bs) k buffer) := by
  rw [toBase32Loop]
  simp only [if_neg (by omega : ¬ k ≥ 5), List.nil_append]
  refine .cons (by rw [List.length_cons]; omega) ?_ h
  have hlt := buffer.toNat_lt
  have hb := b.toNat_lt
  have hgroup := toNat_group hk hholds b
  have hsmall : ((buffer >>> 3) ||| (b >>> .ofNat (3 + k))).toNat < 32 := by
    rw [hgroup]
    unfold Holds at hholds
    interval_cases k
    all_goals
      simp only [Nat.reduceSub, Nat.reducePow, Nat.reduceAdd] at hholds ⊢
      omega
  have hsplit : buffer.toNat / 2 ^ (8 - k) * 256 + b.toNat =
      (buffer.toNat / 8 + b.toNat / 2 ^ (3 + k)) * 2 ^ (k + 3) +
        (b <<< .ofNat (5 - k)).toNat / 2 ^ (8 - (k + 3)) := by
    rw [toNat_rest hk]
    unfold Holds at hholds
    interval_cases k
    all_goals
      simp only [Nat.reduceSub, Nat.reducePow, Nat.reduceAdd] at hholds ⊢
      omega
  rw [val_u5 hsmall, hgroup, held, held, ofBeBytes, List.length_cons, pow_add 2 (k + 3),
    two_pow_eight_mul]
  calc _ = (buffer.toNat / 2 ^ (8 - k) * 256 + b.toNat) * 256 ^ bs.length + ofBeBytes bs := by ring
    _ = _ := by rw [hsplit]; ring

theorem spells_flush (hk : k ≤ 4) (h : Holds k buffer) :
    Spells [] k buffer (toBase32Loop [] k buffer) := by
  have hlt := buffer.toNat_lt
  rw [toBase32Loop, flush, if_neg (by omega : ¬ k ≥ 5)]
  by_cases h0 : k ≠ 0
  · rw [if_pos h0]
    refine ⟨5 - k, by omega, by rw [List.length_singleton, List.length_nil]; omega, ?_⟩
    have hsmall : (buffer >>> 3).toNat < 32 := by rw [toNat_shiftRight_three]; omega
    rw [ofGroups, ofGroups, val_u5 hsmall, toNat_shiftRight_three, held, ofBeBytes, List.length_nil,
      List.length_nil, pow_zero, pow_zero]
    unfold Holds at h
    interval_cases k
    all_goals
      simp only [Nat.reduceSub, Nat.reducePow] at h ⊢
      omega
  · obtain rfl : k = 0 := by omega
    refine ⟨0, by omega, rfl, ?_⟩
    rw [if_neg h0, ofGroups, held, Nat.div_eq_of_lt hlt]
    rfl

/-- What the loop writes. The induction is on the bytes; a full group in the buffer goes first. -/
theorem spells_toBase32Loop : ∀ (bs : Bytes) {k : Nat} {buffer : UInt8}, k ≤ 7 → Holds k buffer →
    Spells bs k buffer (toBase32Loop bs k buffer)
  | [], k, buffer, hk, h => by
    by_cases h5 : 5 ≤ k
    · exact .full h5 hk (spells_flush (by omega) (h.shift h5 hk))
    · exact spells_flush (by omega) h
  | b :: bs, k, buffer, hk, h => by
    have hnext {k : Nat} (hk : k ≤ 4) := spells_toBase32Loop bs (by omega) (holds_rest hk b)
    by_cases h5 : 5 ≤ k
    · exact .full h5 hk (.group (by omega) (h.shift h5 hk) (hnext (by omega)))
    · exact .group (by omega) h (hnext (by omega))

theorem length_toBase32 (b : Bytes) : (toBase32 b).length = (8 * b.length + 4) / 5 := by
  obtain ⟨pad, hpad, hlen, -⟩ := spells_toBase32Loop b (by omega) holds_zero
  rw [toBase32]
  omega

/-! ## Bytes of groups -/

theorem toNat_and_maxv (x : UInt32) : (x &&& maxv 8).toNat = x.toNat % 2 ^ 8 := by
  rw [show maxv 8 = 255 by rfl, UInt32.toNat_and]
  exact Nat.and_two_pow_sub_one_eq_mod x.toNat 8

theorem toNat_byte (acc : UInt32) {n : Nat} (hn : n < 32) :
    ((acc >>> .ofNat n) &&& maxv 8).toUInt8.toNat = acc.toNat / 2 ^ n % 2 ^ 8 := by
  rw [UInt32.toNat_toUInt8, toNat_and_maxv, Nat.mod_mod, UInt32.toNat_shiftRight,
    Nat.shiftRight_eq_div_pow, UInt32.toNat_ofNat', Nat.mod_eq_of_lt (a := n) (by omega),
    Nat.mod_eq_of_lt hn]

/-- The bytes that are drained and the bits that stay spell what the accumulator held. -/
theorem drain_eq (acc : UInt32) (bits : Nat) (hbits : bits ≤ 32) : ∃ out rest,
    drain acc 8 bits = (out, rest) ∧ rest < 8 ∧ bits = 8 * out.length + rest ∧
      acc.toNat % 2 ^ bits = ofBeBytes out * 2 ^ rest + acc.toNat % 2 ^ rest := by
  rw [drain]
  by_cases h : bits ≥ 8
  · obtain ⟨out, rest, hrun, hlt, hlen, hval⟩ := drain_eq acc (bits - 8) (by omega)
    rw [if_pos ⟨by decide, h⟩, hrun]
    refine ⟨_, rest, rfl, hlt, by rw [List.length_cons]; omega, ?_⟩
    have hpow : 256 ^ out.length * 2 ^ rest = 2 ^ (bits - 8) := by
      rw [← two_pow_eight_mul, ← pow_add, ← hlen]
    have hsplit : acc.toNat % 2 ^ bits =
        acc.toNat % 2 ^ (bits - 8) + 2 ^ (bits - 8) * (acc.toNat / 2 ^ (bits - 8) % 2 ^ 8) := by
      rw [← Nat.mod_mul, ← pow_add, Nat.sub_add_cancel h]
    rw [hsplit, hval, ofBeBytes, toNat_byte acc (by omega), ← hpow]
    ring
  · rw [if_neg fun hc => h hc.2]
    refine ⟨[], bits, rfl, by omega, by rw [List.length_nil]; omega, ?_⟩
    rw [ofBeBytes, Nat.zero_mul, Nat.zero_add]
termination_by bits

theorem toNat_shifted (acc : UInt32) (v : U5) :
    ((acc <<< .ofNat 5) ||| (UInt8.ofNat v.val).toUInt32).toNat =
      (acc.toNat * 32 + v.val) % 2 ^ 32 := by
  have hv := v.isLt
  have hlow : (UInt8.ofNat v.val).toUInt32.toNat = v.val := by
    rw [UInt8.toNat_toUInt32, UInt8.toNat_ofNat', Nat.mod_eq_of_lt (by omega)]
  have hhigh : (acc <<< .ofNat 5).toNat = 2 ^ 5 * (acc.toNat % 2 ^ 27) := by
    rw [UInt32.toNat_shiftLeft, Nat.shiftLeft_eq]
    show acc.toNat * 2 ^ 5 % 2 ^ 32 = _
    omega
  rw [UInt32.toNat_or, hlow, hhigh, ← Nat.two_pow_add_eq_or_of_lt (i := 5) hv]
  omega

/-- The loop on groups of five bits, with fewer than eight bits in the accumulator. -/
theorem convertLoop_eq : ∀ (l : List U5) (acc : UInt32) (bits : Nat), bits < 8 →
    ∃ out acc' bits', convertLoop 5 8 (l.map fun v => .ofNat v.val) acc bits = .ok (out, acc', bits') ∧
      bits' < 8 ∧ bits + 5 * l.length = 8 * out.length + bits' ∧
      ofBeBytes out * 2 ^ bits' + acc'.toNat % 2 ^ bits' =
        acc.toNat % 2 ^ bits * 32 ^ l.length + ofGroups l
  | [], acc, bits, hbits =>
    ⟨[], acc, bits, rfl, hbits, by simp, by simp [ofBeBytes, ofGroups]⟩
  | v :: l, acc, bits, hbits => by
    obtain ⟨groups, rest, hdrain, hlt, hlen, hval⟩ :=
      drain_eq ((acc <<< .ofNat 5) ||| (UInt8.ofNat v.val).toUInt32) (bits + 5) (by omega)
    obtain ⟨out, acc', bits', hrun, hbits', hlen', hval'⟩ :=
      convertLoop_eq l ((acc <<< .ofNat 5) ||| (UInt8.ofNat v.val).toUInt32) rest hlt
    have hfits : ∀ v : U5, ¬ (UInt8.ofNat v.val).toUInt32 >>> .ofNat 5 ≠ 0 := by decide +kernel
    refine ⟨groups ++ out, acc', bits', ?_, hbits', ?_, ?_⟩
    · rw [List.map_cons, convertLoop, if_neg (hfits v)]
      dsimp only
      rw [hdrain]
      dsimp only
      rw [hrun]
    · rw [List.length_append, List.length_cons]
      omega
    · have hacc : (acc.toNat * 32 + v.val) % 2 ^ 32 % 2 ^ (bits + 5) =
          acc.toNat % 2 ^ bits * 32 + v.val := by
        have hv := v.isLt
        interval_cases bits
        all_goals
          simp only [Nat.reduceAdd, Nat.reducePow]
          omega
      have hpow : 256 ^ out.length * 2 ^ bits' = 2 ^ rest * 32 ^ l.length := by
        rw [← two_pow_eight_mul, ← pow_add, ← hlen', pow_add, two_pow_five_mul]
      rw [toNat_shifted] at hval hval'
      rw [hacc] at hval
      rw [ofBeBytes_append, List.length_cons, ofGroups, pow_succ]
      calc _ = ofBeBytes groups * (256 ^ out.length * 2 ^ bits') +
            (ofBeBytes out * 2 ^ bits' + acc'.toNat % 2 ^ bits') := by ring
        _ = (ofBeBytes groups * 2 ^ rest + (acc.toNat * 32 + v.val) % 2 ^ 32 % 2 ^ rest) *
            32 ^ l.length + ofGroups l := by rw [hpow, hval']; ring
        _ = _ := by rw [← hval]; ring

/-- **Groups of five bits read back.** -/
theorem convertBits_toBase32 (b : Bytes) :
    convertBits ((toBase32 b).map fun v => .ofNat v.val) 5 8 false = .ok b := by
  obtain ⟨pad, hpad, hlen, hval⟩ := spells_toBase32Loop b (by omega) holds_zero
  obtain ⟨out, acc, bits, hrun, hbits, hlen', hval'⟩ :=
    convertLoop_eq (toBase32 b) 0 0 (by omega)
  rw [toBase32] at hlen'
  obtain rfl : bits = pad := by omega
  have hsame : ofBeBytes out * 2 ^ bits + acc.toNat % 2 ^ bits = ofBeBytes b * 2 ^ bits := by
    rw [hval', toBase32, hval, held]
    simp
  have hpos : 0 < 2 ^ bits := Nat.pow_pos (by decide)
  have hrest : acc.toNat % 2 ^ bits = 0 := by
    have hmod := congrArg (· % 2 ^ bits) hsame
    simpa only [Nat.mul_add_mod_self_right, Nat.mod_mod, Nat.mul_mod_left] using hmod
  rw [hrest, Nat.add_zero] at hsame
  obtain rfl : out = b := ofBeBytes_inj (by omega) (Nat.eq_of_mul_eq_mul_right hpos hsame)
  have hlast : (acc <<< .ofNat (8 - bits)) &&& maxv 8 = 0 := by
    apply UInt32.toNat_inj.1
    rw [toNat_and_maxv, UInt32.toNat_shiftLeft, Nat.shiftLeft_eq]
    have hshift : (UInt32.ofNat (8 - bits)).toNat % 32 = 8 - bits := by
      rw [UInt32.toNat_ofNat', Nat.mod_eq_of_lt (a := 8 - bits) (by omega)]
      omega
    obtain ⟨q, hq⟩ := Nat.dvd_of_mod_eq_zero hrest
    have hbyte : acc.toNat * 2 ^ (8 - bits) = 256 * q := by
      rw [hq, Nat.mul_right_comm, ← pow_add, Nat.add_sub_cancel' (by omega)]
      rfl
    rw [hshift, hbyte]
    show 256 * q % 2 ^ 32 % 256 = 0
    omega
  rw [convertBits, if_neg (by decide), hrun]
  dsimp only
  rw [if_neg (by decide), if_neg]
  rintro (h | h)
  · omega
  · exact h hlast

theorem toBase32_injective : Function.Injective toBase32 := by
  intro b b' h
  have hb := convertBits_toBase32 b
  rw [h, convertBits_toBase32] at hb
  exact (Except.ok.inj hb).symm

/-! ## The checksum -/

theorem and_xor_distrib (a b c : UInt32) : (a ^^^ b) &&& c = (a &&& c) ^^^ (b &&& c) := by
  apply UInt32.toNat_inj.1
  simp only [UInt32.toNat_and, UInt32.toNat_xor, Nat.and_xor_distrib_right]

theorem xor_swap (a b c d : UInt32) : (a ^^^ b) ^^^ (c ^^^ d) = (a ^^^ c) ^^^ (b ^^^ d) := by
  ac_rfl

/-- What a step adds for one generator. -/
def addGen (b : UInt8) (chk : UInt32) (item : UInt32 × Nat) : UInt32 :=
  if (b >>> .ofNat item.2) &&& 1 = 1 then chk ^^^ item.1 else chk

theorem polymodStep_eq (chk : UInt32) (v : U5) : polymodStep chk v =
    gen.zipIdx.foldl (addGen (chk >>> 25).toUInt8)
      (((chk &&& 0x01ffffff) <<< 5) ^^^ .ofNat v.val) := rfl

theorem low_bit (b : UInt8) : b &&& 1 = 0 ∨ b &&& 1 = 1 := by
  have hbit : (b &&& 1).toNat = b.toNat % 2 := by
    rw [UInt8.toNat_and]
    exact Nat.and_one_is_mod _
  rw [← UInt8.toNat_inj, ← UInt8.toNat_inj, hbit]
  exact Nat.mod_two_eq_zero_or_one _

theorem addGen_xor (b b' : UInt8) (x y : UInt32) (item : UInt32 × Nat) :
    addGen (b ^^^ b') (x ^^^ y) item = addGen b x item ^^^ addGen b' y item := by
  have hbits : ((b ^^^ b') >>> UInt8.ofNat item.2) &&& 1 =
      ((b >>> UInt8.ofNat item.2) &&& 1) ^^^ ((b' >>> UInt8.ofNat item.2) &&& 1) := by
    apply UInt8.toNat_inj.1
    simp only [UInt8.shiftRight_xor, UInt8.toNat_and, UInt8.toNat_xor, Nat.and_xor_distrib_right]
  unfold addGen
  rw [hbits]
  rcases low_bit (b >>> .ofNat item.2) with h | h <;>
    rcases low_bit (b' >>> .ofNat item.2) with h' | h' <;> rw [h, h']
  · rfl
  · exact UInt32.xor_assoc _ _ _
  · show x ^^^ y ^^^ item.1 = x ^^^ item.1 ^^^ y
    ac_rfl
  · show x ^^^ y = x ^^^ item.1 ^^^ (y ^^^ item.1)
    rw [xor_swap, UInt32.xor_self, UInt32.xor_zero]

theorem foldl_addGen_xor (b b' : UInt8) : ∀ (items : List (UInt32 × Nat)) (x y : UInt32),
    items.foldl (addGen (b ^^^ b')) (x ^^^ y) = items.foldl (addGen b) x ^^^ items.foldl (addGen b') y
  | [], _, _ => rfl
  | item :: items, x, y => by
    rw [List.foldl_cons, addGen_xor, foldl_addGen_xor b b' items, List.foldl_cons, List.foldl_cons]

/-- **A step is linear in exclusive or.** -/
theorem polymodStep_xor (x y : UInt32) (v : U5) :
    polymodStep (x ^^^ y) v = polymodStep x 0 ^^^ polymodStep y v := by
  rw [polymodStep_eq, polymodStep_eq, polymodStep_eq, ← foldl_addGen_xor, UInt32.shiftRight_xor,
    UInt32.toUInt8_xor, and_xor_distrib, UInt32.shiftLeft_xor]
  congr 1
  show _ = _ ^^^ 0 ^^^ _
  rw [UInt32.xor_zero, UInt32.xor_assoc]

theorem foldl_polymodStep_xor : ∀ (l : List U5) (x y : UInt32),
    l.foldl polymodStep (x ^^^ y) =
      (List.replicate l.length 0).foldl polymodStep x ^^^ l.foldl polymodStep y
  | [], _, _ => rfl
  | v :: l, x, y => by
    rw [List.foldl_cons, polymodStep_xor, foldl_polymodStep_xor l]
    rfl

theorem toNat_polymodStep_lt (x : UInt32) (v : U5) : (polymodStep x v).toNat < 2 ^ 30 := by
  have hfold (b : UInt8) : ∀ (items : List (UInt32 × Nat)) {chk : UInt32},
      (∀ item ∈ items, item.1.toNat < 2 ^ 30) → chk.toNat < 2 ^ 30 →
        (items.foldl (addGen b) chk).toNat < 2 ^ 30 := by
    intro items
    induction items with
    | nil => exact fun _ hchk => hchk
    | cons item items ih =>
      intro chk hitems hchk
      refine ih (fun item' h => hitems item' (List.mem_cons_of_mem _ h)) ?_
      unfold addGen
      split
      · rw [UInt32.toNat_xor]
        exact Nat.xor_lt_two_pow hchk (hitems item List.mem_cons_self)
      · exact hchk
  have hshift : ((x &&& 0x01ffffff) <<< 5).toNat < 2 ^ 30 := by
    have hlow : (x &&& 0x01ffffff).toNat ≤ 0x01ffffff := by
      rw [UInt32.toNat_and]
      exact Nat.and_le_right
    rw [UInt32.toNat_shiftLeft, Nat.shiftLeft_eq]
    show (x &&& 0x01ffffff).toNat * 2 ^ 5 % 2 ^ 32 < 2 ^ 30
    omega
  have hv : (UInt32.ofNat v.val).toNat < 2 ^ 30 := by
    have := v.isLt
    rw [UInt32.toNat_ofNat', Nat.mod_eq_of_lt (by omega)]
    omega
  rw [polymodStep_eq]
  refine hfold _ _ (by decide +kernel) ?_
  rw [UInt32.toNat_xor]
  exact Nat.xor_lt_two_pow hshift hv

theorem polymodStep_small {x : UInt32} (h : x.toNat < 2 ^ 25) (v : U5) :
    polymodStep x v = (x <<< 5) ^^^ .ofNat v.val := by
  have hb : x >>> 25 = 0 := by
    apply UInt32.toNat_inj.1
    rw [UInt32.toNat_shiftRight, Nat.shiftRight_eq_div_pow]
    exact Nat.div_eq_of_lt h
  have hlow : x &&& 0x01ffffff = x := by
    apply UInt32.toNat_inj.1
    rw [UInt32.toNat_and]
    exact (Nat.and_two_pow_sub_one_eq_mod x.toNat 25).trans (Nat.mod_eq_of_lt h)
  rw [polymodStep_eq, hb, hlow]
  rfl

@[simp] theorem length_checksum (hrp : Bytes) (data : List U5) (variant : Variant) :
    (checksum hrp data variant).length = checksumLength := by
  rw [checksum, List.length_map, List.length_range]

theorem toNat_digit (x : UInt32) : (u5 (x &&& 0x1f).toUInt8).val = x.toNat % 32 := by
  have hlow : (x &&& 0x1f).toNat = x.toNat % 32 := by
    rw [UInt32.toNat_and]
    exact Nat.and_two_pow_sub_one_eq_mod x.toNat 5
  show (x &&& 0x1f).toUInt8.toNat % 32 = _
  rw [UInt32.toNat_toUInt8, hlow]
  omega

theorem polymodStep_digit {y : UInt32} (h : y.toNat < 2 ^ 30) :
    polymodStep (y >>> 5) (u5 (y &&& 0x1f).toUInt8) = y := by
  have hhigh : (y >>> 5).toNat = y.toNat / 32 := by
    rw [UInt32.toNat_shiftRight, Nat.shiftRight_eq_div_pow]
    rfl
  rw [polymodStep_small (by omega)]
  apply UInt32.toNat_inj.1
  rw [UInt32.toNat_xor, UInt32.toNat_shiftLeft, Nat.shiftLeft_eq, hhigh, toNat_digit,
    UInt32.toNat_ofNat', Nat.mod_eq_of_lt (a := y.toNat % 32) (by omega)]
  show (y.toNat / 32 * 2 ^ 5 % 2 ^ 32) ^^^ (y.toNat % 32) = y.toNat
  have hdiv := Nat.xor_div_two_pow (a := y.toNat / 32 * 2 ^ 5 % 2 ^ 32) (b := y.toNat % 32) (n := 5)
  have hmod := Nat.xor_mod_two_pow (a := y.toNat / 32 * 2 ^ 5 % 2 ^ 32) (b := y.toNat % 32) (n := 5)
  rw [show y.toNat / 32 * 2 ^ 5 % 2 ^ 32 / 2 ^ 5 = y.toNat / 32 by omega,
    show y.toNat % 32 / 2 ^ 5 = 0 by omega, Nat.xor_zero] at hdiv
  rw [show y.toNat / 32 * 2 ^ 5 % 2 ^ 32 % 2 ^ 5 = 0 by omega,
    show y.toNat % 32 % 2 ^ 5 = y.toNat % 32 by omega, Nat.zero_xor] at hmod
  omega

theorem toNat_shiftRight_ofNat (x : UInt32) {n : Nat} (hn : n < 32) :
    (x >>> .ofNat n).toNat = x.toNat / 2 ^ n := by
  rw [UInt32.toNat_shiftRight, Nat.shiftRight_eq_div_pow, UInt32.toNat_ofNat',
    Nat.mod_eq_of_lt (a := n) (by omega), Nat.mod_eq_of_lt hn]

theorem foldl_digits {plm : UInt32} (h : plm.toNat < 2 ^ 30) :
    ((List.range checksumLength).map fun p =>
      u5 ((plm >>> .ofNat (5 * (5 - p))) &&& 0x1f).toUInt8).foldl polymodStep 0 = plm := by
  have hstep (n : Nat) (hn : n ≤ 5) : polymodStep (plm >>> .ofNat (5 * (n + 1)))
      (u5 ((plm >>> .ofNat (5 * n)) &&& 0x1f).toUInt8) = plm >>> .ofNat (5 * n) := by
    have hshift : plm >>> .ofNat (5 * (n + 1)) = plm >>> .ofNat (5 * n) >>> .ofNat 5 := by
      apply UInt32.toNat_inj.1
      rw [toNat_shiftRight_ofNat _ (by omega), toNat_shiftRight_ofNat _ (by omega),
        toNat_shiftRight_ofNat _ (by omega), Nat.div_div_eq_div_mul, ← pow_add, Nat.mul_succ]
    rw [hshift]
    refine polymodStep_digit ?_
    rw [toNat_shiftRight_ofNat _ (by omega)]
    exact lt_of_le_of_lt (Nat.div_le_self _ _) h
  have hzero : (0 : UInt32) = plm >>> .ofNat (5 * 6) := by
    apply UInt32.toNat_inj.1
    rw [toNat_shiftRight_ofNat _ (by omega)]
    exact (Nat.div_eq_of_lt h).symm
  let d (n : Nat) : U5 := u5 ((plm >>> .ofNat (5 * n)) &&& 0x1f).toUInt8
  show [d 5, d 4, d 3, d 2, d 1, d 0].foldl polymodStep 0 = plm
  simp only [List.foldl_cons, List.foldl_nil, d]
  rw [hzero, hstep 5 (by omega), hstep 4 (by omega), hstep 3 (by omega), hstep 2 (by omega),
    hstep 1 (by omega), hstep 0 (by omega)]
  exact UInt32.shiftRight_zero

/-- **Behind its checksum, every data has the remainder of its variant.** -/
theorem verifyChecksum_checksum (hrp : Bytes) (data : List U5) (variant : Variant) :
    verifyChecksum hrp (data ++ checksum hrp data variant) = some variant := by
  have hremainder : polymod (hrpExpand hrp ++ (data ++ checksum hrp data variant)) =
      variant.constant := by
    let before := (hrpExpand hrp ++ data).foldl polymodStep 1
    let zeros := (List.replicate checksumLength (0 : U5)).foldl polymodStep before
    have hplm : (zeros ^^^ variant.constant).toNat < 2 ^ 30 := by
      rw [UInt32.toNat_xor]
      refine Nat.xor_lt_two_pow (toNat_polymodStep_lt _ _) ?_
      cases variant <;> decide
    have hchecksum : checksum hrp data variant = (List.range checksumLength).map fun p =>
        u5 (((zeros ^^^ variant.constant) >>> .ofNat (5 * (5 - p))) &&& 0x1f).toUInt8 := by
      rw [checksum, polymod, List.foldl_append]
    rw [polymod, ← List.append_assoc, List.foldl_append]
    show (checksum hrp data variant).foldl polymodStep before = _
    have hzero := foldl_polymodStep_xor (checksum hrp data variant) before 0
    rw [UInt32.xor_zero] at hzero
    rw [hzero, length_checksum, hchecksum, foldl_digits hplm, ← UInt32.xor_assoc]
    show zeros ^^^ zeros ^^^ _ = _
    rw [UInt32.xor_self, UInt32.zero_xor]
  rw [verifyChecksum, hremainder]
  cases variant <;> rfl

/-! ## Texts -/

theorem splitAtSep_append : ∀ (hrp : List Char) {data : List Char}, sep ∉ data →
    splitAtSep (hrp ++ sep :: data) = some (hrp, data)
  | [], [], _ => rfl
  | [], data, h => by
    have hnone : ∀ l : List Char, sep ∉ l → splitAtSep l = none := by
      intro l
      induction l with
      | nil => exact fun _ => rfl
      | cons c l ih =>
        intro h
        rw [splitAtSep, ih fun hmem => h (List.mem_cons_of_mem _ hmem)]
        exact if_neg fun hc : c = sep => h (hc ▸ List.mem_cons_self)
    rw [List.nil_append, splitAtSep, hnone data h]
    exact if_pos rfl
  | c :: hrp, data, h => by rw [List.cons_append, splitAtSep, splitAtSep_append hrp h]

theorem seen_toChar {case : Case} (hcase : case ≠ .upper) (v : U5) :
    ∃ case', case' ≠ .upper ∧ seen case (toChar v) = .ok case' := by
  have hupper : ∀ v : U5, ¬ (toChar v).isUpper = true := by decide +kernel
  rw [seen]
  by_cases hlower : (toChar v).isLower = true
  · exact ⟨.lower, by decide, by rw [if_pos hlower, if_neg hcase]⟩
  · exact ⟨case, hcase, by rw [if_neg hlower, if_neg (hupper v)]⟩

theorem decodeData_toChar : ∀ (data : List U5) {case : Case}, case ≠ .upper →
    decodeData case (data.map toChar) = .ok data
  | [], _, _ => rfl
  | v :: data, case, hcase => by
    obtain ⟨case', hcase', hseen⟩ := seen_toChar hcase v
    have hrev : ∀ v : U5, ∃ h : (toChar v).toNat < 128, charsetRev[(toChar v).toNat] = (v.val : Int) := by
      decide +kernel
    obtain ⟨hascii, hvalue⟩ := hrev v
    have hv := v.isLt
    have hu5 : ∀ v : U5, u5 (.ofNat v.val) = v := by decide +kernel
    rw [List.map_cons, decodeData, dif_pos hascii, hseen]
    dsimp only
    rw [hvalue, if_neg (by omega), decodeData_toChar data hcase', Int.toNat_natCast]
    dsimp only
    rw [hu5]

/-- **A text says what it was made of.** -/
theorem decode_encode {hrp : String} {case : Case} (h : checkHrp hrp = .ok case)
    (hcase : case ≠ .upper) (data : List U5) (variant : Variant) :
    ∃ text, encode hrp data variant = .ok text ∧ decode text = .ok (hrp, data, variant) ∧
      text.toList = hrp.toList ++
        sep :: (data ++ checksum (stringBytes hrp) data variant).map toChar := by
  have hsep : sep ∉ (data ++ checksum (stringBytes hrp) data variant).map toChar := by
    have hall : ∀ v : U5, toChar v ≠ sep := by decide +kernel
    rintro hmem
    obtain ⟨v, -, hv⟩ := List.mem_map.1 hmem
    exact hall v hv
  rw [encode, h]
  dsimp only
  rw [if_neg hcase]
  refine ⟨_, rfl, ?_, String.toList_ofList⟩
  rw [decode, splitAndDecode, String.toList_ofList, splitAtSep_append _ hsep]
  dsimp only
  rw [String.ofList_toList, h]
  dsimp only
  rw [if_neg hcase, decodeData_toChar _ hcase]
  dsimp only
  rw [if_neg (by simp), verifyChecksum_checksum]
  simp

end Uchain.Bech32
