import Mathlib.Data.Fintype.Basic
import Mathlib.Data.Fintype.OfMap
import Mathlib.Data.List.Lex
import Mathlib.Data.Nat.Bitwise
import Mathlib.Order.Basic

/-!
# Bytes, hashes and addresses

Byte strings, big-endian integers, `FixedBytes n` (a byte array of length `n`, with `H256` and
`Address` as instances), and the bits of such an array counted from the most significant bit of its
first byte.

* `beBytes_injective`: a fixed-width big-endian encoding is injective.
* `FixedBytes.fromSlice?`: the checked conversion from a slice (the source panics on other lengths).
-/

namespace Uchain

abbrev Bytes := List UInt8

instance : LinearOrder Bytes := LinearOrder.lift' (fun b => b.map UInt8.toNat)
  (List.map_injective_iff.2 fun _ _ => UInt8.toNat_inj.1)

/-! ## Big-endian integers -/

/-- The `n` low bytes of `x`, most significant first. -/
def beBytes : Nat → Nat → Bytes
  | 0, _ => []
  | n + 1, x => UInt8.ofNat (x / 256 ^ n % 256) :: beBytes n x

/-- The number that a byte string spells in big-endian order. -/
def ofBeBytes : Bytes → Nat
  | [] => 0
  | b :: l => b.toNat * 256 ^ l.length + ofBeBytes l

@[simp] theorem length_beBytes : ∀ n x, (beBytes n x).length = n
  | 0, _ => rfl
  | n + 1, x => by rw [beBytes, List.length_cons, length_beBytes n x]

theorem ofBeBytes_beBytes : ∀ n x, ofBeBytes (beBytes n x) = x % 256 ^ n
  | 0, x => by rw [beBytes, ofBeBytes, pow_zero, Nat.mod_one]
  | n + 1, x => by
    rw [beBytes, ofBeBytes, ofBeBytes_beBytes n x, length_beBytes, pow_succ, Nat.mod_mul,
      UInt8.toNat_ofNat', Nat.mod_mod, Nat.mul_comm, Nat.add_comm]

theorem beBytes_injective {n x y : Nat} (hx : x < 256 ^ n) (hy : y < 256 ^ n)
    (h : beBytes n x = beBytes n y) : x = y := by
  have := congrArg ofBeBytes h
  rwa [ofBeBytes_beBytes, ofBeBytes_beBytes, Nat.mod_eq_of_lt hx, Nat.mod_eq_of_lt hy] at this

theorem ofBeBytes_lt : ∀ b : Bytes, ofBeBytes b < 256 ^ b.length
  | [] => Nat.one_pos
  | b :: l => by
    have hb := b.toNat_lt
    have hl := ofBeBytes_lt l
    rw [ofBeBytes, List.length_cons, pow_succ]
    calc b.toNat * 256 ^ l.length + ofBeBytes l
        < b.toNat * 256 ^ l.length + 256 ^ l.length := by omega
      _ = (b.toNat + 1) * 256 ^ l.length := (Nat.succ_mul _ _).symm
      _ ≤ 256 * 256 ^ l.length := Nat.mul_le_mul_right _ (by omega)
      _ = 256 ^ l.length * 256 := Nat.mul_comm _ _

theorem ofBeBytes_append : ∀ a b : Bytes,
    ofBeBytes (a ++ b) = ofBeBytes a * 256 ^ b.length + ofBeBytes b
  | [], b => by rw [List.nil_append, ofBeBytes, Nat.zero_mul, Nat.zero_add]
  | x :: a, b => by
    rw [List.cons_append, ofBeBytes, ofBeBytes_append a b, ofBeBytes, List.length_append, pow_add,
      Nat.add_mul, Nat.mul_assoc, Nat.add_assoc]

theorem mul_add_lt_mul_add_iff {u v r s d : Nat} (hr : r < d) (hs : s < d) :
    u * d + r < v * d + s ↔ u < v ∨ u = v ∧ r < s := by
  have hlt {u v r s : Nat} (huv : u < v) (hr : r < d) : u * d + r < v * d + s :=
    calc u * d + r < (u + 1) * d := by rw [Nat.succ_mul]; omega
      _ ≤ v * d := Nat.mul_le_mul_right d huv
      _ ≤ v * d + s := Nat.le_add_right _ _
  rcases lt_trichotomy u v with huv | rfl | huv
  · simp [huv, hlt huv hr]
  · simp
  · simp [huv.not_gt, huv.ne', (hlt huv hs (s := r)).le]

/-- **Byte strings of one length are ordered as the numbers that they spell.** -/
theorem lt_iff_ofBeBytes_lt : ∀ {b b' : Bytes}, b.length = b'.length →
    (b < b' ↔ ofBeBytes b < ofBeBytes b')
  | [], [], _ => iff_of_false (List.lt_irrefl _) (lt_irrefl _)
  | x :: b, y :: b', hcons => by
    have hlen : b.length = b'.length := Nat.succ.inj hcons
    have hfirst : x :: b < y :: b' ↔ x.toNat < y.toNat ∨ x.toNat = y.toNat ∧ b < b' := by
      rw [List.cons_lt_cons_iff, UInt8.lt_iff_toNat_lt, UInt8.toNat_inj]
    have hlt := mul_add_lt_mul_add_iff (u := x.toNat) (v := y.toNat) (ofBeBytes_lt b)
      (hlen ▸ ofBeBytes_lt b')
    rw [hfirst, lt_iff_ofBeBytes_lt hlen, ofBeBytes, ofBeBytes, ← hlen, hlt]

theorem ofBeBytes_inj {b b' : Bytes} (hlen : b.length = b'.length)
    (h : ofBeBytes b = ofBeBytes b') : b = b' := by
  apply List.le_antisymm
  · exact fun hlt => ((lt_iff_ofBeBytes_lt hlen.symm).1 hlt).ne h.symm
  · exact fun hlt => ((lt_iff_ofBeBytes_lt hlen).1 hlt).ne h

theorem ofBeBytes_take {n x : Nat} (h : x < 256 ^ n) (b : Bytes) :
    ofBeBytes ((beBytes n x ++ b).take n) = x := by
  rw [List.take_append_of_le_length (by simp), List.take_of_length_le (by simp),
    ofBeBytes_beBytes, Nat.mod_eq_of_lt h]

theorem drop_beBytes (n x : Nat) (b : Bytes) : (beBytes n x ++ b).drop n = b := by
  rw [List.drop_append_of_le_length (by simp), List.drop_of_length_le (by simp), List.nil_append]

def toBeBytes32 (x : UInt32) : Bytes := beBytes 4 x.toNat

def toBeBytes64 (x : UInt64) : Bytes := beBytes 8 x.toNat

@[simp] theorem length_toBeBytes32 (x : UInt32) : (toBeBytes32 x).length = 4 := length_beBytes 4 _

@[simp] theorem length_toBeBytes64 (x : UInt64) : (toBeBytes64 x).length = 8 := length_beBytes 8 _

theorem toBeBytes32_injective : Function.Injective toBeBytes32 := fun x y h =>
  UInt32.toNat_inj.1 (beBytes_injective x.toNat_lt y.toNat_lt h)

theorem toBeBytes64_injective : Function.Injective toBeBytes64 := fun x y h =>
  UInt64.toNat_inj.1 (beBytes_injective x.toNat_lt y.toNat_lt h)

/-! ## Hexadecimal texts -/

def hexDigits (b : UInt8) : List Char := [Nat.digitChar (b.toNat / 16), Nat.digitChar (b.toNat % 16)]

/-- `hex::encode` with leading zeros. -/
def hexEncode (b : Bytes) : String := String.ofList ('0' :: 'x' :: b.flatMap hexDigits)

/-! ## Byte arrays of a fixed length -/

/-- A byte array of length `n`, held as the number it spells in big-endian order. The
lexicographic order of two arrays of one length is the order of these numbers. -/
structure FixedBytes (n : Nat) where
  num : Nat
  lt : num < 256 ^ n

abbrev H256 := FixedBytes 32

abbrev Address := FixedBytes 44

namespace FixedBytes

variable {n : Nat}

theorem num_injective : Function.Injective (num : FixedBytes n → Nat) := by
  rintro ⟨a, ha⟩ ⟨b, hb⟩ h
  cases h
  rfl

instance : LinearOrder (FixedBytes n) := LinearOrder.lift' num num_injective

instance : Fintype (FixedBytes n) :=
  Fintype.ofBijective (fun x : Fin (256 ^ n) => (⟨x.1, x.2⟩ : FixedBytes n))
    ⟨fun _ _ h => Fin.ext (congrArg num h), fun a => ⟨⟨a.1, a.2⟩, rfl⟩⟩

def bytes (h : FixedBytes n) : Bytes := beBytes n h.num

@[simp] theorem length_bytes (h : FixedBytes n) : h.bytes.length = n := length_beBytes n _

theorem bytes_injective : Function.Injective (bytes : FixedBytes n → Bytes) := fun a b h =>
  num_injective (beBytes_injective a.lt b.lt h)

@[simp] theorem bytes_inj {a b : FixedBytes n} : a.bytes = b.bytes ↔ a = b :=
  bytes_injective.eq_iff

def zero : FixedBytes n := ⟨0, Nat.pow_pos (by decide)⟩

instance : Inhabited (FixedBytes n) := ⟨zero⟩

def isZero (h : FixedBytes n) : Bool := h = zero

@[simp] theorem isZero_iff {h : FixedBytes n} : h.isZero = true ↔ h = zero := by simp [isZero]

theorem isZero_eq_false_iff {h : FixedBytes n} : h.isZero = false ↔ h ≠ zero := by simp [isZero]

/-- The array that spells the low bytes of `x`. -/
def ofNum (n x : Nat) : FixedBytes n := ⟨x % 256 ^ n, Nat.mod_lt _ (Nat.pow_pos (by decide))⟩

/-- `from_slice` when it does not panic. -/
def fromSlice? (n : Nat) (b : Bytes) : Option (FixedBytes n) :=
  if b.length = n then some (ofNum n (ofBeBytes b)) else none

@[simp] theorem fromSlice?_bytes (h : FixedBytes n) : fromSlice? n h.bytes = some h := by
  rw [fromSlice?, if_pos h.length_bytes, Option.some.injEq]
  refine num_injective ?_
  show ofBeBytes (beBytes n h.num) % 256 ^ n = h.num
  rw [ofBeBytes_beBytes, Nat.mod_mod, Nat.mod_eq_of_lt h.lt]

theorem exists_fromSlice? {b : Bytes} (hb : b.length = n) :
    ∃ h : FixedBytes n, fromSlice? n b = some h ∧ h.bytes = b := by
  refine ⟨_, if_pos hb, ofBeBytes_inj (by rw [length_bytes, hb]) ?_⟩
  rw [bytes, ofBeBytes_beBytes, ofNum, Nat.mod_mod, Nat.mod_eq_of_lt (hb ▸ ofBeBytes_lt b)]

end FixedBytes

/-! ## Bits -/

/-- `get_bits_at_from_msb(data, position) == 1`, for a position inside `data`. -/
def getBitsAtFromMsb (data : Bytes) (position : Nat) : Bool :=
  (data.getD (position / 8) 0).toNat &&& 2 ^ (8 - 1 - position % 8) > 0

theorem getBitsAtFromMsb_eq (data : Bytes) (p : Nat) :
    getBitsAtFromMsb data p = (data.getD (p / 8) 0).toNat.testBit (7 - p % 8) := by
  rw [getBitsAtFromMsb, Nat.and_two_pow]
  cases (data.getD (p / 8) 0).toNat.testBit (7 - p % 8) <;> simp [Nat.two_pow_pos]

theorem eq_of_bits {n : Nat} {a b : FixedBytes n}
    (h : ∀ i < 8 * n, getBitsAtFromMsb a.bytes i = getBitsAtFromMsb b.bytes i) : a = b := by
  refine FixedBytes.bytes_injective (List.ext_getElem (by simp) fun j h₁ h₂ => ?_)
  simp only [FixedBytes.length_bytes] at h₁ h₂
  refine UInt8.toNat_inj.1 (Nat.eq_of_testBit_eq fun i => ?_)
  by_cases hi : i < 8
  · have := h (8 * j + (7 - i)) (by omega)
    rw [getBitsAtFromMsb_eq, getBitsAtFromMsb_eq, show (8 * j + (7 - i)) / 8 = j by omega,
      show 7 - (8 * j + (7 - i)) % 8 = i by omega] at this
    simpa [List.getD_eq_getElem?_getD, h₁] using this
  · have hlt (c : UInt8) : c.toNat < 2 ^ i :=
      lt_of_lt_of_le c.toNat_lt (Nat.pow_le_pow_right (by decide) (by omega))
    rw [Nat.testBit_lt_two_pow (hlt _), Nat.testBit_lt_two_pow (hlt _)]

end Uchain
