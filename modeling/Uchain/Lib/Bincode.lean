import Mathlib.Algebra.Order.Ring.Nat
import Uchain.Lib.Exec

/-!
# The binary format of `bincode`

The standard configuration: little-endian integers of variable length, a vector as its number of elements
and then the elements, an array and a tuple as their parts alone. A decoder is a computation whose state is
what is left of the buffer.

`Reads d b a`: the decoder `d` takes exactly `b` off the buffer, whatever follows, and answers `a`. Each form
of data has one rule, and a format that is put together from them is read by their composition.
-/

namespace Lib.Bincode

inductive DecodeError where
  | unexpectedEnd
  | invalidIntegerType (found : UInt8)
  /-- Another error, as a text. -/
  | otherString (inner : DecodeError)
  deriving DecidableEq, Repr

abbrev Decoder (α : Type) := Exec DecodeError Empty (List UInt8) α

def Reads {α : Type} (d : Decoder α) (b : List UInt8) (a : α) : Prop :=
  ∀ rest, d (b ++ rest) = ⟨.ok a, rest, []⟩

variable {α β : Type}

theorem reads_pure (a : α) : Reads (pure a : Decoder α) [] a := fun _ => rfl

variable {a : α} {b : List UInt8} {d : Decoder α}

theorem Reads.bind {f : α → Decoder β} {c : List UInt8} {r : β} (hd : Reads d b a)
    (hf : Reads (f a) c r) : Reads (d >>= f) (b ++ c) r := by
  intro rest
  rw [List.append_assoc, Exec.bind_ok_nil (hd (c ++ rest))]
  exact hf rest

theorem Reads.bind_nil {f : α → Decoder β} {r : β} (hd : Reads d b a) (hf : Reads (f a) [] r) :
    Reads (d >>= f) b r := by
  have h := hd.bind hf
  rwa [List.append_nil] at h

theorem Reads.mapErr (hd : Reads d b a) (g : DecodeError → DecodeError) :
    Reads (Exec.mapErr g d) b a := by
  intro rest
  unfold Exec.mapErr
  rw [hd rest]

/-! ## Bytes -/

def read (n : Nat) : Decoder (List UInt8) := do
  let b ← Exec.get
  if n ≤ b.length then
    Exec.set (b.drop n)
    return b.take n
  else Exec.err .unexpectedEnd

theorem reads_read (b : List UInt8) : Reads (read b.length) b b := by
  intro rest
  unfold read
  rw [Exec.get_bind, if_pos (by rw [List.length_append]; omega), List.drop_left, List.take_left]
  rfl

/-! ## Integers -/

/-- The `n` low bytes of `x`, least significant first. -/
def leBytes : Nat → Nat → List UInt8
  | 0, _ => []
  | n + 1, x => UInt8.ofNat x :: leBytes n (x / 256)

def ofLeBytes : List UInt8 → Nat
  | [] => 0
  | b :: l => b.toNat + 256 * ofLeBytes l

theorem length_leBytes : ∀ n x, (leBytes n x).length = n
  | 0, _ => rfl
  | n + 1, x => by rw [leBytes, List.length_cons, length_leBytes n]

theorem ofLeBytes_leBytes : ∀ n x, ofLeBytes (leBytes n x) = x % 256 ^ n
  | 0, x => by rw [leBytes, ofLeBytes, Nat.pow_zero, Nat.mod_one]
  | n + 1, x => by
    rw [leBytes, ofLeBytes, ofLeBytes_leBytes n, UInt8.toNat_ofNat']
    show x % 256 + 256 * (x / 256 % 256 ^ n) = _
    rw [Nat.pow_succ, Nat.mul_comm (256 ^ n), Nat.mod_mul]

/-- An unsigned integer below `2 ^ 64`. -/
def encodeVarint (x : Nat) : List UInt8 :=
  if x ≤ 250 then [UInt8.ofNat x]
  else if x < 2 ^ 16 then 251 :: leBytes 2 x
  else if x < 2 ^ 32 then 252 :: leBytes 4 x
  else 253 :: leBytes 8 x

def decodeFixed (n : Nat) : Decoder Nat := do return ofLeBytes (← read n)

def decodeVarint : Decoder Nat := do
  let first := (← read 1).headD 0
  if first ≤ 250 then return first.toNat
  else if first = 251 then decodeFixed 2
  else if first = 252 then decodeFixed 4
  else if first = 253 then decodeFixed 8
  else Exec.err (.invalidIntegerType first)

theorem reads_fixed {n x : Nat} (h : x < 256 ^ n) : Reads (decodeFixed n) (leBytes n x) x := by
  have hread := reads_read (leBytes n x)
  rw [length_leBytes] at hread
  refine hread.bind_nil ?_
  rw [ofLeBytes_leBytes, Nat.mod_eq_of_lt h]
  exact reads_pure x

theorem reads_varint {x : Nat} (h : x < 2 ^ 64) : Reads decodeVarint (encodeVarint x) x := by
  unfold encodeVarint
  split
  · rename_i hsmall
    have hnat : (UInt8.ofNat x).toNat = x := by
      rw [UInt8.toNat_ofNat', Nat.mod_eq_of_lt (by omega)]
    have hle : UInt8.ofNat x ≤ 250 := UInt8.le_iff_toNat_le.2 (by rw [hnat]; exact hsmall)
    refine (reads_read [UInt8.ofNat x]).bind_nil ?_
    show Reads (if UInt8.ofNat x ≤ 250 then return (UInt8.ofNat x).toNat else _) [] x
    rw [if_pos hle, hnat]
    exact reads_pure x
  · split
    · exact (reads_read [251]).bind (reads_fixed (by omega))
    · split
      · exact (reads_read [252]).bind (reads_fixed (by omega))
      · exact (reads_read [253]).bind (reads_fixed (by omega))

/-! ## Vectors -/

/-- A vector of `len` elements of `size` bytes is allocated; the allocation panics beyond `isize::MAX`. -/
def reserve (len size : Nat) : Decoder Unit :=
  if len * size < 2 ^ 63 then return () else Exec.panic

theorem reads_reserve {len size : Nat} (h : len * size < 2 ^ 63) : Reads (reserve len size) [] () := by
  rw [reserve, if_pos h]
  exact reads_pure ()

def encodeBytes (b : List UInt8) : List UInt8 := encodeVarint b.length ++ b

def decodeBytes : Decoder (List UInt8) := do
  let len ← decodeVarint
  reserve len 1
  read len

theorem reads_bytes (h : b.length < 2 ^ 63) : Reads decodeBytes (encodeBytes b) b :=
  (reads_varint (by omega)).bind ((reads_reserve (by omega)).bind (reads_read b))

def decodeMany (d : Decoder α) : Nat → Decoder (List α)
  | 0 => return []
  | n + 1 => do
    let a ← d
    return a :: (← decodeMany d n)

def encodeVec (encode : α → List UInt8) (l : List α) : List UInt8 :=
  encodeVarint l.length ++ l.flatMap encode

/-- A vector of elements that take `size` bytes in memory. -/
def decodeVec (size : Nat) (d : Decoder α) : Decoder (List α) := do
  let len ← decodeVarint
  reserve len size
  decodeMany d len

theorem reads_many {encode : α → List UInt8} {l : List α} (hd : ∀ a ∈ l, Reads d (encode a) a) :
    Reads (decodeMany d l.length) (l.flatMap encode) l := by
  induction l with
  | nil => exact reads_pure []
  | cons a l ih =>
    obtain ⟨ha, hl⟩ := List.forall_mem_cons.1 hd
    rw [List.flatMap_cons]
    exact ha.bind ((ih hl).bind_nil (reads_pure (a :: l)))

/-- **A vector reads back** if its elements do, whatever their number and their sizes. -/
theorem reads_vec {encode : α → List UInt8} {size : Nat} {l : List α} (hsize : 0 < size)
    (hfits : l.length * size < 2 ^ 63) (hd : ∀ a ∈ l, Reads d (encode a) a) :
    Reads (decodeVec size d) (encodeVec encode l) l := by
  have hlen : l.length < 2 ^ 64 := by
    have hle := Nat.le_mul_of_pos_right l.length hsize
    omega
  exact (reads_varint hlen).bind ((reads_reserve hfits).bind (reads_many hd))

end Lib.Bincode
