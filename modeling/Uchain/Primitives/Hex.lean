import Uchain.Lib.Exec
import Uchain.Primitives.Bytes

/-!
# Hexadecimal texts

The crate `hex`, and the conversions of integers that `primitive-types` adds to it. A text is the list of its
UTF-8 bytes. Writing past the end of a slice, and the subtraction of a larger `usize` in debug builds, panic;
`checked` tells whether arithmetic is checked.

`HexBytes` and `Width` are the types with `ToHex` and `FromHex`: vectors and arrays, unsigned integers.
-/

namespace Uchain.Hex

open Lib

inductive FromHexError where
  | missingPrefix
  | invalidLength
  | invalidHex (character : Char) (index : Nat)
  deriving DecidableEq, Repr

abbrev R (α : Type) := Except (Fail FromHexError) α

def chars : Bytes := [48, 49, 50, 51, 52, 53, 54, 55, 56, 57, 97, 98, 99, 100, 101, 102]

/-- `CHARS[i as usize]`. -/
def charAt (i : UInt8) : UInt8 := chars.getD i.toNat 0

/-- `b"0x"`. -/
def marker : Bytes := [48, 120]

/-- The part of the buffer `v` that is written. -/
def encodeToSlice (v bytes : Bytes) (skipLeadingZero : Bool) : R Bytes :=
  if v.length > 1 + bytes.length * 2 then
    match bytes with
    | [] => .error .panic
    | first :: rest =>
      let firstNibble := first >>> 4
      let head := if firstNibble ≠ 0 ∨ !skipLeadingZero then [charAt firstNibble] else []
      .ok (marker ++ head ++ [charAt (first &&& 0xf)] ++
        rest.flatMap fun byte : UInt8 => [charAt (byte >>> 4), charAt (byte &&& 0xf)])
  else .error .panic

def encode (bytes : Bytes) (skipLeadingZero : Bool) : R Bytes :=
  let rest := if skipLeadingZero then bytes.dropWhile (· == 0) else bytes
  if rest.isEmpty then .ok (if skipLeadingZero then marker ++ [48] else marker)
  else encodeToSlice (List.replicate ((rest.length + 1) * 2) 0) rest skipLeadingZero

/-- The value of a digit, in either case. -/
def digit? (byte : UInt8) : Option UInt8 :=
  if 65 ≤ byte ∧ byte ≤ 70 then some (byte - 65 + 10)
  else if 97 ≤ byte ∧ byte ≤ 102 then some (byte - 97 + 10)
  else if 48 ≤ byte ∧ byte ≤ 57 then some (byte - 48)
  else none

def isSpace (byte : UInt8) : Bool := byte == 32 || byte == 13 || byte == 10 || byte == 9

/-- The loop of `decode_to_slice` over the text `v` from `index` on; `bytes` are written up to `pos`. -/
def decodeLoop (stripped : Bool) : (v : Bytes) → (index modulus : Nat) → (buf : UInt8) → (pos : Nat) →
    (bytes : Bytes) → R (Nat × Bytes)
  | [], _, _, _, pos, bytes => .ok (pos, bytes)
  | byte :: v, index, modulus, buf, pos, bytes =>
    let buf := buf <<< 4
    match digit? byte with
    | some digit =>
      let buf := buf ||| digit
      if modulus + 1 = 2 then
        if pos < bytes.length then decodeLoop stripped v (index + 1) 0 buf (pos + 1) (bytes.set pos buf)
        else .error .panic
      else decodeLoop stripped v (index + 1) (modulus + 1) buf pos bytes
    | none =>
      if isSpace byte then decodeLoop stripped v (index + 1) modulus (buf >>> 4) pos bytes
      else .error (.err (.invalidHex (Char.ofNat byte.toNat) (index + if stripped then 2 else 0)))

/-- The number of bytes that are written, and the slice. -/
def decodeToSlice (v bytes : Bytes) (stripped : Bool) : R (Nat × Bytes) :=
  decodeLoop stripped v 0 (v.length % 2) 0 0 bytes

/-- `strip_prefix("0x")`. -/
def strip (v : Bytes) : Bytes × Bool :=
  if v.take 2 = marker then (v.drop 2, true) else (v, false)

def decode (v : Bytes) : R Bytes := do
  let (v, stripped) := strip v
  let (_, bytes) ← decodeToSlice v (List.replicate ((v.length + 1) / 2) 0) stripped
  return bytes

/-! ## Byte strings -/

/-- The lengths of the arrays that have hexadecimal texts. -/
def arraySizes : List Nat :=
  List.range' 1 128 ++ [160, 192, 200, 224, 256, 384, 512, 768, 1024, 2048, 4096, 8192, 16384, 32768]

/-- The byte strings with hexadecimal texts: vectors, and arrays of some lengths. -/
inductive HexBytes where
  | vec (b : Bytes)
  | array (b : Bytes) (size : b.length ∈ arraySizes)

namespace HexBytes

def bytes : HexBytes → Bytes
  | vec b | array b _ => b

def encodeHex : HexBytes → R Bytes
  | vec b => encode b true
  | array b _ => encode b false

/-- `from_hex` at the type of `x`. -/
def fromHex (x : HexBytes) (hex : Bytes) : R Bytes :=
  match x with
  | vec _ => decode hex
  | array b _ => do
    let (_, out) ← decodeToSlice hex (List.replicate b.length 0) false
    return out

end HexBytes

/-! ## Integers -/

/-- The unsigned integers with hexadecimal texts; the last three are those of `primitive-types`. -/
inductive Width where
  | u8
  | u16
  | u32
  | u64
  | u128
  | U128
  | U192
  | U256
  deriving DecidableEq, Repr

namespace Width

def len : Width → Nat
  | u8 => 1
  | u16 => 2
  | u32 => 4
  | u64 => 8
  | u128 | U128 => 16
  | U192 => 24
  | U256 => 32

end Width

/-- `$len - decoded.len()`, as a `usize`. -/
def startIndex (checked : Bool) (len decodedLen : Nat) : R Nat :=
  if decodedLen ≤ len then .ok (len - decodedLen)
  else if checked then .error .panic
  else .ok ((2 ^ 64 + len - decodedLen) % 2 ^ 64)

/-- `raw[i] = iter.next().ok_or(InvalidLength)?` for `n` indices from `i` on. -/
def fillLoop : (n i : Nat) → (iter raw : Bytes) → R Bytes
  | 0, _, _, raw => .ok raw
  | _ + 1, _, [], _ => .error (.err .invalidLength)
  | n + 1, i, byte :: iter, raw =>
    if i < raw.length then fillLoop n (i + 1) iter (raw.set i byte) else .error .panic

def encodeUint (bytes : Bytes) : R Bytes :=
  let rest := bytes.dropWhile (· == 0)
  if rest.isEmpty then .ok (marker ++ [48]) else encode rest true

def Width.encodeHex (w : Width) (x : Nat) : R Bytes :=
  match w with
  | .u8 | .u16 | .u32 | .u64 | .u128 => encodeUint (beBytes w.len x)
  | .U128 | .U192 | .U256 => encode (beBytes w.len x) true

def Width.fromHex (checked : Bool) (w : Width) (v : Bytes) : R Nat := do
  let decoded ← decode v
  let start ← startIndex checked w.len decoded.length
  let raw ← fillLoop (w.len - start) start decoded (List.replicate w.len 0)
  return ofBeBytes raw

end Uchain.Hex
