import Uchain.Lib.Protobuf
import Uchain.Primitives.Bytes

/-!
# Bech32 texts

`common/bech32`: bytes in groups of five bits, a character for each group, and a checksum of six
characters behind them.

* `toBase32`: the loop over the bytes, with the bits that are left over in a buffer.
* `encode`: the human-readable part, the separator, the data and the checksum.
* `decode`: what a text says, if it is of one case and its checksum is that of a variant.
* `convertBits`: groups of one width from groups of another.
-/

namespace Uchain.Bech32

open Lib
open Lib.Protobuf (stringBytes)

/-- `u5`: an integer in the range `0..32`. -/
abbrev U5 := Fin 32

/-- The source builds a `u5` from a `u8` that is below 32. -/
def u5 (b : UInt8) : U5 := Fin.ofNat 32 b.toNat

inductive Variant where
  | bech32
  | bech32m
  deriving DecidableEq

def Variant.constant : Variant → UInt32
  | bech32 => 1
  | bech32m => 0x2bc830a3

/-- The variant with a remainder of the checksum. -/
def Variant.fromRemainder (c : UInt32) : Option Variant :=
  if c = constant bech32 then some .bech32 else if c = constant bech32m then some .bech32m else none

inductive Error where
  | missingSeparator
  | invalidChecksum
  | invalidLength
  | invalidChar (c : Char)
  | invalidData (b : UInt8)
  | invalidPadding
  | mixedCase
  deriving DecidableEq

inductive Case where
  | upper
  | lower
  | none
  deriving DecidableEq

def sep : Char := '1'

def checksumLength : Nat := 6

def charset : Vector Char 32 :=
  ⟨#['q', 'p', 'z', 'r', 'y', '9', 'x', '8', 'g', 'f', '2', 't', 'v', 'd', 'w', '0',
     's', '3', 'j', 'n', '5', '4', 'k', 'h', 'c', 'e', '6', 'm', 'u', 'a', '7', 'l'], rfl⟩

def toChar (v : U5) : Char := charset[v]

/-- The index in `charset` of each ASCII character, in both cases; -1 for the others. -/
def charsetRev : Vector Int 128 :=
  ⟨#[-1, -1, -1, -1, -1, -1, -1, -1, -1, -1, -1, -1, -1, -1, -1, -1, -1, -1, -1, -1, -1, -1, -1, -1,
     -1, -1, -1, -1, -1, -1, -1, -1, -1, -1, -1, -1, -1, -1, -1, -1, -1, -1, -1, -1, -1, -1, -1, -1,
     15, -1, 10, 17, 21, 20, 26, 30, 7, 5, -1, -1, -1, -1, -1, -1, -1, 29, -1, 24, 13, 25, 9, 8, 23,
     -1, 18, 22, 31, 27, 19, -1, 1, 0, 3, 16, 11, 28, 12, 14, 6, 4, 2, -1, -1, -1, -1, -1, -1, 29,
     -1, 24, 13, 25, 9, 8, 23, -1, 18, 22, 31, 27, 19, -1, 1, 0, 3, 16, 11, 28, 12, 14, 6, 4, 2, -1,
     -1, -1, -1, -1], rfl⟩

/-! ## Groups of five bits -/

/-- What is left in the buffer when all bytes are processed: at most two groups. -/
def flush (bufferBits : Nat) (buffer : UInt8) : List U5 :=
  if bufferBits ≥ 5 then
    u5 ((buffer &&& 0b11111000) >>> 3) ::
      if bufferBits - 5 ≠ 0 then [u5 ((buffer <<< 5) >>> 3)] else []
  else if bufferBits ≠ 0 then [u5 (buffer >>> 3)] else []

/-- The loop of `write_base32`. The buffer holds `bufferBits` bits, from the most significant one on. -/
def toBase32Loop : Bytes → Nat → UInt8 → List U5
  | [], bufferBits, buffer => flush bufferBits buffer
  | b :: bs, bufferBits, buffer =>
    -- a full group in the buffer is written first
    let full := if bufferBits ≥ 5 then [u5 ((buffer &&& 0b11111000) >>> 3)] else []
    let buffer := if bufferBits ≥ 5 then buffer <<< 5 else buffer
    let bufferBits := if bufferBits ≥ 5 then bufferBits - 5 else bufferBits
    let fromBuffer := buffer >>> 3
    let fromByte := b >>> .ofNat (3 + bufferBits)
    full ++ u5 (fromBuffer ||| fromByte) ::
      toBase32Loop bs (bufferBits + 3) (b <<< .ofNat (5 - bufferBits))

def toBase32 (b : Bytes) : List U5 := toBase32Loop b 0 0

/-! ## The checksum -/

def gen : List UInt32 := [0x3b6a57b2, 0x26508e6d, 0x1ea119fa, 0x3d4233dd, 0x2a1462b3]

def polymodStep (chk : UInt32) (v : U5) : UInt32 :=
  let b := (chk >>> 25).toUInt8
  gen.zipIdx.foldl
    (fun chk item => if (b >>> .ofNat item.2) &&& 1 = 1 then chk ^^^ item.1 else chk)
    (((chk &&& 0x01ffffff) <<< 5) ^^^ .ofNat v.val)

def polymod (values : List U5) : UInt32 := values.foldl polymodStep 1

def hrpExpand (hrp : Bytes) : List U5 :=
  hrp.map (fun b : UInt8 => u5 (b >>> 5)) ++ 0 :: hrp.map fun b : UInt8 => u5 (b &&& 0x1f)

def checksum (hrp : Bytes) (data : List U5) (variant : Variant) : List U5 :=
  let plm := polymod (hrpExpand hrp ++ data ++ List.replicate checksumLength 0) ^^^ variant.constant
  (List.range checksumLength).map fun p => u5 ((plm >>> .ofNat (5 * (5 - p))) &&& 0x1f).toUInt8

/-! ## Texts -/

/-- The loop of `check_hrp`. -/
def checkHrpLoop : Bytes → Bool → Bool → Except Error (Bool × Bool)
  | [], hasLower, hasUpper => .ok (hasLower, hasUpper)
  | b :: bs, hasLower, hasUpper =>
    if ¬(33 ≤ b ∧ b ≤ 126) then .error (.invalidChar (Char.ofNat b.toNat))
    else
      let isLower := 97 ≤ b ∧ b ≤ 122
      let hasUpper := if isLower then hasUpper else hasUpper || decide (65 ≤ b ∧ b ≤ 90)
      let hasLower := hasLower || decide isLower
      if hasLower && hasUpper then .error .mixedCase else checkHrpLoop bs hasLower hasUpper

def checkHrp (hrp : String) : Except Error Case :=
  if (stringBytes hrp).isEmpty ∨ (stringBytes hrp).length > 83 then .error .invalidLength
  else
    match checkHrpLoop (stringBytes hrp) false false with
    | .error e => .error e
    | .ok (_, true) => .ok .upper
    | .ok (true, false) => .ok .lower
    | .ok (false, false) => .ok .none

def encode (hrp : String) (data : List U5) (variant : Variant) : Except Error String :=
  match checkHrp hrp with
  | .error e => .error e
  | .ok case =>
    let hrpLower := if case = .upper then hrp.toLower else hrp
    .ok (String.ofList (hrpLower.toList ++
      sep :: (data ++ checksum (stringBytes hrpLower) data variant).map toChar))

/-- `rfind` of the separator, and the parts before and behind it. -/
def splitAtSep : List Char → Option (List Char × List Char)
  | [] => none
  | c :: cs =>
    match splitAtSep cs with
    | some (hrp, data) => some (c :: hrp, data)
    | none => if c = sep then some ([], cs) else none

/-- The case of a text after one more ASCII character. -/
def seen (case : Case) (c : Char) : Except Error Case :=
  if c.isLower then if case = .upper then .error .mixedCase else .ok .lower
  else if c.isUpper then if case = .lower then .error .mixedCase else .ok .upper
  else .ok case

/-- The closure over the characters of the data. -/
def decodeData : Case → List Char → Except Error (List U5)
  | _, [] => .ok []
  | case, c :: cs =>
    if h : c.toNat < 128 then
      match seen case c with
      | .error e => .error e
      | .ok case =>
        let numValue := charsetRev[c.toNat]
        if ¬(0 ≤ numValue ∧ numValue ≤ 31) then .error (.invalidChar c)
        else
          match decodeData case cs with
          | .error e => .error e
          | .ok data => .ok (u5 (.ofNat numValue.toNat) :: data)
    else .error (.invalidChar c)

def splitAndDecode (s : String) : Except Error (String × List U5) :=
  match splitAtSep s.toList with
  | none => .error .missingSeparator
  | some (rawHrp, rawData) =>
    match checkHrp (String.ofList rawHrp) with
    | .error e => .error e
    | .ok case =>
      let hrpLower :=
        if case = .upper then (String.ofList rawHrp).toLower else String.ofList rawHrp
      match decodeData case rawData with
      | .error e => .error e
      | .ok data => .ok (hrpLower, data)

def verifyChecksum (hrp : Bytes) (data : List U5) : Option Variant :=
  Variant.fromRemainder (polymod (hrpExpand hrp ++ data))

def decode (s : String) : Except Error (String × List U5 × Variant) :=
  match splitAndDecode s with
  | .error e => .error e
  | .ok (hrpLower, data) =>
    if data.length < checksumLength then .error .invalidLength
    else
      match verifyChecksum (stringBytes hrpLower) data with
      | some variant => .ok (hrpLower, data.take (data.length - checksumLength), variant)
      | none => .error .invalidChecksum

/-! ## Groups of another width -/

def maxv (toBits : Nat) : UInt32 := ((1 : UInt32) <<< .ofNat toBits) - 1

/-- The inner loop of `convert_bits`: the groups that `bits` bits of the accumulator hold, and how many
bits are left. -/
def drain (acc : UInt32) (toBits bits : Nat) : Bytes × Nat :=
  if 0 < toBits ∧ bits ≥ toBits then
    let (ret, rest) := drain acc toBits (bits - toBits)
    (((acc >>> .ofNat (bits - toBits)) &&& maxv toBits).toUInt8 :: ret, rest)
  else ([], bits)
termination_by bits

/-- The loop of `convert_bits`, with the accumulator and the number of bits in it that are not
returned. -/
def convertLoop (fromBits toBits : Nat) :
    Bytes → UInt32 → Nat → Except Error (Bytes × UInt32 × Nat)
  | [], acc, bits => .ok ([], acc, bits)
  | v :: data, acc, bits =>
    if v.toUInt32 >>> .ofNat fromBits ≠ 0 then .error (.invalidData v)
    else
      let acc := (acc <<< .ofNat fromBits) ||| v.toUInt32
      let (groups, bits) := drain acc toBits (bits + fromBits)
      match convertLoop fromBits toBits data acc bits with
      | .error e => .error e
      | .ok (ret, last) => .ok (groups ++ ret, last)

def convertBits (data : Bytes) (fromBits toBits : Nat) (pad : Bool) : Except (Fail Error) Bytes :=
  if fromBits > 8 ∨ toBits > 8 ∨ fromBits = 0 ∨ toBits = 0 then .error .panic
  else
    match convertLoop fromBits toBits data 0 0 with
    | .error e => .error (.err e)
    | .ok (ret, acc, bits) =>
      let last := (acc <<< .ofNat (toBits - bits)) &&& maxv toBits
      if pad then .ok (if bits > 0 then ret ++ [last.toUInt8] else ret)
      else if bits ≥ fromBits ∨ last ≠ 0 then .error (.err .invalidPadding)
      else .ok ret

end Uchain.Bech32
