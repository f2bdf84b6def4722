import Uchain.Types.Bech32
import Uchain.Types.Network

/-!
# Addresses of networks, seeds and packages

`types::account`, `types::util` and `primitive_types::address`: an address is the bech32m text of the
last 20 bytes of a hash, behind the human-readable part of its network.

* `getAddressFromSeed`, `getAddressFromPubKey`: the hash of a seed, or of a public key.
* `Address.network`, `Address.toAddress20`: what the text of an address says.
* `Address.fromStr`, `AddressVisitor.visitStr`: the address that a text is.
* `PackageName.parse`, `getAddressFromPackageName`: the hashes of the parts of a package name, combined
  from left to right.
-/

namespace Uchain

open Lib
open Lib.Protobuf (stringBytes)

def Network.hrp : Network → String
  | .mainnet => "odana"
  | .testnet => "odanx"
  | .alphanet => "odaxx"

def addressLen : Nat := 44

/-- The address with a payload, on a network. An error of the encoder, or a text that is too short, is
a panic. -/
def addressWith (payload : Bytes) (network : Network) : Except (Fail String) Address :=
  match Bech32.encode network.hrp (Bech32.toBase32 payload) .bech32m with
  | .error _ => .error .panic
  | .ok address =>
    match FixedBytes.fromSlice? addressLen ((stringBytes address).take addressLen) with
    | none => .error .panic
    | some rawAddress => .ok rawAddress

/-- The same with a copy of the whole text; a text of another length is a panic. -/
def addressOf (payload : Bytes) (network : Network) : Except (Fail String) Address :=
  match Bech32.encode network.hrp (Bech32.toBase32 payload) .bech32m with
  | .error _ => .error .panic
  | .ok address =>
    match FixedBytes.fromSlice? addressLen (stringBytes address) with
    | none => .error .panic
    | some rawAddress => .ok rawAddress

/-! ## What an address says -/

namespace Address

/-- `bech32::decode` of the text of an address, if it is `Ok`. In the source bytes that are not UTF-8
become replacement characters, which no bech32 text has. -/
def decode (a : Address) : Option (String × List Bech32.U5 × Bech32.Variant) :=
  match String.fromUTF8? ⟨a.bytes.toArray⟩ with
  | none => none
  | some text => (Bech32.decode text).toOption

def hrp (a : Address) : String :=
  match a.decode with
  | some (hrp, _, _) => hrp
  | none => ""

def isValid (a : Address) : Bool :=
  match a.decode with
  | some (hrp, _, _) =>
    hrp == Network.alphanet.hrp || hrp == Network.testnet.hrp || hrp == Network.mainnet.hrp
  | none => false

def network (a : Address) : Option Network :=
  if a.hrp = Network.mainnet.hrp then some .mainnet
  else if a.hrp = Network.testnet.hrp then some .testnet
  else if a.hrp = Network.alphanet.hrp then some .alphanet
  else none

/-- The payload. One of another length than 20 bytes is a panic of `H160::from_slice`. -/
def toAddress20 (a : Address) : Except (Fail String) (Option (FixedBytes 20)) :=
  match a.decode with
  | none => .ok none
  | some (_, address32, _) =>
    match Bech32.convertBits (address32.map fun v => .ofNat v.val) 5 8 false with
    | .error (.err _) => .ok none
    | .error _ => .error .panic
    | .ok address =>
      match FixedBytes.fromSlice? 20 address with
      | none => .error .panic
      | some payload => .ok (some payload)

end Address

/-! ## The address that a text is -/

section Parse

variable {ε : Type}

/-- The body of `from_str` and of `visit_str`, with the errors that they build. -/
def parseAddress (invalidLength : Nat → ε) (custom : Bech32.Error → ε) (input : String) :
    Except (Fail ε) Address :=
  let len := (stringBytes input).length
  -- `!` binds before `==`: it is the complement of the length, as a `usize`
  if ~~~UInt64.ofNat len = .ofNat addressLen then .error (.err (invalidLength len))
  else
    match Bech32.decode input with
    | .error e => .error (.err (custom e))
    | .ok _ =>
      match FixedBytes.fromSlice? addressLen (stringBytes input) with
      | none => .error .panic
      | some bytes => .ok bytes

end Parse

def Address.fromStr (input : String) : Except (Fail Bech32.Error) Address :=
  parseAddress (fun _ => .invalidLength) id input

/-- The errors that a visitor reports to `serde`. -/
inductive VisitError where
  | invalidLength (len : Nat)
  | custom (e : Bech32.Error)
  deriving DecidableEq

def AddressVisitor.visitStr (v : String) : Except (Fail VisitError) Address :=
  parseAddress .invalidLength .custom v

/-! ## Package names -/

structure PackageName where
  organisationId : H256
  packageId : H256

namespace PackageName

def maxPackageNameLen : Nat := 128

def isAsciiLowercase (c : Char) : Bool := 'a' ≤ c && c ≤ 'z'

def isAsciiDigit (c : Char) : Bool := '0' ≤ c && c ≤ '9'

def parts (s : String) : Except String (List String) :=
  if (stringBytes s).length > maxPackageNameLen then .error "max package name length excceed128 "
  else
    let parts := (s.toList.splitOn '.').map String.ofList
    if parts.length < 3 ∨ parts.length > 8 then
      .error "Package name must have at least 3 parts and at most 8 parts"
    else if !(parts.headD "").toList.all isAsciiLowercase then
      .error "First part of the package name must contain only lowercase letters"
    else if !parts.all fun part =>
        part.toList.all fun c => isAsciiLowercase c || isAsciiDigit c || c == '_' then
      .error ("All parts of the package name must contain only lowercase letters, digits, " ++
        "or underscores")
    else .ok parts

variable [Crypto]

def hashPart (part : String) : H256 := Crypto.keccak256 (stringBytes part)

/-- What is hashed when a part is joined to what came before. -/
def joined (acc t : H256) : Bytes := acc.bytes ++ t.bytes

def join (acc t : H256) : H256 := Crypto.keccak256 (joined acc t)

/-- The first two parts, with `reduce`. -/
def organisation (parts : List String) : H256 :=
  match (parts.take 2).map hashPart with
  | [] => FixedBytes.zero
  | h :: hs => hs.foldl join h

def parse (s : String) : Except String PackageName :=
  match parts s with
  | .error e => .error e
  | .ok parts =>
    let organisationId := organisation parts
    .ok ⟨organisationId, ((parts.drop 2).map hashPart).foldl join organisationId⟩

end PackageName

variable [Crypto]

/-- The part of a hash that an address shows. -/
def payload (hash : H256) : Bytes := hash.bytes.drop 12

def getAddressFromPackageName (packageName : String) (network : Network) :
    Except (Fail String) Address :=
  match PackageName.parse packageName with
  | .error e => .error (.err e)
  | .ok package => addressWith (payload package.packageId) network

/-- A public key as its uncompressed point, without the tag. -/
abbrev PublicKey := FixedBytes 64

def PublicKey.hash (pubKey : PublicKey) : H256 := Crypto.keccak256 pubKey.bytes

def getAddressFromPubKey (pubKey : PublicKey) (network : Network) : Except (Fail String) Address :=
  addressOf (payload pubKey.hash) network

def getAddressFromSeed (seed : Bytes) (network : Network) : Except (Fail String) Address :=
  addressWith (payload (Crypto.keccak256 seed)) network

end Uchain
