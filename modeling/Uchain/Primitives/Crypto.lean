import Uchain.Primitives.Bytes
import Uchain.Lib.Exec

/-!
# Hash functions and codecs

The hash functions and the recovery of a signer come from outside the modelled crates: `Crypto` has
one field for each. A computation that hashes writes the input to its log (`Query`), so that
"no collision among the inputs hashed" is a property of a run.

`Codec` is the pair `Encodable`/`Decodable` for a type whose encoding reads back.
-/

namespace Uchain

open Lib

inductive Query where
  | keccak256 (data : Bytes)
  | sha256 (data : Bytes)
  deriving DecidableEq

class Crypto where
  keccak256 : Bytes → H256
  sha256 : Bytes → H256
  /-- The address of the signer of a hash, for a signature `(r, s, v)` and a chain id; `none` if
  the signature does not recover. -/
  recoverAddress : (r s : H256) → (v : UInt8) → (sigHash : H256) → (chainId : UInt32) →
    Option Address
  /-- `get_address_from_package_name` on the network of the sender; `none` if it fails. -/
  packageAddress : (packageName : String) → (sender : Address) → Option Address

/-- A type with an encoding that reads back. Encodings are vectors, so their length is a `usize`. -/
class Codec (α : Type) where
  encode : α → Bytes
  decode : Bytes → Option α
  decode_encode : ∀ a, decode (encode a) = some a
  length_encode : ∀ a, (encode a).length < 2 ^ 64

theorem Codec.encode_injective {α : Type} [Codec α] : Function.Injective (encode : α → Bytes) :=
  fun a b h => Option.some.inj (by rw [← decode_encode a, h, decode_encode])

instance : Codec Address where
  encode a := a.bytes
  decode b := FixedBytes.fromSlice? 44 b
  decode_encode := FixedBytes.fromSlice?_bytes
  length_encode a := by rw [FixedBytes.length_bytes]; decide

section Keccak

variable [Crypto] {ε σ : Type}

/-- `crypto::keccak256`, recorded in the log. -/
def keccak256 (data : Bytes) : Exec ε Query σ H256 := do
  Exec.tell (.keccak256 data)
  return Crypto.keccak256 data

/-- `keccak256` has no collision on the inputs in `S` and is not zero on them. -/
structure KeccakGood (S : Set Query) : Prop where
  inj : ∀ a b, .keccak256 a ∈ S → .keccak256 b ∈ S →
    Crypto.keccak256 a = Crypto.keccak256 b → a = b
  ne : ∀ a, .keccak256 a ∈ S → Crypto.keccak256 a ≠ FixedBytes.zero

theorem keccak256_run (data : Bytes) (s : σ) : (keccak256 data : Exec ε Query σ H256) s =
    ⟨.ok (Crypto.keccak256 data), s, [.keccak256 data]⟩ := rfl

theorem wp_keccak256 {S : Set Query} {s : σ} {data : Bytes}
    {Q : Except (Fail ε) H256 → σ → Prop}
    (h : .keccak256 data ∈ S → Q (.ok (Crypto.keccak256 data)) s) :
    Exec.wp S (keccak256 data) s Q :=
  Exec.wp_bind (Exec.wp_tell fun hS => Exec.wp_pure (h hS))

end Keccak

end Uchain
