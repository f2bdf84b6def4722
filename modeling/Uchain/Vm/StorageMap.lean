import Uchain.Vm.Environment

/-!
# Maps in the storage of an application

`runtime/framework`: the code of an application reads and writes its storage through `StorageMap`. Keys and
values are `prost` messages; a key is stored under the hash of a fixed text and its encoding. A host call
that returns an error ends the application, so it is an error of the computation here; a `Result` of the
framework is a value that the application gets.
-/

namespace Uchain

open Lib Lib.Protobuf

/-- What the framework returns as an error. -/
inductive FrameworkError where
  | decode (e : DecodeError)
  | message (text : String)
  deriving DecidableEq

/-- The type parameters of a `StorageMap`: `Prefix`, `H`, `K` and `V`. -/
structure StorageMap (K V : Type) where
  keyPrefix : Bytes
  hash : Bytes → Bytes
  key : Message K
  value : Message V

namespace StorageMap

variable {K V : Type} (s : StorageMap K V)

/-- What is hashed for a key. -/
def rawKey (key : K) : Bytes := s.keyPrefix ++ s.key.encode key

def storageKey (key : K) : Bytes := s.hash (s.rawKey key)

section Calls

variable [Crypto]

open ExecutionEnvironment (M)

def put (key : K) (value : V) : M Unit :=
  ExecutionEnvironment.insert (s.storageKey key) (s.value.encode value)

def get (key : K) : M (Except FrameworkError (Option V)) := do
  match ← ExecutionEnvironment.get (s.storageKey key) with
  | none => return .ok none
  | some rawValue =>
    if rawValue.isEmpty then return .ok none
    else
      match s.value.decode rawValue with
      | .ok value => return .ok (some value)
      | .error (.err e) => return .error (.decode e)
      | .error .panic => Exec.panic
      | .error .diverge => Exec.fail .diverge

def contains (key : K) : M Bool := do
  match ← s.get key with
  | .ok res => return res.isSome
  | .error _ => return false

def remove (key : K) : M (Except FrameworkError Unit) := do
  if ← ExecutionEnvironment.remove (s.storageKey key) then return .ok ()
  else return .error (.message "failed to delete key")

end Calls

end StorageMap

end Uchain
