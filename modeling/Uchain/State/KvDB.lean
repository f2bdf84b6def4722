import Uchain.State.TreeDB

/-!
# Key-value databases

`state::kvdb::KvDB`: typed keys and values over a database of byte strings. The database is a map of bytes
here (an input or output error of it is left out; `RocksDB` deletes a missing key without an error). Opened
read-only, writes go to `staging`, which reads look at first.
-/

namespace Uchain

open Lib

/-- `Encodable` and `Decodable`, as the trait allows them: each may return an error or panic. -/
structure Coding (α : Type) where
  encode : α → Except (Fail Unit) Bytes
  decode : Bytes → Except (Fail Unit) α

/-- The result of a coding, in a method that passes its error on. -/
def ofCoding {α σ : Type} : Except (Fail Unit) α → Exec StateError Query σ α
  | .ok a => return a
  | .error (.err _) => Exec.err .codec
  | .error .panic => Exec.panic
  | .error .diverge => Exec.fail .diverge

structure KvDB (K V : Type) where
  key : Coding K
  value : Coding V
  inner : BTreeMap Bytes Bytes
  readOnly : Bool
  staging : BTreeMap Bytes Bytes

namespace KvDB

variable {K V : Type}

abbrev M (K V : Type) (α : Type) := Exec StateError Query (KvDB K V) α

/-- `KvDB::open` of a database with the content `inner`. -/
def openWritable (key : Coding K) (value : Coding V) (inner : BTreeMap Bytes Bytes) : KvDB K V :=
  ⟨key, value, inner, false, .empty⟩

def openReadOnlyAtRoot (key : Coding K) (value : Coding V) (inner : BTreeMap Bytes Bytes) : KvDB K V :=
  ⟨key, value, inner, true, .empty⟩

def put (key : K) (value : V) : M K V Unit := do
  let db ← Exec.get
  let key ← ofCoding (db.key.encode key)
  let value ← ofCoding (db.value.encode value)
  if db.readOnly then Exec.set { db with staging := db.staging.insert key value }
  else Exec.set { db with inner := db.inner.insert key value }

def get (key : K) : M K V V := do
  let db ← Exec.get
  let key ← ofCoding (db.key.encode key)
  match db.staging.get? key with
  | some entry => ofCoding (db.value.decode entry)
  | none =>
    let raw ← Exec.ofOption (.invalidKey (hexEncode key)) (db.inner.get? key)
    ofCoding (db.value.decode raw)

def delete (key : K) : M K V Unit := do
  let db ← Exec.get
  let key ← ofCoding (db.key.encode key)
  if db.readOnly then Exec.set { db with staging := db.staging.erase key }
  else Exec.set { db with inner := db.inner.erase key }

end KvDB

end Uchain
