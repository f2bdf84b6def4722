import Uchain.Types.Addressing
import Uchain.Vm.Environment

/-!
# Creating applications

`WasmVM::execute_app_create`: the new application gets an empty storage and an address, its `genesis`
is run there, and its descriptor is read.
-/

namespace Uchain

open Lib
open Lib.Protobuf (stringBytes)

/-- The engine, with the behaviour of a binary when an application is created: its genesis, and what
its `descriptor` returns and leaves, from the environment that the genesis left. -/
structure Creator extends Wasm where
  genesis : (binary : Bytes) → Guest
  descriptor : (binary : Bytes) → StateDb → ExecutionEnvironment →
    Except StateError (Bytes × ExecutionEnvironment)

namespace Creator

variable [Crypto]

/-- The environment in which the genesis of a new application starts. -/
def genesisEnvironment (w : Creator) (db : StateDb) (sender : Address) (value : UInt64)
    (call : CreateApplication) : Except StateError ExecutionEnvironment :=
  match w.network sender with
  | none => .error (.message "invalid network")
  | some network =>
    match getAddressFromSeed (stringBytes call.packageName) network with
    | .error _ => .error (.message "panic")
    | .ok appId => ExecutionEnvironment.new w.network sender appId value .new db

def executeAppCreate (w : Creator) (db : StateDb) (sender : Address) (value : UInt64)
    (call : CreateApplication) : Except StateError (Bytes × Changelist) := do
  let env ← w.genesisEnvironment db sender value call
  let env ← ExecutionEnvironment.finish (ExecutionEnvironment.runGuest db (w.genesis call.binary) env)
  let (descriptor, env) ← w.descriptor call.binary db env
  return (descriptor, env.changelist)

/-- `WasmVM`, with the package names of `vm`. -/
def vm [Codec AccountState] (w : Creator) (vm : Vm) : Vm :=
  { w.toWasm.vm vm with
    executeAppCreate := fun s sender value call => w.executeAppCreate s.stateDb sender value call }

end Creator

end Uchain
