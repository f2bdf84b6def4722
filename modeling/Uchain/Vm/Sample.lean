import Uchain.Types.Sample
import Uchain.Vm.Environment

/-!
# A concrete application

A state with one application, whose code sends `3` to another account.
-/

namespace Uchain.Sample

open Lib

/-- An account with money, and the account of the application. -/
def accounts : States :=
  (BTreeMap.empty.insert (address 1) ⟨100, 0, 1, none⟩).insert (address 5)
    ⟨7, 0, 1, some ⟨.zero, .zero, .zero, 1⟩⟩

def state : State :=
  { (State.putAll accounts.entries State.new).state with
    metadata := BTreeMap.empty.insert .zero ⟨[], []⟩ }

def wasm : Wasm where
  network _ := some .testnet
  call _ _ := .host (.transfer (address 2).bytes 3) fun _ => .done

end Uchain.Sample
