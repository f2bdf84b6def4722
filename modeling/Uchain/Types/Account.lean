import Uchain.Primitives.Crypto

/-!
# Accounts

`AccountState` and the state of an application account. Balances and nonces are `u64` and wrap, as
release builds compute them.
-/

namespace Uchain

structure AppState where
  rootHash : H256
  codeHash : H256
  creator : Address
  version : UInt32
  deriving DecidableEq

structure AccountState where
  freeBalance : UInt64
  reserveBalance : UInt64
  nonce : UInt64
  appState : Option AppState
  deriving DecidableEq

namespace AccountState

/-- `AccountState::new`: the state of an address without an account. -/
def new : AccountState := ⟨0, 0, 1, none⟩

/-- The derived `Default`, which differs from `new` in the nonce. -/
def default : AccountState := ⟨0, 0, 0, none⟩

/-- `self.free_balance += amount`. -/
def credit (a : AccountState) (amount : UInt64) : AccountState :=
  { a with freeBalance := a.freeBalance + amount }

/-- `self.free_balance -= amount`. -/
def debit (a : AccountState) (amount : UInt64) : AccountState :=
  { a with freeBalance := a.freeBalance - amount }

/-- The nonce after a transaction with the nonce `n`. -/
def bumpNonce (a : AccountState) (n : UInt64) : AccountState :=
  { a with nonce := if n > a.nonce then n + 1 else a.nonce + 1 }

end AccountState

end Uchain
