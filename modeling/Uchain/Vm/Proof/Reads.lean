import Uchain.State.Proof.Snapshot
import Uchain.Vm.Environment

/-!
# What the virtual machine reads

All that `StateDB` returns is a function of the accounts in the trie (`trieGet`), the storage of
applications and their code.
-/

namespace Uchain

open Lib

namespace State

variable [Crypto] [Codec AccountState] {S : Set Query} {n : Snapshot} {s t : State}

theorem accountState_eq_trieGet (s : State) (a : Address) :
    s.accountState a = match s.trieGet a with
      | .ok (some x) => x
      | _ => .new := by
  unfold accountState trieGet getAccountState
  simp only [Bind.bind, Exec.bind, Exec.attempt]
  rcases onTrie (TreeDB.get (V := AccountState) a) s with ⟨r, t, l⟩
  cases r with
  | error e => cases e <;> rfl
  | ok found => cases found <;> rfl

theorem accountState_of_trieGet (h : t.trieGet = s.trieGet) : t.accountState = s.accountState := by
  funext a
  rw [accountState_eq_trieGet, accountState_eq_trieGet, h]

theorem trieGet_of_trie (h : t.trie = s.trie) : t.trieGet = s.trieGet := by
  funext a
  have hres : (onTrie (TreeDB.get (V := AccountState) a) t).res =
      (onTrie (TreeDB.get (V := AccountState) a) s).res := by
    show (TreeDB.get (V := AccountState) a t.trie).res = (TreeDB.get (V := AccountState) a s.trie).res
    rw [h]
  unfold trieGet
  rw [hres]

theorem accountState_of_trie (h : t.trie = s.trie) : t.accountState = s.accountState :=
  accountState_of_trieGet (trieGet_of_trie h)

theorem trieGet_of_found (h : Shows S s n) {a : Address} {o : Option AccountState}
    (ho : n.found a = .ok o) : s.trieGet a = .ok o := by
  obtain ⟨l, hl⟩ := get_run h a
  unfold trieGet
  rw [hl, ho]

end State

end Uchain
