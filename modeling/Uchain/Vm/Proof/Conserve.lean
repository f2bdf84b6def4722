import Mathlib.Algebra.Order.BigOperators.Group.Finset
import Uchain.Vm.Proof.Money

/-!
# Host calls that move money

The calls of an application that read or move balances, one after the other and whether they succeed or
not. Each of them loads the accounts it touches, which no balance shows.

* `Settled`, `settled_hostCall`, `settled_callAll`: what a sequence of calls keeps.
-/

namespace Uchain

open Lib Exec Function

/-- The part of an account that no host call writes. -/
def AccountState.identity (x : AccountState) : UInt64 × Option AppState := (x.nonce, x.appState)

/-- The calls about balances, with addresses of the right length. -/
def HostCall.OfMoney : HostCall → Prop
  | .transfer recipient _ => recipient.length = 44
  | .reserve _ | .unreserve _ => True
  | .getFreeBalance address | .getNonce address | .getReserveBalance address => address.length = 44
  | _ => False

theorem worth_le_totalWorth (f : Address → AccountState) (a : Address) :
    (f a).worth ≤ totalWorth f :=
  Finset.single_le_sum (f := fun b => (f b).worth) (fun _ _ => Nat.zero_le _) (Finset.mem_univ a)

namespace ExecutionEnvironment

variable {db : StateDb} {env env' : ExecutionEnvironment}

/-! ## One call -/

/-- The balance that a call debits, and by how much. -/
def debited (db : StateDb) (env : ExecutionEnvironment) : HostCall → Option (UInt64 × UInt64)
  | .transfer _ amount => some ((env.account db env.appAddress).freeBalance, amount)
  | .reserve amount => some ((env.account db env.sender).freeBalance, amount)
  | .unreserve amount => some ((env.account db env.sender).reserveBalance, amount)
  | _ => none

/-- What a call may do. The arithmetic of a call is only reached if it succeeds. -/
structure Outcome {α : Type} (db : StateDb) (env : ExecutionEnvironment)
    (debit : Option (UInt64 × UInt64)) (run : Run StateError Query ExecutionEnvironment α) : Prop where
  returns : (∃ a, run.res = .ok a) ∨ ∃ e, run.res = .error (.err e)
  parties : SameParties env run.state
  failed : ∀ e, run.res = .error e → run.state.account db = env.account db
  covered : ∀ a, run.res = .ok a → ∀ balance amount, debit = some (balance, amount) → amount < balance
  identity : ∀ a, (run.state.account db a).identity = (env.account db a).identity

theorem SameParties.trans {env₁ env₂ : ExecutionEnvironment} (h : SameParties env env₁)
    (h' : SameParties env₁ env₂) : SameParties env env₂ :=
  ⟨h'.app.trans h.app, h'.sender.trans h.sender⟩

theorem getAccountState_run (db : StateDb) (a : Address) (env : ExecutionEnvironment) :
    ∃ env', getAccountState db a env = ⟨.ok (env.account db a), env', []⟩ ∧
      env'.account db = env.account db ∧ SameParties env env' := by
  have hrun : ∃ x env', getAccountState db a env = ⟨.ok x, env', []⟩ := by
    unfold getAccountState
    rw [get_bind]
    cases env.accounts.get? a with
    | some x => exact ⟨x, env, rfl⟩
    | none => exact ⟨_, _, rfl⟩
  obtain ⟨x, env', hrun⟩ := hrun
  obtain ⟨rfl, hsame, hp⟩ := getAccountState_ok hrun
  exact ⟨env', hrun, hsame, hp⟩

theorem addressOf_run {b : Bytes} (h : b.length = 44) (env : ExecutionEnvironment) :
    ∃ a, FixedBytes.fromSlice? 44 b = some a ∧ addressOf b env = ⟨.ok a, env, []⟩ := by
  refine ⟨FixedBytes.ofNum 44 (ofBeBytes b), if_pos h, ?_⟩
  rw [addressOf, FixedBytes.fromSlice?, if_pos h]
  rfl

theorem ensurePositive_run (balance amount : UInt64) (env : ExecutionEnvironment) :
    (amount < balance ∧ ensurePositive balance amount env = ⟨.ok (), env, []⟩) ∨
      ∃ e, ensurePositive balance amount env = ⟨.error (.err e), env, []⟩ := by
  unfold ensurePositive
  split
  · exact .inl ⟨UInt64.lt_iff_toNat_lt.2 (by omega), rfl⟩
  · exact .inr ⟨_, rfl⟩

theorem identity_update {f : Address → AccountState} {a : Address} {x : AccountState}
    (h : x.identity = (f a).identity) (b : Address) :
    (update f a x b).identity = (f b).identity := by
  by_cases hb : b = a
  · rw [hb, update_self, h]
  · rw [update_of_ne hb]

theorem Outcome.of_same {α : Type} {debit : Option (UInt64 × UInt64)}
    {run : Run StateError Query ExecutionEnvironment α} (hp : SameParties env run.state)
    (hsame : run.state.account db = env.account db)
    (hres : (∃ e, run.res = .error (.err e)) ∨ (∃ a, run.res = .ok a) ∧ debit = none) :
    Outcome db env debit run where
  returns := by
    rcases hres with h | ⟨h, -⟩
    exacts [.inr h, .inl h]
  parties := hp
  failed _ _ := hsame
  covered := by
    intro a ha balance amount hdebit
    rcases hres with ⟨e, h⟩ | ⟨-, h⟩
    · cases h.symm.trans ha
    · cases h.symm.trans hdebit
  identity a := by rw [hsame]

theorem Outcome.of_moved {α : Type} {a : α} {l : List Query} {balance amount : UInt64}
    (hp : SameParties env env') (hlt : amount < balance)
    (h : ∀ a, (env'.account db a).identity = (env.account db a).identity) :
    Outcome db env (some (balance, amount)) ⟨.ok a, env', l⟩ where
  returns := .inl ⟨a, rfl⟩
  parties := hp
  failed _ h := by cases h
  covered := by
    intro a ha balance' amount' hdebit
    cases hdebit
    exact hlt
  identity := h

theorem transfer_outcome {recipient : Bytes} (hlen : recipient.length = 44) (amount : UInt64) :
    Outcome db env (debited db env (.transfer recipient amount))
      (transfer db recipient amount env) := by
  obtain ⟨receiver, -, haddress⟩ := addressOf_run hlen env
  obtain ⟨env₁, hread, hsame₁, hp₁⟩ := getAccountState_run db env.appAddress env
  unfold transfer
  rw [bind_ok_nil haddress, get_bind, bind_ok_nil hread]
  rcases ensurePositive_run (env.account db env.appAddress).freeBalance amount env₁ with
    ⟨hlt, hpos⟩ | ⟨e, hneg⟩
  · rw [bind_ok_nil hpos, bind_ok_nil (x := putAccount _ _) rfl]
    obtain ⟨env₃, hread₃, hsame₃, hp₃⟩ := getAccountState_run db receiver { env₁ with
      accounts := env₁.accounts.insert env.appAddress
        ((env.account db env.appAddress).debit amount) }
    rw [bind_ok_nil hread₃, bind_ok_nil (x := putAccount _ _) rfl]
    refine .of_moved ((hp₁.trans ⟨hp₃.app, hp₃.sender⟩).trans ⟨rfl, rfl⟩) hlt fun a => ?_
    rw [putAccount_account, hsame₃]
    refine (identity_update (x := AccountState.credit _ amount) rfl a).trans ?_
    rw [putAccount_account, hsame₁]
    exact identity_update (x := AccountState.debit _ amount) rfl a
  · rw [bind_error hneg]
    exact .of_same hp₁ hsame₁ (.inl ⟨e, rfl⟩)

theorem updateSender_outcome (f : AccountState → AccountState) (g : AccountState → UInt64)
    (hf : ∀ x, (f x).identity = x.identity) (amount : UInt64) :
    Outcome db env (some (g (env.account db env.sender), amount)) ((do
      let sender := (← Exec.get).sender
      let fromAcc ← getAccountState db sender
      ensurePositive (g fromAcc) amount
      putAccount sender (f fromAcc)
      return true : M Bool) env) := by
  obtain ⟨env₁, hread, hsame₁, hp₁⟩ := getAccountState_run db env.sender env
  rw [get_bind, bind_ok_nil hread]
  rcases ensurePositive_run (g (env.account db env.sender)) amount env₁ with ⟨hlt, hpos⟩ | ⟨e, hneg⟩
  · rw [bind_ok_nil hpos, bind_ok_nil (x := putAccount _ _) rfl]
    refine .of_moved ⟨hp₁.app, hp₁.sender⟩ hlt fun a => ?_
    rw [putAccount_account, hsame₁, identity_update (hf _)]
  · rw [bind_error hneg]
    exact .of_same hp₁ hsame₁ (.inl ⟨e, rfl⟩)

theorem reserve_outcome (amount : UInt64) :
    Outcome db env (debited db env (.reserve amount)) (reserve db amount env) :=
  updateSender_outcome (fun x => { x with
    freeBalance := x.freeBalance - amount, reserveBalance := x.reserveBalance + amount })
    AccountState.freeBalance (fun _ => rfl) amount

theorem unreserve_outcome (amount : UInt64) :
    Outcome db env (debited db env (.unreserve amount)) (unreserve db amount env) :=
  updateSender_outcome (fun x => { x with
    reserveBalance := x.reserveBalance - amount, freeBalance := x.freeBalance + amount })
    AccountState.reserveBalance (fun _ => rfl) amount

theorem readAccount_outcome {address : Bytes} (hlen : address.length = 44)
    (field : AccountState → UInt64) : Outcome db env none (readAccount db field address env) := by
  obtain ⟨a, -, haddress⟩ := addressOf_run hlen env
  obtain ⟨env₁, hread, hsame, hp⟩ := getAccountState_run db a env
  unfold readAccount
  rw [bind_ok_nil haddress, bind_ok_nil hread]
  exact .of_same hp hsame (.inr ⟨⟨_, rfl⟩, rfl⟩)

theorem Outcome.wrap {α β : Type} {x : M α} {f : α → β} {debit : Option (UInt64 × UInt64)}
    (h : Outcome db env debit (x env)) :
    Outcome db env debit ((x >>= fun a => Pure.pure (f a) : M β) env) := by
  obtain ⟨⟨a, ha⟩ | ⟨e, he⟩, hp, hfailed, hcovered, hidentity⟩ := h
  · rw [bind_ok (Run.eq_of_res ha)]
    refine ⟨.inl ⟨f a, rfl⟩, hp, ?_, fun _ _ => hcovered a ha, hidentity⟩
    intro e he
    cases he
  · rw [bind_error (Run.eq_of_res he)]
    refine ⟨.inr ⟨e, rfl⟩, hp, fun e' _ => hfailed _ he, ?_, hidentity⟩
    intro a ha
    cases ha

variable [Crypto]

/-- **A call about balances** returns, and changes nothing if it fails. -/
theorem hostCall_outcome {call : HostCall} (h : call.OfMoney) :
    Outcome db env (debited db env call) (hostCall db call env) := by
  cases call with
  | transfer recipient amount => exact (transfer_outcome h amount).wrap
  | reserve amount => exact (reserve_outcome amount).wrap
  | unreserve amount => exact (unreserve_outcome amount).wrap
  | getFreeBalance address => exact (readAccount_outcome h _).wrap
  | getNonce address => exact (readAccount_outcome h _).wrap
  | getReserveBalance address => exact (readAccount_outcome h _).wrap
  | insert | get | remove | emit | value | sender => exact h.elim

/-! ## Sequences of calls -/

/-- Calls one after the other. A call that fails does not end them here. -/
def callAll (db : StateDb) (calls : List HostCall) : M Unit :=
  forEach (fun call => do let _ ← attempt (hostCall db call)) calls

/-- The sum of all balances is `total`, and no nonce or application is other than in the state. -/
structure Settled (db : StateDb) (total : Nat) (env : ExecutionEnvironment) : Prop where
  total : totalWorth (env.account db) = total
  identity : ∀ a, (env.account db a).identity = (db.accountState a).identity

omit [Crypto] in
theorem carry_eq_zero {x y : UInt64} (h : x.toNat + y.toNat < 2 ^ 64) : carry x y = 0 :=
  Nat.div_eq_of_lt h

omit [Crypto] in
/-- If the sum of all balances is a 64-bit number, no addition of a covered call wraps. -/
theorem overflow_eq_zero (h : totalWorth (env.account db) < 2 ^ 64) {call : HostCall}
    (hcovered : ∀ balance amount, debited db env call = some (balance, amount) → amount < balance) :
    overflow db env call = 0 := by
  have hown := worth_le_totalWorth (env.account db) env.sender
  unfold AccountState.worth at hown
  cases call with
  | transfer recipient amount =>
    have hlt := hcovered _ _ rfl
    simp only [overflow]
    cases FixedBytes.fromSlice? 44 recipient with
    | none => rfl
    | some receiver =>
      have hdebit := totalWorth_update (env.account db) env.appAddress
        ((env.account db env.appAddress).debit amount)
      have hworth := worth_debit hlt
      have hle := worth_le_totalWorth (update (env.account db) env.appAddress
        ((env.account db env.appAddress).debit amount)) receiver
      unfold AccountState.worth at hle
      refine carry_eq_zero ?_
      omega
  | reserve amount =>
    have hlt := UInt64.lt_iff_toNat_lt.1 (hcovered _ _ rfl)
    refine carry_eq_zero ?_
    omega
  | unreserve amount =>
    have hlt := UInt64.lt_iff_toNat_lt.1 (hcovered _ _ rfl)
    refine carry_eq_zero ?_
    omega
  | _ => rfl

theorem settled_hostCall {total : Nat} (hfits : total < 2 ^ 64) {call : HostCall} (hcall : call.OfMoney)
    (h : Settled db total env) : Settled db total (hostCall db call env).state := by
  have hout : Outcome db env (debited db env call) _ := hostCall_outcome hcall
  refine ⟨?_, fun a => (hout.identity a).trans (h.identity a)⟩
  rcases hout.returns with ⟨a, ha⟩ | ⟨e, he⟩
  · have hmoved := (hostCall_moved (Run.eq_of_res ha)).total
    have hfits' : totalWorth (env.account db) < 2 ^ 64 := by
      rw [h.total]
      exact hfits
    rw [overflow_eq_zero hfits' (hout.covered a ha), Nat.mul_zero, Nat.add_zero] at hmoved
    rw [hmoved, h.total]
  · rw [hout.failed _ he, h.total]

theorem settled_callAll {total : Nat} (hfits : total < 2 ^ 64) {calls : List HostCall}
    (hcalls : ∀ call ∈ calls, call.OfMoney) (h : Settled db total env) :
    Settled db total (callAll db calls env).state := by
  refine wp_forEach_inv (S := Set.univ) (P := Settled db total)
    (fun call hcall env' h' _ => ?_) env h (fun _ _ => Set.mem_univ _)
  rw [state_bind_pure, attempt_run]
  exact settled_hostCall hfits (hcalls call hcall) h'

omit [Crypto] in
theorem settled_new {network : Address → Option Network} {origin appId : Address} {value : UInt64}
    {storage : SparseMerkleTree} (h : new network origin appId value storage db = .ok env)
    (hfits : totalWorth db.accountState + value.toNat < 2 ^ 64) :
    carry (db.accountState appId).freeBalance value = 0 ∧
      Settled db (totalWorth db.accountState + value.toNat) env := by
  have haccount := account_new h
  have hle := worth_le_totalWorth db.accountState appId
  have hcarry : carry (db.accountState appId).freeBalance value = 0 := by
    unfold AccountState.worth at hle
    exact carry_eq_zero (by omega)
  have hupdate := totalWorth_update db.accountState appId ((db.accountState appId).credit value)
  have hcredit := worth_credit (db.accountState appId) value
  rw [hcarry] at hcredit
  refine ⟨hcarry, ?_, fun a => ?_⟩
  · rw [haccount]
    omega
  · rw [haccount]
    exact identity_update (x := AccountState.credit _ value) rfl a

/-- **Host calls conserve balances.** After any calls about balances the sum of all of them is that of the
state and the value of the call, with every nonce and application as before; the next call returns, changes
no balance if it fails, and neither its subtraction nor its addition wraps. -/
theorem host_calls_conserve {network : Address → Option Network} {origin appId : Address}
    {value : UInt64} {storage : SparseMerkleTree}
    (hnew : new network origin appId value storage db = .ok env)
    (hfits : totalWorth db.accountState + value.toNat < 2 ^ 64) (calls : List HostCall)
    (hcalls : ∀ call ∈ calls, call.OfMoney) :
    carry (db.accountState appId).freeBalance value = 0 ∧
      Settled db (totalWorth db.accountState + value.toNat) (callAll db calls env).state ∧
      ∀ call : HostCall, call.OfMoney → ∀ env', env' = (callAll db calls env).state →
        Outcome db env' (debited db env' call) (hostCall db call env') ∧
          (∀ result, (hostCall db call env').res = .ok result → overflow db env' call = 0) := by
  obtain ⟨hcarry, hstart⟩ := settled_new hnew hfits
  have hsettled := settled_callAll hfits hcalls hstart
  refine ⟨hcarry, hsettled, fun call hcall env' henv => ?_⟩
  subst henv
  have hout : Outcome db (callAll db calls env).state _ _ := hostCall_outcome hcall
  refine ⟨hout, fun result hok => overflow_eq_zero ?_ (hout.covered result hok)⟩
  rw [hsettled.total]
  exact hfits

end ExecutionEnvironment

namespace Sample

open scoped Sample

/-- A state without any money. -/
def bare : StateDb where
  accountState _ := ⟨0, 0, 1, none⟩
  getAppData _ := .ok SparseMerkleTree.new
  getAppSource _ := .ok []

/-- A transfer, a transfer of too much, and a reserve by the sender. -/
def moneyCalls : List HostCall :=
  [.transfer (address 2).bytes 3, .transfer (address 2).bytes 30, .reserve 1, .getNonce (address 1).bytes]

theorem host_calls_conserve_bare : ∃ env,
    ExecutionEnvironment.new (fun _ => some .testnet) (address 2) (address 5) 7 SparseMerkleTree.new bare =
        .ok env ∧
      totalWorth bare.accountState + (7 : UInt64).toNat < 2 ^ 64 ∧
      totalWorth ((ExecutionEnvironment.callAll bare moneyCalls env).state.account bare) = 7 := by
  have htotal : totalWorth bare.accountState = 0 := Finset.sum_eq_zero fun _ _ => rfl
  have hfits : totalWorth bare.accountState + (7 : UInt64).toNat < 2 ^ 64 := by
    rw [htotal]
    decide
  obtain ⟨env, hnew⟩ : ∃ env, ExecutionEnvironment.new (fun _ => some .testnet) (address 2) (address 5) 7
      SparseMerkleTree.new bare = .ok env := ⟨_, rfl⟩
  refine ⟨env, hnew, hfits, ?_⟩
  have hcalls : ∀ call ∈ moneyCalls, call.OfMoney := by
    unfold moneyCalls
    simp [HostCall.OfMoney]
  rw [(ExecutionEnvironment.host_calls_conserve hnew hfits moneyCalls hcalls).2.1.total, htotal]
  rfl

end Sample

end Uchain
