import Mathlib.Algebra.BigOperators.Group.Finset.Piecewise
import Mathlib.Data.UInt
import Uchain.State.Proof.Calls
import Uchain.Vm.Proof.Reads
import Uchain.Vm.Sample

/-!
# Application calls and the sum of all balances

`ExecutionEnvironment::new` credits the application with the value of the call. No one is debited:
neither the environment nor `apply_transaction` takes the value from the sender. The host calls only
move money, except that an addition that wraps loses `2 ^ 64`.

* `hostCall_total`: what a host call does to the sum of all balances.
-/

namespace Uchain

open Lib BTreeMap Function
open Exec hiding bind pure

/-! ## Sums over all accounts -/

/-- What is in an account, free or reserved. -/
def AccountState.worth (x : AccountState) : Nat := x.freeBalance.toNat + x.reserveBalance.toNat

/-- The sum over all accounts. -/
def totalWorth (f : Address → AccountState) : Nat := ∑ a, (f a).worth

theorem totalWorth_update (f : Address → AccountState) (a : Address) (x : AccountState) :
    totalWorth (update f a x) + (f a).worth = totalWorth f + x.worth := by
  have hcongr : ∑ b ∈ Finset.univ.erase a, (update f a x b).worth =
      ∑ b ∈ Finset.univ.erase a, (f b).worth := by
    refine Finset.sum_congr rfl fun b hb => ?_
    rw [update_of_ne (Finset.ne_of_mem_erase hb)]
  unfold totalWorth
  rw [← Finset.add_sum_erase _ (fun b => (update f a x b).worth) (Finset.mem_univ a),
    ← Finset.add_sum_erase _ (fun b => (f b).worth) (Finset.mem_univ a), hcongr]
  simp only [update_self]
  omega

/-- How often `x + y` wraps. -/
def carry (x y : UInt64) : Nat := (x.toNat + y.toNat) / 2 ^ 64

theorem toNat_add_carry (x y : UInt64) :
    (x + y).toNat + 2 ^ 64 * carry x y = x.toNat + y.toNat := by
  rw [UInt64.toNat_add, carry, Nat.mod_add_div]

theorem toNat_sub_of_lt {x y : UInt64} (h : y < x) : (x - y).toNat + y.toNat = x.toNat := by
  have hlt := UInt64.lt_iff_toNat_lt.1 h
  rw [UInt64.toNat_sub_of_le _ _ (UInt64.le_of_lt h)]
  omega

namespace ExecutionEnvironment

/-! ## Host calls -/

/-- An account as the environment knows it. -/
def account (env : ExecutionEnvironment) (db : StateDb) (a : Address) : AccountState :=
  (env.accounts.get? a).getD (db.accountState a)

variable {db : StateDb} {env env' : ExecutionEnvironment} {l : List Query}

/-- The accounts are those of `env`, and so are the parties of the call. -/
structure SameParties (env env' : ExecutionEnvironment) : Prop where
  app : env'.appAddress = env.appAddress
  sender : env'.sender = env.sender

theorem putAccount_account (a : Address) (x : AccountState) :
    account { env with accounts := env.accounts.insert a x } db =
      update (env.account db) a x := by
  funext b
  unfold account
  rw [get?_insert]
  by_cases hb : b = a
  · subst hb
    simp
  · simp [hb]

theorem getAccountState_ok {a : Address} {x : AccountState}
    (h : getAccountState db a env = ⟨.ok x, env', l⟩) :
    x = env.account db a ∧ env'.account db = env.account db ∧ SameParties env env' := by
  obtain ⟨_, _, _, _, hget, hread, -⟩ := bind_eq_ok h
  cases hget
  unfold account
  cases hfound : env.accounts.get? a with
  | some y =>
    simp only [hfound] at hread
    cases hread
    exact ⟨rfl, rfl, rfl, rfl⟩
  | none =>
    simp only [hfound] at hread
    cases hread
    refine ⟨rfl, ?_, rfl, rfl⟩
    refine (putAccount_account a (db.accountState a)).trans (update_eq_self_iff.2 ?_)
    unfold account
    rw [hfound]
    rfl

theorem ensurePositive_ok {balance amount : UInt64}
    (h : ensurePositive balance amount env = ⟨.ok (), env', l⟩) : amount < balance ∧ env = env' := by
  unfold ensurePositive at h
  split at h
  · cases h
    exact ⟨UInt64.lt_iff_toNat_lt.2 (by omega), rfl⟩
  · cases h

theorem addressOf_ok {b : Bytes} {a : Address} (h : addressOf b env = ⟨.ok a, env', l⟩) :
    FixedBytes.fromSlice? 44 b = some a ∧ env = env' := by
  unfold addressOf at h
  cases hb : FixedBytes.fromSlice? 44 b with
  | none =>
    rw [hb] at h
    cases h
  | some a' =>
    rw [hb] at h
    cases h
    exact ⟨rfl, rfl⟩

/-- How often an addition of a host call wraps. -/
def overflow (db : StateDb) (env : ExecutionEnvironment) : HostCall → Nat
  | .transfer recipient amount =>
    match FixedBytes.fromSlice? 44 recipient with
    | none => 0
    | some recipient =>
      let app := env.account db env.appAddress
      carry (update (env.account db) env.appAddress (app.debit amount)
        recipient).freeBalance amount
  | .reserve amount => carry (env.account db env.sender).reserveBalance amount
  | .unreserve amount => carry (env.account db env.sender).freeBalance amount
  | _ => 0

/-- The call moved money, up to `n` additions that wrapped. -/
structure Moved (db : StateDb) (env env' : ExecutionEnvironment) (n : Nat) : Prop where
  total : totalWorth (env'.account db) + 2 ^ 64 * n = totalWorth (env.account db)
  parties : SameParties env env'

theorem Moved.of_same (h : env'.account db = env.account db) (hp : SameParties env env') :
    Moved db env env' 0 := ⟨by rw [h, Nat.mul_zero, Nat.add_zero], hp⟩

theorem worth_debit {x : AccountState} {amount : UInt64} (h : amount < x.freeBalance) :
    (x.debit amount).worth + amount.toNat = x.worth := by
  have hsub := toNat_sub_of_lt h
  show (x.freeBalance - amount).toNat + x.reserveBalance.toNat + amount.toNat = x.worth
  unfold AccountState.worth
  omega

theorem worth_credit (x : AccountState) (amount : UInt64) :
    (x.credit amount).worth + 2 ^ 64 * carry x.freeBalance amount = x.worth + amount.toNat := by
  have hadd := toNat_add_carry x.freeBalance amount
  show (x.freeBalance + amount).toNat + x.reserveBalance.toNat + _ = x.worth + amount.toNat
  unfold AccountState.worth
  omega

theorem transfer_moved {recipient : Bytes} {amount : UInt64} {b : Bool}
    (h : transfer db recipient amount env = ⟨.ok b, env', l⟩) :
    Moved db env env' (overflow db env (.transfer recipient amount)) := by
  obtain ⟨receiver, _, _, _, haddress, h₁, -⟩ := bind_eq_ok h
  obtain ⟨hslice, rfl⟩ := addressOf_ok haddress
  obtain ⟨_, _, _, _, hget, h₂, -⟩ := bind_eq_ok h₁
  cases hget
  obtain ⟨x, env₁, _, _, hx, h₃, -⟩ := bind_eq_ok h₂
  obtain ⟨rfl, hsame₁, hp₁⟩ := getAccountState_ok hx
  obtain ⟨_, _, _, _, hpos, h₄, -⟩ := bind_eq_ok h₃
  obtain ⟨hlt, rfl⟩ := ensurePositive_ok hpos
  obtain ⟨_, env₂, _, _, hput, h₅, -⟩ := bind_eq_ok h₄
  cases hput
  obtain ⟨y, env₃, _, _, hy, h₆, -⟩ := bind_eq_ok h₅
  obtain ⟨rfl, hsame₃, hp₃⟩ := getAccountState_ok hy
  obtain ⟨_, env₄, _, _, hput, h₇, -⟩ := bind_eq_ok h₆
  cases hput
  cases h₇
  -- first the application is debited, then the receiver credited
  have hdebit := totalWorth_update (env.account db) env.appAddress
    ((env.account db env.appAddress).debit amount)
  have hcredit := fun y => totalWorth_update (update (env.account db) env.appAddress
    ((env.account db env.appAddress).debit amount)) receiver (AccountState.credit y amount)
  have hx' := worth_debit hlt
  have hy' := fun y => worth_credit y amount
  constructor
  · rw [putAccount_account, hsame₃, putAccount_account, hsame₁]
    unfold overflow
    simp only [hslice]
    specialize hcredit (update (env.account db) env.appAddress
      ((env.account db env.appAddress).debit amount) receiver)
    specialize hy' (update (env.account db) env.appAddress
      ((env.account db env.appAddress).debit amount) receiver)
    omega
  · exact ⟨hp₃.app.trans hp₁.app, hp₃.sender.trans hp₁.sender⟩

theorem moved_of_update {env₁ : ExecutionEnvironment} {a : Address} {x : AccountState} {n : Nat}
    (hsame : env₁.account db = env.account db) (hp : SameParties env env₁)
    (hworth : x.worth + 2 ^ 64 * n = (env.account db a).worth) :
    Moved db env { env₁ with accounts := env₁.accounts.insert a x } n := by
  have htotal := totalWorth_update (env.account db) a x
  constructor
  · rw [putAccount_account, hsame]
    omega
  · exact ⟨hp.app, hp.sender⟩

/-- The sender's account is replaced, if a balance of it is larger than the amount. -/
theorem updateSender_ok {f : AccountState → AccountState} {g : AccountState → UInt64}
    {amount : UInt64} {b : Bool} (h : (do
      let sender := (← Exec.get).sender
      let fromAcc ← getAccountState db sender
      ensurePositive (g fromAcc) amount
      putAccount sender (f fromAcc)
      return true : M Bool) env = ⟨.ok b, env', l⟩) :
    ∃ env₁, env₁.account db = env.account db ∧ SameParties env env₁ ∧
      amount < g (env.account db env.sender) ∧
      env' = { env₁ with
        accounts := env₁.accounts.insert env.sender (f (env.account db env.sender)) } := by
  rw [get_bind] at h
  obtain ⟨x, env₁, _, _, hx, h₂, -⟩ := bind_eq_ok h
  obtain ⟨rfl, hsame, hp⟩ := getAccountState_ok hx
  obtain ⟨_, _, _, _, hpos, h₃, -⟩ := bind_eq_ok h₂
  obtain ⟨hlt, rfl⟩ := ensurePositive_ok hpos
  obtain ⟨_, env₂, _, _, hput, h₄, -⟩ := bind_eq_ok h₃
  cases hput
  cases h₄
  exact ⟨_, hsame, hp, hlt, rfl⟩

theorem reserve_moved {amount : UInt64} {b : Bool} (h : reserve db amount env = ⟨.ok b, env', l⟩) :
    Moved db env env' (overflow db env (.reserve amount)) := by
  obtain ⟨env₁, hsame, hp, hlt, rfl⟩ := updateSender_ok (g := AccountState.freeBalance)
    (f := fun x => { x with
      freeBalance := x.freeBalance - amount, reserveBalance := x.reserveBalance + amount }) h
  refine moved_of_update hsame hp ?_
  have hsub := toNat_sub_of_lt hlt
  have hadd := toNat_add_carry (env.account db env.sender).reserveBalance amount
  unfold overflow AccountState.worth
  dsimp only
  omega

theorem unreserve_moved {amount : UInt64} {b : Bool}
    (h : unreserve db amount env = ⟨.ok b, env', l⟩) :
    Moved db env env' (overflow db env (.unreserve amount)) := by
  obtain ⟨env₁, hsame, hp, hlt, rfl⟩ := updateSender_ok (g := AccountState.reserveBalance)
    (f := fun x => { x with
      reserveBalance := x.reserveBalance - amount, freeBalance := x.freeBalance + amount }) h
  refine moved_of_update hsame hp ?_
  have hsub := toNat_sub_of_lt hlt
  have hadd := toNat_add_carry (env.account db env.sender).freeBalance amount
  unfold overflow AccountState.worth
  dsimp only
  omega

theorem readAccount_moved {field : AccountState → UInt64} {b : Bytes} {n : UInt64}
    (h : readAccount db field b env = ⟨.ok n, env', l⟩) : Moved db env env' 0 := by
  obtain ⟨a, _, _, _, haddress, h₁, -⟩ := bind_eq_ok h
  obtain ⟨-, rfl⟩ := addressOf_ok haddress
  obtain ⟨x, env₁, _, _, hx, h₂, -⟩ := bind_eq_ok h₁
  obtain ⟨-, hsame, hp⟩ := getAccountState_ok hx
  cases h₂
  exact .of_same hsame hp

/-- The part of the environment that money moves in. -/
def ledger (env : ExecutionEnvironment) : BTreeMap Address AccountState × Address × Address :=
  (env.accounts, env.appAddress, env.sender)

theorem Moved.of_ledger (h : env'.ledger = env.ledger) : Moved db env env' 0 := by
  obtain ⟨haccounts, hparties⟩ := Prod.mk.inj h
  obtain ⟨happ, hsender⟩ := Prod.mk.inj hparties
  refine .of_same ?_ ⟨happ, hsender⟩
  funext a
  unfold account
  rw [haccounts]

theorem keeps_onStorage {α : Type} (x : Smt α) : Keeps ledger (onStorage x) :=
  keeps_mapErr _ (keeps_zoom x fun _ _ => rfl)

theorem Moved.of_keeps {α : Type} {x : M α} {r : Except (Fail StateError) α}
    (hx : Keeps ledger x) (h : x env = ⟨r, env', l⟩) : Moved db env env' 0 := by
  have hkeep := hx env
  rw [h] at hkeep
  exact .of_ledger hkeep

section Guest

variable [Crypto]

theorem keeps_get (key : Bytes) : Keeps ledger (get key) := by
  refine keeps_bind (keeps_attempt (keeps_onStorage _)) fun r => ?_
  cases r with
  | error e => exact keeps_pure _
  | ok data => exact keeps_pure _

theorem keeps_remove (key : Bytes) : Keeps ledger (remove key) := by
  refine keeps_bind (keeps_attempt (keeps_onStorage _)) fun r => ?_
  cases r with
  | error e => exact keeps_pure _
  | ok data => exact keeps_pure _

/-- **A host call moves money**, up to the additions that wrap. -/
theorem hostCall_moved {call : HostCall} {result : HostResult}
    (h : hostCall db call env = ⟨.ok result, env', l⟩) :
    Moved db env env' (overflow db env call) := by
  cases call with
  | transfer recipient amount =>
    obtain ⟨b, env₁, _, _, hcall, hend, -⟩ := bind_eq_ok h
    cases hend
    exact transfer_moved hcall
  | reserve amount =>
    obtain ⟨b, env₁, _, _, hcall, hend, -⟩ := bind_eq_ok h
    cases hend
    exact reserve_moved hcall
  | unreserve amount =>
    obtain ⟨b, env₁, _, _, hcall, hend, -⟩ := bind_eq_ok h
    cases hend
    exact unreserve_moved hcall
  | getFreeBalance address =>
    obtain ⟨n, env₁, _, _, hcall, hend, -⟩ := bind_eq_ok h
    cases hend
    exact readAccount_moved hcall
  | getNonce address =>
    obtain ⟨n, env₁, _, _, hcall, hend, -⟩ := bind_eq_ok h
    cases hend
    exact readAccount_moved hcall
  | getReserveBalance address =>
    obtain ⟨n, env₁, _, _, hcall, hend, -⟩ := bind_eq_ok h
    cases hend
    exact readAccount_moved hcall
  | insert key value =>
    refine .of_keeps (keeps_bind ?_ fun _ => keeps_pure _) h
    exact keeps_bind (keeps_onStorage _) fun _ => keeps_pure _
  | get key => exact .of_keeps (keeps_bind (keeps_get key) fun _ => keeps_pure _) h
  | remove key => exact .of_keeps (keeps_bind (keeps_remove key) fun _ => keeps_pure _) h
  | emit eventType eventData =>
    exact .of_keeps (keeps_bind (fun _ => rfl) fun _ => keeps_pure _) h
  | value => exact .of_keeps (keeps_bind Exec.keeps_get fun _ => keeps_pure _) h
  | sender => exact .of_keeps (keeps_bind Exec.keeps_get fun _ => keeps_pure _) h

/-- How often an addition wraps while the code of an application runs. -/
def overflows (db : StateDb) : Guest → ExecutionEnvironment → Nat
  | .host call next, env =>
    overflow db env call + match (hostCall db call env).res with
      | .ok result => overflows db (next result) (hostCall db call env).state
      | .error _ => 0
  | _, _ => 0

/-- **The code of an application moves money**, whatever it does. -/
theorem runGuest_total (guest : Guest) : ∀ {env env' : ExecutionEnvironment} {l : List Query},
    runGuest db guest env = ⟨.ok (), env', l⟩ →
      totalWorth (env'.account db) + 2 ^ 64 * overflows db guest env =
        totalWorth (env.account db) := by
  induction guest with
  | done =>
    intro env env' l h
    cases h
    simp [overflows]
  | trap =>
    intro env env' l h
    cases h
  | host call next ih =>
    intro env env' l h
    obtain ⟨result, env₁, l₁, l₂, hcall, hnext, -⟩ := bind_eq_ok h
    have hfirst := (hostCall_moved hcall).total
    have hrest := ih result hnext
    unfold overflows
    simp only [hcall]
    omega

end Guest

theorem account_new {network : Address → Option Network} {origin appId : Address} {value : UInt64}
    {storage : SparseMerkleTree} (h : new network origin appId value storage db = .ok env) :
    env.account db = update db.accountState appId ((db.accountState appId).credit value) := by
  unfold new at h
  split at h
  · cases h
  · cases h
    funext a
    unfold account
    rw [get?_insert]
    by_cases ha : a = appId
    · subst ha
      simp
    · simp [ha]

end ExecutionEnvironment

/-! ## Calls -/

open ExecutionEnvironment

/-- The environment in which an application starts has the value of the call more than the state. -/
theorem prepare_total {wasm : Wasm} {db : StateDb} {origin : Address} {call : ApplicationCall}
    {value : UInt64} {start : Guest × ExecutionEnvironment}
    (h : wasm.prepare db origin call value = .ok start) :
    totalWorth (start.2.account db) + 2 ^ 64 * carry (db.accountState call.appId).freeBalance value =
      totalWorth db.accountState + value.toNat := by
  unfold Wasm.prepare at h
  cases hsource : db.getAppSource call.appId with
  | error e => simp [hsource, bind, Except.bind] at h
  | ok binary =>
    cases hdata : db.getAppData call.appId with
    | error e => simp [hsource, hdata, bind, Except.bind] at h
    | ok storage =>
      cases hnew : ExecutionEnvironment.new wasm.network origin call.appId value storage db with
      | error e => simp [hsource, hdata, hnew, bind, Except.bind] at h
      | ok env =>
        simp only [hsource, hdata, hnew, bind, Except.bind, pure, Except.pure] at h
        cases h
        have htotal := totalWorth_update db.accountState call.appId
          ((db.accountState call.appId).credit value)
        have hworth := worth_credit (db.accountState call.appId) value
        rw [account_new hnew]
        omega

section Call

variable [Crypto]

/-- How often an addition wraps in a call: the credit of the application, and the host calls. -/
def Wasm.callOverflows (wasm : Wasm) (db : StateDb) (origin : Address) (call : ApplicationCall)
    (value : UInt64) : Nat :=
  match wasm.prepare db origin call value with
  | .ok start => carry (db.accountState call.appId).freeBalance value + overflows db start.1 start.2
  | .error _ => 0

/-- **The exact balance of a call.** -/
theorem callEnvironment_total {wasm : Wasm} {db : StateDb} {origin : Address}
    {call : ApplicationCall} {value : UInt64} {env : ExecutionEnvironment}
    (h : wasm.callEnvironment db origin call value = .ok env) :
    totalWorth (env.account db) + 2 ^ 64 * wasm.callOverflows db origin call value =
      totalWorth db.accountState + value.toNat := by
  unfold Wasm.callEnvironment at h
  unfold Wasm.callOverflows
  cases hstart : wasm.prepare db origin call value with
  | error e => simp [hstart, bind, Except.bind] at h
  | ok start =>
    simp only [hstart, bind, Except.bind] at h
    have hprepare := prepare_total hstart
    rcases hrun : runGuest db start.1 start.2 with ⟨res, env', l⟩
    rw [hrun] at h
    cases res with
    | error e => cases e <;> cases h
    | ok u =>
      cases h
      have hguest := runGuest_total start.1 hrun
      dsimp only
      omega

end Call

/-- A change of the accounts in `m`: what they were worth gives way to what they are worth. -/
theorem totalWorth_overlay (m : BTreeMap Address AccountState) (f : Address → AccountState) :
    totalWorth (fun a => (m.get? a).getD (f a)) + (m.entries.map fun e => (f e.1).worth).sum =
      totalWorth f + (m.entries.map fun e => e.2.worth).sum := by
  obtain ⟨K, hK⟩ : ∃ K, K = (m.entries.map Prod.fst).toFinset := ⟨_, rfl⟩
  have hout (a : Address) (ha : a ∈ Finset.univ \ K) : m.get? a = none := by
    cases hget : m.get? a with
    | none => rfl
    | some x =>
      have hmem := List.mem_map_of_mem (f := Prod.fst) (mem_entries_iff.2 hget)
      rw [Finset.mem_sdiff, hK, List.mem_toFinset] at ha
      exact absurd hmem ha.2
  have hsum (g : Address → Nat) : ∑ a ∈ K, g a = (m.entries.map fun e => g e.1).sum := by
    rw [hK, List.sum_toFinset _ m.nodup_keys, List.map_map]
    rfl
  have hnew : (m.entries.map fun e => ((m.get? e.1).getD (f e.1)).worth) =
      m.entries.map fun e => e.2.worth := by
    refine List.map_congr_left fun e he => ?_
    rw [mem_entries_iff.1 he]
    rfl
  have hrest : ∑ a ∈ Finset.univ \ K, ((m.get? a).getD (f a)).worth =
      ∑ a ∈ Finset.univ \ K, (f a).worth :=
    Finset.sum_congr rfl fun a ha => by rw [hout a ha]; rfl
  unfold totalWorth
  rw [← Finset.sum_sdiff (Finset.subset_univ K), hrest, hsum, hnew,
    ← Finset.sum_sdiff (f := fun a => (f a).worth) (Finset.subset_univ K), hsum]
  omega

section State

variable [Crypto] [Codec AccountState]

namespace State

/-- An account as a block sees it: among the gathered ones, or else in the state. -/
def visible (s : State) (states : States) (a : Address) : AccountState :=
  (states.get? a).getD (s.accountState a)

omit [Codec AccountState] in
theorem worth_callEffect (tx : SignedTransaction) (rootHash : H256) (a : Address)
    (x : AccountState) : (callEffect tx rootHash a x).worth = x.worth :=
  field_callEffect AccountState.worth (fun _ _ => rfl) (fun _ _ => rfl) tx rootHash a x

/-- **What a call does to the sum of all accounts**: `env` has the accounts that it wrote. -/
theorem call_total {wasm : Wasm} {vm : Vm} {tx : SignedTransaction} {call : ApplicationCall}
    (hdata : tx.data? = some (.call call)) {states states' : States} {s s' : State} {l : List Query}
    (h : applyTransaction (wasm.vm vm) states tx s = ⟨.ok states', s', l⟩) :
    ∃ env, wasm.callEnvironment s.stateDb tx.sender call tx.price = .ok env ∧
      totalWorth (s'.visible states') +
          (env.accounts.entries.map fun e => (s.visible states e.1).worth).sum +
          2 ^ 64 * wasm.callOverflows s.stateDb tx.sender call tx.price =
        totalWorth (s.visible states) +
          (env.accounts.entries.map fun e => (s.accountState e.1).worth).sum + tx.price.toNat := by
  obtain ⟨c, hvm, hcall, rfl⟩ := applyTransaction_call_ok hdata h
  have hexec : wasm.executeCall s.stateDb tx.sender call tx.price = .ok c := hvm
  unfold Wasm.executeCall at hexec
  cases henv : wasm.callEnvironment s.stateDb tx.sender call tx.price with
  | error e => simp [henv, bind, Except.bind] at hexec
  | ok env =>
    simp only [henv, bind, Except.bind] at hexec
    cases hexec
    refine ⟨env, rfl, ?_⟩
    have hafter : totalWorth ((s.storeAppdata tx.recipient env.changelist.storage).visible states') =
        totalWorth fun a => (env.accounts.get? a).getD (s.visible states a) := by
      refine Finset.sum_congr rfl fun a _ => ?_
      have hget := (callTx_ok hcall).get a
      have hstore : (s.storeAppdata tx.recipient env.changelist.storage).accountState =
          s.accountState := accountState_of_trie rfl
      unfold visible
      rw [hget, hstore]
      dsimp only [ExecutionEnvironment.changelist]
      cases env.accounts.get? a with
      | some x => exact worth_callEffect _ _ _ x
      | none =>
        cases states.get? a with
        | none => rfl
        | some y => exact worth_callEffect _ _ _ y
    have hnew := totalWorth_overlay env.accounts (s.visible states)
    have hold := totalWorth_overlay env.accounts s.accountState
    have hexact := callEnvironment_total henv
    have hdb : env.account s.stateDb = fun a => (env.accounts.get? a).getD (s.accountState a) := rfl
    have hstate : s.stateDb.accountState = s.accountState := rfl
    rw [hdb, hstate] at hexact
    rw [hafter]
    omega

/-- **When a call creates no money**: exactly if its value, together with what the accounts it writes
had in the state, is at most what they had in the block and what is lost when balances wrap. -/
theorem call_total_le_iff {wasm : Wasm} {vm : Vm} {tx : SignedTransaction} {call : ApplicationCall}
    (hdata : tx.data? = some (.call call)) {states states' : States} {s s' : State} {l : List Query}
    (h : applyTransaction (wasm.vm vm) states tx s = ⟨.ok states', s', l⟩) :
    ∃ env, wasm.callEnvironment s.stateDb tx.sender call tx.price = .ok env ∧
      (totalWorth (s'.visible states') ≤ totalWorth (s.visible states) ↔
        tx.price.toNat + (env.accounts.entries.map fun e => (s.accountState e.1).worth).sum ≤
          (env.accounts.entries.map fun e => (s.visible states e.1).worth).sum +
            2 ^ 64 * wasm.callOverflows s.stateDb tx.sender call tx.price) := by
  obtain ⟨env, henv, htotal⟩ := call_total hdata h
  refine ⟨env, henv, ?_⟩
  omega

/-- The accounts of one transaction, as a block gathers them. -/
def gathered (s : State) (a b : Address) : States :=
  (empty.insert a (s.accountState a)).insert b (s.accountState b)

theorem visible_gathered (s : State) (a b c : Address) :
    s.visible (s.gathered a b) c = s.accountState c := by
  unfold visible gathered
  rw [get?_insert, get?_insert]
  by_cases hb : c = b
  · rw [if_pos hb, hb, Option.getD_some]
  · by_cases ha : c = a
    · rw [if_neg hb, if_pos ha, ha, Option.getD_some]
    · rw [if_neg hb, if_neg ha]
      rfl

/-- A call on accounts that no earlier transaction of the block changed creates no money exactly if
its value is zero or a balance wraps. -/
theorem call_total_le_iff_of_fresh {wasm : Wasm} {vm : Vm} {tx : SignedTransaction}
    {call : ApplicationCall} (hdata : tx.data? = some (.call call)) {states states' : States}
    {s s' : State} {l : List Query}
    (h : applyTransaction (wasm.vm vm) states tx s = ⟨.ok states', s', l⟩)
    (hfresh : ∀ a, s.visible states a = s.accountState a) :
    totalWorth (s'.visible states') ≤ totalWorth (s.visible states) ↔
      tx.price = 0 ∨ 0 < wasm.callOverflows s.stateDb tx.sender call tx.price := by
  obtain ⟨env, -, htotal⟩ := call_total hdata h
  simp only [hfresh] at htotal
  have hlt := tx.price.toNat_lt
  have hzero : tx.price = 0 ↔ tx.price.toNat = 0 := by
    rw [← UInt64.toNat_inj]
    rfl
  rw [hzero]
  omega

end State

end State

section Example

open Sample

namespace State

/-- The accounts of a call, as a block gathers them. -/
def sampleStates : States := state.gathered (address 1) (address 5)

theorem call_total_le_iff_sample :
    let tx := call 1 5 1 0 1
    let run := applyTransaction (wasm.vm noVm) sampleStates tx state
    let call : ApplicationCall := ⟨address 5, 0, 0, []⟩
    ∃ states' env, run.res = .ok states' ∧
      wasm.callEnvironment state.stateDb tx.sender call tx.price = .ok env ∧
      (totalWorth (run.state.visible states') ≤ totalWorth (state.visible sampleStates) ↔
        tx.price.toNat +
            (env.accounts.entries.map fun e => (state.accountState e.1).worth).sum ≤
          (env.accounts.entries.map fun e => (state.visible sampleStates e.1).worth).sum +
            2 ^ 64 * wasm.callOverflows state.stateDb tx.sender call tx.price) := by
  have hok : (applyTransaction (wasm.vm noVm) sampleStates (call 1 5 1 0 1)
      state).res.toOption.isSome = true := by decide +kernel
  obtain ⟨states', hrun⟩ := Run.exists_ok hok
  have hdata : (call 1 5 1 0 1).data? = some (.call ⟨address 5, 0, 0, []⟩) := rfl
  obtain ⟨env, henv, hiff⟩ := call_total_le_iff hdata hrun
  exact ⟨states', env, by rw [hrun], henv, hiff⟩

/-- A call of value `10`: the application sends on `3`, keeps `7`, and the sender pays nothing. -/
theorem call_creates_money :
    let run := applyTransaction (wasm.vm noVm) sampleStates (call 1 5 1 10 1) state
    ∃ states', run.res = .ok states' ∧
      totalWorth (state.visible sampleStates) < totalWorth (run.state.visible states') := by
  have hok : (applyTransaction (wasm.vm noVm) sampleStates (call 1 5 1 10 1)
      state).res.toOption.isSome = true := by decide +kernel
  have hcond : ¬ ((call 1 5 1 10 1).price = 0 ∨
      0 < wasm.callOverflows state.stateDb (call 1 5 1 10 1).sender
        ⟨address 5, 0, 0, []⟩ (call 1 5 1 10 1).price) := by decide +kernel
  obtain ⟨states', hrun⟩ := Run.exists_ok hok
  refine ⟨states', by rw [hrun], Nat.lt_of_not_le fun hle => hcond ?_⟩
  exact (call_total_le_iff_of_fresh rfl hrun (visible_gathered _ _ _)).1 hle

end State

end Example

end Uchain
