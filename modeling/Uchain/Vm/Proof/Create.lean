import Uchain.State.Proof.Calls
import Uchain.State.Proof.Frames
import Uchain.State.Proof.Order
import Uchain.Types.Proof.Addressing
import Uchain.Vm.Create
import Uchain.Vm.Sample

/-!
# The addresses of a new application

The virtual machine derives the address of a new application from its name as a seed; the state records
the application under `to()`, which derives it from the parts of the name.

* `execute_create_ok`: inversion of a creation that succeeds.
-/

namespace Uchain

open Lib Exec BTreeMap
open Lib.Protobuf (stringBytes)

/-- `packageAddress` is `get_address_from_package_name` on the network of the sender. -/
def PackageAddresses [Crypto] (network : Address → Option Network) : Prop :=
  ∀ packageName sender, Crypto.packageAddress packageName sender =
    (network sender).bind fun network => (getAddressFromPackageName packageName network).toOption

section State

variable [Crypto] [Codec AccountState]

namespace State

/-- What is left of a creation, after the name is registered. -/
structure Created (tx : SignedTransaction) (arg : CreateApplication) (descriptor : Bytes)
    (c : Changelist) (registered states' : States) (s s' : State) : Prop where
  account : ∃ x, (insertChanges c.accountChanges registered).get? tx.recipient = some x ∧
    states' = (insertChanges c.accountChanges registered).insert tx.recipient
      { x with appState := some ⟨c.storage.root, Crypto.keccak256 arg.binary, tx.sender, 1⟩ }
  state : s' =
    { s with
      metadata := s.metadata.insert (Crypto.keccak256 arg.binary) ⟨arg.binary, descriptor⟩
      appdata := s.appdata.insert (toLex (tx.recipient, c.storage.root)) c.storage }

theorem execute_create_ok {vm : Vm} {tx : SignedTransaction} {arg : CreateApplication}
    (hdata : tx.data? = some (.create arg)) {states states' : States} {s s' : State} {l : List Query}
    (h : execute vm states tx s = ⟨.ok states', s', l⟩) :
    ∃ registered descriptor c,
      (registerNamespace vm tx arg states s).res = .ok registered ∧
      vm.executeAppCreate (registerNamespace vm tx arg states s).state tx.sender tx.price arg =
        .ok (descriptor, c) ∧
      Created tx arg descriptor c registered states' (registerNamespace vm tx arg states s).state
        s' := by
  unfold execute at h
  simp only [hdata] at h
  obtain ⟨found, s₁, _, _, hfound, h, -⟩ := bind_eq_ok h
  have hkeeps := keeps_attempt (keeps_onTrie (f := id)
    (TreeDB.keeps_treeGet (V := AccountState) tx.recipient)) s
  rw [hfound] at hkeeps
  obtain rfl : s₁ = s := hkeeps
  rcases found with e | _ | account
  case ok.some => cases h
  all_goals
    dsimp only at h
    obtain ⟨registered, s₂, _, _, hregistered, h, -⟩ := bind_eq_ok h
    obtain ⟨codeHash, s₃, _, _, hhash, h, -⟩ := bind_eq_ok h
    obtain rfl : Crypto.keccak256 arg.binary = codeHash := Except.ok.inj (congrArg Run.res hhash)
    obtain rfl : s₂ = s₃ := congrArg Run.state hhash
    rw [get_bind] at h
    obtain ⟨created, s₄, _, _, hcreated, hrecord, -⟩ := bind_eq_ok h
    obtain ⟨hcreated, rfl⟩ := ofExcept_eq_ok hcreated
    rw [hregistered]
    refine ⟨registered, created.1, created.2, rfl, hcreated, ?_⟩
    cases haccount : (insertChanges created.2.accountChanges registered).get? tx.recipient with
    | none =>
      rw [haccount] at hrecord
      cases hrecord
    | some account =>
      rw [haccount] at hrecord
      cases hrecord
      exact ⟨⟨account, haccount, rfl⟩, rfl⟩

theorem applyTransaction_create_ok {vm : Vm} {tx : SignedTransaction} {arg : CreateApplication}
    (hdata : tx.data? = some (.create arg)) {states states' : States} {s s' : State} {l : List Query}
    (h : applyTransaction vm states tx s = ⟨.ok states', s', l⟩) :
    ∃ descriptor c,
      vm.executeAppCreate (registerNamespace vm tx arg states s).state tx.sender tx.price arg =
        .ok (descriptor, c) ∧
      (states'.get? tx.recipient).bind (·.appState) =
        some ⟨c.storage.root, Crypto.keccak256 arg.binary, tx.sender, 1⟩ ∧
      s'.appdata.get? (toLex (tx.recipient, c.storage.root)) = some c.storage := by
  obtain ⟨executed, s₁, _, _, hexecute, h, -⟩ := bind_eq_ok h
  obtain ⟨hnonce, rfl⟩ := ofExcept_eq_ok h
  obtain ⟨registered, descriptor, c, -, hcreate, ⟨x, hx, rfl⟩, rfl⟩ := execute_create_ok hdata hexecute
  refine ⟨descriptor, c, hcreate, ?_, ?_⟩
  · unfold updateNonce at hnonce
    split at hnonce
    · cases hnonce
    · rename_i account haccount
      cases hnonce
      rw [get?_insert] at haccount ⊢
      by_cases hsender : tx.recipient = tx.sender
      · rw [if_pos hsender.symm] at haccount
        cases haccount
        rw [if_pos hsender]
        rfl
      · rw [if_neg hsender, get?_insert, if_pos rfl]
        rfl
  · rw [get?_insert, if_pos rfl]

end State

namespace Creator

omit [Codec AccountState] in
theorem executeAppCreate_ok {w : Creator} {db : StateDb} {sender : Address} {value : UInt64}
    {call : CreateApplication} {r : Bytes × Changelist}
    (h : w.executeAppCreate db sender value call = .ok r) :
    ∃ env, w.genesisEnvironment db sender value call = .ok env := by
  cases henv : w.genesisEnvironment db sender value call with
  | error e =>
    simp only [executeAppCreate, henv] at h
    cases h
  | ok env => exact ⟨env, rfl⟩

omit [Codec AccountState] in
/-- The genesis runs at the seed's address, which is credited with the value. -/
theorem genesisEnvironment_ok {w : Creator} {db : StateDb} {sender : Address} {value : UInt64}
    {call : CreateApplication} {network : Network} (hnetwork : w.network sender = some network)
    {env : ExecutionEnvironment} (h : w.genesisEnvironment db sender value call = .ok env) :
    getAddressFromSeed (stringBytes call.packageName) network = .ok env.appAddress ∧
      env.accounts.get? env.appAddress =
        some ((db.accountState env.appAddress).credit value) := by
  unfold genesisEnvironment at h
  simp only [hnetwork] at h
  split at h
  · cases h
  · rename_i appId happ
    unfold ExecutionEnvironment.new at h
    split at h
    · cases h
    · cases h
      refine ⟨happ, ?_⟩
      dsimp only
      rw [get?_insert, if_pos rfl]

end Creator

namespace SignedTransaction

omit [Codec AccountState] in
/-- `to()` of a creation whose package name is accepted. -/
theorem recipient_create {network : Address → Option Network} (hpackage : PackageAddresses network)
    {tx : SignedTransaction} {arg : CreateApplication} (hdata : tx.data? = some (.create arg))
    {n : Network} (hnetwork : network tx.sender = some n) {parts : List String}
    (hparts : PackageName.parts arg.packageName = .ok parts) :
    addressWith (payload (Crypto.keccak256 (PackageName.lastInput parts))) n =
      .ok tx.recipient := by
  obtain ⟨package, hparse, hid⟩ := PackageName.packageId_eq hparts
  obtain ⟨address, haddress⟩ := addressWith_ok (length_payload package.packageId) n
  have hto : Crypto.packageAddress arg.packageName tx.sender = some address := by
    rw [hpackage, hnetwork, Option.bind_some, getAddressFromPackageName, hparse]
    dsimp only
    rw [haddress]
    rfl
  have htx : tx.tx.data = some (.create arg) := hdata
  rw [← hid, haddress, recipient, htx]
  dsimp only
  rw [hto, Option.getD_some]

end SignedTransaction

namespace State

/-- **Where a new application lives.** Its genesis runs at one address, which is credited with the
transaction's value, and its application state and its storage are recorded at `to()`. If no two
inputs of the hash have the same payload, these are equal exactly if the package name is itself the
input that is hashed last for its parts. -/
theorem create_address_iff (w : Creator) (vm : Vm) (hpackage : PackageAddresses w.network)
    {tx : SignedTransaction} {arg : CreateApplication} (hdata : tx.data? = some (.create arg))
    {network : Network} (hnetwork : w.network tx.sender = some network) {parts : List String}
    (hparts : PackageName.parts arg.packageName = .ok parts)
    (hkeccak : payload (Crypto.keccak256 (stringBytes arg.packageName)) =
      payload (Crypto.keccak256 (PackageName.lastInput parts)) →
        stringBytes arg.packageName = PackageName.lastInput parts)
    {states states' : States} {s s' : State} {l : List Query}
    (h : applyTransaction (w.vm vm) states tx s = ⟨.ok states', s', l⟩) :
    ∃ env app storage,
      w.genesisEnvironment (registerNamespace (w.vm vm) tx arg states s).state.stateDb tx.sender
        tx.price arg = .ok env ∧
      env.accounts.get? env.appAddress =
        some (((registerNamespace (w.vm vm) tx arg states s).state.accountState
          env.appAddress).credit tx.price) ∧
      (states'.get? tx.recipient).bind (·.appState) = some app ∧
      s'.appdata.get? (toLex (tx.recipient, app.rootHash)) = some storage ∧
      (env.appAddress = tx.recipient ↔ stringBytes arg.packageName = PackageName.lastInput parts) := by
  obtain ⟨descriptor, c, hcreate, happ, hstorage⟩ := applyTransaction_create_ok hdata h
  obtain ⟨env, henv⟩ := Creator.executeAppCreate_ok (show w.executeAppCreate
    (registerNamespace (w.vm vm) tx arg states s).state.stateDb tx.sender tx.price arg =
      .ok (descriptor, c) from hcreate)
  obtain ⟨hseed, hcredit⟩ := Creator.genesisEnvironment_ok hnetwork henv
  have hto := SignedTransaction.recipient_create hpackage hdata hnetwork hparts
  refine ⟨env, _, _, henv, hcredit, happ, hstorage, ?_⟩
  constructor
  · intro he
    rw [← he, ← hseed] at hto
    exact hkeccak (addressWith_inj (length_payload _) (length_payload _) hto.symm).1
  · intro he
    rw [getAddressFromSeed, he, hto] at hseed
    exact (Except.ok.inj hseed).symm

end State

end State

namespace Creation

open Sample
open State

/-- The sample hash, with the addresses of packages. -/
scoped instance (priority := high) naming : Crypto :=
  { (inferInstance : Crypto) with
    packageAddress := fun packageName _ => (getAddressFromPackageName packageName .testnet).toOption }

/-- Applications whose genesis does nothing. -/
def creator : Creator := { wasm with
  genesis := fun _ => .done
  descriptor := fun _ _ env => .ok ([], env) }

/-- The application `5` is the registry of names. -/
def registrar : Vm := { noVm with registerCall := fun _ _ => .ok ⟨address 5, 0, 0, []⟩ }

def create : SignedTransaction :=
  ⟨⟨2, 1, .zero, 0, 10, some (.create ⟨"com.example.app", [1]⟩)⟩, .ofNum 32 1, .zero, 0⟩

def parts : List String := ["com", "example", "app"]

/-- The accounts of the transaction. -/
def accounts : States :=
  (empty.insert create.sender (state.accountState create.sender)).insert
    create.recipient (state.accountState create.recipient)

def run : Run StateError Query State States :=
  applyTransaction (creator.vm registrar) accounts create state

theorem create_address_iff_example : ∃ env app storage,
    creator.genesisEnvironment
      (registerNamespace (creator.vm registrar) create ⟨"com.example.app", [1]⟩ accounts
        state).state.stateDb create.sender 10 ⟨"com.example.app", [1]⟩ = .ok env ∧
    env.accounts.get? env.appAddress =
      some (((registerNamespace (creator.vm registrar) create ⟨"com.example.app", [1]⟩ accounts
        state).state.accountState env.appAddress).credit 10) ∧
    ((run.res.toOption.getD .empty).get? create.recipient).bind (·.appState) = some app ∧
    run.state.appdata.get? (toLex (create.recipient, app.rootHash)) = some storage ∧
    env.appAddress ≠ create.recipient := by
  have hok : run.res.toOption.isSome = true := by decide +kernel
  obtain ⟨states', hrun⟩ := Run.exists_ok hok
  have hres : run.res.toOption.getD .empty = states' := by rw [hrun]; rfl
  have hparts : PackageName.parts "com.example.app" = .ok parts := by decide +kernel
  have hne : ¬ stringBytes "com.example.app" = PackageName.lastInput parts := by decide +kernel
  obtain ⟨env, app, storage, henv, hcredit, happ, hstorage, hiff⟩ :=
    create_address_iff creator registrar (fun _ _ => rfl)
      (show create.data? = some (.create ⟨"com.example.app", [1]⟩) from rfl)
      (show creator.network create.sender = some .testnet from rfl) hparts (by decide +kernel) hrun
  rw [hres]
  exact ⟨env, app, storage, henv, hcredit, happ, hstorage, fun he => hne (hiff.1 he)⟩

/-- The value of a creation is at the seed's address, and its application at another. -/
theorem create_splits_application :
    PackageName.parts "com.example.app" = .ok parts ∧
      run.res.toOption.map (fun states =>
        ((states.get? create.recipient).map fun x => (x.freeBalance, x.appState.isSome),
          (getAddressFromSeed (stringBytes "com.example.app") .testnet).toOption.map fun seed =>
            (states.get? seed).map fun x => (x.freeBalance, x.appState.isSome))) =
        some (some (0, true), some (some (10, false))) := by
  decide +kernel

end Creation

end Uchain
