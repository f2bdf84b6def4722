import Uchain.State.Proof.Payments

/-!
# What a call does to the accounts of a block

A call of an application replaces the gathered accounts by those in the change list, records the
new storage root on the application's account and moves the sender's nonce.

* `callTx_ok`, `callTx_eq_ok`: what it does to each account, and when it succeeds.
-/

namespace Uchain

open Lib BTreeMap

namespace State

theorem ofExcept_eq_ok {α : Type} {x : Except StateError α} {s s' : State} {a : α} {l : List Query}
    (h : ofExcept x s = ⟨.ok a, s', l⟩) : x = .ok a ∧ s' = s := by
  cases x with
  | error e => cases h
  | ok b =>
    cases h
    exact ⟨rfl, rfl⟩

theorem insertChanges_get? (changes : BTreeMap Address AccountState) (states : States)
    (a : Address) :
    (insertChanges changes states).get? a = (changes.get? a).or (states.get? a) := by
  have hfold : ∀ (l : List (Address × AccountState)) (states : States),
      l.Pairwise (fun p q => p.1 < q.1) →
      (l.foldl (fun states e => states.insert e.1 e.2) states).get? a =
        (lookup a l).or (states.get? a) := by
    intro l
    induction l with
    | nil => exact fun states _ => rfl
    | cons p l ih =>
      intro states hsorted
      obtain ⟨hp, hl⟩ := List.pairwise_cons.1 hsorted
      rw [List.foldl_cons, ih _ hl, get?_insert, lookup]
      by_cases ha : a = p.1
      · have hnone : lookup a l = none :=
          lookup_eq_none fun q hq => ha ▸ (hp q hq).ne
        rw [if_pos ha, if_pos ha, hnone]
        rfl
      · rw [if_neg ha, if_neg ha]
  exact hfold changes.entries states changes.sorted

/-- An account whose application has the storage root `rootHash`. -/
def withRoot (rootHash : H256) (x : AccountState) : AccountState :=
  { x with appState := x.appState.map fun app => { app with rootHash } }

theorem setAppRoot_ok {app : Address} {rootHash : H256} {states states' : States}
    (h : setAppRoot app rootHash states = .ok states') :
    (∃ x, states.get? app = some x ∧ x.appState.isSome = true) ∧
      ∀ a, states'.get? a =
        (states.get? a).map fun x => if a = app then withRoot rootHash x else x := by
  unfold setAppRoot at h
  split at h
  · rename_i x hx
    split at h
    · rename_i appState happ
      cases h
      refine ⟨⟨x, hx, by rw [happ]; rfl⟩, fun a => ?_⟩
      rw [get?_insert]
      by_cases ha : a = app
      · subst ha
        simp [hx, withRoot, happ]
      · simp [ha]
    · cases h
  · cases h

theorem setAppRoot_eq_ok {app : Address} (rootHash : H256) {states : States} {x : AccountState}
    (hx : states.get? app = some x) (happ : x.appState.isSome = true) :
    ∃ states', setAppRoot app rootHash states = .ok states' := by
  obtain ⟨appState, happ⟩ := Option.isSome_iff_exists.1 happ
  exact ⟨_, by simp only [setAppRoot, hx, happ]; rfl⟩

variable [Crypto]

/-- What a call with the change list `c` makes of the gathered accounts. -/
def callTx (tx : SignedTransaction) (c : Changelist) (states : States) :
    Except StateError States := do
  let states ← setAppRoot tx.recipient c.storage.root (insertChanges c.accountChanges states)
  updateNonce tx states

/-- What a call does to the account of `a`, after the changes are in. -/
def callEffect (tx : SignedTransaction) (rootHash : H256) (a : Address) (x : AccountState) :
    AccountState :=
  let x := if a = tx.recipient then withRoot rootHash x else x
  if a = tx.sender then x.bumpNonce tx.nonce else x

theorem field_callEffect {γ : Type} (f : AccountState → γ)
    (hroot : ∀ x rootHash, f (withRoot rootHash x) = f x) (hbump : ∀ x k, f (x.bumpNonce k) = f x)
    (tx : SignedTransaction) (rootHash : H256) (a : Address) (x : AccountState) :
    f (callEffect tx rootHash a x) = f x := by
  simp only [callEffect, apply_ite f, hroot, hbump, ite_self]

/-- A call that was executed with the change list `c`. -/
structure Called (tx : SignedTransaction) (c : Changelist) (states states' : States) : Prop where
  app : ∃ x, (c.accountChanges.get? tx.recipient).or (states.get? tx.recipient) = some x ∧
    x.appState.isSome = true
  sender : ∃ x, (c.accountChanges.get? tx.sender).or (states.get? tx.sender) = some x
  get : ∀ a, states'.get? a =
    ((c.accountChanges.get? a).or (states.get? a)).map (callEffect tx c.storage.root a)

theorem callTx_ok {tx : SignedTransaction} {c : Changelist} {states states' : States}
    (h : callTx tx c states = .ok states') : Called tx c states states' := by
  unfold callTx at h
  cases hroot : setAppRoot tx.recipient c.storage.root
      (insertChanges c.accountChanges states) with
  | error e => simp [hroot, bind, Except.bind] at h
  | ok states₁ =>
    simp only [hroot, bind, Except.bind] at h
    obtain ⟨⟨x, hx, happ⟩, hget⟩ := setAppRoot_ok hroot
    obtain ⟨z, hz, rfl⟩ := updateNonce_ok h
    rw [insertChanges_get?] at hx
    refine ⟨⟨x, hx, happ⟩, ?_, fun a => ?_⟩
    · rw [hget, insertChanges_get?] at hz
      obtain ⟨y, hy, -⟩ := Option.map_eq_some_iff.1 hz
      exact ⟨y, hy⟩
    · have hget' := hget a
      rw [insertChanges_get?] at hget'
      rw [get?_insert]
      by_cases ha : a = tx.sender
      · subst ha
        rw [hz] at hget'
        obtain ⟨y, hy, hyz⟩ := Option.map_eq_some_iff.1 hget'.symm
        rw [if_pos rfl, hy, ← hyz]
        simp [callEffect]
      · rw [if_neg ha, hget']
        congr 1
        funext x
        simp [callEffect, ha]

theorem callTx_eq_ok {tx : SignedTransaction} {c : Changelist} {states : States} {x y : AccountState}
    (hx : (c.accountChanges.get? tx.recipient).or (states.get? tx.recipient) = some x)
    (happ : x.appState.isSome = true)
    (hy : (c.accountChanges.get? tx.sender).or (states.get? tx.sender) = some y) :
    ∃ states', callTx tx c states = .ok states' := by
  obtain ⟨states₁, hroot⟩ := setAppRoot_eq_ok c.storage.root
    (by rw [insertChanges_get?]; exact hx) happ
  have hget := (setAppRoot_ok hroot).2 tx.sender
  rw [insertChanges_get?, hy] at hget
  unfold callTx
  simp only [hroot, bind, Except.bind, updateNonce, hget, Option.map_some]
  exact ⟨_, rfl⟩

section Run

variable [Codec AccountState]

/-- The state after the storage of an application is stored. -/
def storeAppdata (s : State) (app : Address) (storage : SparseMerkleTree) : State :=
  { s with appdata := s.appdata.insert (toLex (app, storage.root)) storage }

/-- **A call that succeeds**: the virtual machine answers, and its answer is put in place. -/
theorem applyTransaction_call_ok {vm : Vm} {tx : SignedTransaction} {call : ApplicationCall}
    (hdata : tx.data? = some (.call call)) {states states' : States} {s s' : State} {l : List Query}
    (h : applyTransaction vm states tx s = ⟨.ok states', s', l⟩) :
    ∃ c, vm.executeAppTx s tx.sender tx.price call = .ok c ∧ callTx tx c states = .ok states' ∧
      s' = s.storeAppdata tx.recipient c.storage := by
  obtain ⟨states₁, s₁, l₁, l₂, hexec, hnonce, -⟩ := Exec.bind_eq_ok h
  obtain ⟨hupdate, rfl⟩ := ofExcept_eq_ok hnonce
  unfold execute at hexec
  simp only [hdata] at hexec
  obtain ⟨s₀, _, l₃, l₄, hget, hcall, -⟩ := Exec.bind_eq_ok hexec
  cases hget
  obtain ⟨c, s₂, l₅, l₆, hvm, hchanges, -⟩ := Exec.bind_eq_ok hcall
  obtain ⟨hanswer, rfl⟩ := ofExcept_eq_ok hvm
  obtain ⟨states₂, s₃, l₇, l₈, hroot, hput, -⟩ := Exec.bind_eq_ok hchanges
  obtain ⟨hstates, rfl⟩ := ofExcept_eq_ok hroot
  cases hput
  refine ⟨c, hanswer, ?_, rfl⟩
  simp only [callTx, hstates, bind, Except.bind, hupdate]

theorem applyTransaction_call_eq_ok {vm : Vm} {tx : SignedTransaction} {call : ApplicationCall}
    (hdata : tx.data? = some (.call call)) {states states' : States} {s : State} {c : Changelist}
    (hvm : vm.executeAppTx s tx.sender tx.price call = .ok c)
    (hcall : callTx tx c states = .ok states') :
    applyTransaction vm states tx s =
      ⟨.ok states', s.storeAppdata tx.recipient c.storage, []⟩ := by
  unfold callTx at hcall
  cases hroot : setAppRoot tx.recipient c.storage.root (insertChanges c.accountChanges states) with
  | error e => simp [hroot, bind, Except.bind] at hcall
  | ok states₁ =>
    simp only [hroot, bind, Except.bind] at hcall
    have hexec : execute vm states tx s =
        ⟨.ok states₁, s.storeAppdata tx.recipient c.storage, []⟩ := by
      unfold execute
      simp only [hdata]
      have hanswer : ofExcept (vm.executeAppTx s tx.sender tx.price call) s = ⟨.ok c, s, []⟩ := by
        rw [hvm]
        rfl
      have hstates : ofExcept (setAppRoot tx.recipient c.storage.root
          (insertChanges c.accountChanges states)) s = ⟨.ok states₁, s, []⟩ := by
        rw [hroot]
        rfl
      rw [Exec.get_bind,
        Exec.bind_ok_nil hanswer, Exec.bind_ok_nil hstates]
      rfl
    unfold applyTransaction
    rw [Exec.bind_ok_nil hexec, ofExcept_run, hcall]
    rfl

end Run

end State

end Uchain
