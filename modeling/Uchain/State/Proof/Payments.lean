import Uchain.State.State

/-!
# Executing payments

A list of payments touches only the account states that were gathered for it, so its execution is a
function of them (`payAll`).

* `gatherStates_run`: the first loop of both execution paths, given what its reads return.
* `gather_get`: the gathered states are the accounts of the parties.
-/

namespace Uchain

open Lib

namespace State

def ofRes {α : Type} : Except StateError α → Except (Fail StateError) α
  | .ok a => .ok a
  | .error e => .error (.err e)

theorem ofExcept_run {α : Type} (x : Except StateError α) (s : State) :
    ofExcept x s = ⟨ofRes x, s, []⟩ := by
  cases x <;> rfl

variable [Crypto]

/-! ## Gathering -/

abbrev Acc := Address → Except (Fail StateError) AccountState

def fill (acc : Acc) (a : Address) (states : States) : Except (Fail StateError) States :=
  match states.get? a with
  | some _ => .ok states
  | none => (acc a).map fun x => states.insert a x

def gather (acc : Acc) : List SignedTransaction → States → Except (Fail StateError) States
  | [], states => .ok states
  | tx :: txs, states => do
    let states ← fill acc tx.sender states
    let states ← fill acc tx.recipient states
    gather acc txs states

variable {acc : Acc}

omit [Crypto] in
theorem fillVacant_run {read : Address → M AccountState} {s : State}
    (h : ∀ a, ∃ l, read a s = ⟨acc a, s, l⟩) (a : Address) (states : States) : ∃ l,
    fillVacant read a states s = ⟨fill acc a states, s, l⟩ := by
  rw [fillVacant, fill]
  cases states.get? a with
  | some x => exact ⟨_, rfl⟩
  | none =>
    obtain ⟨l, hl⟩ := h a
    cases hacc : acc a with
    | error e =>
      rw [hacc] at hl
      exact ⟨_, Exec.bind_error hl⟩
    | ok x =>
      rw [hacc] at hl
      exact ⟨_, Exec.bind_ok hl⟩

theorem gatherStates_run {read : Address → M AccountState} {acc : Acc} {s : State}
    (h : ∀ a, ∃ l, read a s = ⟨acc a, s, l⟩) : ∀ (txs : List SignedTransaction) (states : States),
    ∃ l, gatherStates read txs states s = ⟨gather acc txs states, s, l⟩
  | [], states => ⟨_, rfl⟩
  | tx :: txs, states => by
    rw [gatherStates, gather]
    obtain ⟨l₁, h₁⟩ := fillVacant_run h tx.sender states
    cases hf₁ : fill acc tx.sender states with
    | error e =>
      rw [hf₁] at h₁
      exact ⟨_, Exec.bind_error h₁⟩
    | ok states₁ =>
      rw [hf₁] at h₁
      rw [Exec.bind_ok h₁]
      obtain ⟨l₂, h₂⟩ := fillVacant_run h tx.recipient states₁
      cases hf₂ : fill acc tx.recipient states₁ with
      | error e =>
        rw [hf₂] at h₂
        rw [Exec.bind_error h₂]
        exact ⟨_, by simp [bind, Except.bind, hf₂]; rfl⟩
      | ok states₂ =>
        rw [hf₂] at h₂
        rw [Exec.bind_ok h₂]
        obtain ⟨l₃, h₃⟩ := gatherStates_run h txs states₂
        rw [h₃]
        exact ⟨_, by simp [bind, Except.bind, hf₂]; rfl⟩

def parties (txs : List SignedTransaction) : Set Address :=
  {a | ∃ tx ∈ txs, a = tx.sender ∨ a = tx.recipient}

variable {tx : SignedTransaction} {txs : List SignedTransaction}

theorem mem_parties_cons {a : Address} :
    a ∈ parties (tx :: txs) ↔ (a = tx.sender ∨ a = tx.recipient) ∨ a ∈ parties txs := by
  simp [parties]

/-- The states are the accounts of the addresses in `A`. -/
def Gathered (acc : Acc) (A : Set Address) (states : States) : Prop :=
  ∀ a, (a ∈ A → ∃ x, acc a = .ok x ∧ states.get? a = some x) ∧ (a ∉ A → states.get? a = none)

variable {states states' : States}

omit [Crypto] in
theorem Gathered.fill {A : Set Address} (h : Gathered acc A states) {a : Address}
    (hf : State.fill acc a states = .ok states') :
    Gathered acc (insert a A) states' := by
  unfold State.fill at hf
  cases ha : states.get? a with
  | some x =>
    rw [ha] at hf
    cases hf
    have hmem : a ∈ A := by
      by_contra hn
      rw [(h a).2 hn] at ha
      cases ha
    rw [Set.insert_eq_of_mem hmem]
    exact h
  | none =>
    rw [ha] at hf
    cases hacc : acc a with
    | error e =>
      rw [hacc] at hf
      cases hf
    | ok x =>
      rw [hacc] at hf
      cases hf
      intro b
      rw [BTreeMap.get?_insert]
      by_cases hb : b = a
      · subst hb
        simp [hacc]
      · simp only [Set.mem_insert_iff, hb, false_or]
        exact h b

theorem Gathered.gather {acc : Acc} : ∀ {txs : List SignedTransaction} {A : Set Address}
    {states states' : States}, Gathered acc A states → State.gather acc txs states = .ok states' →
    Gathered acc (A ∪ parties txs) states'
  | [], A, states, states', h, hg => by
    cases hg
    have : parties [] = ∅ := by simp [parties]
    rw [this, Set.union_empty]
    exact h
  | tx :: txs, A, states, states', h, hg => by
    unfold State.gather at hg
    cases hf₁ : State.fill acc tx.sender states with
    | error e => simp [hf₁, bind, Except.bind] at hg
    | ok states₁ =>
      cases hf₂ : State.fill acc tx.recipient states₁ with
      | error e => simp [hf₁, hf₂, bind, Except.bind] at hg
      | ok states₂ =>
        simp only [hf₁, hf₂, bind, Except.bind] at hg
        have := Gathered.gather ((h.fill hf₁).fill hf₂) hg
        have hset : A ∪ parties (tx :: txs) =
            insert tx.recipient (insert tx.sender A) ∪ parties txs := by
          ext b
          simp only [mem_parties_cons, Set.mem_union, Set.mem_insert_iff]
          tauto
        rw [hset]
        exact this

/-- **The gathered states are the accounts of the parties.** -/
theorem gather_gathered (h : gather acc txs .empty = .ok states) :
    Gathered acc (parties txs) states := by
  have hempty : Gathered acc ∅ .empty := fun a => ⟨fun ha => ha.elim, fun _ => rfl⟩
  simpa using hempty.gather h

/-! ## Payments -/

def payTx (tx : SignedTransaction) (states : States) : Except StateError States := do
  updateNonce tx (← executePaymentTx tx states)

def payAll : List SignedTransaction → States → Except StateError States
  | [], states => .ok states
  | tx :: txs, states => do payAll txs (← payTx tx states)

section Run

variable [Codec AccountState]

theorem applyTransaction_run (vm : Vm) {tx : SignedTransaction} (h : tx.isPayment = true)
    (states : States) (s : State) :
    applyTransaction vm states tx s = ⟨ofRes (payTx tx states), s, []⟩ := by
  have hexec : execute vm states tx s = ⟨ofRes (executePaymentTx tx states), s, []⟩ := by
    unfold SignedTransaction.isPayment at h
    unfold execute SignedTransaction.data?
    split at h
    · rename_i recipient hdata
      simp only [hdata]
      exact ofExcept_run _ s
    · cases h
  unfold applyTransaction payTx
  cases hp : executePaymentTx tx states with
  | error e =>
    rw [hp] at hexec
    exact Exec.bind_error hexec
  | ok states₁ =>
    rw [hp] at hexec
    rw [Exec.bind_ok_nil hexec, ofExcept_run]
    rfl

/-- **Executing payments** is `payAll`; nothing but the gathered states is read or changed. -/
theorem executeAll_run (vm : Vm) (s : State) : ∀ (txs : List SignedTransaction)
    (_ : ∀ tx ∈ txs, tx.isPayment = true) (states : States),
    executeAll vm txs states s = ⟨ofRes (payAll txs states), s, []⟩
  | [], _, states => rfl
  | tx :: txs, h, states => by
    have htx := applyTransaction_run vm (h tx List.mem_cons_self) states s
    unfold executeAll payAll
    cases hp : payTx tx states with
    | error e =>
      rw [hp] at htx
      exact Exec.bind_error htx
    | ok states₁ =>
      rw [hp] at htx
      rw [Exec.bind_ok_nil htx,
        executeAll_run vm s txs (fun tx' h' => h tx' (List.mem_cons_of_mem _ h')) states₁]
      rfl

end Run

/-- What a payment does to the account of `a`. -/
def payEffect (tx : SignedTransaction) (a : Address) (x : AccountState) : AccountState :=
  let x := if a = tx.sender then x.debit (tx.price + tx.fees) else x
  let x := if a = tx.recipient then x.credit tx.price else x
  if a = tx.sender then x.bumpNonce tx.nonce else x

/-- A payment that was executed: the sender had the funds, and each account changed as it says. -/
structure Paid (tx : SignedTransaction) (states states' : States) : Prop where
  funds : ∃ x, states.get? tx.sender = some x ∧ tx.price + tx.fees ≤ x.freeBalance
  recipient : ∃ y, states.get? tx.recipient = some y
  get : ∀ a, states'.get? a = (states.get? a).map (payEffect tx a)

theorem executePaymentTx_ok (h : executePaymentTx tx states = .ok states') :
    ∃ x y, states.get? tx.sender = some x ∧ tx.price + tx.fees ≤ x.freeBalance ∧
      (states.insert tx.sender (x.debit (tx.price + tx.fees))).get? tx.recipient = some y ∧
      states' = (states.insert tx.sender (x.debit (tx.price + tx.fees))).insert tx.recipient
        (y.credit tx.price) := by
  unfold executePaymentTx at h
  split at h
  · cases h
  · rename_i x hx
    simp only at h
    split at h
    · cases h
    · rename_i hfunds
      split at h
      · cases h
      · rename_i y hy
        cases h
        exact ⟨x, y, hx, UInt64.not_lt.1 hfunds, hy, rfl⟩

theorem updateNonce_ok (h : updateNonce tx states = .ok states') :
    ∃ x, states.get? tx.sender = some x ∧
      states' = states.insert tx.sender (x.bumpNonce tx.nonce) := by
  unfold updateNonce at h
  split at h
  · cases h
  · rename_i x hx
    cases h
    exact ⟨x, hx, rfl⟩

/-- **Inversion**: all that a successful payment does. -/
theorem payTx_ok (h : payTx tx states = .ok states') : Paid tx states states' := by
  unfold payTx at h
  cases hp : executePaymentTx tx states with
  | error e => simp [hp, bind, Except.bind] at h
  | ok states₁ =>
    simp only [hp, bind, Except.bind] at h
    obtain ⟨x, y, hx, hfunds, hy, rfl⟩ := executePaymentTx_ok hp
    obtain ⟨z, hz, rfl⟩ := updateNonce_ok h
    refine ⟨⟨x, hx, hfunds⟩, ?_, fun a => ?_⟩
    · rw [BTreeMap.get?_insert] at hy
      split at hy
      · rename_i he
        exact ⟨x, he ▸ hx⟩
      · exact ⟨y, hy⟩
    · -- which of the two roles the address has
      simp only [BTreeMap.get?_insert] at hy hz ⊢
      unfold payEffect
      by_cases hs : a = tx.sender <;> by_cases hr : a = tx.recipient
      · subst hs
        rw [if_pos hr.symm] at hy
        rw [if_pos hr] at hz
        cases hy
        cases hz
        simp [hx, ← hr]
      · subst hs
        rw [if_neg hr, if_pos trivial] at hz
        cases hz
        simp [hx, hr]
      · subst hr
        rw [if_neg hs] at hy
        simp [hy, hs]
      · simp [hs, hr]

/-- A property of every step that executing the transactions takes. -/
def Along (P : SignedTransaction → States → Prop) : List SignedTransaction → States → Prop
  | [], _ => True
  | tx :: txs, states => P tx states ∧ match payTx tx states with
    | .ok states' => Along P txs states'
    | .error _ => True

instance Along.decidable {P : SignedTransaction → States → Prop}
    [∀ tx states, Decidable (P tx states)] : ∀ txs states, Decidable (Along P txs states)
  | [], _ => isTrue trivial
  | tx :: txs, states =>
    have : Decidable (match payTx tx states with
        | .ok states' => Along P txs states'
        | .error _ => True) :=
      match payTx tx states with
      | .ok states' => Along.decidable txs states'
      | .error _ => isTrue trivial
    inferInstanceAs (Decidable (_ ∧ _))

theorem Along.tail {P : SignedTransaction → States → Prop} (h : Along P (tx :: txs) states)
    (hp : payTx tx states = .ok states') : Along P txs states' := by
  have := h.2
  rw [hp] at this
  exact this

theorem payAll_cons_ok (h : payAll (tx :: txs) states = .ok states') :
    ∃ states₁, payTx tx states = .ok states₁ ∧ payAll txs states₁ = .ok states' := by
  unfold payAll at h
  cases hp : payTx tx states with
  | error e => simp [hp, bind, Except.bind] at h
  | ok states₁ =>
    simp only [hp, bind, Except.bind] at h
    exact ⟨states₁, rfl, h⟩

theorem payAll_get : ∀ {txs : List SignedTransaction} {states states' : States},
    payAll txs states = .ok states' → ∀ a,
    states'.get? a = (states.get? a).map fun x => txs.foldl (fun x tx => payEffect tx a x) x
  | [], states, states', h, a => by
    cases h
    cases states.get? a <;> rfl
  | tx :: txs, states, states', h, a => by
    obtain ⟨states₁, h₁, h₂⟩ := payAll_cons_ok h
    rw [payAll_get h₂ a, (payTx_ok h₁).get a, Option.map_map]
    rfl

/-! ## What payments do to one account -/

/-- The amount and the credited balance of a payment stay below `2 ^ 64`. -/
structure Fits (tx : SignedTransaction) (states : States) : Prop where
  amount : tx.price.toNat + tx.fees.toNat < 2 ^ 64
  credit : ∀ y ∈ states.get? tx.recipient,
    (if tx.recipient = tx.sender then y.debit (tx.price + tx.fees) else y).freeBalance.toNat +
      tx.price.toNat < 2 ^ 64

/-- All additions that executing a payment makes stay below `2 ^ 64`. -/
structure NoOverflow (tx : SignedTransaction) (states : States) : Prop extends Fits tx states where
  nonce : ∀ x ∈ states.get? tx.sender, x.nonce.toNat + 1 < 2 ^ 64 ∧ tx.nonce.toNat + 1 < 2 ^ 64

instance (tx : SignedTransaction) (states : States) : Decidable (Fits tx states) :=
  decidable_of_iff (_ ∧ _) ⟨fun ⟨h₁, h₂⟩ => ⟨h₁, h₂⟩, fun h => ⟨h.amount, h.credit⟩⟩

instance (tx : SignedTransaction) (states : States) : Decidable (NoOverflow tx states) :=
  decidable_of_iff (Fits tx states ∧ _) ⟨fun ⟨h₁, h₂⟩ => ⟨h₁, h₂⟩, fun h => ⟨h.toFits, h.nonce⟩⟩

/-- Nonce and balance of an account, the nonce first. -/
def weight (x : AccountState) : ℕ ×ₗ ℕ := toLex (x.nonce.toNat, x.freeBalance.toNat)

/-- A payment that leaves the account of `c` as it is. -/
def Neutral (c : Address) (tx : SignedTransaction) : Prop :=
  tx.sender ≠ c ∧ (tx.recipient = c → tx.price = 0)

omit [Crypto] in
theorem toNat_add_of_lt {x y : UInt64} (h : x.toNat + y.toNat < 2 ^ 64) :
    (x + y).toNat = x.toNat + y.toNat := by
  rw [UInt64.toNat_add, Nat.mod_eq_of_lt h]

variable {x : AccountState}

omit [Crypto] in
theorem lt_bumpNonce {k : UInt64} (hx : x.nonce.toNat + 1 < 2 ^ 64) (hk : k.toNat + 1 < 2 ^ 64) :
    x.nonce.toNat < (x.bumpNonce k).nonce.toNat := by
  have hsucc {z : UInt64} (hz : z.toNat + 1 < 2 ^ 64) : (z + 1).toNat = z.toNat + 1 :=
    toNat_add_of_lt hz
  unfold AccountState.bumpNonce
  dsimp only
  split
  · rename_i hgt
    rw [hsucc hk]
    have := UInt64.lt_iff_toNat_lt.1 hgt
    omega
  · rw [hsucc hx]
    omega

variable {c : Address}

theorem payEffect_of_neutral (h : Neutral c tx) (x : AccountState) : payEffect tx c x = x := by
  unfold payEffect
  simp only [if_neg h.1.symm]
  split
  · rename_i hr
    simp [AccountState.credit, h.2 hr.symm]
  · rfl

/-- Every payment that is not neutral makes the account heavier: a sender's nonce grows, and what
only receives gets richer. -/
theorem weight_lt_payEffect (hno : NoOverflow tx states) (hx : states.get? c = some x)
    (h : ¬ Neutral c tx) : weight x < weight (payEffect tx c x) := by
  unfold payEffect weight
  rw [Prod.Lex.toLex_lt_toLex]
  by_cases hs : c = tx.sender
  · subst hs
    left
    simp only [if_true]
    obtain ⟨h1, h2⟩ := hno.nonce x hx
    split
    · exact lt_bumpNonce (x := (x.debit _).credit _) h1 h2
    · exact lt_bumpNonce (x := x.debit _) h1 h2
  · right
    have hr : c = tx.recipient ∧ tx.price ≠ 0 := by
      by_contra hn
      refine h ⟨fun he => hs he.symm, fun hr => ?_⟩
      by_contra hp
      exact hn ⟨hr.symm, hp⟩
    obtain ⟨rfl, hp⟩ := hr
    simp only [if_neg hs, if_true, AccountState.credit]
    refine ⟨trivial, ?_⟩
    have hfit := hno.credit x hx
    rw [if_neg hs] at hfit
    rw [toNat_add_of_lt hfit]
    have : tx.price.toNat ≠ 0 := fun h0 => hp (UInt64.toNat_inj.1 h0)
    omega

theorem weight_le_payEffect (hno : NoOverflow tx states) (hx : states.get? c = some x) :
    weight x ≤ weight (payEffect tx c x) := by
  by_cases h : Neutral c tx
  · rw [payEffect_of_neutral h]
  · exact (weight_lt_payEffect hno hx h).le

theorem weight_payAll {c : Address} : ∀ {txs : List SignedTransaction} {states states' : States}
    {x y : AccountState}, payAll txs states = .ok states' → Along NoOverflow txs states →
    states.get? c = some x → states'.get? c = some y →
    weight x ≤ weight y ∧ (¬ (∀ tx ∈ txs, Neutral c tx) → weight x < weight y)
  | [], states, states', x, y, h, _, hx, hy => by
    cases h
    rw [hx] at hy
    cases hy
    exact ⟨le_refl _, fun hn => absurd (fun tx htx => by cases htx) hn⟩
  | tx :: txs, states, states', x, y, h, hno, hx, hy => by
    obtain ⟨states₁, h₁, h₂⟩ := payAll_cons_ok h
    have hx₁ : states₁.get? c = some (payEffect tx c x) := by
      rw [(payTx_ok h₁).get c, hx]
      rfl
    obtain ⟨hle, hlt⟩ := weight_payAll h₂ (hno.tail h₁) hx₁ hy
    refine ⟨(weight_le_payEffect hno.1 hx).trans hle, fun hn => ?_⟩
    by_cases htx : Neutral c tx
    · rw [List.forall_mem_cons] at hn
      have := hlt fun hall => hn ⟨htx, hall⟩
      rwa [payEffect_of_neutral htx] at this
    · exact (weight_lt_payEffect hno.1 hx htx).trans_le hle

/-- **An account is unchanged by a list of payments exactly if all of them are neutral for it.** -/
theorem payAll_unchanged_iff {y : AccountState} (h : payAll txs states = .ok states')
    (hno : Along NoOverflow txs states) (hx : states.get? c = some x)
    (hy : states'.get? c = some y) :
    y = x ↔ ∀ tx ∈ txs, Neutral c tx := by
  constructor
  · intro he
    subst he
    by_contra hn
    exact absurd ((weight_payAll h hno hx hy).2 hn) (lt_irrefl _)
  · intro hall
    have hfold : ∀ (l : List SignedTransaction), (∀ tx ∈ l, Neutral c tx) →
        l.foldl (fun x tx => payEffect tx c x) x = x := by
      intro l
      induction l with
      | nil => exact fun _ => rfl
      | cons tx l ih =>
        intro hl
        obtain ⟨htx, hl⟩ := List.forall_mem_cons.1 hl
        rw [List.foldl_cons, payEffect_of_neutral htx, ih hl]
    have := payAll_get h c
    rw [hx, hy, Option.map_some, hfold txs hall] at this
    exact Option.some.inj this

theorem nonce_le_payAll {y : AccountState} (h : payAll txs states = .ok states')
    (hno : Along NoOverflow txs states) (hx : states.get? c = some x)
    (hy : states'.get? c = some y) :
    x.nonce.toNat ≤ y.nonce.toNat := by
  have hle := (weight_payAll h hno hx hy).1
  rcases Prod.Lex.toLex_le_toLex.1 hle with h | h
  · exact h.le
  · exact h.1.le

end State

end Uchain
