import Uchain.State.Proof.Batch
import Uchain.State.Proof.Order
import Uchain.State.Proof.Payments

/-!
# The account state as a snapshot

`Snapshot`: the trie that the staged version commits to, and the bytes seen at each path. It is all
that reading and writing accounts depends on: two states with the same snapshot, however their
versions are stored, behave alike.
-/

namespace Uchain

open Lib BTreeMap
open Exec hiding bind pure

/-- What a state shows of its accounts. -/
structure Snapshot where
  trie : Trie
  view : H256 → Except (Fail StateError) (Option Bytes)

/-- The account for what a read found; an address without one has the account `new`. -/
def accountOf : Except (Fail StateError) (Option AccountState) →
    Except (Fail StateError) AccountState
  | .ok (some x) => .ok x
  | .ok none => .ok .new
  | .error (.err _) => .ok .new
  | .error .panic => .error .panic
  | .error .diverge => .error .diverge

variable [Crypto] [Codec AccountState]

def AccountState.stored (x : AccountState) : Bytes := (IValue.value (Codec.encode x)).encode

omit [Crypto] in
theorem AccountState.stored_injective : Function.Injective AccountState.stored := fun x y h =>
  Codec.encode_injective
    (IValue.encode_value_injective (Codec.length_encode x) (Codec.length_encode y) h)

omit [Crypto] in
theorem AccountState.decoded_stored (x : AccountState) :
    TreeDB.decoded (.ok (some x.stored)) = .ok (some x) :=
  TreeDB.decoded_value (IValue.decode_encode_value (Codec.length_encode x)) (Codec.decode_encode x)

namespace Snapshot

open TreeDB

def found (n : Snapshot) (a : Address) : Except (Fail StateError) (Option AccountState) :=
  decoded (n.view (place a))

def account (n : Snapshot) (a : Address) : Except (Fail StateError) AccountState :=
  accountOf (n.found a)

/-- Write an account. A value that the trie has already is not written again. -/
def put (n : Snapshot) (a : Address) (x : AccountState) : Snapshot where
  trie := n.trie.insert (place a) (Crypto.keccak256 x.stored)
  view p :=
    if n.trie.get (place a) ≠ some (Crypto.keccak256 x.stored) ∧ p = place a then
      .ok (some x.stored)
    else n.view p

def putAll (n : Snapshot) (l : List (Address × AccountState)) : Snapshot :=
  l.foldl (fun n e => n.put e.1 e.2) n

def results (n : Snapshot) (txs : List SignedTransaction) : Except (Fail StateError) States := do
  let states ← State.gather n.account txs .empty
  State.ofRes (State.payAll (State.executionOrder txs) states)

variable {states : States}

theorem results_ok {n : Snapshot} {txs : List SignedTransaction} (h : n.results txs = .ok states) :
    ∃ states₀, State.gather n.account txs .empty = .ok states₀ ∧
      State.payAll (State.executionOrder txs) states₀ = .ok states := by
  unfold results at h
  cases hgather : State.gather n.account txs .empty with
  | error e => simp [hgather, bind, Except.bind] at h
  | ok states₀ =>
    simp only [hgather, bind, Except.bind] at h
    refine ⟨states₀, rfl, ?_⟩
    cases hpay : State.payAll (State.executionOrder txs) states₀ with
    | error e => simp [hpay, State.ofRes] at h
    | ok states' =>
      rw [hpay] at h
      cases h
      rfl

/-! ## Reads after writes -/

/-- What is seen is what the trie commits to. -/
structure Sound (S : Set Query) (n : Snapshot) : Prop where
  isTrie : IsTrie S n.trie
  view : ∀ p b, n.view p = .ok (some b) →
    .keccak256 b ∈ S ∧ n.trie.get p = some (Crypto.keccak256 b)

variable {S : Set Query} {n : Snapshot} {a : Address} {x : AccountState}

theorem put_view_of_ne {p : H256} (h : p ≠ place a) : (n.put a x).view p = n.view p :=
  if_neg fun hc => h hc.2

theorem putAll_view_of_ne {p : H256} : ∀ {l : List (Address × AccountState)} {n : Snapshot},
    (∀ e ∈ l, p ≠ place e.1) → (n.putAll l).view p = n.view p
  | [], _, _ => rfl
  | e :: l, n, h => by
    obtain ⟨he, hl⟩ := List.forall_mem_cons.1 h
    exact (putAll_view_of_ne (n := n.put e.1 e.2) hl).trans (put_view_of_ne he)

theorem put_trie_get (h : Radix.Wf bit 256 0 n.trie) (p : H256) :
    (n.put a x).trie.get p = if p = place a then some (Crypto.keccak256 x.stored) else n.trie.get p :=
  h.get_insert sep_bit p

theorem wf_put (h : Radix.Wf bit 256 0 n.trie) : Radix.Wf bit 256 0 (n.put a x).trie :=
  h.wf_insert sep_bit (Nat.zero_le 256) (Radix.under_zero _ _)

theorem putAll_trie_get_of_ne {p : H256} : ∀ {l : List (Address × AccountState)} {n : Snapshot},
    Radix.Wf bit 256 0 n.trie → (∀ e ∈ l, p ≠ place e.1) → (n.putAll l).trie.get p = n.trie.get p
  | [], _, _, _ => rfl
  | e :: l, n, hwf, h => by
    obtain ⟨he, hl⟩ := List.forall_mem_cons.1 h
    refine (putAll_trie_get_of_ne (n := n.put e.1 e.2) (wf_put hwf) hl).trans ?_
    rw [put_trie_get hwf, if_neg he]

theorem putAll_trie_get : ∀ {l : List (Address × AccountState)} {n : Snapshot},
    Radix.Wf bit 256 0 n.trie → (l.Pairwise fun e e' => place e.1 ≠ place e'.1) → (a, x) ∈ l →
    (n.putAll l).trie.get (place a) = some (Crypto.keccak256 x.stored)
  | e :: l, n, hwf, hl, hmem => by
    obtain ⟨he, hl⟩ := List.pairwise_cons.1 hl
    rcases List.mem_cons.1 hmem with rfl | hmem
    · refine (putAll_trie_get_of_ne (n := n.put a x) (wf_put hwf) he).trans ?_
      rw [put_trie_get hwf, if_pos rfl]
    · exact putAll_trie_get (n := n.put e.1 e.2) (wf_put hwf) hl hmem

theorem putAll_view : ∀ {l : List (Address × AccountState)} {n : Snapshot},
    Radix.Wf bit 256 0 n.trie → (l.Pairwise fun e e' => place e.1 ≠ place e'.1) → (a, x) ∈ l →
    (n.putAll l).view (place a) = (n.put a x).view (place a)
  | e :: l, n, hwf, hl, hmem => by
    obtain ⟨he, hl⟩ := List.pairwise_cons.1 hl
    rcases List.mem_cons.1 hmem with rfl | hmem
    · exact putAll_view_of_ne (n := n.put a x) he
    · have hne : place a ≠ place e.1 := (he _ hmem).symm
      have hget : (n.put e.1 e.2).trie.get (place a) = n.trie.get (place a) := by
        rw [put_trie_get hwf, if_neg hne]
      refine (putAll_view (n := n.put e.1 e.2) (wf_put hwf) hl hmem).trans ?_
      show (if (n.put e.1 e.2).trie.get (place a) ≠ _ ∧ _ then _ else (n.put e.1 e.2).view _) = _
      rw [hget, put_view_of_ne hne]
      rfl

theorem putAll_trie : ∀ (l : List (Address × AccountState)) (n : Snapshot),
    (n.putAll l).trie = n.trie.insertAll (l.map fun e => (Codec.encode e.1, e.2.stored))
  | [], _ => rfl
  | e :: l, n => putAll_trie l (n.put e.1 e.2)

theorem wf_putAll {n : Snapshot} (h : Radix.Wf bit 256 0 n.trie)
    (l : List (Address × AccountState)) : Radix.Wf bit 256 0 (n.putAll l).trie := by
  rw [putAll_trie]
  exact (get_insertAll _ h).1

/-- The trie has the account `x` for `a`, and a read does not find it. -/
def Hidden (n : Snapshot) (a : Address) (x : AccountState) : Prop :=
  n.trie.get (place a) = some (Crypto.keccak256 x.stored) ∧ ∀ y, n.found a ≠ .ok (some y)

/-- Writing what is there but hidden has no effect. -/
theorem found_put_of_hidden (h : n.Hidden a x) : (n.put a x).found a = n.found a := by
  have hview : (n.put a x).view (place a) = n.view (place a) := if_neg fun hc => hc.1 h.1
  unfold found
  rw [hview]

/-- **A written account is found**, unless it was hidden. -/
theorem found_put (hg : KeccakGood S) (hs : Sound S n) (hx : .keccak256 x.stored ∈ S)
    (h : ¬ n.Hidden a x) : (n.put a x).found a = .ok (some x) := by
  unfold found
  by_cases hget : n.trie.get (place a) = some (Crypto.keccak256 x.stored)
  · have hview : (n.put a x).view (place a) = n.view (place a) := if_neg fun hc => hc.1 hget
    rw [hview]
    rcases hv : n.view (place a) with e | _ | b
    · exact absurd ⟨hget, fun y hy => by simp [found, hv, decoded] at hy⟩ h
    · exact absurd ⟨hget, fun y hy => by simp [found, hv, decoded] at hy⟩ h
    · -- what is seen has the hash that the trie has
      obtain ⟨hb, hbget⟩ := hs.view _ b hv
      rw [hget] at hbget
      have := hg.inj _ _ hx hb (Option.some.inj hbget)
      subst this
      exact x.decoded_stored
  · have hview : (n.put a x).view (place a) = .ok (some x.stored) := if_pos ⟨hget, rfl⟩
    rw [hview]
    exact x.decoded_stored

def HashedAll (S : Set Query) (l : List (Address × AccountState)) : Prop :=
  ∀ e ∈ l, .keccak256 (Codec.encode e.1) ∈ S ∧ .keccak256 e.2.stored ∈ S

omit [Codec AccountState] in
theorem place_inj (hg : KeccakGood S) {a b : Address} (ha : .keccak256 (Codec.encode a) ∈ S)
    (hb : .keccak256 (Codec.encode b) ∈ S) (h : place a = place b) : a = b :=
  Codec.encode_injective (hg.inj _ _ ha hb h)

theorem entries_places (hg : KeccakGood S) (hmem : HashedAll S states.entries) :
    states.entries.Pairwise fun e e' => place e.1 ≠ place e'.1 :=
  states.sorted.imp_of_mem fun {e e'} he he' hlt heq =>
    hlt.ne (place_inj hg (hmem e he).1 (hmem e' he').1 heq)

theorem found_putAll_of_none (hg : KeccakGood S) (hmem : HashedAll S states.entries)
    (ha : .keccak256 (Codec.encode a) ∈ S) (h : states.get? a = none) :
    (n.putAll states.entries).found a = n.found a := by
  unfold found
  rw [putAll_view_of_ne]
  intro e he heq
  have := place_inj hg ha (hmem e he).1 heq
  subst this
  rw [mem_entries_iff.1 he] at h
  cases h

theorem putAll_trie_get_of_some (hg : KeccakGood S) (hs : Sound S n)
    (hmem : HashedAll S states.entries) (h : states.get? a = some x) :
    (n.putAll states.entries).trie.get (place a) = some (Crypto.keccak256 x.stored) ∧
      .keccak256 x.stored ∈ S ∧ .keccak256 (Codec.encode a) ∈ S := by
  have he := mem_entries_iff.2 h
  exact ⟨putAll_trie_get hs.isTrie.wf (entries_places hg hmem) he, (hmem _ he).2, (hmem _ he).1⟩

theorem putAll_trie_get_of_none (hg : KeccakGood S) (hs : Sound S n)
    (hmem : HashedAll S states.entries) (ha : .keccak256 (Codec.encode a) ∈ S)
    (h : states.get? a = none) :
    (n.putAll states.entries).trie.get (place a) = n.trie.get (place a) := by
  refine putAll_trie_get_of_ne hs.isTrie.wf fun e he heq => ?_
  rw [place_inj hg ha (hmem e he).1 heq, mem_entries_iff.1 he] at h
  cases h

theorem found_putAll (hg : KeccakGood S) (hs : Sound S n) (hmem : HashedAll S states.entries)
    (h : states.get? a = some x) :
    (n.putAll states.entries).found a = (n.put a x).found a := by
  unfold found
  rw [putAll_view hs.isTrie.wf (entries_places hg hmem) (mem_entries_iff.2 h)]

theorem found_putAll_of_some (hg : KeccakGood S) (hs : Sound S n)
    (hmem : HashedAll S states.entries) (h : states.get? a = some x) (hh : ¬ n.Hidden a x) :
    (n.putAll states.entries).found a = .ok (some x) := by
  rw [found_putAll hg hs hmem h]
  exact found_put hg hs (hmem _ (mem_entries_iff.2 h)).2 hh

theorem found_putAll_of_hidden (hg : KeccakGood S) (hs : Sound S n)
    (hmem : HashedAll S states.entries) (h : states.get? a = some x) (hh : n.Hidden a x) :
    (n.putAll states.entries).found a = n.found a := by
  rw [found_putAll hg hs hmem h]
  exact found_put_of_hidden hh

end Snapshot

namespace State

open Snapshot (HashedAll)

variable {S : Set Query} {s s' : State} {n : Snapshot}

/-- The state shows the snapshot. -/
structure Shows (S : Set Query) (s : State) (n : Snapshot) : Prop where
  inv : ∃ rh, TreeDB.Inv S s.trie rh n.trie
  view : s.trie.view = n.view

/-- Only the staged version differs. -/
structure SameBase (s s' : State) : Prop where
  db : s'.trie.db = s.trie.db
  head : s'.trie.head = s.trie.head
  parent : s'.trie.staging.parent = s.trie.staging.parent
  readOnly : s'.readOnly = s.readOnly

omit [Codec AccountState] in
theorem Shows.sound (hg : KeccakGood S) (h : Shows S s n) : n.Sound S := by
  obtain ⟨rh, hinv⟩ := h.inv
  refine ⟨hinv.staging.rep.isTrie, fun p b hb => ?_⟩
  rw [← h.view] at hb
  exact (hinv.view_sound hg hb).2

omit [Codec AccountState] in
theorem Shows.unique (hg : KeccakGood S) {n' : Snapshot} (h : Shows S s n) (h' : Shows S s n') :
    n = n' := by
  obtain ⟨rh, hinv⟩ := h.inv
  obtain ⟨rh', hinv'⟩ := h'.inv
  have htrie : n.trie = n'.trie := hinv.staging.rep.root_inj hg hinv'.staging.rep rfl
  have hview : n.view = n'.view := h.view.symm.trans h'.view
  cases n
  cases n'
  cases htrie
  cases hview
  rfl

omit [Crypto] [Codec AccountState] in
theorem SameBase.refl (s : State) : SameBase s s := ⟨rfl, rfl, rfl, rfl⟩

omit [Crypto] [Codec AccountState] in
theorem SameBase.trans {s₁ s₂ s₃ : State} (h : SameBase s₁ s₂) (h' : SameBase s₂ s₃) :
    SameBase s₁ s₃ :=
  ⟨h'.db.trans h.db, h'.head.trans h.head, h'.parent.trans h.parent, h'.readOnly.trans h.readOnly⟩

variable {l : List Query}

omit [Crypto] [Codec AccountState] in
theorem onTrie_run {α : Type} {x : TreeDB.M α} {r : Except (Fail StateError) α}
    (h : x s.trie = ⟨r, s.trie, l⟩) : onTrie x s = ⟨r, s, l⟩ := by
  unfold onTrie zoom
  rw [h]

omit [Crypto] [Codec AccountState] in
theorem attempt_accountOf {x : M (Option AccountState)}
    {r : Except (Fail StateError) (Option AccountState)} (h : x s = ⟨r, s, l⟩) : ∃ l',
    (do match ← attempt x with
      | .ok (some accountState) => return accountState
      | _ => return .new : M AccountState) s = ⟨accountOf r, s, l'⟩ := by
  have hatt : attempt x s = ⟨caught r, s, l⟩ := by
    rw [attempt_run, h]
  obtain (e | _ | _) | _ | a := r
  · exact ⟨_, bind_ok hatt⟩
  · exact ⟨_, bind_error hatt⟩
  · exact ⟨_, bind_error hatt⟩
  · exact ⟨_, bind_ok hatt⟩
  · exact ⟨_, bind_ok hatt⟩

theorem get_run (h : Shows S s n) (a : Address) : ∃ l,
    onTrie (TreeDB.get a) s = ⟨n.found a, s, l⟩ := by
  obtain ⟨rh, hinv⟩ := h.inv
  obtain ⟨l, hl⟩ := TreeDB.get_run (V := AccountState) s.trie hinv.strategy a
  rw [h.view] at hl
  exact ⟨l, onTrie_run hl⟩

/-- **Reading an account** of the snapshot. -/
theorem getAccountState_run (h : Shows S s n) (a : Address) : ∃ l,
    getAccountState a s = ⟨n.account a, s, l⟩ := by
  obtain ⟨l, hl⟩ := get_run h a
  exact attempt_accountOf hl

/-- **Writing an account** of the snapshot. -/
theorem wp_putAccount (hg : KeccakGood S) (h : Shows S s n) (a : Address) (x : AccountState) :
    wp S (onTrie (TreeDB.put a x)) s fun res s' => res = .ok () ∧ Shows S s' (n.put a x) ∧
      SameBase s s' ∧ .keccak256 (Codec.encode a) ∈ S ∧ .keccak256 x.stored ∈ S := by
  obtain ⟨rh, hinv⟩ := h.inv
  refine wp_zoom (wp_mono (TreeDB.wp_put hg hinv a x) ?_)
  intro res d' hput
  obtain ⟨⟨⟩, rfl, hinv', hw⟩ := hput
  refine ⟨rfl, ⟨⟨rh, hinv'⟩, ?_⟩, ⟨hw.db, hw.head, hw.parent, rfl⟩, hw.key_mem, hw.value_mem⟩
  funext p
  rw [hw.view p, h.view]
  rfl

theorem wp_putAll (hg : KeccakGood S) : ∀ (l : List (Address × AccountState)) {s : State}
    {n : Snapshot}, Shows S s n → wp S (putAll l) s fun res s' => res = .ok () ∧
      Shows S s' (n.putAll l) ∧ SameBase s s' ∧ HashedAll S l
  | [], s, n, h => wp_forEach_nil ⟨rfl, h, SameBase.refl s, nofun⟩
  | e :: l, s, n, h => by
    refine wp_forEach_cons (wp_mono (wp_putAccount hg h e.1 e.2) ?_)
    intro res s₁ hput
    obtain ⟨rfl, h₁, hsame₁, hkey, hval⟩ := hput
    refine wp_mono (wp_putAll hg l h₁) ?_
    intro res s₂ hall
    obtain ⟨rfl, h₂, hsame₂, hmem⟩ := hall
    exact ⟨rfl, h₂, hsame₁.trans hsame₂, List.forall_mem_cons.2 ⟨⟨hkey, hval⟩, hmem⟩⟩

variable {txs : List SignedTransaction}

/-- What the two loops of both paths compute, given what their reads return. -/
theorem results_run {read : Address → M AccountState}
    (hread : ∀ a, ∃ l, read a s = ⟨n.account a, s, l⟩) (vm : Vm)
    (hpay : ∀ tx ∈ txs, tx.isPayment = true) : ∃ l,
    (do let states ← gatherStates read txs .empty
        executeAll vm (executionOrder txs) states : M States) s = ⟨n.results txs, s, l⟩ := by
  obtain ⟨l, hl⟩ := gatherStates_run hread txs .empty
  have hexec (states : States) := executeAll_run vm s (executionOrder txs)
    (fun tx htx => hpay tx (mem_executionOrder htx)) states
  unfold Snapshot.results
  cases hgather : gather n.account txs .empty with
  | error e =>
    rw [hgather] at hl
    exact ⟨_, bind_error hl⟩
  | ok states =>
    rw [hgather] at hl
    rw [bind_ok hl, hexec]
    exact ⟨_, rfl⟩

def AlongRes (P : SignedTransaction → States → Prop) (txs : List SignedTransaction) :
    Except (Fail StateError) States → Prop
  | .ok states => Along P (executionOrder txs) states
  | .error _ => True

/-- A property of every step that executing a block's payments takes from a state. -/
def AlongFrom (P : SignedTransaction → States → Prop) (txs : List SignedTransaction) (s : State) :
    Prop :=
  AlongRes P txs (gatherStates getAccountState txs .empty s).res

instance AlongRes.decidable {P : SignedTransaction → States → Prop}
    [∀ tx states, Decidable (P tx states)] (txs : List SignedTransaction) :
    ∀ r, Decidable (AlongRes P txs r)
  | .ok states => inferInstanceAs (Decidable (Along P (executionOrder txs) states))
  | .error _ => isTrue trivial

instance {P : SignedTransaction → States → Prop} [∀ tx states, Decidable (P tx states)]
    (txs : List SignedTransaction) (s : State) : Decidable (AlongFrom P txs s) :=
  inferInstanceAs (Decidable (AlongRes P txs _))

theorem alongFrom_iff (h : Shows S s n) {P : SignedTransaction → States → Prop} {states : States}
    (hgather : gather n.account txs .empty = .ok states) :
    AlongFrom P txs s ↔ Along P (executionOrder txs) states := by
  obtain ⟨l, hl⟩ := gatherStates_run (getAccountState_run h) txs .empty
  unfold AlongFrom
  rw [hl, hgather]
  exact Iff.rfl

/-- **`apply_txs` on payments** writes the results, or fails without an effect. -/
theorem wp_applyTxs (hg : KeccakGood S) (h : Shows S s n) (vm : Vm)
    (hpay : ∀ tx ∈ txs, tx.isPayment = true) :
    wp S (applyTxs vm txs) s fun res s' => match n.results txs with
      | .ok states => res = .ok () ∧ Shows S s' (n.putAll states.entries) ∧ SameBase s s' ∧
          HashedAll S states.entries
      | .error e => res = .error e ∧ s' = s := by
  obtain ⟨l, hl⟩ := results_run (getAccountState_run h) vm hpay
  unfold applyTxs
  rw [← bind_assoc]
  refine wp_bind_res hl ?_
  cases hres : n.results txs with
  | error e => exact ⟨rfl, rfl⟩
  | ok states => exact wp_putAll hg states.entries h

/-- The parts of a successful block of payments. -/
theorem applyTxs_ok (hg : KeccakGood S) (h : Shows S s n) {vm : Vm}
    (hpay : ∀ tx ∈ txs, tx.isPayment = true) (hok : applyTxs vm txs s = ⟨.ok (), s', l⟩)
    (hlog : ∀ q ∈ l, q ∈ S) :
    ∃ states₀ states, gather n.account txs .empty = .ok states₀ ∧
      payAll (executionOrder txs) states₀ = .ok states ∧ n.results txs = .ok states ∧
      Shows S s' (n.putAll states.entries) ∧ SameBase s s' ∧
      HashedAll S states.entries := by
  have hpost := wp_applyTxs hg h vm hpay (by rw [hok]; exact hlog)
  rw [hok] at hpost
  cases hres : n.results txs with
  | error e =>
    rw [hres] at hpost
    cases hpost.1
  | ok states =>
    rw [hres] at hpost
    obtain ⟨-, hshows, hsame, hmem⟩ := hpost
    obtain ⟨states₀, hgather, hpayAll⟩ := Snapshot.results_ok hres
    exact ⟨states₀, states, hgather, hpayAll, rfl, hshows, hsame, hmem⟩

theorem wp_adjust (hg : KeccakGood S) (h : Shows S s n) (a : Address)
    (f : AccountState → AccountState) :
    wp S (do
      let accountState ← getAccountState a
      onTrie (TreeDB.put a (f accountState))
      return (← Exec.get).root : M H256) s fun res s' => match n.account a with
      | .ok x => res = .ok s.root ∧ Shows S s' (n.put a (f x)) ∧ SameBase s s' ∧
          .keccak256 (Codec.encode a) ∈ S ∧ .keccak256 (f x).stored ∈ S
      | .error e => res = .error e ∧ s' = s := by
  obtain ⟨l, hl⟩ := getAccountState_run h a
  refine wp_bind_res hl ?_
  cases hacc : n.account a with
  | error e => exact ⟨rfl, rfl⟩
  | ok x =>
    refine wp_bind (wp_mono (wp_putAccount hg h a (f x)) ?_)
    intro res s' hput
    obtain ⟨rfl, hshows, hsame, hkey, hval⟩ := hput
    have hroot : s'.root = s.root := congrArg SparseMerkleTree.root hsame.head
    exact wp_bind (wp_get (wp_pure ⟨by rw [hroot], hshows, hsame, hkey, hval⟩))

/-- **`credit_balance`**. -/
theorem wp_creditBalance (hg : KeccakGood S) (h : Shows S s n) (a : Address) (amount : UInt64) :
    wp S (creditBalance a amount) s fun res s' => match n.account a with
      | .ok x => res = .ok s.root ∧ Shows S s' (n.put a (x.credit amount)) ∧ SameBase s s' ∧
          .keccak256 (Codec.encode a) ∈ S ∧ .keccak256 (x.credit amount).stored ∈ S
      | .error e => res = .error e ∧ s' = s :=
  wp_adjust hg h a fun x => x.credit amount

omit [Crypto] [Codec AccountState] in
theorem commit_run (s : State) :
    commit s = ⟨.ok (), { s with trie := s.trie.committed !s.readOnly }, []⟩ := by
  unfold commit
  rw [get_bind]
  refine bind_ok_nil (a := s.trie.staging.root) ?_
  unfold onTrie zoom
  rw [TreeDB.commit_run]

omit [Crypto] [Codec AccountState] in
theorem reset_run (root : H256) (s : State) :
    reset root s = match s.trie.db.trees.get? root with
      | none => ⟨.error (.err .versionNotFound), s, []⟩
      | some tree => ⟨.ok (), { s with trie := { s.trie with
          head := tree, staging := tree.subtree s.trie.strategy } }, []⟩ := by
  unfold reset onTrie zoom
  rw [TreeDB.reset_run]
  cases s.trie.db.trees.get? root <;> rfl

end State

end Uchain
