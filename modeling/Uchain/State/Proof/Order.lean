import Mathlib.Data.List.Pairwise
import Uchain.State.State
import Uchain.Types.Sample

/-!
# The order of execution

`executionOrder` lists the transactions by sender, and for each sender by nonce and price.

* `exists_mem_executionOrder`: each transaction of the list, or one of its sender with its nonce and
  price, is there.
-/

namespace Uchain

open Lib Exec BTreeMap

theorem NoncePricedTransaction.cmp_eq_compareLex : NoncePricedTransaction.cmp =
    compareLex (compareOn SignedTransaction.nonce)
      fun a b => compareOn SignedTransaction.price b a := by
  funext a b
  have hswap : (compare a.price b.price).swap = compare b.price a.price :=
    Std.OrientedCmp.eq_swap.symm
  unfold cmp compareLex compareOn
  rw [hswap]
  cases compare a.nonce b.nonce <;> rfl

instance : Std.TransCmp NoncePricedTransaction.cmp := by
  rw [NoncePricedTransaction.cmp_eq_compareLex]
  infer_instance

theorem NoncePricedTransaction.cmp_eq_iff {a b : SignedTransaction} :
    cmp a b = .eq ↔ a.nonce = b.nonce ∧ a.price = b.price := by
  rw [cmp_eq_compareLex]
  simp only [compareLex, compareOn, Ordering.then_eq_eq, Std.LawfulEqOrd.compare_eq_iff_eq]
  exact and_congr_right fun _ => eq_comm

theorem NoncePricedTransaction.nonce_le_of_lt {a b : SignedTransaction} (h : cmp a b = .lt) :
    a.nonce ≤ b.nonce := by
  unfold cmp at h
  split at h
  · rename_i hlt
    exact UInt64.le_of_lt (Std.compare_eq_lt.1 hlt)
  · rename_i heq
    rw [Std.LawfulEqOrd.eq_of_compare heq]
    exact UInt64.le_refl _
  · cases h

namespace State

section Order

variable [Crypto]

/-- The transactions of each sender are those of the list, in strict order. -/
structure Grouped (txs : List SignedTransaction) (accounts : Accounts) : Prop where
  mem : ∀ a l, accounts.get? a = some l → ∀ tx ∈ l, tx.sender = a ∧ tx ∈ txs
  sorted : ∀ a l, accounts.get? a = some l →
    l.Pairwise fun x y => NoncePricedTransaction.cmp x y = .lt
  repr : ∀ tx ∈ txs, ∃ l, accounts.get? tx.sender = some l ∧
    ∃ tx' ∈ l, NoncePricedTransaction.cmp tx tx' = .eq

theorem Grouped.empty : Grouped [] .empty :=
  ⟨nofun, nofun, nofun⟩

variable {txs : List SignedTransaction}

theorem Grouped.addTx {accounts : Accounts} (h : Grouped txs accounts) (tx : SignedTransaction) :
    Grouped (txs ++ [tx]) (State.addTx accounts tx) := by
  -- the transactions of the sender so far
  have hold : ∀ x ∈ (accounts.get? tx.sender).getD [], x.sender = tx.sender ∧ x ∈ txs := by
    cases hl : accounts.get? tx.sender with
    | none => simp
    | some l => exact h.mem _ l hl
  have hsorted : ((accounts.get? tx.sender).getD []).Pairwise
      fun x y => NoncePricedTransaction.cmp x y = .lt := by
    cases hl : accounts.get? tx.sender with
    | none => exact .nil
    | some l => exact h.sorted _ l hl
  unfold State.addTx
  refine ⟨fun a l hl x hx => ?_, fun a l hl => ?_, fun x hx => ?_⟩
  · rw [get?_insert] at hl
    split at hl
    · rename_i ha
      cases hl
      rcases mem_insertBy hx with rfl | hx
      · exact ⟨ha.symm, by simp⟩
      · obtain ⟨h1, h2⟩ := hold x hx
        exact ⟨h1.trans ha.symm, List.mem_append_left _ h2⟩
    · obtain ⟨h1, h2⟩ := h.mem a l hl x hx
      exact ⟨h1, List.mem_append_left _ h2⟩
  · rw [get?_insert] at hl
    split at hl
    · cases hl
      exact sorted_insertBy hsorted
    · exact h.sorted a l hl
  · simp only [get?_insert]
    rcases List.mem_append.1 hx with hx | hx
    · obtain ⟨l, hl, x', hx', hcmp⟩ := h.repr x hx
      by_cases ha : x.sender = tx.sender
      · rw [if_pos ha]
        rw [ha] at hl
        rw [hl]
        exact ⟨_, rfl, x', mem_insertBy_of_mem hx', hcmp⟩
      · rw [if_neg ha]
        exact ⟨l, hl, x', hx', hcmp⟩
    · obtain rfl := List.mem_singleton.1 hx
      rw [if_pos rfl]
      exact ⟨_, rfl, exists_mem_insertBy _ _⟩

theorem grouped_gatherTxs (txs : List SignedTransaction) : Grouped txs (gatherTxs txs) := by
  -- the induction is over the transactions read so far
  suffices h : ∀ (l : List SignedTransaction) {done : List SignedTransaction} {accounts : Accounts},
      Grouped done accounts → Grouped (done ++ l) (l.foldl addTx accounts) by
    simpa [gatherTxs] using h txs Grouped.empty
  intro l
  induction l with
  | nil =>
    intro done accounts h
    simpa using h
  | cons tx l ih =>
    intro done accounts h
    simpa using ih (h.addTx tx)

theorem mem_executionOrder {tx : SignedTransaction} (h : tx ∈ executionOrder txs) : tx ∈ txs := by
  obtain ⟨e, he, htx⟩ := List.mem_flatMap.1 h
  exact ((grouped_gatherTxs txs).mem e.1 e.2 (mem_entries_iff.1 he) tx htx).2

theorem exists_mem_executionOrder {tx : SignedTransaction} (h : tx ∈ txs) :
    ∃ tx' ∈ executionOrder txs, tx'.sender = tx.sender ∧
      tx'.nonce = tx.nonce ∧ tx'.price = tx.price := by
  obtain ⟨l, hl, tx', htx', hcmp⟩ := (grouped_gatherTxs txs).repr tx h
  obtain ⟨hn, hp⟩ := NoncePricedTransaction.cmp_eq_iff.1 hcmp
  exact ⟨tx', List.mem_flatMap.2 ⟨_, mem_entries_iff.2 hl, htx'⟩,
    ((grouped_gatherTxs txs).mem _ l hl tx' htx').1, hn.symm, hp.symm⟩

/-- **The executed transactions of one sender are strictly ordered.** -/
theorem executionOrder_pairwise (txs : List SignedTransaction) :
    (executionOrder txs).Pairwise fun x y =>
      x.sender = y.sender → NoncePricedTransaction.cmp x y = .lt := by
  have hg := grouped_gatherTxs txs
  refine List.pairwise_flatMap.2 ⟨fun e he => ?_, ?_⟩
  · have hsorted := hg.sorted e.1 e.2 (mem_entries_iff.1 he)
    exact hsorted.imp fun {x y} h (_ : x.sender = y.sender) => h
  · refine (gatherTxs txs).sorted.imp_of_mem fun {e e'} he he' hlt x hx y hy hxy => ?_
    have h1 := (hg.mem e.1 e.2 (mem_entries_iff.1 he) x hx).1
    have h2 := (hg.mem e'.1 e'.2 (mem_entries_iff.1 he') y hy).1
    exact absurd (h1.symm.trans (hxy.trans h2)) hlt.ne

theorem executionOrder_distinct (txs : List SignedTransaction) :
    (executionOrder txs).Pairwise fun x y =>
      x.sender = y.sender → ¬ (x.nonce = y.nonce ∧ x.price = y.price) := by
  refine (executionOrder_pairwise txs).imp fun {x y} h hxy heq => ?_
  have hcmp := NoncePricedTransaction.cmp_eq_iff.2 heq
  rw [h hxy] at hcmp
  cases hcmp

theorem executionOrder_nodup (txs : List SignedTransaction) : (executionOrder txs).Nodup := by
  refine (executionOrder_distinct txs).imp fun {x y} h hxy => ?_
  subst hxy
  exact h rfl ⟨rfl, rfl⟩

variable [Codec AccountState]

/-- The transactions that `executeAll` executes: those before the first failure. -/
def executedFrom (vm : Vm) : List SignedTransaction → States → State → List SignedTransaction
  | [], _, _ => []
  | tx :: txs, states, s =>
    match applyTransaction vm states tx s with
    | ⟨.ok states', s', _⟩ => tx :: executedFrom vm txs states' s'
    | ⟨.error _, _, _⟩ => []

def executed (vm : Vm) (txs : List SignedTransaction) (s : State) : List SignedTransaction :=
  match gatherStates getAccountState txs .empty s with
  | ⟨.ok states, s', _⟩ => executedFrom vm (executionOrder txs) states s'
  | ⟨.error _, _, _⟩ => []

theorem executedFrom_of_ok {vm : Vm} : ∀ {txs : List SignedTransaction} {states states' : States}
    {s s' : State} {l : List Query}, executeAll vm txs states s = ⟨.ok states', s', l⟩ →
    executedFrom vm txs states s = txs
  | [], _, _, _, _, _, _ => rfl
  | tx :: txs, states, states', s, s', l, h => by
    unfold executeAll at h
    obtain ⟨states₁, s₁, l₁, l₂, h₁, h₂, rfl⟩ := bind_eq_ok h
    unfold executedFrom
    rw [h₁]
    exact congrArg (tx :: ·) (executedFrom_of_ok h₂)

theorem executed_of_ok {vm : Vm} {s s' : State} {l : List Query}
    (h : applyTxs vm txs s = ⟨.ok (), s', l⟩) : executed vm txs s = executionOrder txs := by
  unfold applyTxs at h
  obtain ⟨states, s₁, l₁, l₂, h₁, h₂, rfl⟩ := bind_eq_ok h
  obtain ⟨states', s₂, l₃, l₄, h₃, h₄, rfl⟩ := bind_eq_ok h₂
  unfold executed
  rw [h₁]
  exact executedFrom_of_ok h₃

end Order

section Example

open Sample

/-- A virtual machine that rejects every call. -/
def noVm : Vm :=
  ⟨fun _ _ _ _ => .error (.message ""), fun _ _ _ _ => .error (.message ""),
    fun _ _ => .error (.message ""), .zero⟩

end Example

end State

end Uchain
