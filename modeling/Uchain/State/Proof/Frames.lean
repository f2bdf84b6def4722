import Uchain.State.State

/-!
# What the methods of the state leave alone

A read changes nothing. Executing a transaction changes only the data of applications (`fixed` is the
rest), and writing the results only the staged version. This holds for every state and every virtual machine, whether a
method succeeds or not.
-/

namespace Uchain

open Lib Exec

variable [Crypto]

namespace TreeDB

omit [Crypto] in
theorem keeps_onTree {α : Type} (tree : SparseMerkleTree) (x : Smt α) : Keeps id (onTree tree x) :=
  keeps_mapErr _ (keeps_runOn tree x)

omit [Crypto] in
theorem keeps_dbGet (root : H256) : Keeps id (dbGet root) :=
  keeps_bind keeps_get fun _ => keeps_ofOption _ _

theorem keeps_getDescendLoop (key : Bytes) (n : Nat) :
    ∀ root, Keeps id (getDescendLoop key n root) := by
  induction n with
  | zero => exact fun _ => keeps_fail _
  | succ n ih =>
    intro root
    refine keeps_bind (keeps_dbGet root) fun tree => keeps_bind (keeps_onTree _ _) fun found => ?_
    exact keeps_ite (ih _) (keeps_ite (keeps_pure _) (keeps_pure _))

section Codecs

variable {K V : Type} [Codec K] [Codec V]

omit [Crypto] in
theorem keeps_decodeValue (value : Bytes) : Keeps id (decodeValue value : M (Option V)) := by
  refine keeps_ite (keeps_pure _) ?_
  split
  · exact keeps_fail _
  · exact keeps_pure _
  · exact keeps_bind (keeps_ofOption _ _) fun _ => keeps_pure _

theorem keeps_getFrom (first : SparseMerkleTree) (root : H256) (head : SparseMerkleTree)
    (key : Bytes) : Keeps id (getFrom first root head key : M (Option V)) := by
  refine keeps_bind (keeps_onTree _ _) fun found => keeps_ite ?_ (keeps_decodeValue _)
  refine keeps_bind keeps_get fun t => keeps_ite ?_ ?_
  · refine keeps_bind (keeps_bind keeps_get fun t => keeps_getDescendLoop _ _ _) fun value => ?_
    cases value with
    | none => exact keeps_pure _
    | some value => exact keeps_decodeValue value
  · exact keeps_bind (keeps_onTree _ _) fun found => keeps_decodeValue _

theorem keeps_treeGet (key : K) : Keeps id (get key : M (Option V)) :=
  keeps_bind keeps_get fun _ => keeps_getFrom _ _ _ _

theorem keeps_treeGetAtRoot (root : H256) (key : K) : Keeps id (getAtRoot root key : M (Option V)) :=
  keeps_bind (keeps_dbGet root) fun _ => keeps_getFrom _ _ _ _

theorem keeps_put (key : K) (value : V) : Keeps (fun d => d.head) (put key value) :=
  keeps_bind (keeps_mapErr _ (keeps_zoom _ fun _ _ => rfl)) fun _ => keeps_pure _

theorem keeps_applyNonCommit (order : HashOrder) (atRoot : H256) (batch : List (Op K V)) :
    Keeps (fun d => d.head) (applyNonCommit order atRoot batch) := by
  refine keeps_bind (keeps_dbGet atRoot).of_id fun tree => ?_
  refine keeps_bind (keeps_onTree _ _).of_id fun written => keeps_bind ?_ fun _ => keeps_pure _
  exact keeps_bind keeps_get fun t => keeps_ite (keeps_fail _) fun _ => rfl

end Codecs

end TreeDB

namespace State

variable {α β : Type} {γ : Type}

variable {f : State → γ}

omit [Crypto] in
theorem keeps_ofExcept (x : Except StateError α) : Keeps f (ofExcept x) := by
  cases x with
  | error e => exact keeps_fail _
  | ok a => exact keeps_pure a

omit [Crypto] in
theorem keeps_onTrie {x : TreeDB.M α} (hx : Keeps id x) : Keeps f (onTrie x) :=
  keeps_zoom_id (fun _ => rfl) hx

def fixed (s : State) : TreeDB × Bool := (s.trie, s.readOnly)

variable [Codec AccountState]

theorem keeps_getAccountState (a : Address) : Keeps f (getAccountState a) := by
  refine keeps_bind (keeps_attempt (keeps_onTrie (TreeDB.keeps_treeGet a))) fun found => ?_
  rcases found with e | _ | x
  · exact keeps_pure _
  · exact keeps_pure _
  · exact keeps_pure _

theorem keeps_getAccountStateAtRoot (root : H256) (a : Address) :
    Keeps f (getAccountStateAtRoot root a) := by
  refine keeps_bind (keeps_attempt (keeps_onTrie (TreeDB.keeps_treeGetAtRoot root a))) fun found => ?_
  rcases found with e | _ | x
  · exact keeps_pure _
  · exact keeps_pure _
  · exact keeps_pure _

omit [Crypto] [Codec AccountState] in
theorem keeps_registerNamespace (vm : Vm) (tx : SignedTransaction) (arg : CreateApplication)
    (states : States) : Keeps fixed (registerNamespace vm tx arg states) := by
  refine keeps_bind (keeps_ofExcept _) fun call => ?_
  refine keeps_bind keeps_get fun s => keeps_bind (keeps_ofExcept _) fun changelist => ?_
  exact keeps_bind (keeps_ofExcept _) fun states => keeps_bind (fun _ => rfl) fun _ => keeps_pure _

theorem keeps_execute (vm : Vm) (states : States) (tx : SignedTransaction) :
    Keeps fixed (execute vm states tx) := by
  unfold execute
  split
  · exact keeps_fail _
  · exact keeps_ofExcept _
  · refine keeps_bind keeps_get fun s => keeps_bind (keeps_ofExcept _) fun changelist => ?_
    exact keeps_bind (keeps_ofExcept _) fun states => keeps_bind (fun _ => rfl) fun _ => keeps_pure _
  · refine keeps_bind (keeps_attempt (keeps_onTrie (TreeDB.keeps_treeGet _))) fun found => ?_
    split
    · exact keeps_fail _
    · refine keeps_bind (keeps_registerNamespace _ _ _ _) fun states => ?_
      refine keeps_bind (fun _ => rfl) fun codeHash => keeps_bind keeps_get fun s => ?_
      refine keeps_bind (keeps_ofExcept _) fun created => ?_
      dsimp only
      split
      · exact keeps_fail _
      · refine keeps_bind (fun _ => rfl) fun _ => keeps_bind (fun _ => rfl) fun _ => ?_
        exact keeps_pure _
  · exact keeps_fail _
  · exact keeps_pure _

theorem keeps_executeAll (vm : Vm) (txs : List SignedTransaction) :
    ∀ states, Keeps fixed (executeAll vm txs states) := by
  induction txs with
  | nil => exact fun _ => keeps_pure _
  | cons tx txs ih =>
    intro states
    refine keeps_bind ?_ ih
    exact keeps_bind (keeps_execute vm states tx) fun states => keeps_ofExcept _

omit [Codec AccountState] in
theorem keeps_gatherStates {read : Address → M AccountState} (h : ∀ a, Keeps f (read a))
    (txs : List SignedTransaction) :
    ∀ states, Keeps f (gatherStates read txs states) := by
  have hfill (a : Address) (states : States) : Keeps f (fillVacant read a states) := by
    unfold fillVacant
    split
    · exact keeps_pure _
    · exact keeps_bind (h a) fun _ => keeps_pure _
  induction txs with
  | nil => exact fun _ => keeps_pure _
  | cons tx txs ih =>
    intro states
    exact keeps_bind (hfill _ _) fun states => keeps_bind (hfill _ _) fun states => ih states

omit [Crypto] [Codec AccountState] in
theorem keeps_head {x : M α} (h : Keeps fixed x) : Keeps (fun s => s.trie.head) x :=
  fun s => congrArg (fun p : TreeDB × Bool => p.1.head) (h s)

omit [Crypto] [Codec AccountState] in
theorem keeps_head_onTrie {x : TreeDB.M α} (h : Keeps (fun d => d.head) x) :
    Keeps (fun s => s.trie.head) (onTrie x) := fun s => h s.trie

theorem keeps_putAll (l : List (Address × AccountState)) :
    Keeps (fun s => s.trie.head) (putAll l) := by
  refine keeps_forEach ?_ l
  intro e s
  exact TreeDB.keeps_put e.1 e.2 s.trie

theorem keeps_applyTxs (vm : Vm) (txs : List SignedTransaction) :
    Keeps (fun s => s.trie.head) (applyTxs vm txs) := by
  refine keeps_bind (keeps_gatherStates keeps_getAccountState _ _) fun states => ?_
  refine keeps_bind (keeps_head (keeps_executeAll vm _ _)) fun states => ?_
  exact keeps_putAll _

theorem keeps_creditBalance (a : Address) (amount : UInt64) :
    Keeps (fun s => s.trie.head) (creditBalance a amount) := by
  refine keeps_bind (keeps_getAccountState a) fun x => ?_
  refine keeps_bind (keeps_head_onTrie (TreeDB.keeps_put _ _)) fun _ => ?_
  exact keeps_bind keeps_get fun _ => keeps_pure _

theorem keeps_applyTxsNoCommit (order : HashOrder) (vm : Vm) (atRoot : H256) (reward : UInt64)
    (coinbase : Address) (txs : List SignedTransaction) :
    Keeps (fun s => s.trie.head) (applyTxsNoCommit order vm atRoot reward coinbase txs) := by
  refine keeps_bind (keeps_gatherStates (keeps_getAccountStateAtRoot atRoot) _ _) fun states => ?_
  refine keeps_bind (keeps_head (keeps_executeAll vm _ _)) fun states => ?_
  refine keeps_bind (keeps_attempt (keeps_onTrie (TreeDB.keeps_treeGetAtRoot _ _))) fun found => ?_
  exact keeps_head_onTrie (TreeDB.keeps_applyNonCommit _ _ _)

end State

end Uchain
