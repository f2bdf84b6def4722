import Uchain.TxPool.Sample

/-!
# What a reorganisation submits again

`reset` walks the branches of the old and of the new head down to their common ancestor, collects the
transactions of each branch in a set that compares nonces, and submits the intersection of the sets.
-/

namespace Uchain

open Lib Exec

/-! ## Sets that compare nonces -/

theorem NonceTransaction.cmp_eq (a b : SignedTransaction) :
    NonceTransaction.cmp a b = compareOn SignedTransaction.nonce b a :=
  Std.OrientedCmp.eq_swap.symm

instance NonceTransaction.transCmp : Std.TransCmp NonceTransaction.cmp := by
  have h : NonceTransaction.cmp = fun a b => compareOn SignedTransaction.nonce b a :=
    funext fun a => funext fun b => NonceTransaction.cmp_eq a b
  rw [h]
  infer_instance

theorem NonceTransaction.cmp_eq_iff {a b : SignedTransaction} :
    NonceTransaction.cmp a b = .eq ↔ b.nonce = a.nonce := by
  rw [NonceTransaction.cmp_eq]
  simp only [compareOn, Std.LawfulEqOrd.compare_eq_iff_eq]

namespace TxPool

def branchTxs (blocks : List Block) : List SignedTransaction := blocks.flatMap Block.transactions

/-- The set of a branch. -/
def collected (blocks : List Block) : List SignedTransaction := blocks.foldl collect []

theorem foldl_collect (blocks : List Block) (set : List SignedTransaction) :
    blocks.foldl collect set =
      (branchTxs blocks).foldl (fun set tx => insertBy NonceTransaction.cmp tx set) set := by
  induction blocks generalizing set with
  | nil => rfl
  | cons b blocks ih =>
    have hcons : branchTxs (b :: blocks) = b.transactions ++ branchTxs blocks := List.flatMap_cons
    rw [List.foldl_cons, ih, hcons, List.foldl_append]
    rfl

/-- The first transaction of a branch with its nonce. -/
def FirstOfNonce (txs : List SignedTransaction) (tx : SignedTransaction) : Prop :=
  txs.find? (fun t => t.nonce = tx.nonce) = some tx

instance FirstOfNonce.decidable (txs : List SignedTransaction) (tx : SignedTransaction) :
    Decidable (FirstOfNonce txs tx) := inferInstanceAs (Decidable (_ = _))

variable {tx : SignedTransaction}

theorem mem_collected_iff {blocks : List Block} :
    tx ∈ collected blocks ↔ FirstOfNonce (branchTxs blocks) tx := by
  rw [collected, foldl_collect, mem_foldl_insertBy_iff .nil, FirstOfNonce]
  simp only [NonceTransaction.cmp_eq_iff]
  simp

theorem FirstOfNonce.mem {txs : List SignedTransaction} (h : FirstOfNonce txs tx) :
    tx ∈ txs := List.mem_of_find?_eq_some h

theorem exists_collected_iff {blocks : List Block} {n : UInt64} :
    (∃ t ∈ collected blocks, t.nonce = n) ↔ ∃ t ∈ branchTxs blocks, t.nonce = n := by
  constructor
  · intro h
    obtain ⟨t, ht, hn⟩ := h
    exact ⟨t, (mem_collected_iff.1 ht).mem, hn⟩
  · intro h
    obtain ⟨t, ht, hn⟩ := h
    obtain ⟨t', ht'⟩ := Option.isSome_iff_exists.1
      (List.find?_isSome.2 ⟨t, ht, decide_eq_true hn⟩ :
        ((branchTxs blocks).find? fun t => decide (t.nonce = n)).isSome)
    have hn' : t'.nonce = n := by
      have := List.find?_some ht'
      simpa using this
    refine ⟨t', mem_collected_iff.2 ?_, hn'⟩
    rw [FirstOfNonce, hn']
    exact ht'

/-- **What is submitted again.** -/
theorem mem_intersection_iff {olds news : List Block} :
    tx ∈ intersection (collected olds) (collected news) ↔
      FirstOfNonce (branchTxs olds) tx ∧ ∃ t ∈ branchTxs news, t.nonce = tx.nonce := by
  rw [intersection, List.mem_filter, mem_collected_iff, List.any_eq_true, ← exists_collected_iff]
  simp only [decide_eq_true_eq, NonceTransaction.cmp_eq_iff]

/-! ## Branches -/

variable [Crypto]

/-- Blocks are stored under their own hash and level, and one above their parent. -/
structure BlockTree (env : Env) : Prop where
  filed : ∀ h l b, env.getBlock h l = .ok (some b) → b.hash = h ∧ b.level = l
  parent : ∀ b b', env.getBlock b.hash b.level = .ok (some b) →
    env.getBlock b'.hash b'.level = .ok (some b') → b.parentHash = b'.hash →
    b.level.toNat = b'.level.toNat + 1

/-- The blocks from `b` down to its ancestor, which is not one of them; all are stored. -/
inductive Descends (env : Env) : Block → List Block → Block → Prop where
  | here {b : Block} : env.getBlock b.hash b.level = .ok (some b) → Descends env b [] b
  | up {b b' anc : Block} {blocks : List Block} : env.getBlock b.hash b.level = .ok (some b) →
      env.getBlock b.parentHash (b.level - 1) = .ok (some b') → Descends env b' blocks anc →
      Descends env b (b :: blocks) anc

variable {env : Env} {rem add anc b : Block} {olds news blocks : List Block} {p : TxPool}

theorem Descends.stored (h : Descends env b blocks anc) :
    env.getBlock b.hash b.level = .ok (some b) := by
  cases h with
  | here hb => exact hb
  | up hb _ _ => exact hb

theorem Descends.level (ht : BlockTree env) (h : Descends env b blocks anc) :
    b.level.toNat = anc.level.toNat + blocks.length := by
  induction h with
  | here => rfl
  | up hb hparent hrest ih =>
    have hup := ht.parent _ _ hb hrest.stored (ht.filed _ _ _ hparent).1.symm
    rw [List.length_cons]
    omega

/-- Two branches that have no block in common above their ancestor. -/
structure Fork (env : Env) (rem add : Block) (olds news : List Block) (anc : Block) : Prop where
  tree : BlockTree env
  old : Descends env rem olds anc
  new : Descends env add news anc
  apart : ∀ b ∈ olds, b ∉ news

omit [Crypto] in
theorem getBlock_run {hash : H256} {level : UInt32}
    (h : env.getBlock hash level = .ok (some b)) : getBlock env hash level p = ⟨.ok (some b), p, []⟩ := by
  unfold getBlock
  rw [h]
  rfl

/-! ## The loops -/

/-- **The first two loops** walk a branch down to the level of a block of the other one. -/
theorem lowerRem_run (ht : BlockTree env) (h : Descends env rem olds anc) (add : Block)
    (hlevel : anc.level.toNat ≤ add.level.toNat) {fuel : Nat} (hfuel : olds.length < fuel)
    (set : List SignedTransaction) :
    ∃ rem' front rest, olds = front ++ rest ∧ Descends env rem' rest anc ∧
      rem'.level.toNat = min rem.level.toNat add.level.toNat ∧
      lowerRem env add fuel rem set p = ⟨.ok (some (rem', front.foldl collect set)), p, []⟩ := by
  induction h generalizing fuel set with
  | @here b hb =>
    obtain ⟨fuel, rfl⟩ := Nat.exists_eq_add_one_of_ne_zero (Nat.ne_zero_of_lt hfuel)
    have hstop : ¬ b.level > add.level := by
      rw [gt_iff_lt, UInt32.lt_iff_toNat_lt]
      omega
    refine ⟨b, [], [], rfl, .here hb, (min_eq_left hlevel).symm, ?_⟩
    rw [lowerRem, if_neg hstop]
    rfl
  | @up b b' anc blocks hb hparent hrest ih =>
    obtain ⟨fuel, rfl⟩ := Nat.exists_eq_add_one_of_ne_zero (Nat.ne_zero_of_lt hfuel)
    have hup := ht.parent _ _ hb hrest.stored (ht.filed _ _ _ hparent).1.symm
    by_cases hgt : b.level > add.level
    · obtain ⟨rem', front, rest, hsplit, hdesc, hmin, hrun⟩ := ih hlevel
        (Nat.lt_of_succ_lt_succ hfuel) (collect set b)
      refine ⟨rem', b :: front, rest, by rw [hsplit, List.cons_append], hdesc, ?_, ?_⟩
      · rw [gt_iff_lt, UInt32.lt_iff_toNat_lt] at hgt
        omega
      · rw [lowerRem, if_pos hgt, bind_ok_nil (getBlock_run hparent)]
        exact hrun
    · refine ⟨b, [], b :: blocks, rfl, .up hb hparent hrest, ?_, ?_⟩
      · rw [gt_iff_lt, UInt32.lt_iff_toNat_lt] at hgt
        omega
      · rw [lowerRem, if_neg hgt]
        rfl

/-- **The third loop** walks two branches of one length to their ancestor. -/
theorem meet_run (ht : BlockTree env) (holds : Descends env rem olds anc)
    (hnews : Descends env add news anc) (hlen : olds.length = news.length)
    (hapart : ∀ b ∈ olds, b ∉ news) {fuel : Nat} (hfuel : olds.length < fuel)
    (discarded included : List SignedTransaction) :
    meet env fuel rem add discarded included p =
      ⟨.ok (some (olds.foldl collect discarded, news.foldl collect included)), p, []⟩ := by
  induction holds generalizing add news fuel discarded included with
  | @here b hb =>
    obtain ⟨fuel, rfl⟩ := Nat.exists_eq_add_one_of_ne_zero (Nat.ne_zero_of_lt hfuel)
    cases hnews with
    | here _ =>
      rw [meet, if_neg (not_not.2 rfl)]
      rfl
    | up _ _ _ => cases hlen
  | @up b b' anc blocks hb hparent hrest ih =>
    obtain ⟨fuel, rfl⟩ := Nat.exists_eq_add_one_of_ne_zero (Nat.ne_zero_of_lt hfuel)
    cases hnews with
    | here _ => cases hlen
    | @up _ c' _ blocks' hc hparent' hrest' =>
      have hlen' : blocks.length = blocks'.length := Nat.succ.inj hlen
      have hlevel : b.level = add.level := by
        apply UInt32.toNat_inj.1
        rw [(Descends.up hb hparent hrest).level ht, (Descends.up hc hparent' hrest').level ht, hlen]
      have hne : b.hash ≠ add.hash := by
        intro he
        rw [he, hlevel, hc] at hb
        cases hb
        exact hapart _ List.mem_cons_self List.mem_cons_self
      have hrun := ih hrest' hlen'
        (fun x hx hx' => hapart x (List.mem_cons_of_mem _ hx) (List.mem_cons_of_mem _ hx'))
        (Nat.lt_of_succ_lt_succ hfuel) (collect discarded b) (collect included add)
      rw [meet, if_pos hne, bind_ok_nil (getBlock_run hparent)]
      dsimp only
      rw [bind_ok_nil (getBlock_run hparent')]
      exact hrun

/-- **The three loops.** -/
theorem branches_run (hf : Fork env rem add olds news anc)
    (hfuel : olds.length + news.length < env.fuel) :
    branches env rem add p =
      ⟨.ok (some (intersection (collected olds) (collected news))), p, []⟩ := by
  have hold := hf.old.level hf.tree
  have hnew := hf.new.level hf.tree
  obtain ⟨rem', front, rest, hsplit, hdesc, hmin, hrun⟩ :=
    lowerRem_run (p := p) hf.tree hf.old add (by omega) (show olds.length < env.fuel by omega) []
  obtain ⟨add', front', rest', hsplit', hdesc', hmin', hrun'⟩ :=
    lowerRem_run (p := p) hf.tree hf.new rem' (by omega) (show news.length < env.fuel by omega) []
  have hrest := hdesc.level hf.tree
  have hrest' := hdesc'.level hf.tree
  have hapart : ∀ b ∈ rest, b ∉ rest' := by
    intro b hb hb'
    refine hf.apart b ?_ ?_
    · rw [hsplit]
      exact List.mem_append_right _ hb
    · rw [hsplit']
      exact List.mem_append_right _ hb'
  have hlength : rest.length ≤ olds.length := by
    rw [hsplit, List.length_append]
    omega
  have hmeet := meet_run (p := p) hf.tree hdesc hdesc' (by omega) hapart (show rest.length < env.fuel by omega)
    (front.foldl collect []) (front'.foldl collect [])
  rw [← List.foldl_append, ← List.foldl_append, ← hsplit, ← hsplit'] at hmeet
  unfold branches
  rw [bind_ok_nil hrun]
  dsimp only
  rw [bind_ok_nil hrun']
  dsimp only
  rw [bind_ok_nil hmeet]
  rfl

/-! ## The whole of `reset` -/

theorem Descends.mem_of_ne_nil (h : Descends env b blocks anc) (hne : blocks ≠ []) : b ∈ blocks := by
  cases h with
  | here _ => exact absurd rfl hne
  | up _ _ _ => exact List.mem_cons_self

/-- Where the new head is a child of the old one, the old branch is empty. -/
theorem Fork.olds_eq_nil (hf : Fork env rem add olds news anc) (h : rem.hash = add.parentHash) :
    olds = [] := by
  by_contra hne
  have hpos : 0 < olds.length := List.length_pos_of_ne_nil hne
  have hold := hf.old.level hf.tree
  have hnew := hf.new.level hf.tree
  have hup := hf.tree.parent add rem hf.new.stored hf.old.stored h.symm
  cases hf.new with
  | here _ => omega
  | @up _ c _ rest hb hparent hrest =>
    have hlevel : add.level - 1 = rem.level := by
      apply UInt32.toNat_inj.1
      have hle : (1 : UInt32) ≤ add.level := by
        rw [UInt32.le_iff_toNat_le]
        exact hup ▸ Nat.le_add_left 1 _
      rw [UInt32.toNat_sub_of_le _ _ hle, hup]
      rfl
    rw [← h, hlevel, hf.old.stored] at hparent
    cases hparent
    have hrestne : rest ≠ [] := by
      intro hnil
      rw [hnil, List.length_singleton] at hnew
      omega
    exact hf.apart rem (hf.old.mem_of_ne_nil hne)
      (List.mem_cons_of_mem _ (hrest.mem_of_ne_nil hrestne))

omit [Crypto] in
theorem toInt32_eq (x : UInt32) : x.toInt32 = Int32.ofInt x.toNat := by
  apply Int32.toBitVec_inj.1
  show x.toBitVec = BitVec.ofInt 32 x.toNat
  rw [BitVec.ofInt_natCast]
  exact (BitVec.ofNat_toNat 32 x.toBitVec).symm.trans (by simp)

omit [Crypto] in
theorem depth_le {old new : UInt32} (h : old.toNat ≤ new.toNat + 64)
    (h' : new.toNat ≤ old.toNat + 64) : ¬ depth old new > 64 := by
  have hall : ∀ k : Fin 129, ¬ (Int32.ofInt ((k : Nat) - 64)).abs > 64 := by decide +kernel
  have hk := hall ⟨old.toNat + 64 - new.toNat, by omega⟩
  have hdiff : old.toInt32 - new.toInt32 =
      Int32.ofInt (((old.toNat + 64 - new.toNat : Nat) : Int) - 64) := by
    rw [toInt32_eq, toInt32_eq, ← Int32.ofInt_sub]
    congr 1
    omega
  unfold depth
  rw [hdiff]
  exact hk

theorem orphans_run (hf : Fork env rem add olds news anc)
    (hdepth : rem.level.toNat ≤ add.level.toNat + 64 ∧ add.level.toNat ≤ rem.level.toNat + 64)
    (hfuel : olds.length + news.length < env.fuel) :
    orphans env (some rem.header) add.header p =
      ⟨.ok (some (intersection (collected olds) (collected news))), p, []⟩ := by
  unfold orphans
  by_cases hchild : rem.hash = add.parentHash
  · rw [hf.olds_eq_nil hchild]
    exact congrFun (if_neg (not_not.2 hchild)) p
  · have hne : rem.header.hash ≠ add.header.parentHash := hchild
    have hnear : ¬ depth rem.header.level add.header.level > 64 := depth_le hdepth.1 hdepth.2
    have hold : getBlock env rem.header.hash rem.header.level p = ⟨.ok (some rem), p, []⟩ :=
      getBlock_run hf.old.stored
    have hnew : getBlock env add.header.hash add.header.level p = ⟨.ok (some add), p, []⟩ :=
      getBlock_run hf.new.stored
    dsimp only
    rw [if_pos hne, if_neg hnear, bind_ok_nil hold, bind_ok_nil hnew]
    exact branches_run hf hfuel

/-- The end of `reset`: the pool is at the new head, and the transactions are submitted. -/
def resubmit (env : Env) (state : Address → AccountState) (reinject : List SignedTransaction) :
    M Unit := do
  Exec.modify fun p => { p with currentState := state, live := false, pendingNonce := .new state }
  note (.reinject reinject)
  let _ ← addTxsLocked env false reinject 0 .empty []

/-- The transactions of the old branch that are not in the new one. -/
def Orphaned (olds news : List Block) (tx : SignedTransaction) : Prop :=
  tx ∈ branchTxs olds ∧ tx ∉ branchTxs news

instance Orphaned.decidable (olds news : List Block) (tx : SignedTransaction) :
    Decidable (Orphaned olds news tx) := inferInstanceAs (Decidable (_ ∧ _))

/-- **What `reset` submits again** are the orphaned transactions exactly if each transaction of the old
branch is missing in the new one if and only if it is the first of its nonce in the old branch and the
new branch has a transaction with its nonce. -/
theorem reset_reinjects_iff (hf : Fork env rem add olds news anc)
    (hdepth : rem.level.toNat ≤ add.level.toNat + 64 ∧ add.level.toNat ≤ rem.level.toNat + 64)
    (hfuel : olds.length + news.length < env.fuel) {state : Address → AccountState}
    (hstate : env.getStateAt add.header.stateRoot = .ok state) :
    reset env (some rem.header) add.header p =
        resubmit env state (intersection (collected olds) (collected news)) p ∧
      ((∀ tx, tx ∈ intersection (collected olds) (collected news) ↔ Orphaned olds news tx) ↔
        ∀ tx ∈ branchTxs olds, (tx ∉ branchTxs news ↔
          FirstOfNonce (branchTxs olds) tx ∧ ∃ t ∈ branchTxs news, t.nonce = tx.nonce)) := by
  have hget : getStateAt env add.header.stateRoot p = ⟨.ok state, p, []⟩ := by
    unfold getStateAt
    rw [hstate]
    rfl
  constructor
  · unfold reset
    rw [bind_ok_nil (orphans_run hf hdepth hfuel)]
    dsimp only
    rw [bind_ok_nil hget]
    rfl
  · simp only [mem_intersection_iff, Orphaned]
    constructor
    · intro h tx htx
      exact ⟨fun hnot => (h tx).2 ⟨htx, hnot⟩, fun hsub => ((h tx).1 hsub).2⟩
    · intro h tx
      constructor
      · intro hsub
        exact ⟨hsub.1.mem, (h tx hsub.1.mem).2 hsub⟩
      · intro horphan
        exact (h tx horphan.1).1 horphan.2

end TxPool

namespace Reinject

open TxPool
open scoped Sample

def header (parentHash : H256) (level time : UInt32) : BlockHeader :=
  ⟨parentHash, .zero, .zero, .zero, 0, .zero, 0, 0, level, time, 0⟩

def genesis : Block := ⟨header .zero 0 0, []⟩

def old (txs : List SignedTransaction) : Block := ⟨header genesis.hash 1 1, txs⟩

def new (txs : List SignedTransaction) : Block := ⟨header genesis.hash 1 2, txs⟩

def env (txs txs' : List SignedTransaction) : TxPool.Env := { Sample.env with
  getBlock := fun h l =>
    .ok ([genesis, old txs, new txs'].find? fun b => b.hash = h && b.level = l)
  getStateAt := fun _ => .ok Sample.rich
  fuel := 3 }

theorem blockTree (txs txs' : List SignedTransaction) : BlockTree (env txs txs') where
  filed h l b hb := by
    have := List.find?_some (Except.ok.inj hb)
    simpa using this
  parent b b' hb hb' h := by
    have hall : ∀ x ∈ [genesis.header, header genesis.hash 1 1, header genesis.hash 1 2],
        ∀ y ∈ [genesis.header, header genesis.hash 1 1, header genesis.hash 1 2],
        x.parentHash = y.hash → x.level.toNat = y.level.toNat + 1 := by decide +kernel
    have hmem := List.mem_map_of_mem (f := Block.header)
      (List.mem_of_find?_eq_some (Except.ok.inj hb))
    have hmem' := List.mem_map_of_mem (f := Block.header)
      (List.mem_of_find?_eq_some (Except.ok.inj hb'))
    exact hall b.header hmem b'.header hmem' h

/-- Two payments with one nonce, by different senders. -/
def olds : List Block := [old [Sample.pay 1 9 1 5 1]]

def news : List Block := [new [Sample.pay 2 9 1 5 1]]

theorem reset_reinjects_iff_rival :
    reset (env [Sample.pay 1 9 1 5 1] [Sample.pay 2 9 1 5 1])
        (some (old [Sample.pay 1 9 1 5 1]).header) (new [Sample.pay 2 9 1 5 1]).header
        (Sample.pool 4) =
      resubmit (env [Sample.pay 1 9 1 5 1] [Sample.pay 2 9 1 5 1]) Sample.rich
        (intersection (collected olds) (collected news)) (Sample.pool 4) ∧
    ∀ tx, tx ∈ intersection (collected olds) (collected news) ↔ Orphaned olds news tx := by
  have hgenesis : (env [Sample.pay 1 9 1 5 1] [Sample.pay 2 9 1 5 1]).getBlock genesis.hash 0 =
      .ok (some genesis) := by decide +kernel
  have hf : Fork (env [Sample.pay 1 9 1 5 1] [Sample.pay 2 9 1 5 1]) (old [Sample.pay 1 9 1 5 1])
      (new [Sample.pay 2 9 1 5 1]) olds news genesis :=
    { tree := blockTree _ _
      old := .up (by decide +kernel) hgenesis (.here hgenesis)
      new := .up (by decide +kernel) hgenesis (.here hgenesis)
      apart := by decide +kernel }
  obtain ⟨hreset, hiff⟩ := reset_reinjects_iff (p := Sample.pool 4) hf (by decide +kernel)
    (by decide +kernel) rfl
  exact ⟨hreset, hiff.2 (by decide +kernel)⟩

/-- The transactions of an action of `reset`. -/
def submitted : Action → Option (List SignedTransaction)
  | .reinject txs => some txs
  | _ => none

/-- The old block has two payments and the new one the first of them: the first is submitted again, and
the second is lost. -/
theorem reset_reinjects_included :
    let paid := Sample.pay 1 9 1 5 1
    let orphan := Sample.pay 1 9 2 5 1
    Orphaned [old [paid, orphan]] [new [paid]] orphan ∧
      ¬ Orphaned [old [paid, orphan]] [new [paid]] paid ∧
      (reset (env [paid, orphan] [paid]) (some (old [paid, orphan]).header) (new [paid]).header
        (Sample.pool 4)).log.filterMap (fun e => submitted e.1) = [[paid]] := by
  decide +kernel

end Reinject

end Uchain
