import Uchain.Blockchain.BlockStorage
import Uchain.Types.Proof.Wire
import Uchain.Types.Sample

/-!
# Stored blocks

The header of a block that was put cannot change, but its transactions do, with a later `put` of a
block with the same header.
-/

namespace Uchain

open Lib Exec BTreeMap

theorem get?_putAbsent {κ ν : Type} [LinearOrder κ] (m : BTreeMap κ ν) (k k' : κ) (v : ν) :
    (putAbsent m k v).get? k' = if k' = k then some ((m.get? k).getD v) else m.get? k' := by
  unfold putAbsent
  cases hk : m.get? k with
  | none =>
    simp only [get?_insert]
    rfl
  | some x =>
    by_cases h : k' = k
    · rw [if_pos h, h, hk]
      rfl
    · rw [if_neg h]

namespace BlockStorage

section Crypto

variable [Crypto]

inductive Call where
  | put (block : Block)
  | delete (hash : H256) (level : UInt32)

def Call.run : Call → M Unit
  | put block => BlockStorage.put block
  | delete hash level => BlockStorage.delete hash level

def after (s : BlockStorage) (calls : List Call) : BlockStorage :=
  calls.foldl (fun s c => (c.run s).state) s

theorem put_run (block : Block) (s : BlockStorage) :
    put block s = ⟨.ok (), s.stored block, block.header.queries⟩ := by
  unfold put
  rw [bind_ok (show block.header.hashed s = ⟨.ok block.header.hash, s, _⟩ from rfl)]
  show Run.mk _ _ (block.header.queries ++ []) = _
  rw [List.append_nil]
  rfl

variable {h h' : BlockHeader}

theorem key_injective_level (he : key h = key h') : h.level = h'.level :=
  congrArg (fun k => (ofLex k).1) he

theorem key_injective_hash (he : key h = key h') : h.hash = h'.hash :=
  congrArg (fun k => (ofLex k).2) he

/-- Headers are filed under their own keys. -/
def Filed (s : BlockStorage) : Prop := ∀ k h, s.headers.get? k = some h → key h = k

variable {s : BlockStorage}

theorem Filed.stored (hs : Filed s) (block : Block) : Filed (s.stored block) := by
  intro k h hk
  have hk : (putAbsent s.headers (key block.header) block.header).get? k = some h := hk
  rw [get?_putAbsent] at hk
  split at hk
  · rename_i he
    cases hget : s.headers.get? (key block.header) with
    | none =>
      rw [hget] at hk
      cases hk
      exact he.symm
    | some h' =>
      rw [hget] at hk
      cases hk
      rw [he]
      exact hs _ _ hget
  · exact hs k h hk

theorem Filed.call (hs : Filed s) (c : Call) : Filed (c.run s).state := by
  cases c with
  | put block =>
    show Filed (put block s).state
    rw [put_run]
    exact hs.stored block
  | delete hash level => exact hs

theorem Filed.after : ∀ (calls : List Call) {s : BlockStorage}, Filed s → Filed (s.after calls)
  | [], _, h => h
  | c :: calls, _, h => Filed.after calls (h.call c)

theorem filed_new : Filed new := nofun

omit [Crypto] in
theorem decodeTransactions_run (o : Option Bytes) (s : BlockStorage) : ∃ r,
    decodeTransactions o s = ⟨r, s, []⟩ ∧ ∀ txs, r = .ok (some txs) ↔
      ∃ bytes, o = some bytes ∧ Wire.transactionList.decode bytes = .ok txs := by
  cases o with
  | none => exact ⟨.ok none, rfl, fun txs => by simp⟩
  | some bytes =>
    unfold decodeTransactions
    rcases hd : Wire.transactionList.decode bytes with (e | _ | _) | txs
    · exact ⟨.error (.err (.decode e)), by simp only [hd]; rfl, fun txs => by simp [hd]⟩
    · exact ⟨.error .panic, by simp only [hd]; rfl, fun txs => by simp [hd]⟩
    · exact ⟨.error .diverge, by simp only [hd]; rfl, fun txs => by simp [hd]⟩
    · exact ⟨.ok (some txs), by simp only [hd]; rfl, fun txs => by simp [hd]⟩

variable {b : Block}

omit [Crypto] in
/-- **What a read of a block finds.** -/
theorem getBlockByHash_eq_ok_iff {hash : H256} :
    (getBlockByHash hash s).res = .ok (some b) ↔ ∃ k bytes, s.blockByHash.get? hash = some k ∧
      s.headers.get? k = some b.header ∧ s.transactions.get? k = some bytes ∧
      Wire.transactionList.decode bytes = .ok b.transactions := by
  have hget : (Exec.get : M BlockStorage) s = ⟨.ok s, s, []⟩ := rfl
  unfold getBlockByHash
  rw [bind_ok_nil hget]
  cases hk : s.blockByHash.get? hash with
  | none => simp [pure_run]
  | some k =>
    obtain ⟨r, hrun, hr⟩ := decodeTransactions_run (s.transactions.get? k) s
    have hkey : toLex ((ofLex k).1, (ofLex k).2) = k := rfl
    dsimp only
    unfold getBlock
    rw [bind_ok_nil hget, hkey]
    -- the transactions are decoded before the header is looked at
    have hiff : (∃ k' bytes, some k = some k' ∧ s.headers.get? k' = some b.header ∧
        s.transactions.get? k' = some bytes ∧
        Wire.transactionList.decode bytes = .ok b.transactions) ↔
        s.headers.get? k = some b.header ∧ r = .ok (some b.transactions) := by
      rw [hr]
      constructor
      · intro ⟨k', bytes, he, hh, ht, hd⟩
        cases he
        exact ⟨hh, bytes, ht, hd⟩
      · intro ⟨hh, bytes, ht, hd⟩
        exact ⟨k, bytes, rfl, hh, ht, hd⟩
    rw [hiff]
    rcases r with e | _ | txs
    · rw [bind_error hrun]
      simp
    · rw [bind_ok_nil hrun]
      cases s.headers.get? k <;> simp [pure_run]
    · rw [bind_ok_nil hrun]
      cases s.headers.get? k with
      | none => simp [pure_run]
      | some header =>
        obtain ⟨header', txs'⟩ := b
        simp [pure_run]

/-- The block is in the columns, as it was put. -/
structure Holds (s : BlockStorage) (b : Block) : Prop where
  byHash : s.blockByHash.get? b.hash = some (key b.header)
  header : s.headers.get? (key b.header) = some b.header
  transactions :
    s.transactions.get? (key b.header) = some (Wire.transactionList.encode b.transactions)

/-- A later call that does not touch the block, or puts it again. -/
def Call.Respects (b : Block) : Call → Prop
  | put b' => b'.hash = b.hash → b'.level = b.level ∧ b'.transactions = b.transactions
  | delete _ _ => True

theorem key_eq (hl : h.level = h'.level) (hh : h.hash = h'.hash) :
    key h = key h' := by
  unfold key
  rw [hl, hh]

theorem Holds.call (h : Holds s b) {c : Call} (hc : c.Respects b) : Holds (c.run s).state b := by
  cases c with
  | delete hash level => exact ⟨h.byHash, h.header, h.transactions⟩
  | put b' =>
    show Holds (put b' s).state b
    rw [put_run]
    by_cases hhash : b'.hash = b.hash
    · obtain ⟨hlevel, htxs⟩ := hc hhash
      have hkey : key b'.header = key b.header := key_eq hlevel hhash
      refine ⟨?_, ?_, ?_⟩
      · show (s.blockByHash.insert b'.hash (key b'.header)).get? b.hash = _
        rw [hhash, hkey, get?_insert_self]
      · show (putAbsent s.headers (key b'.header) b'.header).get? _ = _
        rw [hkey, get?_putAbsent, if_pos rfl, h.header]
        rfl
      · show (s.transactions.insert (key b'.header) _).get? _ = _
        rw [hkey, htxs, get?_insert_self]
    · have hkey : key b.header ≠ key b'.header := fun he => hhash (key_injective_hash he).symm
      refine ⟨?_, ?_, ?_⟩
      · show (s.blockByHash.insert b'.hash (key b'.header)).get? b.hash = _
        rw [get?_insert, if_neg (Ne.symm hhash)]
        exact h.byHash
      · show (putAbsent s.headers (key b'.header) b'.header).get? _ = _
        rw [get?_putAbsent, if_neg hkey]
        exact h.header
      · show (s.transactions.insert (key b'.header) _).get? _ = _
        rw [get?_insert, if_neg hkey]
        exact h.transactions

theorem Holds.after : ∀ (calls : List Call) {s : BlockStorage} {b : Block}, Holds s b →
    (∀ c ∈ calls, c.Respects b) → Holds (s.after calls) b
  | [], _, _, h, _ => h
  | c :: calls, _, _, h, hc =>
    Holds.after calls (h.call (hc c List.mem_cons_self)) fun c' hc' =>
      hc c' (List.mem_cons_of_mem _ hc')

theorem after_append (s : BlockStorage) (l l' : List Call) :
    s.after (l ++ l') = (s.after l).after l' := List.foldl_append

/-- The lists of transactions that are written fit into a vector. -/
def Call.Fits : Call → Prop
  | put b => (Wire.transactionList.encode b.transactions).length < 2 ^ 63
  | delete _ _ => True

theorem getBlockByHash_stored (hs : Filed s) {b' : Block} (hhash : b'.hash = b.hash)
    (hsize : (Wire.transactionList.encode b'.transactions).length < 2 ^ 63)
    (h : (getBlockByHash b.hash (s.stored b')).res = .ok (some b)) :
    (b'.level = b.level ∧ b'.transactions = b.transactions) ∧
      (∀ t ∈ b'.transactions, t.v ≠ 0) ∧
      (s.stored b').headers.get? (key b'.header) = some b.header := by
  obtain ⟨k, bytes, hk, hheader, htxs, hdecode⟩ := getBlockByHash_eq_ok_iff.1 h
  have hk : (s.blockByHash.insert b'.hash (key b'.header)).get? b.hash = some k := hk
  rw [hhash, get?_insert_self] at hk
  cases hk
  have htxs : (s.transactions.insert (key b'.header)
      (Wire.transactionList.encode b'.transactions)).get? (key b'.header) = some bytes := htxs
  rw [get?_insert_self] at htxs
  cases htxs
  obtain ⟨htxs, hv⟩ := (Wire.transactionList_decode_eq_ok_iff hsize).1 hdecode
  have hlevel : b'.header.level = b.header.level :=
    (key_injective_level ((hs.stored b') _ _ hheader)).symm
  exact ⟨⟨hlevel, htxs⟩, hv, hheader⟩

theorem holds_stored
    (h : ∀ header, s.headers.get? (key b.header) = some header → header = b.header) :
    Holds (s.stored b) b := by
  refine ⟨get?_insert_self _ _ _, ?_, get?_insert_self _ _ _⟩
  show (putAbsent s.headers (key b.header) b.header).get? _ = _
  rw [get?_putAbsent, if_pos rfl]
  cases hget : s.headers.get? (key b.header) with
  | none => rfl
  | some header =>
    rw [h header hget]
    rfl

/-- **A block that was put stays as it is exactly if** no header with its level and hash but another
content was put before, its list of transactions reads back, and every later `put` of a block with
its hash has its level and its transactions. -/
theorem put_immutable_iff (earlier later : List Call) (b : Block)
    (hsize : ∀ c ∈ Call.put b :: later, c.Fits) :
    (∀ calls, calls <+: later →
      (getBlockByHash b.hash (new.after (earlier ++ Call.put b :: calls))).res = .ok (some b)) ↔
    (∀ h, (new.after earlier).headers.get? (key b.header) = some h → h = b.header) ∧
      (∀ t ∈ b.transactions, t.v ≠ 0) ∧ ∀ c ∈ later, c.Respects b := by
  obtain ⟨hb, hlater⟩ := List.forall_mem_cons.1 hsize
  have hfiled : Filed (new.after earlier) := Filed.after earlier filed_new
  have hafter (calls : List Call) : new.after (earlier ++ Call.put b :: calls) =
      ((new.after earlier).stored b).after calls := by
    rw [after_append]
    show ((put b (new.after earlier)).state).after calls = _
    rw [put_run]
  simp only [hafter]
  generalize new.after earlier = s at hfiled
  constructor
  · intro h
    obtain ⟨-, hv, hheader⟩ := getBlockByHash_stored hfiled rfl hb (h [] List.nil_prefix)
    refine ⟨fun header hget => ?_, hv, fun c hc => ?_⟩
    · have hheader : (putAbsent s.headers (key b.header) b.header).get? (key b.header) =
        some b.header := hheader
      rw [get?_putAbsent, if_pos rfl, hget] at hheader
      exact Option.some.inj hheader
    · cases c with
      | delete hash level => trivial
      | put b' =>
        intro hhash
        obtain ⟨l₁, l₂, rfl⟩ := List.append_of_mem hc
        have hread := h (l₁ ++ [Call.put b']) ⟨l₂, by simp⟩
        rw [after_append] at hread
        have hstored : ((s.stored b).after l₁).after [Call.put b'] =
            ((s.stored b).after l₁).stored b' := by
          show (put b' _).state = _
          rw [put_run]
        rw [hstored] at hread
        exact (getBlockByHash_stored (Filed.after l₁ (hfiled.stored b)) hhash
          (hlater _ hc) hread).1
  · intro ⟨hheader, hv, hrespects⟩ calls hcalls
    have hholds : Holds ((s.stored b).after calls) b :=
      Holds.after calls (holds_stored hheader) fun c hc => hrespects c (hcalls.subset hc)
    exact getBlockByHash_eq_ok_iff.2 ⟨_, _, hholds.byHash, hholds.header, hholds.transactions,
      (Wire.transactionList_decode_eq_ok_iff hb).2 ⟨rfl, hv⟩⟩

end Crypto

end BlockStorage

namespace Storage

open scoped Sample
open BlockStorage

def sampleHeader : BlockHeader := ⟨.zero, .zero, .zero, .zero, 0, .zero, 0, 0, 1, 0, 0⟩

def sampleBlock (value : UInt64) : Block :=
  ⟨sampleHeader, [{ Sample.pay 1 2 1 value 1 with v := 1 }]⟩

theorem put_immutable_sample :
    (getBlockByHash (sampleBlock 5).hash (new.after
      [Call.put (sampleBlock 5), Call.put (sampleBlock 5), Call.delete .zero 1])).res =
        .ok (some (sampleBlock 5)) := by
  have hsize : (Wire.transactionList.encode (sampleBlock 5).transactions).length < 2 ^ 63 := by
    decide +kernel
  refine (put_immutable_iff [] [Call.put (sampleBlock 5), Call.delete .zero 1] (sampleBlock 5)
    ?_).2 ⟨nofun, by decide, ?_⟩ _ (List.prefix_refl _)
  · intro c hc
    simp only [List.mem_cons, List.not_mem_nil, or_false] at hc
    rcases hc with rfl | rfl | rfl
    · exact hsize
    · exact hsize
    · trivial
  · intro c hc
    simp only [List.mem_cons, List.not_mem_nil, or_false] at hc
    rcases hc with rfl | rfl
    · exact fun _ => ⟨rfl, rfl⟩
    · trivial

/-- Two blocks with one header and different transactions: after the second is put, the hash of the
first reads as the second. -/
theorem put_replaces_transactions :
    (sampleBlock 5).hash = (sampleBlock 6).hash ∧
      (getBlockByHash (sampleBlock 5).hash (new.after [Call.put (sampleBlock 5)])).res =
        .ok (some (sampleBlock 5)) ∧
      (getBlockByHash (sampleBlock 5).hash
        (new.after [Call.put (sampleBlock 5), Call.put (sampleBlock 6)])).res =
          .ok (some (sampleBlock 6)) ∧
      sampleBlock 5 ≠ sampleBlock 6 := by
  decide +kernel

end Storage

end Uchain
