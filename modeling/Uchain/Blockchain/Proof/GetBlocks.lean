import Uchain.Blockchain.Proof.Storage

/-!
# The blocks from a level on

`get_blocks` walks the headers and the transactions side by side and pairs what it meets.

* `getBlocks_eq_map`: with the same keys in both columns, that is a walk of the headers from the start key.
* `record_after`: after any calls the columns have the same keys, those of the blocks that were put. The
  header of a key is that of the first block put there, the transactions are those of the last.
-/

namespace Uchain.BlockStorage

open Lib BTreeMap

variable {s : BlockStorage}

theorem prefixIter_eq {ν : Type} (column : BTreeMap BlockPrimaryKey ν) (start : BlockPrimaryKey) :
    prefixIter column start =
      (column.entries.filter fun e => start ≤ e.1).map fun e => (.ok e.1, e.2) := by
  have hle (k k' : BlockPrimaryKey) : k.encode ≤ k'.encode ↔ k ≤ k' := by
    rw [← not_lt, ← BlockPrimaryKey.encode_lt_encode_iff]
    rfl
  have hsorted : (column.entries.map fun e => (e.1.encode, e.2)).Pairwise fun e e' => e.1 ≤ e'.1 :=
    List.pairwise_map.2 (column.sorted.imp fun h => (hle _ _).2 h.le)
  simp only [prefixIter, hsorted.insertionSort_eq, List.filter_map, List.map_map, Function.comp_def, hle,
    BlockPrimaryKey.decode_encode]

theorem getBlocks_eq_map (hkeys : ∀ k, (s.headers.get? k).isSome = (s.transactions.get? k).isSome)
    (hash : H256) (level : UInt32) :
    getBlocks hash level s = (s.headers.entries.filter fun e => toLex (level, hash) ≤ e.1).map fun e =>
      blockItem (.ok e.1, e.2) (.ok e.1, (s.transactions.get? e.1).getD []) := by
  have hsame : s.transactions.keys = s.headers.keys := by
    refine List.Pairwise.eq_of_mem_iff (r := (· < ·)) (List.pairwise_map.2 s.transactions.sorted)
      (List.pairwise_map.2 s.headers.sorted) fun k => ?_
    rw [mem_keys_iff, mem_keys_iff, hkeys]
  let read (k : BlockPrimaryKey) := (k, (s.transactions.get? k).getD [])
  have hread (e : BlockPrimaryKey × Bytes) (he : e ∈ s.transactions.entries) : read e.1 = id e := by
    simp [read, mem_entries_iff.1 he]
  have hentries : s.transactions.entries = s.headers.entries.map fun e => read e.1 :=
    calc s.transactions.entries
        = s.transactions.entries.map fun e => read e.1 := by rw [List.map_congr_left hread, List.map_id]
      _ = s.transactions.keys.map read := (List.map_map (g := read)).symm
      _ = s.headers.keys.map read := by rw [hsame]
      _ = s.headers.entries.map fun e => read e.1 := List.map_map (g := read)
  unfold getBlocks
  rw [prefixIter_eq, prefixIter_eq, hentries, List.filter_map, List.map_map]
  simp only [List.zipWith_map, Function.comp_def]
  exact List.zipWith_self

def headersFrom (s : BlockStorage) (start : UInt32) : List (BlockPrimaryKey × BlockHeader) :=
  s.headers.entries.filter fun e => start ≤ (ofLex e.1).1

theorem mem_headersFrom {start : UInt32} {e : BlockPrimaryKey × BlockHeader} :
    e ∈ s.headersFrom start ↔ s.headers.get? e.1 = some e.2 ∧ start ≤ (ofLex e.1).1 := by
  rw [headersFrom, List.mem_filter, mem_entries_iff, decide_eq_true_iff]

/-- The zero hash comes before all the others, so the walk starts at the first key of the level. -/
theorem getBlocks_zero (hkeys : ∀ k, (s.headers.get? k).isSome = (s.transactions.get? k).isSome)
    (start : UInt32) : getBlocks .zero start s = (s.headersFrom start).map fun e =>
      blockItem (.ok e.1, e.2) (.ok e.1, (s.transactions.get? e.1).getD []) := by
  have hle (k : BlockPrimaryKey) : toLex (start, FixedBytes.zero) ≤ k ↔ start ≤ (ofLex k).1 := by
    rw [Prod.Lex.le_iff]
    constructor
    · rintro (h | h)
      · exact h.le
      · exact h.1.le
    · exact fun h => h.lt_or_eq.imp_right fun he => ⟨he, Nat.zero_le _⟩
  simp only [getBlocks_eq_map hkeys, hle]
  rfl

theorem blockItem_eq_ok_iff {k k' : BlockPrimaryKey} {h : BlockHeader} {bytes : Bytes} {b : Block} :
    blockItem (.ok k, h) (.ok k', bytes) = .ok b ↔
      h = b.header ∧ Wire.transactionList.decode bytes = .ok b.transactions := by
  obtain ⟨header, txs⟩ := b
  simp only [blockItem, bind, Except.bind]
  rcases Wire.transactionList.decode bytes with (e | _ | _) | txs' <;> simp

section Crypto

variable [Crypto]

/-- What the two columns have under a key after calls. -/
inductive Record (calls : List Call) (s : BlockStorage) (k : BlockPrimaryKey) : Prop where
  | absent (unused : ∀ b, Call.put b ∈ calls → key b.header ≠ k) (header : s.headers.get? k = none)
      (transactions : s.transactions.get? k = none)
  | present (first last : Block) (hfirst : Call.put first ∈ calls ∧ key first.header = k)
      (hlast : Call.put last ∈ calls ∧ key last.header = k) (header : s.headers.get? k = some first.header)
      (transactions : s.transactions.get? k = some (Wire.transactionList.encode last.transactions))

variable {calls : List Call} {k : BlockPrimaryKey} {b : Block}

theorem Record.isSome (h : Record calls s k) :
    (s.headers.get? k).isSome = (s.transactions.get? k).isSome := by
  cases h <;> simp [*]

theorem Record.frame (h : Record calls s k) {c : Call} {s' : BlockStorage}
    (hc : ∀ b, c = .put b → key b.header ≠ k) (hheader : s'.headers.get? k = s.headers.get? k)
    (htransactions : s'.transactions.get? k = s.transactions.get? k) : Record (calls ++ [c]) s' k := by
  cases h with
  | absent unused header transactions =>
    refine .absent (fun b hb => ?_) (hheader.trans header) (htransactions.trans transactions)
    rcases List.mem_append.1 hb with hb | hb
    · exact unused b hb
    · exact hc b (List.mem_singleton.1 hb).symm
  | present first last hfirst hlast header transactions =>
    exact .present first last ⟨List.mem_append_left _ hfirst.1, hfirst.2⟩
      ⟨List.mem_append_left _ hlast.1, hlast.2⟩ (hheader.trans header) (htransactions.trans transactions)

theorem Record.call (h : Record calls s k) (c : Call) : Record (calls ++ [c]) (c.run s).state k := by
  cases c with
  | delete hash level => exact h.frame nofun rfl rfl
  | put b =>
    show Record _ (put b s).state k
    rw [put_run]
    have hheader : (s.stored b).headers.get? k = _ := get?_putAbsent s.headers _ k b.header
    have htransactions : (s.stored b).transactions.get? k = _ := get?_insert s.transactions _ k _
    by_cases hk : k = key b.header
    · subst hk
      rw [if_pos rfl] at hheader htransactions
      have hput : Call.put b ∈ calls ++ [Call.put b] := by simp
      cases h with
      | absent unused header transactions =>
        rw [header] at hheader
        exact .present b b ⟨hput, rfl⟩ ⟨hput, rfl⟩ hheader htransactions
      | present first last hfirst hlast header transactions =>
        rw [header] at hheader
        exact .present first b ⟨List.mem_append_left _ hfirst.1, hfirst.2⟩ ⟨hput, rfl⟩ hheader htransactions
    · rw [if_neg hk] at hheader htransactions
      refine h.frame (fun b' hb' => ?_) hheader htransactions
      cases hb'
      exact Ne.symm hk

theorem Record.after : ∀ (later : List Call) {calls : List Call} {s : BlockStorage},
    Record calls s k → Record (calls ++ later) (s.after later) k
  | [], _, _, h => by
    rw [List.append_nil]
    exact h
  | c :: later, calls, s, h => by
    rw [List.append_cons]
    exact Record.after later (h.call c)

theorem record_after (calls : List Call) (k : BlockPrimaryKey) : Record calls (new.after calls) k :=
  (show Record [] new k from .absent (fun _ => nofun) rfl rfl).after calls

theorem level_le_of_key_lt {h h' : BlockHeader} (hlt : key h < key h') : h.level ≤ h'.level := by
  rcases Prod.Lex.lt_iff.1 hlt with hlt | he
  · exact hlt.le
  · exact he.1.le

theorem mem_getBlocks_iff (hs : Filed s) (hrecord : ∀ k, Record calls s k) :
    .ok b ∈ getBlocks .zero start s ↔ start ≤ b.level ∧
      s.headers.get? (key b.header) = some b.header ∧
      ∃ bytes, s.transactions.get? (key b.header) = some bytes ∧
        Wire.transactionList.decode bytes = .ok b.transactions := by
  rw [getBlocks_zero (fun k => (hrecord k).isSome), List.mem_map]
  constructor
  · rintro ⟨⟨k, h⟩, he, hitem⟩
    obtain ⟨rfl, hdecode⟩ := blockItem_eq_ok_iff.1 hitem
    obtain ⟨hheader, hle⟩ := mem_headersFrom.1 he
    obtain rfl : key b.header = k := hs _ _ hheader
    have hsome := (hrecord (key b.header)).isSome
    rw [hheader, Option.isSome_some, eq_comm, Option.isSome_iff_exists] at hsome
    obtain ⟨bytes, hbytes⟩ := hsome
    simp only [hbytes, Option.getD_some] at hdecode
    exact ⟨hle, hheader, bytes, hbytes, hdecode⟩
  · rintro ⟨hlevel, hheader, bytes, hbytes, hdecode⟩
    refine ⟨(key b.header, b.header), mem_headersFrom.2 ⟨hheader, hlevel⟩, ?_⟩
    rw [blockItem_eq_ok_iff, hbytes]
    exact ⟨rfl, hdecode⟩

/-- The blocks that were put can be told apart by their keys, and their transactions read back. -/
def Readable (calls : List Call) (start : UInt32) : Prop :=
  ∀ b, Call.put b ∈ calls → start ≤ b.level →
    (∀ t ∈ b.transactions, t.v ≠ 0) ∧ ∀ b', Call.put b' ∈ calls → key b'.header = key b.header → b' = b

theorem exists_item (hsize : ∀ c ∈ calls, c.Fits) (hread : Readable calls start)
    (hrecord : ∀ k, Record calls s k) {e : BlockPrimaryKey × BlockHeader} (he : e ∈ s.headersFrom start) :
    ∃ b, blockItem (.ok e.1, e.2) (.ok e.1, (s.transactions.get? e.1).getD []) = .ok b ∧
      Call.put b ∈ calls ∧ key b.header = e.1 := by
  obtain ⟨hh, hstart⟩ := mem_headersFrom.1 he
  cases hrecord e.1 with
  | absent unused header transactions =>
    rw [header] at hh
    cases hh
  | present first last hfirst hlast header transactions =>
    rw [header, Option.some.injEq] at hh
    have hlevel : start ≤ first.level := by
      rw [← hfirst.2] at hstart
      exact hstart
    obtain ⟨hv, hunique⟩ := hread first hfirst.1 hlevel
    obtain rfl := hunique last hlast.1 (hlast.2.trans hfirst.2.symm)
    refine ⟨last, blockItem_eq_ok_iff.2 ⟨hh.symm, ?_⟩, hlast.1, hlast.2⟩
    rw [transactions]
    exact (Wire.transactionList_decode_eq_ok_iff (hsize _ hlast.1)).2 ⟨rfl, hv⟩

/-- **Keys sort by level, and what `get_blocks` yields.** The encodings of keys sort as the keys, and
decode; the blocks from a level on are those that were put, in the order of their levels, exactly if no
two of them have one key and none has a transaction with `v = 0`. -/
theorem getBlocks_yields_iff (calls : List Call) (start : UInt32) (hsize : ∀ c ∈ calls, c.Fits) :
    (∀ a b : BlockPrimaryKey, a.encode < b.encode ↔ a < b) ∧
    (∀ a : BlockPrimaryKey, BlockPrimaryKey.decode (ε := ChainError) a.encode = .ok a) ∧
    ((∃ blocks : List Block, getBlocks .zero start (new.after calls) = blocks.map .ok ∧
      blocks.Pairwise (fun b b' => b.level ≤ b'.level) ∧ blocks.Nodup ∧
      ∀ b, b ∈ blocks ↔ Call.put b ∈ calls ∧ start ≤ b.level) ↔ Readable calls start) := by
  have hs : Filed (new.after calls) := Filed.after calls filed_new
  have hrecord := record_after calls
  generalize new.after calls = s at hs hrecord
  refine ⟨BlockPrimaryKey.encode_lt_encode_iff, fun a => a.decode_encode, ?_, fun hread => ?_⟩
  · rintro ⟨blocks, hblocks, -, -, hmem⟩
    have hfound {b : Block} (hput : Call.put b ∈ calls) (hlevel : start ≤ b.level) :=
      (mem_getBlocks_iff hs hrecord (b := b)).1
        (hblocks ▸ List.mem_map_of_mem ((hmem b).2 ⟨hput, hlevel⟩))
    intro b hput hlevel
    obtain ⟨-, hheader, bytes, hbytes, hdecode⟩ := hfound hput hlevel
    refine ⟨?_, fun b' hput' hkey => ?_⟩
    · cases hrecord (key b.header) with
      | absent unused => exact absurd rfl (unused b hput)
      | present first last hfirst hlast header transactions =>
        rw [transactions] at hbytes
        cases hbytes
        obtain ⟨htxs, hv⟩ := (Wire.transactionList_decode_eq_ok_iff (hsize _ hlast.1)).1 hdecode
        exact htxs ▸ hv
    · have hlevel' : start ≤ b'.header.level := (key_injective_level hkey).symm ▸ hlevel
      obtain ⟨-, hheader', bytes', hbytes', hdecode'⟩ := hfound hput' hlevel'
      rw [hkey, hheader] at hheader'
      rw [hkey, hbytes] at hbytes'
      cases hbytes'
      rw [hdecode] at hdecode'
      cases b
      cases b'
      cases hheader'
      cases hdecode'
      rfl
  · have : Nonempty Block := ⟨⟨.zero, .zero, .zero, .zero, 0, .zero, 0, 0, 0, 0, 0⟩, []⟩
    choose! block hitem hput hkey using fun e => exists_item hsize hread hrecord (e := e)
    have hsorted : ((s.headersFrom start).map block).Pairwise fun b b' =>
        key b.header < key b'.header := by
      refine List.pairwise_map.2 ((s.headers.sorted.filter _).imp_of_mem fun he he' hlt => ?_)
      rwa [hkey _ he, hkey _ he']
    refine ⟨_, ?_, hsorted.imp level_le_of_key_lt, hsorted.imp fun hlt he => ?_, fun b => ?_⟩
    · rw [getBlocks_zero fun k => (hrecord k).isSome, List.map_map]
      exact List.map_congr_left hitem
    · exact hlt.ne (he ▸ rfl)
    · constructor
      · intro hb
        obtain ⟨e, he, rfl⟩ := List.mem_map.1 hb
        have hlevel := (mem_headersFrom.1 he).2
        rw [← hkey e he] at hlevel
        exact ⟨hput e he, hlevel⟩
      · rintro ⟨hb, hlevel⟩
        cases hrecord (key b.header) with
        | absent unused => exact absurd rfl (unused b hb)
        | present first last hfirst hlast header transactions =>
          have he : (key b.header, first.header) ∈ s.headersFrom start :=
            mem_headersFrom.2 ⟨header, hlevel⟩
          exact List.mem_map.2 ⟨_, he, (hread b hb hlevel).2 _ (hput _ he) (hkey _ he)⟩

end Crypto

section Sample

open scoped Sample

/-- With a first payment with `v = 0` the block that was put is not yielded, but an error. -/
theorem getBlocks_fails :
    getBlocks .zero 0 (new.after [Call.put (Wire.sampleBlock 0)]) =
      [.error (.err (.decode .unexpectedWireType))] := by
  decide +kernel

theorem getBlocks_yields_sample : ∃ blocks : List Block,
    getBlocks .zero 1 (new.after [Call.put (Wire.sampleBlock 1), Call.delete .zero 1]) = blocks.map .ok ∧
      blocks.Pairwise (fun b b' => b.level ≤ b'.level) ∧ blocks.Nodup ∧ ∀ b, b ∈ blocks ↔
        Call.put b ∈ [Call.put (Wire.sampleBlock 1), Call.delete .zero 1] ∧ 1 ≤ b.level := by
  refine (getBlocks_yields_iff [Call.put (Wire.sampleBlock 1), Call.delete .zero 1] 1 ?_).2.2.2 ?_
  · intro c hc
    simp only [List.mem_cons, List.not_mem_nil, or_false] at hc
    rcases hc with rfl | rfl
    · show (Wire.transactionList.encode (Wire.sampleBlock 1).transactions).length < 2 ^ 63
      decide +kernel
    · trivial
  · intro b hb _
    simp only [List.mem_cons, List.not_mem_nil, or_false, Call.put.injEq, reduceCtorEq] at hb
    subst hb
    refine ⟨by decide, fun b' hb' _ => ?_⟩
    simpa using hb'

end Sample

end Uchain.BlockStorage
