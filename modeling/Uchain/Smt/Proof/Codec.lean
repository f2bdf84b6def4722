import Uchain.Smt.Codec

/-!
# Stored trees read back
-/

namespace Uchain

open Lib Lib.Bincode BTreeMap

theorem ByteStorage.fromSnapshot_snapshot (m : ByteStorage) : fromSnapshot m.snapshot = m := by
  refine ext_get? fun k => ?_
  unfold fromSnapshot snapshot insertAll
  rw [get?_foldl_insert k _ m.sorted, get?_empty, Option.or_none]
  rfl

namespace StoredTree

/-- The sizes that vectors can have: the bytes of each are at most `isize::MAX`. -/
structure Fits (m : ByteStorage) : Prop where
  entries : m.entries.length * 48 < 2 ^ 63
  sizes : ∀ e ∈ m.entries, e.1.length < 2 ^ 63 ∧ e.2.length < 2 ^ 63

theorem reads_snapshot {m : ByteStorage} (h : Fits m) :
    Reads decodeSnapshot (encodeSnapshot m.snapshot) m.snapshot := by
  refine reads_vec (by decide) h.entries fun e he => ?_
  obtain ⟨hkey, hvalue⟩ := h.sizes e he
  exact (reads_bytes hkey).bind ((reads_bytes hvalue).bind_nil (reads_pure e))

theorem reads_hash (h : H256) : Reads decodeHash h.bytes h := by
  have hread := reads_read h.bytes
  rw [FixedBytes.length_bytes] at hread
  refine hread.bind_nil ?_
  rw [FixedBytes.fromSlice?_bytes]
  exact reads_pure h

theorem reads_encode {t : StoredTree} (hnodes : Fits t.nodes) (hvalues : Fits t.values) :
    Reads decoder t.encode t := by
  refine ((reads_snapshot hnodes).mapErr _).bind (((reads_snapshot hvalues).mapErr _).bind
    ((reads_hash t.root).bind ((reads_hash t.parent).bind_nil ?_)))
  rw [ByteStorage.fromSnapshot_snapshot, ByteStorage.fromSnapshot_snapshot]
  exact reads_pure t

/-- **A tree reads back** from its bytes, also with others behind them. -/
theorem tree_reads_back (t : StoredTree) (hnodes : Fits t.nodes) (hvalues : Fits t.values) :
    decode t.encode = .ok t ∧ ∀ rest, decode (t.encode ++ rest) = .ok t := by
  have hrest (rest : Bytes) : decode (t.encode ++ rest) = .ok t := by
    unfold decode
    rw [reads_encode hnodes hvalues rest]
  refine ⟨?_, hrest⟩
  have hnil := hrest []
  rwa [List.append_nil] at hnil

/-- Keys of several lengths, an empty value and one whose length takes three bytes. -/
def sample : StoredTree :=
  ⟨.fromSnapshot [([1], []), ([], [2, 3])], .fromSnapshot [([4, 4], List.replicate 300 5)],
    FixedBytes.zero, FixedBytes.zero⟩

theorem tree_reads_back_sample : decode sample.encode = .ok sample :=
  (tree_reads_back sample ⟨by decide +kernel, by decide +kernel⟩ ⟨by decide +kernel, by decide +kernel⟩).1

end StoredTree

namespace SparseMerkleTree

theorem lastEntry_raw (k : H256) : ∀ {l : List (H256 × Bytes)}, (l.Pairwise fun p q => p.1 < q.1) →
    lastEntry k.bytes (l.map fun e => (e.1.bytes, e.2)) = lookup k l
  | [], _ => rfl
  | e :: l, h => by
    obtain ⟨he, hl⟩ := List.pairwise_cons.1 h
    rw [List.map_cons, lastEntry, lastEntry_raw k hl, lookup]
    by_cases hk : k = e.1
    · have hnone : lookup k l = none :=
        lookup_eq_none fun q hq => hk ▸ (he q hq).ne
      rw [hnone, if_pos hk, if_pos (congrArg FixedBytes.bytes hk), Option.none_or]
    · rw [if_neg hk, if_neg fun hb => hk (FixedBytes.bytes_inj.1 hb), Option.or_none]

theorem get?_raw (m : MemoryStorage) (k : H256) :
    (ByteStorage.fromSnapshot (m.entries.map fun e => (e.1.bytes, e.2))).get? k.bytes = m.get? k := by
  unfold ByteStorage.fromSnapshot
  rw [get?_insertAll, lastEntry_raw k m.sorted, get?_empty, Option.or_none]
  rfl

/-- A tree of the model is known from its stored form. -/
theorem stored_injective : Function.Injective stored := by
  intro t t' h
  have hmaps {m m' : MemoryStorage}
      (h : ByteStorage.fromSnapshot (m.entries.map fun e => (e.1.bytes, e.2)) =
        ByteStorage.fromSnapshot (m'.entries.map fun e => (e.1.bytes, e.2))) : m = m' := by
    refine ext_get? fun k => ?_
    rw [← get?_raw m, h, get?_raw m']
  obtain ⟨nodes, values, root, parent⟩ := t
  obtain ⟨nodes', values', root', parent'⟩ := t'
  have hnodes : nodes = nodes' := hmaps (congrArg StoredTree.nodes h)
  have hvalues : values = values' := hmaps (congrArg StoredTree.values h)
  have hroot : root = root' := congrArg StoredTree.root h
  have hparent : parent = parent' := congrArg StoredTree.parent h
  rw [hnodes, hvalues, hroot, hparent]

end SparseMerkleTree

end Uchain
