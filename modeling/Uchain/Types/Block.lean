import Mathlib.Data.Prod.Lex
import Uchain.Types.Tx

/-!
# Blocks

`types::block`: the header, its encoding and its hash. The hash of a block is the double SHA-256 of
its header alone; the transactions enter it only through `txRoot` and `stateRoot`.

* `BlockHeader.consensus_encoding_faithful`: headers are the same as buffers of 228 bytes.
* `BlockHeader.hash_inj`: so does the hash, up to collisions of SHA-256 on what was hashed.
-/

namespace Uchain

open Lib Crypto

abbrev U256 := BitVec 256

instance instLinearOrderUInt32 : LinearOrder UInt32 where
  le_refl := UInt32.le_refl
  le_trans _ _ _ := UInt32.le_trans
  lt_iff_le_not_ge a b := by
    rw [UInt32.lt_iff_le_and_ne]
    constructor
    · intro ⟨h, hne⟩
      exact ⟨h, fun h' => hne (UInt32.le_antisymm h h')⟩
    · intro ⟨h, h'⟩
      exact ⟨h, fun he => h' (he ▸ UInt32.le_refl _)⟩
  le_antisymm _ _ := UInt32.le_antisymm
  le_total := UInt32.le_total
  toDecidableLE := inferInstance

/-- `BlockPrimaryKey(level, hash)`, in the order of its encoding. -/
abbrev BlockPrimaryKey := UInt32 ×ₗ H256

namespace BlockPrimaryKey

def encode (k : BlockPrimaryKey) : Bytes := toBeBytes32 (ofLex k).1 ++ (ofLex k).2.bytes

/-- The slices panic unless the buffer has 36 bytes. -/
def decode {ε : Type} (buf : Bytes) : Except (Fail ε) BlockPrimaryKey :=
  if buf.length < 4 then .error .panic
  else match FixedBytes.fromSlice? 32 (buf.drop 4) with
    | some hash => .ok (toLex (UInt32.ofNat (ofBeBytes (buf.take 4)), hash))
    | none => .error .panic

variable (k k' : BlockPrimaryKey)

theorem length_encode : k.encode.length = 36 := by simp [encode]

theorem decode_encode {ε : Type} : decode (ε := ε) k.encode = .ok k := by
  have hlength : ¬ k.encode.length < 4 := by simp [length_encode]
  have hlevel : ofBeBytes (k.encode.take 4) = (ofLex k).1.toNat := ofBeBytes_take (UInt32.toNat_lt _) _
  have hhash : k.encode.drop 4 = (ofLex k).2.bytes := drop_beBytes 4 _ _
  rw [decode, if_neg hlength, hlevel, hhash, FixedBytes.fromSlice?_bytes, UInt32.ofNat_toNat]
  rfl

theorem ofBeBytes_encode :
    ofBeBytes k.encode = (ofLex k).1.toNat * 256 ^ 32 + (ofLex k).2.num := by
  rw [encode, ofBeBytes_append, toBeBytes32, FixedBytes.bytes, ofBeBytes_beBytes, ofBeBytes_beBytes,
    length_beBytes, Nat.mod_eq_of_lt (b := 256 ^ 4) (UInt32.toNat_lt _),
    Nat.mod_eq_of_lt (FixedBytes.lt _)]

/-- **The order of the encodings is the order of the keys.** -/
theorem encode_lt_encode_iff : k.encode < k'.encode ↔ k < k' := by
  have hlength : k.encode.length = k'.encode.length := by simp only [length_encode]
  rw [lt_iff_ofBeBytes_lt hlength, ofBeBytes_encode, ofBeBytes_encode,
    mul_add_lt_mul_add_iff (FixedBytes.lt _) (FixedBytes.lt _), Prod.Lex.lt_iff, UInt32.toNat_inj]
  rfl

end BlockPrimaryKey

structure BlockHeader where
  parentHash : H256
  receiptHash : H256
  txRoot : H256
  stateRoot : H256
  mixNonce : U256
  coinbase : Address
  difficulty : UInt32
  chainId : UInt32
  level : UInt32
  time : UInt32
  nonce : UInt64
  deriving DecidableEq

structure IndexedBlockHeader where
  hash : H256
  raw : BlockHeader
  deriving DecidableEq

structure Block where
  header : BlockHeader
  transactions : List SignedTransaction
  deriving DecidableEq

namespace BlockHeader

def consensusEncode (h : BlockHeader) : Bytes :=
  h.parentHash.bytes ++ (h.receiptHash.bytes ++ (h.txRoot.bytes ++ (h.stateRoot.bytes ++
    (beBytes 32 h.mixNonce.toNat ++ (h.coinbase.bytes ++ (toBeBytes32 h.difficulty ++
      (toBeBytes32 h.chainId ++ (toBeBytes32 h.level ++ (toBeBytes32 h.time ++
        toBeBytes64 h.nonce)))))))))

/-- `Buf::copy_to_bytes`; the state is what is left of the buffer. -/
def copyToBytes (n : Nat) : Exec String Empty Bytes Bytes := do
  let bytes ← Exec.get
  if n ≤ bytes.length then
    Exec.set (bytes.drop n)
    return bytes.take n
  else Exec.panic

/-- `H256::from_slice(&bytes.copy_to_bytes(32))`. -/
def getHash : Exec String Empty Bytes H256 := do
  Exec.orPanic (FixedBytes.fromSlice? 32 (← copyToBytes 32))

def getAddress : Exec String Empty Bytes Address := do
  Exec.ofOption "error decoding coinbase address" (FixedBytes.fromSlice? 44 (← copyToBytes 44))

/-- `U256::from_big_endian(&bytes.copy_to_bytes(32))`. -/
def getU256 : Exec String Empty Bytes U256 := do
  return BitVec.ofNat 256 (ofBeBytes (← copyToBytes 32))

def getU32 : Exec String Empty Bytes UInt32 := do
  return UInt32.ofNat (ofBeBytes (← copyToBytes 4))

def getU64 : Exec String Empty Bytes UInt64 := do
  return UInt64.ofNat (ofBeBytes (← copyToBytes 8))

/-- The fields in the order of the literal; bytes that follow are not looked at. -/
def getHeader : Exec String Empty Bytes BlockHeader := do
  let parentHash ← getHash
  let receiptHash ← getHash
  let txRoot ← getHash
  let stateRoot ← getHash
  let mixNonce ← getU256
  let coinbase ← getAddress
  let difficulty ← getU32
  let chainId ← getU32
  let level ← getU32
  let time ← getU32
  let nonce ← getU64
  return { parentHash, receiptHash, txRoot, stateRoot, mixNonce, coinbase, difficulty, chainId, level,
           time, nonce }

def consensusDecode (buf : Bytes) : Except (Fail String) BlockHeader := (getHeader buf).res

section Codec

variable (rest : Bytes)

theorem copyToBytes_run {n : Nat} {b : Bytes} (hb : b.length = n) :
    copyToBytes n (b ++ rest) = ⟨.ok b, rest, []⟩ := by
  subst hb
  simp only [copyToBytes, Exec.get_bind, List.length_append, Nat.le_add_right, if_true, List.take_left,
    List.drop_left]
  rfl

theorem getHash_run (x : H256) : getHash (x.bytes ++ rest) = ⟨.ok x, rest, []⟩ := by
  rw [getHash, Exec.bind_ok_nil (copyToBytes_run rest x.length_bytes), FixedBytes.fromSlice?_bytes]
  rfl

theorem getAddress_run (x : Address) : getAddress (x.bytes ++ rest) = ⟨.ok x, rest, []⟩ := by
  rw [getAddress, Exec.bind_ok_nil (copyToBytes_run rest x.length_bytes), FixedBytes.fromSlice?_bytes]
  rfl

theorem getU256_run (x : U256) : getU256 (beBytes 32 x.toNat ++ rest) = ⟨.ok x, rest, []⟩ := by
  rw [getU256, Exec.bind_ok_nil (copyToBytes_run rest (length_beBytes 32 _)), ofBeBytes_beBytes,
    Nat.mod_eq_of_lt (b := 256 ^ 32) x.isLt, BitVec.ofNat_toNat, BitVec.setWidth_eq]
  rfl

theorem getU32_run (x : UInt32) : getU32 (toBeBytes32 x ++ rest) = ⟨.ok x, rest, []⟩ := by
  rw [getU32, Exec.bind_ok_nil (copyToBytes_run rest (length_toBeBytes32 x)), toBeBytes32,
    ofBeBytes_beBytes, Nat.mod_eq_of_lt (b := 256 ^ 4) x.toNat_lt, UInt32.ofNat_toNat]
  rfl

theorem getU64_run (x : UInt64) : getU64 (toBeBytes64 x ++ rest) = ⟨.ok x, rest, []⟩ := by
  rw [getU64, Exec.bind_ok_nil (copyToBytes_run rest (length_toBeBytes64 x)), toBeBytes64,
    ofBeBytes_beBytes, Nat.mod_eq_of_lt (b := 256 ^ 8) x.toNat_lt, UInt64.ofNat_toNat]
  rfl

theorem getHeader_run (h : BlockHeader) : getHeader (h.consensusEncode ++ rest) = ⟨.ok h, rest, []⟩ := by
  simp only [consensusEncode, List.append_assoc]
  unfold getHeader
  rw [Exec.bind_ok_nil (getHash_run _ _), Exec.bind_ok_nil (getHash_run _ _),
    Exec.bind_ok_nil (getHash_run _ _), Exec.bind_ok_nil (getHash_run _ _),
    Exec.bind_ok_nil (getU256_run _ _), Exec.bind_ok_nil (getAddress_run _ _),
    Exec.bind_ok_nil (getU32_run _ _), Exec.bind_ok_nil (getU32_run _ _),
    Exec.bind_ok_nil (getU32_run _ _), Exec.bind_ok_nil (getU32_run _ _),
    Exec.bind_ok_nil (getU64_run _ _)]
  rfl

end Codec

theorem decode_consensusEncode (h : BlockHeader) : consensusDecode h.consensusEncode = .ok h := by
  have hrun := getHeader_run [] h
  rw [List.append_nil] at hrun
  rw [consensusDecode, hrun]

theorem consensusEncode_injective : Function.Injective consensusEncode := by
  intro a b h
  have hdecode := decode_consensusEncode a
  rw [h, decode_consensusEncode b] at hdecode
  exact (Except.ok.inj hdecode).symm

theorem length_consensusEncode (h : BlockHeader) : h.consensusEncode.length = 228 := by
  simp [consensusEncode]

theorem exists_beBytes (n : Nat) {b : Bytes} (h : n ≤ b.length) : ∃ x < 256 ^ n, ∃ rest,
    b = beBytes n x ++ rest ∧ b.length = n + rest.length := by
  have hlen : (b.take n).length = n := by simpa using h
  obtain ⟨a, -, ha⟩ := FixedBytes.exists_fromSlice? hlen
  refine ⟨a.num, a.lt, b.drop n, ?_, ?_⟩
  · exact (List.take_append_drop n b).symm.trans (congrArg (· ++ b.drop n) ha.symm)
  · rw [List.length_drop]
    omega

/-- Every buffer of the right length is the encoding of a header: each field takes all the values of its
width. -/
theorem exists_consensusEncode {buf : Bytes} (hbuf : buf.length = 228) :
    ∃ h : BlockHeader, h.consensusEncode = buf := by
  obtain ⟨x₁, h₁, b₁, rfl, hb₁⟩ := exists_beBytes 32 (b := buf) (by omega)
  obtain ⟨x₂, h₂, b₂, rfl, hb₂⟩ := exists_beBytes 32 (b := b₁) (by omega)
  obtain ⟨x₃, h₃, b₃, rfl, hb₃⟩ := exists_beBytes 32 (b := b₂) (by omega)
  obtain ⟨x₄, h₄, b₄, rfl, hb₄⟩ := exists_beBytes 32 (b := b₃) (by omega)
  obtain ⟨x₅, h₅, b₅, rfl, hb₅⟩ := exists_beBytes 32 (b := b₄) (by omega)
  obtain ⟨x₆, h₆, b₆, rfl, hb₆⟩ := exists_beBytes 44 (b := b₅) (by omega)
  obtain ⟨x₇, h₇, b₇, rfl, hb₇⟩ := exists_beBytes 4 (b := b₆) (by omega)
  obtain ⟨x₈, h₈, b₈, rfl, hb₈⟩ := exists_beBytes 4 (b := b₇) (by omega)
  obtain ⟨x₉, h₉, b₉, rfl, hb₉⟩ := exists_beBytes 4 (b := b₈) (by omega)
  obtain ⟨x₁₀, h₁₀, b₁₀, rfl, hb₁₀⟩ := exists_beBytes 4 (b := b₉) (by omega)
  obtain ⟨x₁₁, h₁₁, b₁₁, rfl, hb₁₁⟩ := exists_beBytes 8 (b := b₁₀) (by omega)
  have hend : b₁₁ = [] := List.eq_nil_of_length_eq_zero (by omega)
  refine ⟨⟨⟨x₁, h₁⟩, ⟨x₂, h₂⟩, ⟨x₃, h₃⟩, ⟨x₄, h₄⟩, BitVec.ofNat 256 x₅, ⟨x₆, h₆⟩, UInt32.ofNat x₇,
    UInt32.ofNat x₈, UInt32.ofNat x₉, UInt32.ofNat x₁₀, UInt64.ofNat x₁₁⟩, ?_⟩
  simp only [consensusEncode, FixedBytes.bytes, toBeBytes32, toBeBytes64, UInt32.toNat_ofNat',
    UInt64.toNat_ofNat', BitVec.toNat_ofNat, hend, List.append_nil]
  rw [Nat.mod_eq_of_lt (b := 2 ^ 256) h₅, Nat.mod_eq_of_lt (b := 2 ^ 32) h₇,
    Nat.mod_eq_of_lt (b := 2 ^ 32) h₈, Nat.mod_eq_of_lt (b := 2 ^ 32) h₉,
    Nat.mod_eq_of_lt (b := 2 ^ 32) h₁₀, Nat.mod_eq_of_lt (b := 2 ^ 64) h₁₁]

/-- **The encoding of headers is faithful**: headers and buffers of 228 bytes correspond. -/
theorem consensus_encoding_faithful :
    (∀ h, consensusDecode (consensusEncode h) = .ok h) ∧ (∀ h, (consensusEncode h).length = 228) ∧
      (∀ buf, (∃ h, consensusDecode buf = .ok h ∧ h.consensusEncode = buf) ↔ buf.length = 228) ∧
      Function.Injective consensusEncode := by
  refine ⟨decode_consensusEncode, length_consensusEncode, fun buf => ⟨?_, fun hbuf => ?_⟩,
    consensusEncode_injective⟩
  · rintro ⟨h, -, rfl⟩
    exact length_consensusEncode h
  · obtain ⟨h, rfl⟩ := exists_consensusEncode hbuf
    exact ⟨h, decode_consensusEncode h, rfl⟩

end BlockHeader

section Hash

variable [Crypto] {ε σ : Type}

/-- `dhash256`. -/
def dhash256 (data : Bytes) : H256 := sha256 (sha256 data).bytes

namespace BlockHeader

def hash (h : BlockHeader) : H256 := dhash256 h.consensusEncode

/-- The queries of a call of `hash`. -/
def queries (h : BlockHeader) : List Query :=
  [.sha256 h.consensusEncode, .sha256 (sha256 h.consensusEncode).bytes]

/-- A call of `hash`, recorded in the log. -/
def hashed (h : BlockHeader) : Exec ε Query σ H256 := fun s => ⟨.ok h.hash, s, h.queries⟩

/-- The header was hashed. -/
def HashedIn (S : Set Query) (h : BlockHeader) : Prop := ∀ q ∈ h.queries, q ∈ S

end BlockHeader

/-- `IndexedBlockHeader::from_raw`. -/
def IndexedBlockHeader.fromRaw (h : BlockHeader) : Exec ε Query σ IndexedBlockHeader := do
  return ⟨← h.hashed, h⟩

namespace Block

def hash (b : Block) : H256 := b.header.hash

def level (b : Block) : UInt32 := b.header.level

def parentHash (b : Block) : H256 := b.header.parentHash

end Block

/-- `sha256` has no collision on the inputs in `S`. -/
def Sha256Good (S : Set Query) : Prop :=
  ∀ a b, .sha256 a ∈ S → .sha256 b ∈ S → sha256 a = sha256 b → a = b

/-- **The hash determines the header.** -/
theorem BlockHeader.hash_inj {S : Set Query} (hS : Sha256Good S) {a b : BlockHeader}
    (ha : a.HashedIn S) (hb : b.HashedIn S) (h : a.hash = b.hash) : a = b := by
  have hmem {x : BlockHeader} (hx : x.HashedIn S) : .sha256 x.consensusEncode ∈ S ∧
      .sha256 (sha256 x.consensusEncode).bytes ∈ S :=
    ⟨hx _ (by simp [queries]), hx _ (by simp [queries])⟩
  have houter := hS _ _ (hmem ha).2 (hmem hb).2 h
  have hinner := hS _ _ (hmem ha).1 (hmem hb).1 (FixedBytes.bytes_injective houter)
  exact consensusEncode_injective hinner

theorem BlockHeader.wp_hashed {S : Set Query} {h : BlockHeader} {s : σ}
    {Q : Except (Fail ε) H256 → σ → Prop} (hQ : h.HashedIn S → Q (.ok h.hash) s) :
    Exec.wp S h.hashed s Q := fun hlog => hQ hlog

end Hash

end Uchain
