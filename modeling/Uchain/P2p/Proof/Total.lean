import Uchain.Lib.Protobuf.Schema
import Uchain.P2p.Message

/-!
# What decoding makes of untrusted bytes

The schemas of the wire formats. The readers of hashes, addresses and 256-bit numbers hand bytes of
any length to conversions that accept one length (`from_slice`) or at most 32 bytes
(`from_big_endian`).
-/

namespace Uchain.Wire

open Lib Lib.Protobuf

/-! ## Schemas -/

def fixedField (n : Nat) : Nat → Kind
  | 1 => .bytes fun len => len = n
  | _ => .unknown

def u256Field : Nat → Kind
  | 1 => .bytes fun len => len ≤ 32
  | _ => .unknown

def h256Kind : Kind := .message (fixedField 32)

def addressKind : Kind := .message (fixedField 44)

def paymentField : Nat → Kind
  | 1 => addressKind
  | _ => .unknown

def callField : Nat → Kind
  | 1 => addressKind
  | 2 => .uint
  | 3 => .uint
  | 4 => .anyBytes
  | _ => .unknown

def createField : Nat → Kind
  | 1 => .string
  | 2 => .anyBytes
  | _ => .unknown

def updateField : Nat → Kind
  | 1 => addressKind
  | 2 => .anyBytes
  | 3 => .uint
  | _ => .unknown

def transactionField : Nat → Kind
  | 1 => .uint
  | 2 => .uint
  | 3 => h256Kind
  | 4 => .uint
  | 5 => .uint
  | 6 => .message paymentField
  | 7 => .message callField
  | 8 => .message createField
  | 9 => .message updateField
  | 10 => .anyBytes
  | _ => .unknown

def signedTransactionField : Nat → Kind
  | 1 => .message transactionField
  | 2 => h256Kind
  | 3 => h256Kind
  | 4 => .uint
  | _ => .unknown

def blockHeaderField : Nat → Kind
  | 1 => h256Kind
  | 2 => h256Kind
  | 3 => h256Kind
  | 4 => h256Kind
  | 5 => .message u256Field
  | 6 => addressKind
  | 7 => .uint
  | 8 => .uint
  | 9 => .uint
  | 10 => .uint
  | 11 => .uint
  | _ => .unknown

def blockField : Nat → Kind
  | 1 => .message blockHeaderField
  | 2 => .message signedTransactionField
  | _ => .unknown

/-- A message with one field, optional or repeated. -/
def oneField (kind : Kind) : Nat → Kind
  | 1 => kind
  | _ => .unknown

def getBlockHeaderField : Nat → Kind
  | 1 => h256Kind
  | 2 => h256Kind
  | _ => .unknown

def findBlocksField : Nat → Kind
  | 1 => .uint
  | 2 => .uint
  | _ => .unknown

def peerMessageField : Nat → Kind
  | 1 => .message (oneField (.message blockHeaderField))
  | 2 => .message (oneField (.message blockHeaderField))
  | 3 => .message getBlockHeaderField
  | 4 => .message (oneField h256Kind)
  | 5 => .message findBlocksField
  | 6 => .message (oneField (.message blockHeaderField))
  | 7 => .message (oneField (.message blockField))
  | 8 => .message (oneField (.message signedTransactionField))
  | 9 => .message (oneField (.message blockField))
  | 10 => .unreachable
  | 11 => .unreachable
  | _ => .unknown

/-! ## The readers follow their schemas -/

theorem fixedBytes_follows (n : Nat) : (fixedBytes n).Follows (fixedField n) := by
  intro tag w ctx h buf
  simp only [fixedBytes]
  split
  · refine forget_bind_fits 1 fun b => ?_
    unfold FixedBytes.fromSlice?
    by_cases hlen : b.1.length = n
    · simp [hlen, forget]
    · simp [hlen, forget, trouble]
  · exact forget_unknown (by simp [fixedField, *]) _ h

theorem u256_follows : u256.Follows u256Field := by
  intro tag w ctx x buf
  simp only [u256]
  split
  · refine forget_bind_fits 1 fun b => ?_
    by_cases hlen : 32 < b.1.length
    · simp [hlen, forget, trouble]
    · simp [hlen, forget, Nat.le_of_not_lt hlen]
  · exact forget_unknown (by simp [u256Field, *]) _ x

theorem payment_follows : payment.Follows paymentField := by
  intro tag w ctx v buf
  simp only [payment]
  split
  · exact (fixedBytes_follows 44).merge _ _ _ _ _
  · exact forget_unknown (by simp [paymentField, *]) _ v

theorem call_follows : call.Follows callField := by
  intro tag w ctx v buf
  simp only [call]
  split
  · exact (forget_bind_ok _ fun _ => rfl).trans ((fixedBytes_follows 44).merge _ _ _ _ _)
  · exact forget_bind_ok _ fun _ => rfl
  · exact forget_bind_ok _ fun _ => rfl
  · exact (forget_bind_ok _ fun _ => rfl).trans (forget_mergeBytes _)
  · exact forget_unknown (by simp [callField, *]) _ v

theorem create_follows : create.Follows createField := by
  intro tag w ctx v buf
  simp only [create]
  split
  · exact forget_bind_ok _ fun _ => rfl
  · exact (forget_bind_ok _ fun _ => rfl).trans (forget_mergeBytes _)
  · exact forget_unknown (by simp [createField, *]) _ v

theorem update_follows : update.Follows updateField := by
  intro tag w ctx v buf
  simp only [update]
  split
  · exact (forget_bind_ok _ fun _ => rfl).trans ((fixedBytes_follows 44).merge _ _ _ _ _)
  · exact (forget_bind_ok _ fun _ => rfl).trans (forget_mergeBytes _)
  · exact forget_bind_ok _ fun _ => rfl
  · exact forget_unknown (by simp [updateField, *]) _ v

variable {field : Nat → Kind} {α : Type} {m : Message α}

/-- A payload of one kind, merged into one of the same kind or into the default. -/
theorem forget_mergeVariant (h : m.Follows field) (mk : α → TransactionData) (old : α) (tag : Nat)
    (w : WireType) (ctx : Nat) (buf : Bytes) :
    forget (mergeVariant m mk old w ctx buf) = (Kind.message field).scan tag w ctx buf :=
  (forget_bind_ok _ fun _ => rfl).trans (h.merge tag w ctx old buf)

theorem mergeData_follows (tag : Nat) (w : WireType) (ctx : Nat) (data : Option TransactionData)
    (buf : Bytes) (htag : 6 ≤ tag ∨ tag = 0) :
    forget (mergeData tag w ctx data buf) = (transactionField tag).scan tag w ctx buf := by
  unfold mergeData
  split
  · exact forget_mergeVariant payment_follows _ _ _ _ _ _
  · exact forget_mergeVariant payment_follows _ _ _ _ _ _
  · exact forget_mergeVariant call_follows _ _ _ _ _ _
  · exact forget_mergeVariant call_follows _ _ _ _ _ _
  · exact forget_mergeVariant create_follows _ _ _ _ _ _
  · exact forget_mergeVariant create_follows _ _ _ _ _ _
  · exact forget_mergeVariant update_follows _ _ _ _ _ _
  · exact forget_mergeVariant update_follows _ _ _ _ _ _
  · exact (forget_bind_ok _ fun _ => rfl).trans (forget_mergeBytes _)
  · have hunknown : transactionField tag = .unknown := by
      unfold transactionField
      split <;> first | rfl | simp_all
    exact forget_unknown hunknown _ data

theorem transaction_follows : transaction.Follows transactionField := by
  intro tag w ctx t buf
  simp only [transaction]
  split
  · exact forget_bind_ok _ fun _ => rfl
  · exact forget_bind_ok _ fun _ => rfl
  · exact (forget_bind_ok _ fun _ => rfl).trans ((fixedBytes_follows 32).merge _ _ _ _ _)
  · exact forget_bind_ok _ fun _ => rfl
  · exact forget_bind_ok _ fun _ => rfl
  · rename_i h1 h2 h3 h4 h5
    have hne : tag ≠ 1 ∧ tag ≠ 2 ∧ tag ≠ 3 ∧ tag ≠ 4 ∧ tag ≠ 5 := ⟨h1, h2, h3, h4, h5⟩
    exact (forget_bind_ok _ fun _ => rfl).trans (mergeData_follows tag w ctx t.data buf (by omega))

theorem signedTransaction_follows : signedTransaction.Follows signedTransactionField := by
  intro tag w ctx t buf
  simp only [signedTransaction]
  split
  · exact (forget_bind_ok _ fun _ => rfl).trans (transaction_follows.merge _ _ _ _ _)
  · exact (forget_bind_ok _ fun _ => rfl).trans ((fixedBytes_follows 32).merge _ _ _ _ _)
  · exact (forget_bind_ok _ fun _ => rfl).trans ((fixedBytes_follows 32).merge _ _ _ _ _)
  · exact forget_bind_ok _ fun _ => rfl
  · exact forget_unknown (by simp [signedTransactionField, *]) _ t

theorem blockHeader_follows : blockHeader.Follows blockHeaderField := by
  intro tag w ctx h buf
  simp only [blockHeader]
  split
  · exact (forget_bind_ok _ fun _ => rfl).trans ((fixedBytes_follows 32).merge _ _ _ _ _)
  · exact (forget_bind_ok _ fun _ => rfl).trans ((fixedBytes_follows 32).merge _ _ _ _ _)
  · exact (forget_bind_ok _ fun _ => rfl).trans ((fixedBytes_follows 32).merge _ _ _ _ _)
  · exact (forget_bind_ok _ fun _ => rfl).trans ((fixedBytes_follows 32).merge _ _ _ _ _)
  · exact (forget_bind_ok _ fun _ => rfl).trans (u256_follows.merge _ _ _ _ _)
  · exact (forget_bind_ok _ fun _ => rfl).trans ((fixedBytes_follows 44).merge _ _ _ _ _)
  · exact forget_bind_ok _ fun _ => rfl
  · exact forget_bind_ok _ fun _ => rfl
  · exact forget_bind_ok _ fun _ => rfl
  · exact forget_bind_ok _ fun _ => rfl
  · exact forget_bind_ok _ fun _ => rfl
  · exact forget_unknown (by simp [blockHeaderField, *]) _ h

theorem mergeRepeated_follows (h : m.Follows field) (tag : Nat) (w : WireType) (ctx : Nat)
    (l : List α) (buf : Bytes) :
    forget (mergeRepeated m w ctx l buf) = (Kind.message field).scan tag w ctx buf :=
  (forget_bind_ok _ fun _ => rfl).trans (h.merge tag w ctx m.default buf)

theorem block_follows : block.Follows blockField := by
  intro tag w ctx b buf
  simp only [block]
  split
  · exact (forget_bind_ok _ fun _ => rfl).trans (blockHeader_follows.merge _ _ _ _ _)
  · exact (forget_bind_ok _ fun _ => rfl).trans (mergeRepeated_follows signedTransaction_follows _ _ _ _ _)
  · exact forget_unknown (by simp [blockField, *]) _ b

theorem optionalMessage_follows (h : m.Follows field) :
    (optionalMessage m).Follows (oneField (.message field)) := by
  intro tag w ctx a buf
  simp only [optionalMessage]
  split
  · exact (forget_bind_ok _ fun _ => rfl).trans (h.merge _ _ _ _ _)
  · exact forget_unknown (by simp [oneField, *]) _ a

theorem repeatedMessage_follows (h : m.Follows field) :
    (repeatedMessage m).Follows (oneField (.message field)) := by
  intro tag w ctx l buf
  simp only [repeatedMessage]
  split
  · exact mergeRepeated_follows h _ _ _ _ _
  · exact forget_unknown (by simp [oneField, *]) _ l

theorem getBlockHeaderMessage_follows : getBlockHeaderMessage.Follows getBlockHeaderField := by
  intro tag w ctx v buf
  simp only [getBlockHeaderMessage]
  split
  · exact (forget_bind_ok _ fun _ => rfl).trans ((fixedBytes_follows 32).merge _ _ _ _ _)
  · exact (forget_bind_ok _ fun _ => rfl).trans ((fixedBytes_follows 32).merge _ _ _ _ _)
  · exact forget_unknown (by simp [getBlockHeaderField, *]) _ v

theorem findBlocksMessage_follows : findBlocksMessage.Follows findBlocksField := by
  intro tag w ctx v buf
  simp only [findBlocksMessage]
  split
  · exact forget_bind_ok _ fun _ => rfl
  · exact forget_bind_ok _ fun _ => rfl
  · exact forget_unknown (by simp [findBlocksField, *]) _ v

theorem forget_mergeMsgVariant (h : m.Follows field) (mk : α → Msg) (old : α) (tag : Nat)
    (w : WireType) (ctx : Nat) (buf : Bytes) :
    forget (mergeMsgVariant m mk old w ctx buf) = (Kind.message field).scan tag w ctx buf :=
  (forget_bind_ok _ fun _ => rfl).trans (h.merge tag w ctx old buf)

theorem mergeMsg_follows (tag : Nat) (w : WireType) (ctx : Nat) (msg : Option Msg) (buf : Bytes)
    (htag : 1 ≤ tag ∧ tag ≤ 11) :
    forget (mergeMsg tag w ctx msg buf) = (peerMessageField tag).scan tag w ctx buf := by
  have hhead : currentHeadMessage.Follows (oneField (.message blockHeaderField)) :=
    optionalMessage_follows blockHeader_follows
  have hhashes : getBlocksMessage.Follows (oneField h256Kind) :=
    repeatedMessage_follows (fixedBytes_follows 32)
  have hheaders : blockHeaderMessage.Follows (oneField (.message blockHeaderField)) :=
    repeatedMessage_follows blockHeader_follows
  have hblocks : blocksMessage.Follows (oneField (.message blockField)) :=
    repeatedMessage_follows block_follows
  have htxs : broadcastTransactionMessage.Follows (oneField (.message signedTransactionField)) :=
    repeatedMessage_follows signedTransaction_follows
  have hblock : broadcastBlockMessage.Follows (oneField (.message blockField)) :=
    optionalMessage_follows block_follows
  unfold mergeMsg
  split
  · exact forget_mergeMsgVariant hhead _ _ _ _ _ _
  · exact forget_mergeMsgVariant hhead _ _ _ _ _ _
  · exact forget_mergeMsgVariant hhead _ _ _ _ _ _
  · exact forget_mergeMsgVariant hhead _ _ _ _ _ _
  · exact forget_mergeMsgVariant getBlockHeaderMessage_follows _ _ _ _ _ _
  · exact forget_mergeMsgVariant getBlockHeaderMessage_follows _ _ _ _ _ _
  · exact forget_mergeMsgVariant hhashes _ _ _ _ _ _
  · exact forget_mergeMsgVariant hhashes _ _ _ _ _ _
  · exact forget_mergeMsgVariant findBlocksMessage_follows _ _ _ _ _ _
  · exact forget_mergeMsgVariant findBlocksMessage_follows _ _ _ _ _ _
  · exact forget_mergeMsgVariant hheaders _ _ _ _ _ _
  · exact forget_mergeMsgVariant hheaders _ _ _ _ _ _
  · exact forget_mergeMsgVariant hblocks _ _ _ _ _ _
  · exact forget_mergeMsgVariant hblocks _ _ _ _ _ _
  · exact forget_mergeMsgVariant htxs _ _ _ _ _ _
  · exact forget_mergeMsgVariant htxs _ _ _ _ _ _
  · exact forget_mergeMsgVariant hblock _ _ _ _ _ _
  · exact forget_mergeMsgVariant hblock _ _ _ _ _ _
  · -- the tags 10 and 11
    have hunreachable : peerMessageField tag = .unreachable := by
      unfold peerMessageField
      split <;> first | rfl | (simp_all; omega) | simp_all
    rw [hunreachable]
    rfl

theorem peerMessage_follows : peerMessage.Follows peerMessageField := by
  intro tag w ctx msg buf
  simp only [peerMessage]
  split
  · exact mergeMsg_follows tag w ctx msg buf ‹_›
  · have hunknown : peerMessageField tag = .unknown := by
      unfold peerMessageField
      split <;> first | rfl | simp_all
    exact forget_unknown hunknown _ msg

/-! ## Decoding -/

/-- The buffer is decoded or refused with an error. -/
def Returns {α : Type} (m : Message α) (buf : Bytes) : Prop :=
  (∃ a, m.decode buf = .ok a) ∨ ∃ e, m.decode buf = .error (.err e)

/-- **When decoding returns**: exactly if reading the bytes by the schema does not end at a hash,
address or number of an unfit length, or at a peer message of kind 10 or 11. -/
theorem decode_returns_iff (buf : Bytes) :
    (Returns peerMessage buf ↔ Kind.scanAll peerMessageField buf ≠ .error .unfit) ∧
    (Returns block buf ↔ Kind.scanAll blockField buf ≠ .error .unfit) ∧
    (Returns signedTransaction buf ↔
      Kind.scanAll signedTransactionField buf ≠ .error .unfit) :=
  ⟨peerMessage_follows.returns_decode_iff buf, block_follows.returns_decode_iff buf,
    signedTransaction_follows.returns_decode_iff buf⟩

/-- A signed transaction whose `r` has one byte, alone and inside a block and a peer message, and a
peer message of kind 10. -/
theorem decode_panics :
    let r : Bytes := encodeBytes 2 (encodeBytes 1 [7])
    let inBlock : Bytes := encodeBytes 2 r
    let inMessage : Bytes := encodeBytes 8 (encodeBytes 1 r)
    signedTransaction.decode r = .error .panic ∧ block.decode inBlock = .error .panic ∧
      peerMessage.decode inMessage = .error .panic ∧
      peerMessage.decode (encodeUint 10 0) = .error .panic := by
  decide +kernel

end Uchain.Wire
