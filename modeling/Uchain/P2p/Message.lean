import Uchain.Types.Wire

/-!
# Peer messages

`p2p::message`: what peers send each other, and its wire format. A `PeerMessage` is a `oneof`; its
attribute lists the tags 1 to 11, while `Msg` has variants for 1 to 9. The reader that is derived for
`Msg` calls `unreachable!` for a listed tag without a variant.
-/

namespace Uchain

open Lib Lib.Protobuf

structure GetBlockHeaderMessage where
  fromHash : H256
  toHash : Option H256
  deriving DecidableEq

structure FindBlocksMessage where
  fromLevel : UInt32
  limit : UInt32
  deriving DecidableEq

inductive Msg where
  | getCurrentHead (blockHeader : Option BlockHeader)
  | currentHead (blockHeader : Option BlockHeader)
  | getBlockHeader (msg : GetBlockHeaderMessage)
  | getBlocks (blockHashes : List H256)
  | findBlocks (msg : FindBlocksMessage)
  | blockHeader (blockHeaders : List BlockHeader)
  | blocks (blocks : List Block)
  | broadcastTransaction (tx : List SignedTransaction)
  | broadcastBlock (block : Option Block)
  deriving DecidableEq

namespace Wire

/-- A message with one optional field. -/
def optionalMessage {α : Type} (m : Message α) : Message (Option α) where
  default := none
  encodeRaw a := (a.map (m.encodeField 1)).getD []
  encodedLen a := (a.map (m.lenField 1)).getD 0
  mergeField tag w ctx a buf :=
    match tag with
    | 1 => do
      let (v, buf) ← m.merge w ctx (a.getD m.default) buf
      .ok (some v, buf)
    | _ => skipped w tag ctx a buf

/-- A message with one repeated field. -/
def repeatedMessage {α : Type} (m : Message α) : Message (List α) where
  default := []
  encodeRaw l := encodeRepeated m 1 l
  encodedLen l := lenRepeated m 1 l
  mergeField tag w ctx l buf :=
    match tag with
    | 1 => mergeRepeated m w ctx l buf
    | _ => skipped w tag ctx l buf

def currentHeadMessage : Message (Option BlockHeader) := optionalMessage blockHeader

def broadcastBlockMessage : Message (Option Block) := optionalMessage block

def blocksMessage : Message (List Block) := repeatedMessage block

def blockHeaderMessage : Message (List BlockHeader) := repeatedMessage blockHeader

def getBlocksMessage : Message (List H256) := repeatedMessage h256

def getBlockHeaderMessage : Message GetBlockHeaderMessage where
  default := ⟨.zero, none⟩
  encodeRaw v := h256.encodeField 1 v.fromHash ++ (v.toHash.map (h256.encodeField 2)).getD []
  encodedLen v := h256.lenField 1 v.fromHash + (v.toHash.map (h256.lenField 2)).getD 0
  mergeField tag w ctx v buf :=
    match tag with
    | 1 => do
      let (fromHash, buf) ← h256.merge w ctx v.fromHash buf
      .ok ({ v with fromHash }, buf)
    | 2 => do
      let (toHash, buf) ← h256.merge w ctx (v.toHash.getD .zero) buf
      .ok ({ v with toHash := some toHash }, buf)
    | _ => skipped w tag ctx v buf

def findBlocksMessage : Message FindBlocksMessage where
  default := ⟨0, 0⟩
  encodeRaw v := optUint 1 v.fromLevel.toNat ++ optUint 2 v.limit.toNat
  encodedLen v := lenOptUint 1 v.fromLevel.toNat + lenOptUint 2 v.limit.toNat
  mergeField tag w ctx v buf :=
    match tag with
    | 1 => do
      let (fromLevel, buf) ← mergeVarint w buf
      .ok ({ v with fromLevel := .ofNat fromLevel }, buf)
    | 2 => do
      let (limit, buf) ← mergeVarint w buf
      .ok ({ v with limit := .ofNat limit }, buf)
    | _ => skipped w tag ctx v buf

def encodeMsg : Msg → Bytes
  | .getCurrentHead v => currentHeadMessage.encodeField 1 v
  | .currentHead v => currentHeadMessage.encodeField 2 v
  | .getBlockHeader v => getBlockHeaderMessage.encodeField 3 v
  | .getBlocks v => getBlocksMessage.encodeField 4 v
  | .findBlocks v => findBlocksMessage.encodeField 5 v
  | .blockHeader v => blockHeaderMessage.encodeField 6 v
  | .blocks v => blocksMessage.encodeField 7 v
  | .broadcastTransaction v => broadcastTransactionMessage.encodeField 8 v
  | .broadcastBlock v => broadcastBlockMessage.encodeField 9 v

def lenMsg : Msg → Nat
  | .getCurrentHead v => currentHeadMessage.lenField 1 v
  | .currentHead v => currentHeadMessage.lenField 2 v
  | .getBlockHeader v => getBlockHeaderMessage.lenField 3 v
  | .getBlocks v => getBlocksMessage.lenField 4 v
  | .findBlocks v => findBlocksMessage.lenField 5 v
  | .blockHeader v => blockHeaderMessage.lenField 6 v
  | .blocks v => blocksMessage.lenField 7 v
  | .broadcastTransaction v => broadcastTransactionMessage.lenField 8 v
  | .broadcastBlock v => broadcastBlockMessage.lenField 9 v

/-- Merge a variant into `old`, which starts at the default for another variant. -/
def mergeMsgVariant {α : Type} (m : Message α) (mk : α → Msg) (old : α) (w : WireType) (ctx : Nat) :
    Parser (Option Msg) := fun buf => do
  let (v, buf) ← m.merge w ctx old buf
  .ok (some (mk v), buf)

/-- `Msg::merge`, for the tags that `PeerMessage` lists. -/
def mergeMsg (tag : Nat) (w : WireType) (ctx : Nat) (msg : Option Msg) : Parser (Option Msg) :=
  fun buf =>
  match tag, msg with
  | 1, some (.getCurrentHead v) => mergeMsgVariant currentHeadMessage .getCurrentHead v w ctx buf
  | 1, _ => mergeMsgVariant currentHeadMessage .getCurrentHead none w ctx buf
  | 2, some (.currentHead v) => mergeMsgVariant currentHeadMessage .currentHead v w ctx buf
  | 2, _ => mergeMsgVariant currentHeadMessage .currentHead none w ctx buf
  | 3, some (.getBlockHeader v) => mergeMsgVariant getBlockHeaderMessage .getBlockHeader v w ctx buf
  | 3, _ => mergeMsgVariant getBlockHeaderMessage .getBlockHeader ⟨.zero, none⟩ w ctx buf
  | 4, some (.getBlocks v) => mergeMsgVariant getBlocksMessage .getBlocks v w ctx buf
  | 4, _ => mergeMsgVariant getBlocksMessage .getBlocks [] w ctx buf
  | 5, some (.findBlocks v) => mergeMsgVariant findBlocksMessage .findBlocks v w ctx buf
  | 5, _ => mergeMsgVariant findBlocksMessage .findBlocks ⟨0, 0⟩ w ctx buf
  | 6, some (.blockHeader v) => mergeMsgVariant blockHeaderMessage .blockHeader v w ctx buf
  | 6, _ => mergeMsgVariant blockHeaderMessage .blockHeader [] w ctx buf
  | 7, some (.blocks v) => mergeMsgVariant blocksMessage .blocks v w ctx buf
  | 7, _ => mergeMsgVariant blocksMessage .blocks [] w ctx buf
  | 8, some (.broadcastTransaction v) =>
    mergeMsgVariant broadcastTransactionMessage .broadcastTransaction v w ctx buf
  | 8, _ => mergeMsgVariant broadcastTransactionMessage .broadcastTransaction [] w ctx buf
  | 9, some (.broadcastBlock v) => mergeMsgVariant broadcastBlockMessage .broadcastBlock v w ctx buf
  | 9, _ => mergeMsgVariant broadcastBlockMessage .broadcastBlock none w ctx buf
  -- `unreachable!`
  | _, _ => .error .panic

/-- `PeerMessage`. -/
def peerMessage : Message (Option Msg) where
  default := none
  encodeRaw msg := (msg.map encodeMsg).getD []
  encodedLen msg := (msg.map lenMsg).getD 0
  mergeField tag w ctx msg buf :=
    if 1 ≤ tag ∧ tag ≤ 11 then mergeMsg tag w ctx msg buf else skipped w tag ctx msg buf

end Wire

end Uchain
