import Uchain.Lib.BTreeMap
import Uchain.Types.Block

/-!
# The heads of the peers

`p2p::peer_manager`: the addresses of the connected peers, the header that each peer reported, and
the peer with the highest one. Every change is sent to the node over a channel, whose receiver may
be gone (`alive`); the send is the last step of a method, after the state has changed.

Peers are of any type with an order, addresses of any type.
-/

namespace Uchain

open Lib

/-- The events of `types::events::LocalEventMessage` that the peer manager sends. -/
inductive LocalEventMessage (P : Type) where
  | networkHighestHeadChanged (peerId : P) (tip : Option BlockHeader)
  | networkNewPeerConnection (stats : Nat × Nat) (peerId : P)
  deriving DecidableEq

structure PeerList (P A : Type) [LinearOrder P] where
  addrs : BTreeMap P A

namespace PeerList

variable {P A : Type} [LinearOrder P]

def new : PeerList P A := ⟨.empty⟩

def setPeerAddress (l : PeerList P A) (peer : P) (addr : A) : PeerList P A :=
  ⟨l.addrs.insert peer addr⟩

def removePeer (l : PeerList P A) (peer : P) : PeerList P A := ⟨l.addrs.erase peer⟩

def stats (l : PeerList P A) : Nat × Nat := (0, l.addrs.entries.length)

end PeerList

structure NetworkState (P A : Type) [LinearOrder P] where
  peerList : PeerList P A
  peerState : BTreeMap P BlockHeader
  highestKnowHead : Option P

namespace NetworkState

variable {P A : Type} [LinearOrder P]

abbrev M (P A : Type) [LinearOrder P] := Exec String (LocalEventMessage P) (NetworkState P A)

def new : NetworkState P A := ⟨.new, .empty, none⟩

def networkHead (s : NetworkState P A) : Option BlockHeader :=
  match s.highestKnowHead with
  | none => none
  | some peerId => s.peerState.get? peerId

def send (alive : Bool) (event : LocalEventMessage P) : M P A Unit :=
  if alive then Exec.tell event else Exec.err "channel closed"

def handleNewPeerConnected (alive : Bool) (peerId : P) : M P A Unit := do
  send alive (.networkNewPeerConnection (← Exec.get).peerList.stats peerId)

def updatePeerCurrentHead (alive : Bool) (peer : P) (head : BlockHeader) : M P A Unit := do
  let s ← Exec.get
  match s.highestKnowHead with
  | some highest =>
    if highest ≠ peer then
      let current ← Exec.ofOption "Current highest peer not found" (s.peerState.get? highest)
      if head.level > current.level then
        Exec.set { s with
          highestKnowHead := some peer, peerState := s.peerState.insert peer head }
    send alive (.networkHighestHeadChanged peer (some head))
  | none =>
    Exec.set { s with highestKnowHead := some peer, peerState := s.peerState.insert peer head }
    if (s.peerState.get? peer).isNone then handleNewPeerConnected alive peer
    send alive (.networkHighestHeadChanged peer (some head))

def removePeer (alive : Bool) (peer : P) : M P A Unit := do
  Exec.modify fun s => { s with
    highestKnowHead := if s.highestKnowHead = some peer then none else s.highestKnowHead
    peerState := s.peerState.erase peer
    peerList := s.peerList.removePeer peer }
  send alive (.networkHighestHeadChanged peer (← Exec.get).networkHead)

inductive Call (P A : Type) where
  | setPeerAddress (peer : P) (addr : A)
  | updatePeerCurrentHead (peer : P) (head : BlockHeader)
  | removePeer (peer : P)

def exec (alive : Bool) : Call P A → M P A Unit
  | .setPeerAddress peer addr =>
    Exec.modify fun s => { s with peerList := s.peerList.setPeerAddress peer addr }
  | .updatePeerCurrentHead peer head => updatePeerCurrentHead alive peer head
  | .removePeer peer => removePeer alive peer

def run (calls : List (Bool × Call P A)) (s : NetworkState P A) : NetworkState P A :=
  calls.foldl (fun s c => (exec c.1 c.2 s).state) s

end NetworkState

end Uchain
