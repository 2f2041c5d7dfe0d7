import Trv1Chain.Bft.Types
import Trv1Chain.Lib.HashMap
import Trv1Chain.Lib.Run
import Trv1Chain.Lib.Word

/-!
# The network runner

`consensus/net/src/{codec,peer,network}.rs`: one task that owns the swarm, keeps a score for every
connected peer, and hands what arrives by gossip to the consensus loop. A message that does not
decode costs its sender ten points; a connection that closes takes the score with it.

`run` is a loop over events, so it is a machine here: an event is what one turn of the `select!`
took up, and the machine stops where `run` returns.
-/

set_option autoImplicit false

namespace Trv1Chain

open Lib

namespace Network

/-- What `bincode` and `libp2p` compute for the runner; an error is a `none`, as the runner only
logs it. -/
structure Codec (PeerId : Type) where
  encodeConsensusMessage : ConsensusMessage → Option (List UInt8)
  decodeConsensusMessage : List UInt8 → Option ConsensusMessage
  encodeTransaction : Transaction → Option (List UInt8)
  decodeTransaction : List UInt8 → Option Transaction
  /-- `PeerId::to_bytes`. -/
  toBytes : PeerId → List UInt8

namespace Codec

variable {PeerId : Type}

/-- What was written is read back. Nothing is said of other bytes, nor of which values can be
written. -/
structure ReadsBack (codec : Codec PeerId) : Prop where
  consensusMessage : ∀ {msg data}, codec.encodeConsensusMessage msg = some data →
    codec.decodeConsensusMessage data = some msg
  transaction : ∀ {tx data}, codec.encodeTransaction tx = some data →
    codec.decodeTransaction data = some tx

/-- A codec to evaluate the runner with: it writes the values of two lists, each as its place. -/
def listed (messages : List ConsensusMessage) (transactions : List Transaction)
    (toBytes : PeerId → List UInt8) : Codec PeerId where
  encodeConsensusMessage msg := (messages.idxOf? msg).map fun i => List.replicate i 0
  decodeConsensusMessage data := messages[data.length]?
  encodeTransaction tx := (transactions.idxOf? tx).map fun i => List.replicate i 0
  decodeTransaction data := transactions[data.length]?
  toBytes := toBytes

theorem getElem?_of_idxOf? {α : Type} [DecidableEq α] {l : List α} {a : α} {i : Nat}
    (h : l.idxOf? a = some i) : l[i]? = some a := by
  obtain ⟨hlt, hget, -⟩ := List.findIdx?_eq_some_iff_getElem.mp h
  rw [List.getElem?_eq_getElem hlt, beq_iff_eq.mp hget]

theorem listed_readsBack (messages : List ConsensusMessage) (transactions : List Transaction)
    (toBytes : PeerId → List UInt8) : (listed messages transactions toBytes).ReadsBack where
  consensusMessage h := by
    obtain ⟨i, hi, rfl⟩ := Option.map_eq_some_iff.mp h
    show messages[(List.replicate i _).length]? = _
    rw [List.length_replicate, getElem?_of_idxOf? hi]
  transaction h := by
    obtain ⟨i, hi, rfl⟩ := Option.map_eq_some_iff.mp h
    show transactions[(List.replicate i _).length]? = _
    rw [List.length_replicate, getElem?_of_idxOf? hi]

end Codec

/-- A consensus message with the peer it came from. -/
structure NetworkMessage where
  sender : List UInt8
  message : ConsensusMessage
  deriving DecidableEq

/-! ## Peers -/

structure PeerInfo (PeerId : Type) where
  peerId : PeerId
  address : Option String
  lastSeen : UInt64
  score : Int64

structure PeerManager (PeerId : Type) where
  peers : HashMap PeerId (PeerInfo PeerId)
  /-- Score below which a peer is considered banned. -/
  banThreshold : Int64

variable {PeerId TopicHash : Type} [DecidableEq PeerId] [DecidableEq TopicHash]

namespace PeerManager

def new (banThreshold : Int64) : PeerManager PeerId := ⟨∅, banThreshold⟩

/-- A known peer keeps its score, and its address unless a new one is given. -/
def addPeer (pm : PeerManager PeerId) (peerId : PeerId) (address : Option String)
    (now : UInt64) : PeerManager PeerId :=
  { pm with
    peers := match pm.peers.lookup peerId with
      | some info => pm.peers.insert peerId
          { info with lastSeen := now, address := address.or info.address }
      | none => pm.peers.insert peerId ⟨peerId, address, now, 0⟩ }

def removePeer (pm : PeerManager PeerId) (peerId : PeerId) :
    PeerManager PeerId × Option (PeerInfo PeerId) :=
  ({ pm with peers := pm.peers.erase peerId }, pm.peers.lookup peerId)

def adjustScore (pm : PeerManager PeerId) (peerId : PeerId) (delta : Int64) :
    PeerManager PeerId × Option Int64 :=
  match pm.peers.lookup peerId with
  | some info =>
    let score := saturatingAddI64 info.score delta
    ({ pm with peers := pm.peers.insert peerId { info with score := score } }, some score)
  | none => (pm, none)

def isBanned (pm : PeerManager PeerId) (peerId : PeerId) : Bool :=
  (pm.peers.lookup peerId).elim false fun info => decide (info.score < pm.banThreshold)

/-! What the operations do to the scores. -/

/-- The score of a peer that is connected. -/
def score (pm : PeerManager PeerId) (peerId : PeerId) : Option Int64 :=
  (pm.peers.lookup peerId).map (·.score)

theorem isBanned_eq (pm : PeerManager PeerId) (p : PeerId) :
    pm.isBanned p = (pm.score p).elim false fun score => decide (score < pm.banThreshold) := by
  unfold isBanned score
  cases pm.peers.lookup p <;> rfl

theorem score_addPeer (pm : PeerManager PeerId) (q : PeerId) (address : Option String)
    (now : UInt64) (p : PeerId) :
    (pm.addPeer q address now).score p =
      if p = q then (pm.score q).or (some 0) else pm.score p := by
  unfold addPeer score
  by_cases hpq : p = q
  · subst hpq
    rw [if_pos rfl]
    cases pm.peers.lookup p <;> simp
  · rw [if_neg hpq]
    cases pm.peers.lookup q <;> simp [AList.lookup_insert_ne hpq]

theorem score_removePeer (pm : PeerManager PeerId) (q p : PeerId) :
    (pm.removePeer q).1.score p = if p = q then none else pm.score p := by
  unfold removePeer score
  by_cases hpq : p = q
  · subst hpq
    simp
  · simp [AList.lookup_erase_ne hpq, hpq]

theorem score_adjustScore (pm : PeerManager PeerId) (q : PeerId) (delta : Int64) (p : PeerId) :
    (pm.adjustScore q delta).1.score p =
      if p = q then (pm.score q).map (saturatingAddI64 · delta) else pm.score p := by
  unfold adjustScore score
  by_cases hpq : p = q
  · subst hpq
    cases hp : pm.peers.lookup p <;> simp [hp]
  · cases pm.peers.lookup q <;> simp [AList.lookup_insert_ne hpq, hpq]

theorem banThreshold_adjustScore (pm : PeerManager PeerId) (q : PeerId) (delta : Int64) :
    (pm.adjustScore q delta).1.banThreshold = pm.banThreshold := by
  unfold adjustScore
  cases pm.peers.lookup q <;> rfl

end PeerManager

/-! ## The loop -/

structure NetworkRunner (PeerId TopicHash : Type) where
  topic : TopicHash
  txTopic : TopicHash
  peerManager : PeerManager PeerId
  /-- Whether the handle still has the receiver of the consensus messages. -/
  msgOpen : Bool
  /-- Whether the handle still has the receiver of the transactions. -/
  txOpen : Bool

/-- What one turn of the loop takes up, and what the handle does meanwhile. -/
inductive NetworkEvent (PeerId TopicHash : Type) where
  | message (propagationSource : PeerId) (topic : TopicHash) (data : List UInt8)
  | connectionEstablished (peerId : PeerId) (now : UInt64)
  | connectionClosed (peerId : PeerId)
  /-- A new listen address, or any other event of the swarm. -/
  | otherSwarmEvent
  | broadcast (msg : ConsensusMessage)
  | broadcastTransaction (tx : Transaction)
  | dropMsgReceiver
  | dropTxReceiver

inductive NetworkOutput (TopicHash : Type) where
  /-- A consensus message, handed to the consensus loop. -/
  | consensus (msg : NetworkMessage)
  /-- A transaction, handed to the consensus loop. -/
  | transaction (tx : Transaction)
  | publish (topic : TopicHash) (data : List UInt8)
  deriving DecidableEq

namespace NetworkRunner

def new (topic txTopic : TopicHash) (peerBanThreshold : Int64) :
    NetworkRunner PeerId TopicHash :=
  ⟨topic, txTopic, .new peerBanThreshold, true, true⟩

variable (codec : Codec PeerId)

/-- Ten points off a peer's score. -/
def penalise (r : NetworkRunner PeerId TopicHash) (peerId : PeerId) :
    NetworkRunner PeerId TopicHash :=
  { r with peerManager := (r.peerManager.adjustScore peerId (-10)).1 }

/-- A gossip message. What decodes is sent on; a closed channel ends the loop. -/
def onMessage (r : NetworkRunner PeerId TopicHash) (propagationSource : PeerId)
    (topic : TopicHash) (data : List UInt8) :
    Option (NetworkRunner PeerId TopicHash × List (NetworkOutput TopicHash)) :=
  if topic = r.topic then
    match codec.decodeConsensusMessage data with
    | some consensusMsg =>
      if r.msgOpen then some (r, [.consensus ⟨codec.toBytes propagationSource, consensusMsg⟩])
      else none
    | none => some (r.penalise propagationSource, [])
  else if topic = r.txTopic then
    match codec.decodeTransaction data with
    | some tx => if r.txOpen then some (r, [.transaction tx]) else none
    | none => some (r.penalise propagationSource, [])
  else some (r, [])

/-- One turn of `run`; `none` where it returns. -/
def run (r : NetworkRunner PeerId TopicHash) :
    NetworkEvent PeerId TopicHash →
    Option (NetworkRunner PeerId TopicHash × List (NetworkOutput TopicHash))
  | .message propagationSource topic data => r.onMessage codec propagationSource topic data
  | .connectionEstablished peerId now =>
    some ({ r with peerManager := r.peerManager.addPeer peerId none now }, [])
  | .connectionClosed peerId =>
    some ({ r with peerManager := (r.peerManager.removePeer peerId).1 }, [])
  | .otherSwarmEvent => some (r, [])
  | .broadcast msg =>
    some (r, ((codec.encodeConsensusMessage msg).map (.publish r.topic)).toList)
  | .broadcastTransaction tx =>
    some (r, ((codec.encodeTransaction tx).map (.publish r.txTopic)).toList)
  | .dropMsgReceiver => some ({ r with msgOpen := false }, [])
  | .dropTxReceiver => some ({ r with txOpen := false }, [])

end NetworkRunner

end Network

end Trv1Chain
