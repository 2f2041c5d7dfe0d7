import Trv1Chain.Net.Network
import Trv1Chain.Rpc.Server
import Trv1Chain.Validator.Turns

/-!
# The tasks of a validator

A validator process is three tasks: the event loop of `validator/src/main.rs`, the network runner it
spawns, and the RPC server. They talk through channels of 256 places. A `Station` is the three with
what is in the channels.

Loop and runner each take one event at a time and finish with it before they look for the next. What
a turn of the loop broadcasts is put into a channel message by message, and `send` waits where the
channel is full; what the runner has decoded it hands to the loop in the same way. So each of the
two has a place for what it has still to pass on, and takes an event only when that place is empty.
A handler of the RPC server does not wait: it uses `try_send`.

Timers run in tasks of their own, and a timeout is an event from outside.
-/

set_option autoImplicit false

namespace Trv1Chain

open Lib Network

/-- `mpsc::channel(256)`, for each of the four channels between the loop and the runner. -/
def channelCapacity : Nat := 256

/-- What the loop passes to the runner. -/
inductive Outgoing where
  | message (msg : ConsensusMessage)
  | transaction (tx : Transaction)

def Action.outgoing? : Action → Option Outgoing
  | .broadcast msg => some (.message msg)
  | .gossip tx => some (.transaction tx)
  | .schedule _ _ => none
  | .applyCommit _ _ _ => none

/-- What the runner hands to the loop. -/
inductive Incoming where
  | message (msg : NetworkMessage)
  | transaction (tx : Transaction)

def incoming? {TopicHash : Type} : NetworkOutput TopicHash → Option Incoming
  | .consensus msg => some (.message msg)
  | .transaction tx => some (.transaction tx)
  | .publish _ _ => none

/-- The events of the swarm. -/
inductive SwarmEvent (PeerId TopicHash : Type) where
  | message (propagationSource : PeerId) (topic : TopicHash) (data : List UInt8)
  | connectionEstablished (peerId : PeerId) (now : UInt64)
  | connectionClosed (peerId : PeerId)
  | other

def SwarmEvent.toNetwork {PeerId TopicHash : Type} :
    SwarmEvent PeerId TopicHash → NetworkEvent PeerId TopicHash
  | .message propagationSource topic data => .message propagationSource topic data
  | .connectionEstablished peerId now => .connectionEstablished peerId now
  | .connectionClosed peerId => .connectionClosed peerId
  | .other => .otherSwarmEvent

structure Station (C : Crates) (PeerId TopicHash : Type) where
  node : Node C
  validatorCount : Nat
  genesisValidators : List Rpc.ValidatorResponse
  /-- Submitted to RPC, for the loop. -/
  txGossip : List Transaction
  /-- What the loop has still to send before its next event. -/
  sending : List Outgoing
  broadcastQueue : List ConsensusMessage
  txBroadcastQueue : List Transaction
  runner : NetworkRunner PeerId TopicHash
  /-- What the runner has still to hand over before its next event. -/
  handing : Option Incoming
  msgQueue : List NetworkMessage
  txMsgQueue : List Transaction

/-- A move of one of the tasks. -/
inductive StationEvent (PeerId TopicHash : Type) where
  /-- The loop takes up the next consensus message, a timeout, the next gossiped transaction, or
  the next submitted one. -/
  | takeMessage (env : Env)
  | takeTimeout (env : Env) (event : TimeoutEvent)
  | takeTransaction (env : Env)
  | takeGossip (env : Env)
  /-- The loop sends the next thing it has to send. -/
  | send
  /-- The runner takes up an event of the swarm, or the next thing to publish. -/
  | swarm (event : SwarmEvent PeerId TopicHash)
  | publish
  | publishTransaction
  /-- The runner hands over what it has decoded. -/
  | hand
  /-- A handler serves a request. -/
  | request (req : Rpc.Request)

/-- What can be seen of a move. -/
inductive StationOutput (TopicHash : Type) where
  | action (a : Action)
  | network (o : NetworkOutput TopicHash)
  | reply (r : Rpc.Reply)

namespace Station

variable {C : Crates} {PeerId TopicHash : Type}

/-! ## The channels -/

def outFull (s : Station C PeerId TopicHash) : Outgoing → Bool
  | .message _ => decide (channelCapacity ≤ s.broadcastQueue.length)
  | .transaction _ => decide (channelCapacity ≤ s.txBroadcastQueue.length)

def putOut (s : Station C PeerId TopicHash) : Outgoing → Station C PeerId TopicHash
  | .message msg => { s with broadcastQueue := s.broadcastQueue ++ [msg] }
  | .transaction tx => { s with txBroadcastQueue := s.txBroadcastQueue ++ [tx] }

def inFull (s : Station C PeerId TopicHash) : Incoming → Bool
  | .message _ => decide (channelCapacity ≤ s.msgQueue.length)
  | .transaction _ => decide (channelCapacity ≤ s.txMsgQueue.length)

def putIn (s : Station C PeerId TopicHash) : Incoming → Station C PeerId TopicHash
  | .message msg => { s with msgQueue := s.msgQueue ++ [msg] }
  | .transaction tx => { s with txMsgQueue := s.txMsgQueue ++ [tx] }

/-! ## The tasks -/

/-- A turn of the loop. `none` is a panic. -/
def loopTurn (s : Station C PeerId TopicHash) (e : Env × NodeEvent) :
    Option (Station C PeerId TopicHash × List (StationOutput TopicHash)) :=
  (s.node.handle e).map fun r =>
    ({ s with node := r.1, sending := r.2.filterMap Action.outgoing? }, r.2.map .action)

/-- The handlers' view. -/
def rpc (s : Station C PeerId TopicHash) : Rpc.RpcState where
  currentHeight := s.node.currentHeight
  validatorCount := s.validatorCount
  baseFee := s.node.baseFee
  mempool := s.node.mempool
  stateDb := s.node.stateDb
  blockStore := s.node.blockStore
  genesisValidators := s.genesisValidators
  txGossipTx := some s.txGossip

/-- What a handler may have changed. -/
def withRpc (s : Station C PeerId TopicHash) (r : Rpc.RpcState) : Station C PeerId TopicHash :=
  { s with
    node := { s.node with mempool := r.mempool }
    txGossip := r.txGossipTx.getD [] }

variable [DecidableEq PeerId] [DecidableEq TopicHash] (F : FileCrates) (codec : Codec PeerId)

/-- A turn of the runner. `none` where `run` returns, which it does not while the loop is there. -/
def runnerTurn (s : Station C PeerId TopicHash) (e : NetworkEvent PeerId TopicHash) :
    Option (Station C PeerId TopicHash × List (StationOutput TopicHash)) :=
  (s.runner.run codec e).map fun r =>
    ({ s with runner := r.1, handing := r.2.findSome? incoming? }, r.2.map .network)

/-- One move; `none` if the task cannot make it now. -/
def step (s : Station C PeerId TopicHash) :
    StationEvent PeerId TopicHash →
    Option (Station C PeerId TopicHash × List (StationOutput TopicHash))
  | .takeMessage env => match s.sending, s.msgQueue with
    | [], msg :: rest => loopTurn { s with msgQueue := rest } (env, .network msg.message)
    | _, _ => none
  | .takeTimeout env event => match s.sending with
    | [] => s.loopTurn (env, .timeout event)
    | _ :: _ => none
  | .takeTransaction env => match s.sending, s.txMsgQueue with
    | [], tx :: rest => loopTurn { s with txMsgQueue := rest } (env, .gossiped tx)
    | _, _ => none
  | .takeGossip env => match s.sending, s.txGossip with
    | [], tx :: rest => loopTurn { s with txGossip := rest } (env, .toGossip tx)
    | _, _ => none
  | .send => match s.sending with
    | [] => none
    | o :: rest => if s.outFull o then none else some ({ s.putOut o with sending := rest }, [])
  | .swarm event => match s.handing with
    | none => s.runnerTurn codec event.toNetwork
    | some _ => none
  | .publish => match s.handing, s.broadcastQueue with
    | none, msg :: rest => runnerTurn codec { s with broadcastQueue := rest } (.broadcast msg)
    | _, _ => none
  | .publishTransaction => match s.handing, s.txBroadcastQueue with
    | none, tx :: rest =>
      runnerTurn codec { s with txBroadcastQueue := rest } (.broadcastTransaction tx)
    | _, _ => none
  | .hand => match s.handing with
    | none => none
    | some i => if s.inFull i then none else some ({ s.putIn i with handing := none }, [])
  | .request req =>
    some (s.withRpc (s.rpc.serve C F req).1, [.reply (s.rpc.serve C F req).2])

/-- A station as it enters the loop: the start of consensus has something to send. -/
def start (node : Node C) (env : Env) (genesisValidators : List Rpc.ValidatorResponse)
    (runner : NetworkRunner PeerId TopicHash) : Station C PeerId TopicHash where
  node := (node.start env).1
  validatorCount := node.bft.validators.length
  genesisValidators := genesisValidators
  txGossip := []
  sending := (node.start env).2.filterMap Action.outgoing?
  broadcastQueue := []
  txBroadcastQueue := []
  runner := runner
  handing := none
  msgQueue := []
  txMsgQueue := []

end Station

abbrev StationHistory (C : Crates) (PeerId TopicHash : Type) :=
  List (Turn (Station C PeerId TopicHash) (StationEvent PeerId TopicHash)
    (StationOutput TopicHash))

end Trv1Chain
