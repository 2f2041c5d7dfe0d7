import Trv1Chain.Lib.Fifo
import Trv1Chain.Proof.Gossip
import Trv1Chain.Proof.SavedState
import Trv1Chain.Validator.Station

/-!
# Between the loop, the runner and RPC

The channels of a validator lose nothing, whatever the codec. What the loop broadcasts is published,
what the runner decodes is taken up, and what RPC has queued is gossiped, each in order and once
(`channels_conserve`). Something is dropped in two places only, and on purpose: the queue of
submissions when it is full, and a message that the codec refuses to write.
-/

set_option autoImplicit false

namespace Trv1Chain

open Lib Network

/-! ## What can be seen -/

def Action.message? : Action → Option ConsensusMessage
  | .broadcast msg => some msg
  | _ => none

def Action.gossiped? : Action → Option Transaction
  | .gossip tx => some tx
  | _ => none

def Outgoing.message? : Outgoing → Option ConsensusMessage
  | .message msg => some msg
  | .transaction _ => none

def Outgoing.transaction? : Outgoing → Option Transaction
  | .message _ => none
  | .transaction tx => some tx

def Incoming.message? : Incoming → Option NetworkMessage
  | .message msg => some msg
  | .transaction _ => none

def Incoming.transaction? : Incoming → Option Transaction
  | .message _ => none
  | .transaction tx => some tx

namespace StationOutput

variable {TopicHash : Type}

def action? : StationOutput TopicHash → Option Action
  | .action a => some a
  | _ => none

def network? : StationOutput TopicHash → Option (NetworkOutput TopicHash)
  | .network o => some o
  | _ => none

end StationOutput

namespace Network

variable {TopicHash : Type}

def NetworkOutput.published? [DecidableEq TopicHash] (topic : TopicHash) :
    NetworkOutput TopicHash → Option (List UInt8)
  | .publish t data => if t = topic then some data else none
  | _ => none

def NetworkOutput.message? : NetworkOutput TopicHash → Option NetworkMessage
  | .consensus msg => some msg
  | _ => none

def NetworkOutput.transaction? : NetworkOutput TopicHash → Option Transaction
  | .transaction tx => some tx
  | _ => none

end Network

/-- The transaction a request brings into the pool. -/
def Rpc.RpcState.accepted (C : Crates) (F : FileCrates) (s : Rpc.RpcState) :
    Rpc.Request → Option Transaction
  | .submitTransaction req => match decodeTransaction F req with
    | .error _ => none
    | .ok tx => match (s.mempool.addTransaction C tx).2 with
      | .ok () => some tx
      | .error _ => none
  | _ => none

def NodeEvent.toGossip? : NodeEvent → Option Transaction
  | .toGossip tx => some tx
  | _ => none

/-! ## Everything a move can do -/

namespace Station

variable {C : Crates} {PeerId TopicHash : Type}

/-- What the loop takes up, and what is left in the channels then. -/
inductive Takes (s : Station C PeerId TopicHash) :
    StationEvent PeerId TopicHash → Env × NodeEvent → Station C PeerId TopicHash → Prop
  | message (env : Env) {msg : NetworkMessage} {rest : List NetworkMessage} :
      s.msgQueue = msg :: rest →
      Takes s (.takeMessage env) (env, .network msg.message) { s with msgQueue := rest }
  | timeout (env : Env) (te : TimeoutEvent) : Takes s (.takeTimeout env te) (env, .timeout te) s
  | transaction (env : Env) {tx : Transaction} {rest : List Transaction} :
      s.txMsgQueue = tx :: rest →
      Takes s (.takeTransaction env) (env, .gossiped tx) { s with txMsgQueue := rest }
  | gossip (env : Env) {tx : Transaction} {rest : List Transaction} : s.txGossip = tx :: rest →
      Takes s (.takeGossip env) (env, .toGossip tx) { s with txGossip := rest }

/-- The same for the runner. -/
inductive Feeds (s : Station C PeerId TopicHash) :
    StationEvent PeerId TopicHash → NetworkEvent PeerId TopicHash →
    Station C PeerId TopicHash → Prop
  | swarm (event : SwarmEvent PeerId TopicHash) : Feeds s (.swarm event) event.toNetwork s
  | publish {msg : ConsensusMessage} {rest : List ConsensusMessage} :
      s.broadcastQueue = msg :: rest →
      Feeds s .publish (.broadcast msg) { s with broadcastQueue := rest }
  | publishTransaction {tx : Transaction} {rest : List Transaction} :
      s.txBroadcastQueue = tx :: rest →
      Feeds s .publishTransaction (.broadcastTransaction tx) { s with txBroadcastQueue := rest }

variable [DecidableEq PeerId] [DecidableEq TopicHash]

inductive Does (F : FileCrates) (codec : Codec PeerId) (s : Station C PeerId TopicHash) :
    StationEvent PeerId TopicHash → Station C PeerId TopicHash →
    List (StationOutput TopicHash) → Prop
  | loop {e : StationEvent PeerId TopicHash} {ne : Env × NodeEvent}
      {s₁ : Station C PeerId TopicHash} {n' : Node C} {acts : List Action} :
      s.sending = [] → Takes s e ne s₁ → s.node.handle ne = some (n', acts) →
      Does F codec s e
        { s₁ with node := n', sending := acts.filterMap Action.outgoing? } (acts.map .action)
  | send {o : Outgoing} {rest : List Outgoing} : s.sending = o :: rest → s.outFull o = false →
      Does F codec s .send { s.putOut o with sending := rest } []
  | runner {e : StationEvent PeerId TopicHash} {ne : NetworkEvent PeerId TopicHash}
      {s₁ : Station C PeerId TopicHash} {r : NetworkRunner PeerId TopicHash}
      {out : List (NetworkOutput TopicHash)} :
      s.handing = none → Feeds s e ne s₁ → s.runner.run codec ne = some (r, out) →
      Does F codec s e
        { s₁ with runner := r, handing := out.findSome? incoming? } (out.map .network)
  | hand {i : Incoming} : s.handing = some i → s.inFull i = false →
      Does F codec s .hand { s.putIn i with handing := none } []
  | request (req : Rpc.Request) :
      Does F codec s (.request req) (s.withRpc (s.rpc.serve C F req).1)
        [.reply (s.rpc.serve C F req).2]

omit [DecidableEq PeerId] [DecidableEq TopicHash] in
theorem loopTurn_some {s s' : Station C PeerId TopicHash} {ne : Env × NodeEvent}
    {out : List (StationOutput TopicHash)} (h : s.loopTurn ne = some (s', out)) :
    ∃ n' acts, s.node.handle ne = some (n', acts) ∧
      s' = { s with node := n', sending := acts.filterMap Action.outgoing? } ∧
      out = acts.map .action := by
  obtain ⟨⟨n', acts⟩, hhandle, heq⟩ := Option.map_eq_some_iff.mp h
  cases heq
  exact ⟨n', acts, hhandle, rfl, rfl⟩

theorem runnerTurn_some {codec : Codec PeerId} {s s' : Station C PeerId TopicHash}
    {ne : NetworkEvent PeerId TopicHash} {out : List (StationOutput TopicHash)}
    (h : s.runnerTurn codec ne = some (s', out)) :
    ∃ r out', s.runner.run codec ne = some (r, out') ∧
      s' = { s with runner := r, handing := out'.findSome? incoming? } ∧
      out = out'.map .network := by
  obtain ⟨⟨r, out'⟩, hrun, heq⟩ := Option.map_eq_some_iff.mp h
  cases heq
  exact ⟨r, out', hrun, rfl, rfl⟩

/-- **The list of moves is complete.** -/
theorem step_does {F : FileCrates} {codec : Codec PeerId} {s s' : Station C PeerId TopicHash}
    {e : StationEvent PeerId TopicHash} {out : List (StationOutput TopicHash)}
    (h : s.step F codec e = some (s', out)) : Does F codec s e s' out := by
  unfold step at h
  cases e with
  | takeMessage env =>
    dsimp only at h
    split at h
    · rename_i msg rest hsend hmsg
      obtain ⟨n', acts, hhandle, rfl, rfl⟩ := loopTurn_some h
      exact .loop hsend (.message env hmsg) hhandle
    · cases h
  | takeTimeout env te =>
    dsimp only at h
    split at h
    · rename_i hsend
      obtain ⟨n', acts, hhandle, rfl, rfl⟩ := loopTurn_some h
      exact .loop hsend (.timeout env te) hhandle
    · cases h
  | takeTransaction env =>
    dsimp only at h
    split at h
    · rename_i tx rest hsend htx
      obtain ⟨n', acts, hhandle, rfl, rfl⟩ := loopTurn_some h
      exact .loop hsend (.transaction env htx) hhandle
    · cases h
  | takeGossip env =>
    dsimp only at h
    split at h
    · rename_i tx rest hsend htx
      obtain ⟨n', acts, hhandle, rfl, rfl⟩ := loopTurn_some h
      exact .loop hsend (.gossip env htx) hhandle
    · cases h
  | send =>
    dsimp only at h
    split at h
    · cases h
    · rename_i o rest hsend
      split at h
      · cases h
      · rename_i hroom
        cases h
        exact .send hsend (by simpa using hroom)
  | swarm event =>
    dsimp only at h
    split at h
    · rename_i hfree
      obtain ⟨r, out', hrun, rfl, rfl⟩ := runnerTurn_some h
      exact .runner hfree (.swarm event) hrun
    · cases h
  | publish =>
    dsimp only at h
    split at h
    · rename_i msg rest hfree hmsg
      obtain ⟨r, out', hrun, rfl, rfl⟩ := runnerTurn_some h
      exact .runner hfree (.publish hmsg) hrun
    · cases h
  | publishTransaction =>
    dsimp only at h
    split at h
    · rename_i tx rest hfree htx
      obtain ⟨r, out', hrun, rfl, rfl⟩ := runnerTurn_some h
      exact .runner hfree (.publishTransaction htx) hrun
    · cases h
  | hand =>
    dsimp only at h
    split at h
    · cases h
    · rename_i i hhand
      split at h
      · cases h
      · rename_i hroom
        cases h
        exact .hand hhand (by simpa using hroom)
  | request req => cases h; exact .request req

end Station

namespace Station

/-! ## On the way -/

variable {C : Crates} {PeerId TopicHash : Type}

/-- The consensus messages on their way out, the first to go first. -/
def outbox (s : Station C PeerId TopicHash) : List ConsensusMessage :=
  s.broadcastQueue ++ s.sending.filterMap Outgoing.message?

/-- The transactions on their way out, from RPC on. -/
def txOutbox (s : Station C PeerId TopicHash) : List Transaction :=
  s.txBroadcastQueue ++ (s.sending.filterMap Outgoing.transaction? ++ s.txGossip)

def inbox (s : Station C PeerId TopicHash) : List NetworkMessage :=
  s.msgQueue ++ (s.handing.bind Incoming.message?).toList

def txInbox (s : Station C PeerId TopicHash) : List Transaction :=
  s.txMsgQueue ++ (s.handing.bind Incoming.transaction?).toList

/-- One turn of a station. -/
abbrev STurn (C : Crates) (PeerId TopicHash : Type) :=
  Turn (Station C PeerId TopicHash) (StationEvent PeerId TopicHash) (StationOutput TopicHash)

/-- What the loop broadcasts in a turn. -/
def broadcasts (τ : STurn C PeerId TopicHash) : List ConsensusMessage :=
  (τ.out.filterMap StationOutput.action?).filterMap Action.message?

/-- What RPC has let into the pool. -/
def entered (F : FileCrates) (τ : STurn C PeerId TopicHash) : List Transaction :=
  match τ.event with
  | .request req => (τ.before.rpc.accepted C F req).toList
  | _ => []

/-- What of it the queue had room for. -/
def queued (F : FileCrates) (τ : STurn C PeerId TopicHash) : List Transaction :=
  if τ.before.txGossip.length < Rpc.gossipCapacity then entered F τ else []

def published [DecidableEq TopicHash] (topic : TopicHash) (τ : STurn C PeerId TopicHash) :
    List (List UInt8) :=
  (τ.out.filterMap StationOutput.network?).filterMap (NetworkOutput.published? topic)

/-- What the runner decodes. -/
def decoded (τ : STurn C PeerId TopicHash) : List NetworkMessage :=
  (τ.out.filterMap StationOutput.network?).filterMap NetworkOutput.message?

def decodedTransactions (τ : STurn C PeerId TopicHash) : List Transaction :=
  (τ.out.filterMap StationOutput.network?).filterMap NetworkOutput.transaction?

/-- What the loop takes up. -/
def takenUp (τ : STurn C PeerId TopicHash) : List NetworkMessage :=
  match τ.event with
  | .takeMessage _ => τ.before.msgQueue.take 1
  | _ => []

def takenTransactions (τ : STurn C PeerId TopicHash) : List Transaction :=
  match τ.event with
  | .takeTransaction _ => τ.before.txMsgQueue.take 1
  | _ => []

/-! ## One turn -/

variable {s s' : Station C PeerId TopicHash} {e : StationEvent PeerId TopicHash}

@[simp] theorem broadcasts_loop (acts : List Action) :
    broadcasts ⟨s, e, s', acts.map .action⟩ = acts.filterMap Action.message? := by
  simp [broadcasts, List.filterMap_map, Function.comp_def, StationOutput.action?]

@[simp] theorem published_loop [DecidableEq TopicHash] (topic : TopicHash) (acts : List Action) :
    published topic ⟨s, e, s', acts.map .action⟩ = [] := by
  simp [published, List.filterMap_map, Function.comp_def, StationOutput.network?]

@[simp] theorem decoded_loop (acts : List Action) :
    decoded ⟨s, e, s', acts.map .action⟩ = [] := by
  simp [decoded, List.filterMap_map, Function.comp_def, StationOutput.network?]

@[simp] theorem decodedTransactions_loop (acts : List Action) :
    decodedTransactions ⟨s, e, s', acts.map .action⟩ = [] := by
  simp [decodedTransactions, List.filterMap_map, Function.comp_def, StationOutput.network?]

@[simp] theorem broadcasts_runner (out : List (NetworkOutput TopicHash)) :
    broadcasts ⟨s, e, s', out.map .network⟩ = [] := by
  simp [broadcasts, List.filterMap_map, Function.comp_def, StationOutput.action?]

@[simp] theorem published_runner [DecidableEq TopicHash] (topic : TopicHash)
    (out : List (NetworkOutput TopicHash)) :
    published topic ⟨s, e, s', out.map .network⟩ =
      out.filterMap (NetworkOutput.published? topic) := by
  simp [published, List.filterMap_map, Function.comp_def, StationOutput.network?]

@[simp] theorem decoded_runner (out : List (NetworkOutput TopicHash)) :
    decoded ⟨s, e, s', out.map .network⟩ = out.filterMap NetworkOutput.message? := by
  simp [decoded, List.filterMap_map, Function.comp_def, StationOutput.network?]

@[simp] theorem decodedTransactions_runner (out : List (NetworkOutput TopicHash)) :
    decodedTransactions ⟨s, e, s', out.map .network⟩ =
      out.filterMap NetworkOutput.transaction? := by
  simp [decodedTransactions, List.filterMap_map, Function.comp_def, StationOutput.network?]

theorem sending_messages (acts : List Action) :
    (acts.filterMap Action.outgoing?).filterMap Outgoing.message? =
      acts.filterMap Action.message? := by
  rw [List.filterMap_filterMap]
  congr 1
  funext a
  cases a <;> rfl

theorem sending_transactions (acts : List Action) :
    (acts.filterMap Action.outgoing?).filterMap Outgoing.transaction? =
      acts.filterMap Action.gossiped? := by
  rw [List.filterMap_filterMap]
  congr 1
  funext a
  cases a <;> rfl

end Station

namespace Node

variable {C : Crates} {n n' : Node C} {env : Env} {acts : List Action}

theorem gossiped_schedule (timers : List (TimeoutEvent × UInt64)) :
    (timers.map fun t => Action.schedule t.1 t.2).filterMap Action.gossiped? = [] := by
  simp [List.filterMap_map, Function.comp_def, Action.gossiped?]

theorem gossiped_broadcast (msgs : List ConsensusMessage) :
    (msgs.map Action.broadcast).filterMap Action.gossiped? = [] := by
  simp [List.filterMap_map, Function.comp_def, Action.gossiped?]

theorem Proposes.gossiped (h : Proposes n env n' acts) :
    acts.filterMap Action.gossiped? = [] := by
  cases h with
  | skip => rfl
  | propose => rfl

/-- What a turn that proposes sends: timers, the proposal, messages. -/
theorem Proposes.sent_gossiped (h : Proposes n env n' acts) (out : List ConsensusMessage) :
    ((n.processOutput out).2 ++ (acts ++ (n.processOutput out).1.map Action.broadcast)).filterMap
      Action.gossiped? = [] := by
  rw [List.filterMap_append, List.filterMap_append, h.gossiped, gossiped_broadcast]
  exact List.append_eq_nil_iff.mpr ⟨gossiped_schedule _, rfl⟩

theorem commitAndAdvance_gossiped {h : Height} {x : BlockHash}
    (hc : n.commitAndAdvance env h x = some (n', acts)) :
    acts.filterMap Action.gossiped? = [] := by
  obtain ⟨n₁, txs, msgs, timers, -, hsent, -, rfl⟩ := commitAndAdvance_spec hc
  have hnone := (proposeIfProposer_proposes (n₁.advanced h) env ⟨h.val + 1⟩ ⟨0⟩).sent_gossiped
    (n₁.bft.advanceHeight ⟨h.val + 1⟩).2
  rw [hsent] at hnone
  exact hnone

/-- A turn of the loop gossips the transaction it was woken for, and no other. -/
theorem Does.gossiped {ne : NodeEvent} (h : Does n env ne n' acts) :
    acts.filterMap Action.gossiped? = ne.toGossip?.toList := by
  cases h with
  | @answer e be m' out hcall _ _ _ =>
    have hskip : Proposes (n.withBft m') env (n.withBft m') [] := .skip
    have hnone := hskip.sent_gossiped out
    cases hcall <;> exact hnone
  | @timeout te m' out _ _ => exact (offerAfter_proposes (n.withBft m') env te).sent_gossiped out
  | commit hcall _ hc => cases hcall <;> exact commitAndAdvance_gossiped hc
  | announced hc => exact commitAndAdvance_gossiped hc
  | pool e tx he => rcases he with rfl | rfl <;> rfl
  | gossip tx => rfl
  | skip te => rfl

end Node

namespace Network.NetworkRunner

variable {PeerId TopicHash : Type} [DecidableEq PeerId] [DecidableEq TopicHash]
  {codec : Codec PeerId} {r r' : NetworkRunner PeerId TopicHash}
  {e : NetworkEvent PeerId TopicHash} {out : List (NetworkOutput TopicHash)}

/-- A turn of the runner on an event of the swarm publishes nothing, and hands on at most one
thing. -/
theorem run_swarm {event : SwarmEvent PeerId TopicHash}
    (h : r.run codec event.toNetwork = some (r', out)) :
    (∀ topic, out.filterMap (NetworkOutput.published? topic) = []) ∧
      out.filterMap NetworkOutput.message? =
        ((out.findSome? incoming?).bind Incoming.message?).toList ∧
      out.filterMap NetworkOutput.transaction? =
        ((out.findSome? incoming?).bind Incoming.transaction?).toList := by
  cases event with
  | message p topic data =>
    rcases onMessage_cases h with ⟨-, -, o, rfl, hfwd⟩ | ⟨-, -, rfl⟩ | ⟨-, -, -, rfl⟩
    · cases o with
      | consensus msg => exact ⟨fun _ => rfl, rfl, rfl⟩
      | transaction tx => exact ⟨fun _ => rfl, rfl, rfl⟩
      | publish t d => exact hfwd.elim
    · exact ⟨fun _ => rfl, rfl, rfl⟩
    · exact ⟨fun _ => rfl, rfl, rfl⟩
  | connectionEstablished p now => cases h; exact ⟨fun _ => rfl, rfl, rfl⟩
  | connectionClosed p => cases h; exact ⟨fun _ => rfl, rfl, rfl⟩
  | other => cases h; exact ⟨fun _ => rfl, rfl, rfl⟩

/-- A turn that publishes, or has nothing to publish after all, hands nothing on. -/
theorem run_publishing {topic : TopicHash} {data : Option (List UInt8)}
    (hout : out = (data.map (.publish topic)).toList) :
    out.filterMap (NetworkOutput.published? topic) = data.toList ∧
      (∀ t, topic ≠ t → out.filterMap (NetworkOutput.published? t) = []) ∧
      out.filterMap NetworkOutput.message? = [] ∧ out.filterMap NetworkOutput.transaction? = [] ∧
      out.findSome? incoming? = none := by
  subst hout
  cases data with
  | none => exact ⟨rfl, fun _ _ => rfl, rfl, rfl, rfl⟩
  | some data =>
    refine ⟨?_, fun t ht => ?_, rfl, rfl, rfl⟩
    · simp [NetworkOutput.published?]
    · simp [NetworkOutput.published?, ht]

theorem run_broadcast {msg : ConsensusMessage}
    (h : r.run codec (.broadcast msg) = some (r', out)) :
    out = ((codec.encodeConsensusMessage msg).map (.publish r.topic)).toList := by
  cases h
  rfl

theorem run_broadcastTransaction {tx : Transaction}
    (h : r.run codec (.broadcastTransaction tx) = some (r', out)) :
    out = ((codec.encodeTransaction tx).map (.publish r.txTopic)).toList := by
  cases h
  rfl

end Network.NetworkRunner

namespace Station

variable {C : Crates} {PeerId TopicHash : Type} [DecidableEq PeerId] [DecidableEq TopicHash]
  {F : FileCrates} {codec : Codec PeerId} {s s' : Station C PeerId TopicHash}
  {e : StationEvent PeerId TopicHash} {out : List (StationOutput TopicHash)}

theorem Does.topics (h : Does F codec s e s' out) :
    s'.runner.topic = s.runner.topic ∧ s'.runner.txTopic = s.runner.txTopic := by
  cases h with
  | loop _ ht _ => cases ht <;> exact ⟨rfl, rfl⟩
  | @send o => cases o <;> exact ⟨rfl, rfl⟩
  | runner _ _ hrun => exact NetworkRunner.run_topics hrun
  | @hand i => cases i <;> exact ⟨rfl, rfl⟩
  | request req => exact ⟨rfl, rfl⟩

/-- **Consensus messages out.** -/
theorem Does.outbox (hne : s.runner.txTopic ≠ s.runner.topic)
    (h : Does F codec s e s' out) :
    s.outbox.filterMap codec.encodeConsensusMessage ++
        (broadcasts ⟨s, e, s', out⟩).filterMap codec.encodeConsensusMessage =
      published s.runner.topic ⟨s, e, s', out⟩ ++
        s'.outbox.filterMap codec.encodeConsensusMessage := by
  unfold Station.outbox
  cases h with
  | loop hsend ht _ => cases ht <;> simp [hsend, sending_messages]
  | @send o rest hsend _ =>
    cases o <;> simp [hsend, putOut, List.filterMap_cons, Outgoing.message?, broadcasts, published]
  | runner _ hf hrun =>
    cases hf with
    | swarm event => simp [(NetworkRunner.run_swarm hrun).1]
    | publish hq =>
      obtain ⟨hpub, -⟩ := NetworkRunner.run_publishing (NetworkRunner.run_broadcast hrun)
      simp [hq, hpub, filterMap_cons_toList]
    | publishTransaction hq =>
      obtain ⟨-, hpub, -⟩ :=
        NetworkRunner.run_publishing (NetworkRunner.run_broadcastTransaction hrun)
      simp [hpub _ hne]
  | @hand i => cases i <;> simp [putIn, broadcasts, published]
  | request req =>
    simp [withRpc, broadcasts, published, List.filterMap_cons, StationOutput.action?,
      StationOutput.network?]

/-- **Consensus messages in.** -/
theorem Does.inbox (h : Does F codec s e s' out) :
    s.inbox ++ decoded ⟨s, e, s', out⟩ = takenUp ⟨s, e, s', out⟩ ++ s'.inbox := by
  unfold Station.inbox
  cases h with
  | loop hsend ht _ =>
    cases ht with
    | message env hq => simp [hq, takenUp]
    | _ => simp [takenUp]
  | @send o rest hsend _ =>
    cases o <;> simp [putOut, decoded, takenUp]
  | runner hfree hf hrun =>
    cases hf with
    | swarm event => simp [hfree, takenUp, (NetworkRunner.run_swarm hrun).2.1]
    | publish hq =>
      obtain ⟨-, -, hmsg, -, hnone⟩ :=
        NetworkRunner.run_publishing (NetworkRunner.run_broadcast hrun)
      simp [hfree, takenUp, hmsg, hnone]
    | publishTransaction hq =>
      obtain ⟨-, -, hmsg, -, hnone⟩ :=
        NetworkRunner.run_publishing (NetworkRunner.run_broadcastTransaction hrun)
      simp [hfree, takenUp, hmsg, hnone]
  | @hand i hhand _ => cases i <;> simp [hhand, putIn, decoded, takenUp, Incoming.message?]
  | request req => simp [withRpc, decoded, takenUp, StationOutput.network?]

/-- **Transactions in.** -/
theorem Does.txInbox (h : Does F codec s e s' out) :
    s.txInbox ++ decodedTransactions ⟨s, e, s', out⟩ =
      takenTransactions ⟨s, e, s', out⟩ ++ s'.txInbox := by
  unfold Station.txInbox
  cases h with
  | loop hsend ht _ =>
    cases ht with
    | transaction env hq => simp [hq, takenTransactions]
    | _ => simp [takenTransactions]
  | @send o rest hsend _ =>
    cases o <;> simp [putOut, decodedTransactions, takenTransactions]
  | runner hfree hf hrun =>
    cases hf with
    | swarm event => simp [hfree, takenTransactions, (NetworkRunner.run_swarm hrun).2.2]
    | publish hq =>
      obtain ⟨-, -, -, htx, hnone⟩ :=
        NetworkRunner.run_publishing (NetworkRunner.run_broadcast hrun)
      simp [hfree, takenTransactions, htx, hnone]
    | publishTransaction hq =>
      obtain ⟨-, -, -, htx, hnone⟩ :=
        NetworkRunner.run_publishing (NetworkRunner.run_broadcastTransaction hrun)
      simp [hfree, takenTransactions, htx, hnone]
  | @hand i hhand _ =>
    cases i <;> simp [hhand, putIn, decodedTransactions, takenTransactions, Incoming.transaction?]
  | request req => simp [withRpc, decodedTransactions, takenTransactions, StationOutput.network?]

omit [DecidableEq PeerId] [DecidableEq TopicHash] in
/-- What a handler does to the queue of submissions. -/
theorem serve_txGossip (req : Rpc.Request) :
    (s.withRpc (s.rpc.serve C F req).1).txGossip = s.txGossip ++
      if s.txGossip.length < Rpc.gossipCapacity then (s.rpc.accepted C F req).toList else [] := by
  cases req with
  | submitTransaction req =>
    unfold withRpc Rpc.RpcState.serve Rpc.RpcState.submitTransaction Rpc.RpcState.accepted
    dsimp only
    cases hdec : Rpc.RpcState.decodeTransaction F req with
    | error e => simp [rpc]
    | ok tx =>
      dsimp only
      unfold Rpc.RpcState.letIn
      cases hadd : s.rpc.mempool.addTransaction C tx with
      | mk pool r =>
        cases r with
        | ok u =>
          dsimp only [Rpc.RpcState.trySend, rpc]
          split <;> simp
        | error e => simp [rpc]
  | _ => simp [withRpc, Rpc.RpcState.serve, Rpc.RpcState.accepted, rpc]

/-- **Transactions out**, from RPC to the network. -/
theorem Does.txOutbox (hne : s.runner.txTopic ≠ s.runner.topic)
    (h : Does F codec s e s' out) :
    s.txOutbox.filterMap codec.encodeTransaction ++
        (queued F ⟨s, e, s', out⟩).filterMap codec.encodeTransaction =
      published s.runner.txTopic ⟨s, e, s', out⟩ ++
        s'.txOutbox.filterMap codec.encodeTransaction := by
  unfold Station.txOutbox
  cases h with
  | loop hsend ht hhandle =>
    have hgossip := (Node.handle_does hhandle).gossiped
    cases ht with
    | gossip env hq =>
      simp [hsend, hq, sending_transactions, hgossip, queued, entered, NodeEvent.toGossip?]
    | _ => simp [hsend, sending_transactions, hgossip, queued, entered, NodeEvent.toGossip?]
  | @send o rest hsend _ =>
    cases o <;>
      simp [hsend, putOut, List.filterMap_cons, Outgoing.transaction?, queued, entered, published]
  | runner _ hf hrun =>
    cases hf with
    | swarm event => simp [queued, entered, (NetworkRunner.run_swarm hrun).1]
    | publish hq =>
      obtain ⟨-, hpub, -⟩ := NetworkRunner.run_publishing (NetworkRunner.run_broadcast hrun)
      simp [queued, entered, hpub _ hne.symm]
    | publishTransaction hq =>
      obtain ⟨hpub, -⟩ :=
        NetworkRunner.run_publishing (NetworkRunner.run_broadcastTransaction hrun)
      simp [hq, queued, entered, hpub, filterMap_cons_toList]
  | @hand i => cases i <;> simp [putIn, queued, entered, published]
  | request req =>
    rw [serve_txGossip]
    simp [withRpc, queued, entered, published, StationOutput.network?]

/-! ## Whole runs -/

variable {G : Station C PeerId TopicHash → StationEvent PeerId TopicHash → Prop}
  {s₀ : Station C PeerId TopicHash} {hist : StationHistory C PeerId TopicHash}

theorem topics_of_run (hr : Run (step F codec) G s₀ hist s) :
    s.runner.topic = s₀.runner.topic ∧ s.runner.txTopic = s₀.runner.txTopic := by
  refine hr.invariant (I := fun _ s =>
    s.runner.topic = s₀.runner.topic ∧ s.runner.txTopic = s₀.runner.txTopic) ⟨rfl, rfl⟩ ?_
  intro _ s e s' out _ ih _ hs
  obtain ⟨htopic, htxTopic⟩ := (step_does hs).topics
  exact ⟨htopic.trans ih.1, htxTopic.trans ih.2⟩

theorem outbox_of_run (hne : s₀.runner.txTopic ≠ s₀.runner.topic)
    (hr : Run (step F codec) G s₀ hist s) :
    (s₀.outbox ++ gathered broadcasts hist).filterMap codec.encodeConsensusMessage =
      gathered (published s₀.runner.topic) hist ++
        s.outbox.filterMap codec.encodeConsensusMessage := by
  rw [List.filterMap_append, filterMap_gathered]
  refine Run.conserved (fun s => s.outbox.filterMap codec.encodeConsensusMessage) ?_ hr
  intro h s e s' out hr hs
  obtain ⟨htopic, htxTopic⟩ := topics_of_run hr
  rw [← htopic]
  rw [← htopic, ← htxTopic] at hne
  exact (step_does hs).outbox hne

theorem txOutbox_of_run (hne : s₀.runner.txTopic ≠ s₀.runner.topic)
    (hr : Run (step F codec) G s₀ hist s) :
    (s₀.txOutbox ++ gathered (queued F) hist).filterMap codec.encodeTransaction =
      gathered (published s₀.runner.txTopic) hist ++
        s.txOutbox.filterMap codec.encodeTransaction := by
  rw [List.filterMap_append, filterMap_gathered]
  refine Run.conserved (fun s => s.txOutbox.filterMap codec.encodeTransaction) ?_ hr
  intro h s e s' out hr hs
  obtain ⟨htopic, htxTopic⟩ := topics_of_run hr
  rw [← htxTopic]
  rw [← htopic, ← htxTopic] at hne
  exact (step_does hs).txOutbox hne

theorem inbox_of_run (hr : Run (step F codec) G s₀ hist s) :
    s₀.inbox ++ gathered decoded hist = gathered takenUp hist ++ s.inbox :=
  Run.conserved Station.inbox (fun _ hs => (step_does hs).inbox) hr

theorem txInbox_of_run (hr : Run (step F codec) G s₀ hist s) :
    s₀.txInbox ++ gathered decodedTransactions hist =
      gathered takenTransactions hist ++ s.txInbox :=
  Run.conserved Station.txInbox (fun _ hs => (step_does hs).txInbox) hr

/-- The second of two validators, just started. -/
def second : Station Crates.sample Nat Nat :=
  .start (Node.genesis Crates.sample [⟨Crates.sampleKey 1⟩, ⟨Crates.sampleKey 2⟩] (some 1)
    (some (Crates.sampleKey 2)) StateDb.new ⟨FeeConfig.default, 1⟩) Node.storedOrder []
    (.new 0 1 (-100))

/-- A codec that knows one announcement, and what the validator answers to it. -/
def answered : Codec Nat :=
  .listed (.commitBlock ⟨0⟩ .default ::
    (second.node.handle (Node.storedOrder, .network (.commitBlock ⟨0⟩ .default))).elim []
      fun r => r.2.filterMap Action.message?) [] fun p => leBytes 8 p

end Station

end Trv1Chain
