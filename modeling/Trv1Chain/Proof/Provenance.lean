import Trv1Chain.Lib.Team
import Trv1Chain.Proof.Channels

/-!
# Where things come from

Several validators, each with its loop, its runner and its RPC server, in any interleaving of all
their moves. Nothing that they take in from an honest peer comes from nowhere: a consensus message
that a loop takes up was broadcast by the loop of some validator, and a transaction that waits in a
pool was let in by the RPC server of some validator (`nothing_from_nowhere`). A peer is honest if it
passes on only what some runner has published.

The way from one validator to another is the channels of the first (`outbox_of_run`), the codec,
which has to read back what it has written, and the channels of the second (`inbox_of_run`).
-/

set_option autoImplicit false

namespace Trv1Chain

open Lib Network

/-! ## The pool of one node -/

namespace TransactionPool

variable {C : Crates} {pool : TransactionPool} {tx tx' : Transaction}

theorem mem_pending_insert {pool' : TransactionPool} {k : Bytes 32}
    {txs : List PendingTransaction} (hpool : pool'.bySender = pool.bySender.insert k txs)
    (h : tx ∈ pool'.pending) : tx ∈ pool.pending ∨ ∃ ptx ∈ txs, ptx.tx = tx := by
  obtain ⟨e, he, htx⟩ := List.mem_flatMap.mp h
  rw [hpool] at he
  rcases HashMap.mem_insert he with rfl | hold
  · exact .inr (List.mem_map.mp htx)
  · exact .inl (List.mem_flatMap.mpr ⟨e, hold, htx⟩)

theorem mem_pending_of_sender {k : Bytes 32} {ptx : PendingTransaction}
    (h : ptx ∈ pool.senderTxs k) : ptx.tx ∈ pool.pending := by
  obtain ⟨txs, hmem, hptx⟩ := senderTxs_of_mem h
  exact List.mem_flatMap.mpr ⟨_, hmem, List.mem_map_of_mem hptx⟩

/-- Only the transaction itself is added, and only if the pool says so. -/
theorem mem_pending_addTransaction (h : tx' ∈ (pool.addTransaction C tx).1.pending) :
    tx' ∈ pool.pending ∨ tx' = tx ∧ (pool.addTransaction C tx).2 = .ok () := by
  have hadds := addTransaction_adds C pool tx
  generalize pool.addTransaction C tx = r at h hadds
  cases hadds with
  | refused e => exact .inl h
  | limited =>
    rcases mem_pending_insert rfl h with hold | ⟨ptx, hptx, rfl⟩
    · exact .inl hold
    · exact .inl (mem_pending_of_sender hptx)
  | admitted =>
    rcases mem_pending_insert rfl h with hold | ⟨ptx, hptx, rfl⟩
    · exact .inl hold
    · rcases List.mem_append.mp hptx with hold | hnew
      · exact .inl (mem_pending_of_sender hold)
      · rw [List.mem_singleton.mp hnew]
        exact .inr ⟨rfl, rfl⟩

end TransactionPool

theorem Node.Proposes.mempool {C : Crates} {n n' : Node C} {env : Env} {acts : List Action}
    (h : Node.Proposes n env n' acts) : n'.mempool = n.mempool := by
  cases h with
  | skip => rfl
  | propose => rfl

theorem Node.Commits.pending {C : Crates} {n n' : Node C} {env : Env} {height : Height}
    {x : BlockHash} {acts : List Action} (h : Node.Commits n env height x n' acts)
    {tx : Transaction} (htx : tx ∈ n'.mempool.pending) : tx ∈ n.mempool.pending := by
  obtain ⟨n₁, n', txs, proposed, rest, happly, hprop, -⟩ := h
  rw [hprop.mempool, Node.withBft_mempool, (Node.applyCommit_spec happly).2.2.1,
    TransactionPool.pending_removeCommitted] at htx
  exact (List.mem_filter.mp htx).1

/-- A turn of the loop adds to the pool what it was woken for, and nothing else. -/
theorem Node.handle_pending {C : Crates} {n n' : Node C} {env : Env} {e : NodeEvent}
    {acts : List Action} (h : n.handle (env, e) = some (n', acts)) {tx : Transaction}
    (htx : tx ∈ n'.mempool.pending) :
    tx ∈ n.mempool.pending ∨ e = .gossiped tx ∨ e = .submitted tx := by
  cases Node.handle_moves h with
  | call _ _ _ hprop _ =>
    rw [hprop.mempool] at htx
    exact .inl htx
  | commit _ _ hc => exact .inl (hc.pending htx)
  | announced hc => exact .inl (hc.pending htx)
  | pool e tx' he =>
    rcases TransactionPool.mem_pending_addTransaction htx with hold | ⟨rfl, -⟩
    · exact .inl hold
    · exact .inr he
  | idle => exact .inl htx

/-! ## One validator -/

/-- What a runner hands on came on the topic for it, and decodes to it. -/
theorem Network.NetworkRunner.run_decodes {PeerId TopicHash : Type}
    [DecidableEq PeerId] [DecidableEq TopicHash] {codec : Codec PeerId}
    {r r' : NetworkRunner PeerId TopicHash} {e : NetworkEvent PeerId TopicHash}
    {out : List (NetworkOutput TopicHash)} (h : r.run codec e = some (r', out)) :
    (∀ msg, .consensus msg ∈ out → ∃ p data, e = .message p r.topic data ∧
      codec.decodeConsensusMessage data = some msg.message) ∧
    ∀ tx, .transaction tx ∈ out → ∃ p data, e = .message p r.txTopic data ∧
      codec.decodeTransaction data = some tx := by
  cases e with
  | message p topic data =>
    unfold run onMessage at h
    dsimp only at h
    split at h
    · rename_i htopic
      split at h
      · rename_i msg hdec
        split at h
        · cases h
          refine ⟨fun msg' hmsg => ?_, fun tx htx => by simp at htx⟩
          cases List.mem_singleton.mp hmsg
          exact ⟨p, data, by rw [htopic], hdec⟩
        · cases h
      · cases h
        exact ⟨by simp, by simp⟩
    · split at h
      · rename_i htopic
        split at h
        · rename_i tx hdec
          split at h
          · cases h
            refine ⟨fun msg hmsg => by simp at hmsg, fun tx' htx => ?_⟩
            cases List.mem_singleton.mp htx
            exact ⟨p, data, by rw [htopic], hdec⟩
          · cases h
        · cases h
          exact ⟨by simp, by simp⟩
      · cases h
        exact ⟨by simp, by simp⟩
  | broadcast msg =>
    cases h
    exact ⟨by simp, by simp⟩
  | broadcastTransaction tx =>
    cases h
    exact ⟨by simp, by simp⟩
  | _ =>
    cases h
    exact ⟨by simp, by simp⟩

namespace Station

variable {C : Crates} {PeerId TopicHash : Type} [DecidableEq PeerId] [DecidableEq TopicHash]
  {F : FileCrates} {codec : Codec PeerId}
  {G : Station C PeerId TopicHash → StationEvent PeerId TopicHash → Prop}
  {s₀ s s' : Station C PeerId TopicHash} {e : StationEvent PeerId TopicHash}
  {out : List (StationOutput TopicHash)} {hist : StationHistory C PeerId TopicHash}

omit [DecidableEq PeerId] [DecidableEq TopicHash] in
theorem serve_pending {req : Rpc.Request} {tx : Transaction}
    (h : tx ∈ (s.withRpc (s.rpc.serve C F req).1).node.mempool.pending) :
    tx ∈ s.node.mempool.pending ∨ tx ∈ s.rpc.accepted C F req := by
  cases req with
  | submitTransaction req =>
    unfold withRpc Rpc.RpcState.serve Rpc.RpcState.submitTransaction at h
    unfold Rpc.RpcState.accepted
    dsimp only at h ⊢
    cases hdec : Rpc.RpcState.decodeTransaction F req with
    | error e => rw [hdec] at h; exact .inl h
    | ok tx' =>
      rw [hdec] at h
      dsimp only at h ⊢
      have hpool : tx ∈ (s.rpc.mempool.addTransaction C tx').1.pending := by
        unfold Rpc.RpcState.letIn at h
        cases hadd : s.rpc.mempool.addTransaction C tx' with
        | mk pool r =>
          rw [hadd] at h
          cases r with
          | ok u =>
            dsimp only [Rpc.RpcState.trySend, rpc] at h
            split at h <;> exact h
          | error e => exact h
      rcases TransactionPool.mem_pending_addTransaction hpool with hold | ⟨rfl, hok⟩
      · exact .inl hold
      · rw [hok]
        exact .inr rfl
  | _ => exact .inl h

theorem Does.pending (h : Does F codec s e s' out) {tx : Transaction}
    (htx : tx ∈ s'.node.mempool.pending) : tx ∈ s.node.mempool.pending ∨
      tx ∈ takenTransactions ⟨s, e, s', out⟩ ∨ tx ∈ entered F ⟨s, e, s', out⟩ := by
  cases h with
  | loop hsend ht hhandle =>
    cases ht with
    | transaction env hq =>
      rcases Node.handle_pending hhandle htx with hold | hgossip | hsub
      · exact .inl hold
      · cases hgossip
        exact .inr (.inl (by simp [takenTransactions, hq]))
      · cases hsub
    | _ =>
      rcases Node.handle_pending hhandle htx with hold | hgossip | hsub
      · exact .inl hold
      · cases hgossip
      · cases hsub
  | @send o => cases o <;> exact .inl htx
  | runner _ hf _ => cases hf <;> exact .inl htx
  | @hand i => cases i <;> exact .inl htx
  | request req =>
    rcases serve_pending htx with hold | hnew
    · exact .inl hold
    · exact .inr (.inr (Option.mem_toList.mpr hnew))

/-- A transaction of the pool was there at the start, or taken from the runner, or let in by
RPC. -/
theorem pending_of_run (hr : Run (step F codec) G s₀ hist s) :
    ∀ tx ∈ s.node.mempool.pending, tx ∈ s₀.node.mempool.pending ∨
      tx ∈ gathered takenTransactions hist ∨ tx ∈ gathered (entered F) hist := by
  refine hr.invariant (I := fun hist s => ∀ tx ∈ s.node.mempool.pending,
    tx ∈ s₀.node.mempool.pending ∨ tx ∈ gathered takenTransactions hist ∨
      tx ∈ gathered (entered F) hist) (fun _ htx => .inl htx) ?_
  intro hist s e s' out _ ih _ hs tx htx
  rw [gathered_cons, gathered_cons, List.mem_append, List.mem_append]
  rcases (step_does hs).pending htx with hold | htaken | hentered
  · rcases ih tx hold with h₀ | htaken | hentered
    · exact .inl h₀
    · exact .inr (.inl (.inl htaken))
    · exact .inr (.inr (.inl hentered))
  · exact .inr (.inl (.inr htaken))
  · exact .inr (.inr (.inr hentered))

/-- What a turn decodes came with an event of the swarm. -/
theorem Does.decoded (h : Does F codec s e s' out) {msg : NetworkMessage}
    (hmsg : msg ∈ decoded ⟨s, e, s', out⟩) :
    ∃ p data, e = .swarm (.message p s.runner.topic data) ∧
      codec.decodeConsensusMessage data = some msg.message := by
  cases h with
  | loop => simp at hmsg
  | send => simp [Station.decoded] at hmsg
  | runner _ hf hrun =>
    rw [decoded_runner, List.mem_filterMap] at hmsg
    obtain ⟨o, ho, heq⟩ := hmsg
    cases o with
    | consensus msg' =>
      cases heq
      obtain ⟨p, data, he, hdec⟩ := (NetworkRunner.run_decodes hrun).1 msg ho
      cases hf with
      | swarm event => cases event <;> cases he; exact ⟨p, data, rfl, hdec⟩
      | publish => cases he
      | publishTransaction => cases he
    | transaction tx => cases heq
    | publish t d => cases heq
  | hand => simp [Station.decoded] at hmsg
  | request req => simp [Station.decoded, List.filterMap_cons, StationOutput.network?] at hmsg

theorem Does.decodedTransactions (h : Does F codec s e s' out) {tx : Transaction}
    (htx : tx ∈ decodedTransactions ⟨s, e, s', out⟩) :
    ∃ p data, e = .swarm (.message p s.runner.txTopic data) ∧
      codec.decodeTransaction data = some tx := by
  cases h with
  | loop => simp at htx
  | send => simp [Station.decodedTransactions] at htx
  | runner _ hf hrun =>
    rw [decodedTransactions_runner, List.mem_filterMap] at htx
    obtain ⟨o, ho, heq⟩ := htx
    cases o with
    | transaction tx' =>
      cases heq
      obtain ⟨p, data, he, hdec⟩ := (NetworkRunner.run_decodes hrun).2 tx ho
      cases hf with
      | swarm event => cases event <;> cases he; exact ⟨p, data, rfl, hdec⟩
      | publish => cases he
      | publishTransaction => cases he
    | consensus msg => cases heq
    | publish t d => cases heq
  | hand => simp [Station.decodedTransactions] at htx
  | request req =>
    simp [Station.decodedTransactions, List.filterMap_cons, StationOutput.network?] at htx

/-- What is published is published on one of the two topics. -/
theorem Does.publishes (h : Does F codec s e s' out) {topic : TopicHash}
    {data : List UInt8} (hpub : .network (.publish topic data) ∈ out) :
    topic = s.runner.topic ∨ topic = s.runner.txTopic := by
  cases h with
  | loop => simp at hpub
  | send => cases hpub
  | runner _ _ hrun =>
    obtain ⟨o, ho, heq⟩ := List.mem_map.mp hpub
    cases heq
    rcases NetworkRunner.run_publishes hrun ho with ⟨msg, -, rfl, -⟩ | ⟨tx, -, rfl, -⟩
    · exact .inl rfl
    · exact .inr rfl
  | hand => cases hpub
  | request req => simp at hpub

end Station

/-! ## Several validators -/

/-- The gossip message an event brings. -/
def StationEvent.gossip {PeerId TopicHash : Type} :
    StationEvent PeerId TopicHash → Option (PeerId × TopicHash × List UInt8)
  | .swarm (.message p topic data) => some (p, topic, data)
  | _ => none

instance {TopicHash : Type} [DecidableEq TopicHash] (x : NetworkOutput TopicHash) :
    ∀ o : StationOutput TopicHash, Decidable (o = .network x)
  | .network y => decidable_of_iff (y = x) ⟨congrArg _, StationOutput.network.inj⟩
  | .action _ => isFalse nofun
  | .reply _ => isFalse nofun

namespace Stations

variable {ι PeerId TopicHash : Type} [DecidableEq ι] {C : Crates}

abbrev History (ι : Type) (C : Crates) (PeerId TopicHash : Type) :=
  List (Turn (ι → Station C PeerId TopicHash) (ι × StationEvent PeerId TopicHash)
    (ι × StationOutput TopicHash))

/-- Every interleaving of the moves of all validators. -/
def Runs [DecidableEq PeerId] [DecidableEq TopicHash] (F : FileCrates) (codec : Codec PeerId)
    (w₀ : ι → Station C PeerId TopicHash) (hist : History ι C PeerId TopicHash)
    (w : ι → Station C PeerId TopicHash) : Prop :=
  Run (teamStep (Station.step F codec)) (fun _ _ => True) w₀ hist w

/-- The loop of some validator has broadcast this, at its start or since. -/
def Said (w₀ : ι → Station C PeerId TopicHash) (hist : History ι C PeerId TopicHash)
    (msg : ConsensusMessage) : Prop :=
  ∃ j, msg ∈ (w₀ j).outbox ++ gathered Station.broadcasts (share j hist)

/-- The RPC server of some validator has let this into the pool. -/
def Entered (F : FileCrates) (hist : History ι C PeerId TopicHash) (tx : Transaction) : Prop :=
  ∃ j, tx ∈ gathered (Station.entered F) (share j hist)

/-- A peer outside `H` has brought this. -/
def Brought (H : Set PeerId) (hist : History ι C PeerId TopicHash) (topic : TopicHash)
    (data : List UInt8) : Prop :=
  ∃ τ ∈ hist, ∃ i, ∃ p ∉ H, τ.event = (i, .swarm (.message p topic data))

/-- Validators at the start: on common topics, with nothing taken in yet. -/
structure Fresh (topic txTopic : TopicHash) (w₀ : ι → Station C PeerId TopicHash) : Prop where
  topics : ∀ i, (w₀ i).runner.topic = topic ∧ (w₀ i).runner.txTopic = txTopic
  txOutbox : ∀ i, (w₀ i).txOutbox = []
  inbox : ∀ i, (w₀ i).inbox = []
  txInbox : ∀ i, (w₀ i).txInbox = []
  pending : ∀ i, (w₀ i).node.mempool.pending = []

/-- What the peers in `H` bring has been published, on the topic it comes on. -/
def Honest (H : Set PeerId) (hist : History ι C PeerId TopicHash) : Prop :=
  ∀ τ past, τ :: past <:+ hist → ∀ m ∈ τ.event.2.gossip, m.1 ∈ H →
    ∃ o ∈ outputs past, o.2 = .network (.publish m.2.1 m.2.2)

variable {w₀ w : ι → Station C PeerId TopicHash} {hist past : History ι C PeerId TopicHash}

theorem gathered_share_subset {α : Type}
    {f : Station.STurn C PeerId TopicHash → List α} (hsuf : past <:+ hist) (j : ι) {a : α}
    (ha : a ∈ gathered f (share j past)) : a ∈ gathered f (share j hist) := by
  obtain ⟨t, ht, ha⟩ := mem_gathered.mp ha
  obtain ⟨τ, hτ, hj, rfl⟩ := mem_share.mp ht
  exact mem_gathered.mpr ⟨_, mem_share.mpr ⟨τ, hsuf.subset hτ, hj, rfl⟩, ha⟩

theorem Said.mono {msg : ConsensusMessage} (h : Said w₀ past msg) (hsuf : past <:+ hist) :
    Said w₀ hist msg := by
  obtain ⟨j, hmsg⟩ := h
  refine ⟨j, List.mem_append.mpr ?_⟩
  exact (List.mem_append.mp hmsg).imp id (gathered_share_subset hsuf j)

theorem Entered.mono {F : FileCrates} {tx : Transaction} (h : Entered F past tx)
    (hsuf : past <:+ hist) : Entered F hist tx := by
  obtain ⟨j, htx⟩ := h
  exact ⟨j, gathered_share_subset hsuf j htx⟩

variable [DecidableEq PeerId] [DecidableEq TopicHash] {F : FileCrates}
  {codec : Codec PeerId} {H : Set PeerId} {topic txTopic : TopicHash}

/-- What was published was said, or entered. -/
theorem published_origin (hne : txTopic ≠ topic) (hfresh : Fresh topic txTopic w₀)
    (hr : Runs F codec w₀ hist w) {j : ι} {t : TopicHash} {data : List UInt8}
    (hpub : (j, .network (.publish t data)) ∈ outputs hist) :
    (t = topic ∧ ∃ msg, Said w₀ hist msg ∧ codec.encodeConsensusMessage msg = some data) ∨
      (t = txTopic ∧ ∃ tx, Entered F hist tx ∧ codec.encodeTransaction tx = some data) := by
  obtain ⟨htopic, htxTopic⟩ := hfresh.topics j
  have hown := hr.share j
  obtain ⟨turn, hturn, hout⟩ := hr.mem_share_out hpub
  obtain ⟨before, -, hpast, -, hstep⟩ := hown.of_mem hturn
  have hne' : (w₀ j).runner.txTopic ≠ (w₀ j).runner.topic := by
    rw [htopic, htxTopic]
    exact hne
  have hdata : data ∈ gathered (Station.published t) (share j hist) := by
    refine mem_gathered.mpr ⟨turn, hturn, ?_⟩
    refine List.mem_filterMap.mpr ⟨.publish t data, ?_, if_pos rfl⟩
    exact List.mem_filterMap.mpr ⟨_, hout, rfl⟩
  obtain ⟨hsame, hsame'⟩ := Station.topics_of_run hpast
  rcases (Station.step_does hstep).publishes hout with ht | ht
  · -- a consensus message: through the loop's channel
    rw [hsame] at ht
    refine .inl ⟨ht.trans htopic, ?_⟩
    have hmem := List.mem_append_left ((w j).outbox.filterMap codec.encodeConsensusMessage) hdata
    rw [ht, ← Station.outbox_of_run hne' hown] at hmem
    obtain ⟨msg, hmsg, henc⟩ := List.mem_filterMap.mp hmem
    exact ⟨msg, ⟨j, hmsg⟩, henc⟩
  · -- a transaction: through the queue of submissions
    rw [hsame'] at ht
    refine .inr ⟨ht.trans htxTopic, ?_⟩
    have hmem := List.mem_append_left ((w j).txOutbox.filterMap codec.encodeTransaction) hdata
    rw [ht, ← Station.txOutbox_of_run hne' hown, hfresh.txOutbox, List.nil_append] at hmem
    obtain ⟨tx, htx, henc⟩ := List.mem_filterMap.mp hmem
    obtain ⟨σ, hσ, htx⟩ := mem_gathered.mp htx
    refine ⟨tx, ⟨j, mem_gathered.mpr ⟨σ, hσ, ?_⟩⟩, henc⟩
    unfold Station.queued at htx
    split at htx
    · exact htx
    · cases htx

/-- What was decoded was said, or was brought by a peer outside `H`. -/
theorem decoded_origin (hcodec : codec.ReadsBack) (hne : txTopic ≠ topic)
    (hfresh : Fresh topic txTopic w₀) (hr : Runs F codec w₀ hist w) (hh : Honest H hist) {i : ι}
    {msg : NetworkMessage} (hmsg : msg ∈ gathered Station.decoded (share i hist)) :
    Said w₀ hist msg.message ∨ ∃ data, Brought H hist topic data ∧
      codec.decodeConsensusMessage data = some msg.message := by
  obtain ⟨t, ht, hmsg⟩ := mem_gathered.mp hmsg
  obtain ⟨before, -, hpast, -, hstep⟩ := (hr.share i).of_mem ht
  obtain ⟨p, data, he, hdec⟩ := (Station.step_does hstep).decoded hmsg
  obtain ⟨τ, hτ, rfl, rfl⟩ := mem_share.mp ht
  rw [(Station.topics_of_run hpast).1, (hfresh.topics _).1] at he
  have hevent : τ.event = (τ.event.1, .swarm (.message p topic data)) := Prod.ext rfl he
  by_cases hp : p ∈ H
  · obtain ⟨past, hsuf, hbefore, -, -⟩ := hr.of_mem hτ
    obtain ⟨⟨j, _⟩, hpub, rfl⟩ :=
      hh τ past hsuf (p, topic, data) (by rw [hevent]; rfl) hp
    rcases published_origin hne hfresh hbefore hpub with ⟨-, said, hsaid, henc⟩ | ⟨ht, -⟩
    · obtain rfl : said = msg.message :=
        Option.some.inj ((hcodec.consensusMessage henc).symm.trans hdec)
      exact .inl (hsaid.mono ((List.suffix_cons τ past).trans hsuf))
    · exact absurd ht.symm hne
  · exact .inr ⟨data, ⟨τ, hτ, _, p, hp, hevent⟩, hdec⟩

theorem decodedTransactions_origin (hcodec : codec.ReadsBack) (hne : txTopic ≠ topic)
    (hfresh : Fresh topic txTopic w₀) (hr : Runs F codec w₀ hist w) (hh : Honest H hist) {i : ι}
    {tx : Transaction} (htx : tx ∈ gathered Station.decodedTransactions (share i hist)) :
    Entered F hist tx ∨ ∃ data, Brought H hist txTopic data ∧
      codec.decodeTransaction data = some tx := by
  obtain ⟨t, ht, htx⟩ := mem_gathered.mp htx
  obtain ⟨before, -, hpast, -, hstep⟩ := (hr.share i).of_mem ht
  obtain ⟨p, data, he, hdec⟩ := (Station.step_does hstep).decodedTransactions htx
  obtain ⟨τ, hτ, rfl, rfl⟩ := mem_share.mp ht
  rw [(Station.topics_of_run hpast).2, (hfresh.topics _).2] at he
  have hevent : τ.event = (τ.event.1, .swarm (.message p txTopic data)) := Prod.ext rfl he
  by_cases hp : p ∈ H
  · obtain ⟨past, hsuf, hbefore, -, -⟩ := hr.of_mem hτ
    obtain ⟨⟨j, _⟩, hpub, rfl⟩ :=
      hh τ past hsuf (p, txTopic, data) (by rw [hevent]; rfl) hp
    rcases published_origin hne hfresh hbefore hpub with ⟨ht, -⟩ | ⟨-, sold, hentered, henc⟩
    · exact absurd ht hne
    · obtain rfl : sold = tx := Option.some.inj ((hcodec.transaction henc).symm.trans hdec)
      exact .inl (hentered.mono ((List.suffix_cons τ past).trans hsuf))
  · exact .inr ⟨data, ⟨τ, hτ, _, p, hp, hevent⟩, hdec⟩

/-- **Nothing comes from nowhere.** With a codec that reads back what it has written, at every
moment, in every interleaving of the moves of all validators: a consensus message that waits for a
loop was broadcast by the loop of some validator, and a transaction that waits in a pool was let in
by the RPC server of some validator, unless a peer outside `H` has brought it. -/
theorem nothing_from_nowhere (hcodec : codec.ReadsBack) (hne : txTopic ≠ topic)
    (hfresh : Fresh topic txTopic w₀) (hr : Runs F codec w₀ hist w) (hh : Honest H hist) :
    (∀ i, ∀ msg ∈ (w i).inbox, Said w₀ hist msg.message ∨
      ∃ data, Brought H hist topic data ∧
        codec.decodeConsensusMessage data = some msg.message) ∧
    ∀ i, ∀ tx ∈ (w i).node.mempool.pending, Entered F hist tx ∨
      ∃ data, Brought H hist txTopic data ∧ codec.decodeTransaction data = some tx := by
  constructor
  · intro i msg hmsg
    have hall := Station.inbox_of_run (hr.share i)
    rw [hfresh.inbox, List.nil_append] at hall
    refine decoded_origin hcodec hne hfresh hr hh (i := i) ?_
    rw [hall]
    exact List.mem_append_right _ hmsg
  · intro i tx htx
    rcases Station.pending_of_run (hr.share i) tx htx with h₀ | htaken | hentered
    · rw [hfresh.pending] at h₀
      cases h₀
    · have hall := Station.txInbox_of_run (hr.share i)
      rw [hfresh.txInbox, List.nil_append] at hall
      refine decodedTransactions_origin hcodec hne hfresh hr hh (i := i) ?_
      rw [hall]
      exact List.mem_append_left _ htaken
    · exact .inl ⟨i, hentered⟩

/-! ## A network of two -/

/-- The second and the third of three validators, just started. -/
def lastTwo (third : Bool) : Station Crates.sample Nat Nat :=
  .start (Node.genesis Crates.sample
    [⟨Crates.sampleKey 1⟩, ⟨Crates.sampleKey 2⟩, ⟨Crates.sampleKey 3⟩]
    (some (if third then 2 else 1)) (some (Crates.sampleKey (if third then 3 else 2)))
    StateDb.new ⟨FeeConfig.default, 1⟩) Node.storedOrder [] (.new 0 1 (-100))

def signedTransfer : Transaction :=
  let tx : Transaction := ⟨Crates.sampleKey 1, Crates.sampleKey 2, 10, 0, [], []⟩
  { tx with signature := (Crates.sample.sign (Crates.sampleKey 1)
      (buildSigningMessage Crates.sample tx).toList).toList }

def signedRequest : Rpc.SubmitTransactionRequest where
  sender := toHex signedTransfer.sender.toList
  recipient := toHex signedTransfer.recipient.toList
  amount := signedTransfer.amount
  nonce := signedTransfer.nonce
  signature := toHex signedTransfer.signature
  data := toHex signedTransfer.data

/-- A codec that knows the transfer. -/
def transferCodec : Codec Nat := .listed [] [signedTransfer] fun p => leBytes 8 p

/-- A transfer is submitted to one validator and reaches the other through peer 7. -/
def oneTransfer : List (Bool × StationEvent Nat Nat) :=
  [(false, .request (.submitTransaction signedRequest)), (false, .takeGossip Node.storedOrder),
    (false, .send), (false, .publishTransaction), (true, .swarm (.message 7 1 [])), (true, .hand),
    (true, .takeTransaction Node.storedOrder)]

theorem nothing_from_nowhere_two :
    ∃ hist w, Runs FileCrates.sample transferCodec lastTwo hist w ∧
      ∃ tx ∈ (w true).node.mempool.pending, Entered FileCrates.sample hist tx := by
  obtain ⟨hist, w, hr, htx, hrelayed⟩ : ∃ hist w,
      Runs FileCrates.sample transferCodec lastTwo hist w ∧
      (w true).node.mempool.pending = [signedTransfer] ∧
      ∀ τ past, τ :: past <:+ hist → ∀ m ∈ τ.event.2.gossip,
        ∃ o ∈ outputs past, o.2 = .network (.publish m.2.1 m.2.2) :=
    Run.exists_of_replay oneTransfer (by decide +kernel)
  have hhonest : Honest Set.univ hist := fun τ past hsuf m hm _ => hrelayed τ past hsuf m hm
  have hfresh : Fresh 0 1 lastTwo := by
    refine ⟨fun i => ⟨rfl, rfl⟩, ?_, ?_, ?_, ?_⟩ <;> intro i <;> cases i <;> rfl
  have hpending : signedTransfer ∈ (w true).node.mempool.pending := by
    rw [htx]
    exact List.mem_singleton_self _
  have horigin := nothing_from_nowhere (Codec.listed_readsBack _ _ _) (by decide) hfresh hr hhonest
  rcases horigin.2 true _ hpending with hfrom | ⟨data, ⟨_, _, _, p, hp, _⟩, _⟩
  · exact ⟨hist, w, hr, _, hpending, hfrom⟩
  · exact absurd (Set.mem_univ p) hp

end Stations

end Trv1Chain
