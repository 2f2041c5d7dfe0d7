import Trv1Chain.Proof.Channels

/-!
# When the loop and the runner wait for each other

The loop waits where a channel to the runner is full, and the runner waits where a channel to the
loop is. Neither takes anything out of a channel while it waits. So when both wait at once neither
moves again (`deadlock_is_forever`), and this is the only way in which the two can come to stand
still.

It does come to that. A validator answers the announcement of a commit with a proposal whenever it
leads the height that follows. A peer that goes on announcing one and the same commit fills both
directions, if the runner prefers what arrives to what it has to publish
(`announcements_deadlock`).
-/

set_option autoImplicit false

namespace Trv1Chain

open Lib Network

/-- A turn sends after it has changed the node: what it commits comes first. This is why the loop
can be modelled as changing the node at once and sending afterwards. -/
theorem Node.handle_sends_last {C : Crates} {n n' : Node C} {e : Env × NodeEvent}
    {acts : List Action} (h : n.handle e = some (n', acts)) :
    (∀ a ∈ acts, a.Quiet) ∨
      ∃ height x txs sent, acts = .applyCommit height x txs :: sent ∧ ∀ a ∈ sent, a.Quiet := by
  obtain ⟨env, e⟩ := e
  cases Node.handle_moves h with
  | call _ _ _ _ hquiet => exact .inl hquiet
  | commit _ _ hc =>
    obtain ⟨n₁, n', txs, -, sent, -, -, hquiet⟩ := hc
    exact .inr ⟨_, _, _, _, rfl, hquiet⟩
  | announced hc =>
    obtain ⟨n₁, n', txs, -, sent, -, -, hquiet⟩ := hc
    exact .inr ⟨_, _, _, _, rfl, hquiet⟩
  | pool => exact .inl (by simp)
  | idle _ hquiet => exact .inl hquiet

/-! ## Who moves -/

inductive StationTask where
  | loop
  | runner
  | rpc
  deriving DecidableEq

def StationEvent.task {PeerId TopicHash : Type} : StationEvent PeerId TopicHash → StationTask
  | .takeMessage _ | .takeTimeout _ _ | .takeTransaction _ | .takeGossip _ | .send => .loop
  | .swarm _ | .publish | .publishTransaction | .hand => .runner
  | .request _ => .rpc

namespace Station

variable {C : Crates} {PeerId TopicHash : Type}

def LoopWaits (s : Station C PeerId TopicHash) : Prop := ∃ o ∈ s.sending.head?, s.outFull o = true

def RunnerWaits (s : Station C PeerId TopicHash) : Prop := ∃ i ∈ s.handing, s.inFull i = true

def Deadlocked (s : Station C PeerId TopicHash) : Prop := s.LoopWaits ∧ s.RunnerWaits

/-- What a request leaves alone: all but the pool, and the queue of submissions. -/
def Behind (s s' : Station C PeerId TopicHash) : Prop :=
  s' = { s with node := { s.node with mempool := s'.node.mempool }, txGossip := s'.txGossip }

theorem Behind.deadlocked {s s' : Station C PeerId TopicHash} (h : s.Behind s')
    (hd : s.Deadlocked) : s'.Deadlocked := by
  rw [h]
  obtain ⟨⟨o, ho, hout⟩, i, hi, hin⟩ := hd
  refine ⟨⟨o, ho, ?_⟩, i, hi, ?_⟩
  · cases o <;> exact hout
  · cases i <;> exact hin

theorem Behind.trans {s s' s'' : Station C PeerId TopicHash} (h : s.Behind s')
    (h' : s'.Behind s'') : s.Behind s'' := by
  unfold Behind at *
  rw [h] at h'
  exact h'

variable [DecidableEq PeerId] [DecidableEq TopicHash] {F : FileCrates} {codec : Codec PeerId}

variable (F codec) in
/-- A task that has no move. -/
def Stands (s : Station C PeerId TopicHash) (task : StationTask) : Prop :=
  ∀ e : StationEvent PeerId TopicHash, e.task = task → s.step F codec e = none

/-- A timeout of another height is taken up, and changes nothing. -/
theorem handle_timeout_elsewhere (n : Node C) (env : Env) {te : TimeoutEvent}
    (hte : te.height ≠ n.bft.height) (hstep : te.step = .propose) :
    n.handle (env, .timeout te) = some (n, []) := by
  have hignored : n.bft.onTimeout te = some (n.bft, []) := if_pos (Or.inl hte)
  unfold Node.handle
  dsimp only
  unfold Node.onTimeoutEvent
  rw [hignored]
  dsimp only
  rw [if_neg (by rw [hstep]; decide)]
  rfl

/-- **When the loop stands still.** -/
theorem loop_stands_iff {s : Station C PeerId TopicHash} :
    s.Stands F codec .loop ↔ s.LoopWaits := by
  constructor
  · intro hstands
    cases hs : s.sending with
    | nil =>
      -- with nothing to send the loop takes up any timeout
      have hte : (⟨s.node.bft.height.val + 1⟩ : Height) ≠ s.node.bft.height := by
        intro heq
        have hval : s.node.bft.height.val + 1 = s.node.bft.height.val := congrArg Height.val heq
        exact absurd hval (by simp)
      have hstep := hstands (.takeTimeout Node.storedOrder
        ⟨⟨s.node.bft.height.val + 1⟩, ⟨0⟩, .propose⟩) rfl
      unfold step loopTurn at hstep
      rw [hs] at hstep
      dsimp only at hstep
      rw [handle_timeout_elsewhere _ _ hte rfl] at hstep
      cases hstep
    | cons o rest =>
      refine ⟨o, by rw [hs]; rfl, ?_⟩
      have hstep := hstands .send rfl
      unfold step at hstep
      rw [hs] at hstep
      dsimp only at hstep
      by_contra hroom
      rw [if_neg hroom] at hstep
      cases hstep
  · rintro ⟨o, ho, hfull⟩ e he
    obtain ⟨rest, hs⟩ : ∃ rest, s.sending = o :: rest := by
      cases hs : s.sending with
      | nil => rw [hs] at ho; cases ho
      | cons o' rest => rw [hs] at ho; cases ho; exact ⟨rest, rfl⟩
    cases e with
    | send => unfold step; rw [hs]; exact if_pos hfull
    | takeMessage _ | takeTimeout _ _ | takeTransaction _ | takeGossip _ =>
      unfold step; rw [hs]
    | swarm _ | publish | publishTransaction | hand | request _ => cases he

/-- **When the runner stands still.** -/
theorem runner_stands_iff {s : Station C PeerId TopicHash} :
    s.Stands F codec .runner ↔ s.RunnerWaits := by
  constructor
  · intro hstands
    cases hh : s.handing with
    | none =>
      have hstep := hstands (.swarm .other) rfl
      unfold step at hstep
      rw [hh] at hstep
      cases hstep
    | some i =>
      refine ⟨i, hh, ?_⟩
      have hstep := hstands .hand rfl
      unfold step at hstep
      rw [hh] at hstep
      dsimp only at hstep
      by_contra hroom
      rw [if_neg hroom] at hstep
      cases hstep
  · rintro ⟨i, hi, hfull⟩ e he
    have hh : s.handing = some i := hi
    cases e with
    | hand => unfold step; rw [hh]; exact if_pos hfull
    | swarm _ | publish | publishTransaction => unfold step; rw [hh]
    | takeMessage _ | takeTimeout _ _ | takeTransaction _ | takeGossip _ | send | request _ =>
      cases he

end Station

/-! ## A validator that is kept proposing -/

theorem BftStateMachine.advanceHeight_onProposal_isProposer {C : Crates} (m : BftStateMachine C)
    (p : Proposal) (block : Option Block) (h : Height) :
    ((m.onProposal p block).1.advanceHeight h).1.isProposer =
      (m.advanceHeight h).1.isProposer := by
  rw [onProposal_eq]
  split
  · cases block <;> rfl
  · rfl

/-- A validator that leads the height after `h`, and whose fee market does not panic. -/
structure Node.LeadsAfter {C : Crates} (n : Node C) (h : Height) : Prop where
  key : n.signingKey.isSome = true
  leads : (n.bft.advanceHeight ⟨h.val + 1⟩).1.isProposer = true
  live : n.feeMarket.Live

theorem Node.proposeIfProposer_granted {C : Crates} {n : Node C} {sk : Bytes 32}
    (hkey : n.signingKey = some sk) (hprop : n.bft.isProposer = true) (env : Env)
    (height : Height) (round : Round) : n.proposeIfProposer env height round =
      n.proposeBlock env sk height round n.lastBlockHash := by
  unfold proposeIfProposer
  rw [hkey]
  exact if_pos hprop

/-- It answers the announcement of a commit at `h` with one proposal, and is ready to do so
again. -/
theorem Node.LeadsAfter.announced {C : Crates} {n : Node C} {h : Height} (hn : n.LeadsAfter h)
    (env : Env) (x : BlockHash) :
    ∃ n' acts msg, n.handle (env, .network (.commitBlock h x)) = some (n', acts) ∧
      acts.filterMap Action.outgoing? = [.message msg] ∧ n'.LeadsAfter h := by
  obtain ⟨sk, hsk⟩ := Option.isSome_iff_exists.mp hn.key
  obtain ⟨fm, hfm, hlive⟩ := hn.live.updateBaseFee
    (UInt64.ofNat (n.committedTransactions env (n.bft.getCommittedBlock x)).1.length * 21000)
  have happly := n.applyCommit_eq env h x (n.bft.getCommittedBlock x)
  rw [hfm] at happly
  dsimp only at happly
  obtain ⟨⟨n', acts⟩, hcommit⟩ : ∃ r, n.commitAndAdvance env h x = some r := by
    unfold commitAndAdvance
    rw [happly]
    exact ⟨_, rfl⟩
  obtain ⟨n₁, txs, msgs, timers, happly', hsent, hn', hacts⟩ := commitAndAdvance_spec hcommit
  obtain ⟨rfl, -⟩ := Prod.mk.inj (Option.some.inj (happly.symm.trans happly'))
  -- the machine leads the height it has moved on to, so the node proposes
  rw [proposeIfProposer_granted (n := (n.withCommit env h x _ fm).advanced h) hsk hn.leads]
    at hn' hacts
  have hsend : ∃ msg, acts.filterMap Action.outgoing? = [.message msg] := by
    obtain ⟨rfl, rfl⟩ := Prod.mk.inj hsent
    rw [hacts]
    exact ⟨_, rfl⟩
  obtain ⟨msg, hsend⟩ := hsend
  refine ⟨n', acts, msg, hcommit, hsend, ?_⟩
  rw [hn']
  refine ⟨hn.key, ?_, hlive⟩
  exact (BftStateMachine.advanceHeight_onProposal_isProposer ..).trans hn.leads

namespace Station

variable {C : Crates} {PeerId TopicHash : Type} [DecidableEq PeerId] [DecidableEq TopicHash]
  {F : FileCrates} {codec : Codec PeerId}

/-- What happens while the peer sends the same bytes and the runner publishes nothing. -/
def Flood (peer : PeerId) (data : List UInt8) (s : Station C PeerId TopicHash) :
    StationEvent PeerId TopicHash → Prop
  | .swarm event => event = .message peer s.runner.topic data
  | .takeMessage _ => True
  | .send => True
  | .hand => True
  | _ => False

variable {h : Height} {x : BlockHash} {data : List UInt8} {s : Station C PeerId TopicHash}

variable (codec) in
/-- The announcement as it is handed to the loop. -/
def announcement (peer : PeerId) (h : Height) (x : BlockHash) : NetworkMessage :=
  ⟨codec.toBytes peer, .commitBlock h x⟩

variable (F) in
theorem step_announce (peer : PeerId)
    (hdata : codec.decodeConsensusMessage data = some (.commitBlock h x))
    (hopen : s.runner.msgOpen = true) (hfree : s.handing = none) :
    s.step F codec (.swarm (.message peer s.runner.topic data)) =
      some ({ s with handing := some (.message (announcement codec peer h x)) },
        [.network (.consensus (announcement codec peer h x))]) := by
  unfold step
  rw [hfree]
  dsimp only
  unfold runnerTurn SwarmEvent.toNetwork NetworkRunner.run NetworkRunner.onMessage
  dsimp only
  rw [if_pos rfl, hdata]
  dsimp only
  rw [if_pos hopen]
  rfl

theorem step_hand {msg : NetworkMessage} (hhand : s.handing = some (.message msg))
    (hroom : s.msgQueue.length < channelCapacity) :
    s.step F codec .hand =
      some ({ s with msgQueue := s.msgQueue ++ [msg], handing := none }, []) := by
  unfold step
  rw [hhand]
  dsimp only
  rw [if_neg (by simpa [inFull] using hroom)]
  rfl

variable (F) in
/-- The peer announces the commit once more, and the loop is handed it. -/
theorem deliver (peer : PeerId)
    (hdata : codec.decodeConsensusMessage data = some (.commitBlock h x))
    (hopen : s.runner.msgOpen = true) (hfree : s.handing = none)
    (hroom : s.msgQueue.length < channelCapacity) :
    ∃ hist, Run (step F codec) (Flood peer data) s hist
      { s with msgQueue := s.msgQueue ++ [announcement codec peer h x] } := by
  have hfirst := Run.turn (G := Flood peer data) .init (by exact rfl)
    (step_announce F peer hdata hopen hfree)
  have hboth := hfirst.turn (by exact trivial) (step_hand rfl hroom)
  rw [← hfree] at hboth
  exact ⟨_, hboth⟩

/-- The loop has nothing to send and nothing to take up, and the runner nothing to hand over. -/
structure Idle (s : Station C PeerId TopicHash) : Prop where
  sending : s.sending = []
  handing : s.handing = none
  msgQueue : s.msgQueue = []

theorem step_takeMessage {env : Env} {msg : NetworkMessage} {rest : List NetworkMessage}
    {n' : Node C} {acts : List Action} (hsend : s.sending = []) (hmsg : s.msgQueue = msg :: rest)
    (hhandle : s.node.handle (env, .network msg.message) = some (n', acts)) :
    s.step F codec (.takeMessage env) =
      some ({ s with
          node := n', sending := acts.filterMap Action.outgoing?, msgQueue := rest },
        acts.map .action) := by
  unfold step
  rw [hsend, hmsg]
  dsimp only
  unfold loopTurn
  rw [hhandle]
  rfl

variable (F) in
/-- One announcement taken up: there is a proposal to be sent. -/
theorem answer (peer : PeerId)
    (hdata : codec.decodeConsensusMessage data = some (.commitBlock h x))
    (hopen : s.runner.msgOpen = true) (hidle : s.Idle) (hn : s.node.LeadsAfter h) :
    ∃ hist n' msg, n'.LeadsAfter h ∧ Run (step F codec) (Flood peer data) s hist
      { s with node := n', sending := [.message msg] } := by
  obtain ⟨hist, hr⟩ := deliver F peer hdata hopen hidle.handing
    (by rw [hidle.msgQueue]; decide)
  obtain ⟨n', acts, msg, hhandle, hsend, hn'⟩ := hn.announced Node.storedOrder x
  have hall := hr.turn (by exact trivial) (step_takeMessage (s := { s with
      msgQueue := s.msgQueue ++ [announcement codec peer h x] })
    hidle.sending (by rw [hidle.msgQueue]; rfl) hhandle)
  rw [hsend, ← hidle.msgQueue] at hall
  exact ⟨_, n', msg, hn', hall⟩

theorem step_send {msg : ConsensusMessage} (hsend : s.sending = [.message msg])
    (hroom : s.broadcastQueue.length < channelCapacity) :
    s.step F codec .send =
      some ({ s with broadcastQueue := s.broadcastQueue ++ [msg], sending := [] }, []) := by
  unfold step
  rw [hsend]
  dsimp only
  rw [if_neg (by simpa [outFull] using hroom)]
  rfl

variable (F) in
/-- Announcement after announcement, until the channel to the runner is full and one more proposal
is to be sent. -/
theorem fill_broadcasts (peer : PeerId)
    (hdata : codec.decodeConsensusMessage data = some (.commitBlock h x)) (room : Nat) :
    ∀ {s : Station C PeerId TopicHash}, channelCapacity ≤ s.broadcastQueue.length + room →
      s.runner.msgOpen = true → s.Idle → s.node.LeadsAfter h →
      ∃ hist s', Run (step F codec) (Flood peer data) s hist s' ∧
        s'.LoopWaits ∧ s'.handing = none ∧ s'.runner.msgOpen = true := by
  -- on the places that are left
  induction room with
  | zero =>
    intro s hfull hopen hidle hn
    obtain ⟨hist, n', msg, -, hr⟩ := answer F peer hdata hopen hidle hn
    exact ⟨hist, _, hr, ⟨.message msg, rfl, decide_eq_true hfull⟩, hidle.handing, hopen⟩
  | succ room ih =>
    intro s hroom hopen hidle hn
    obtain ⟨hist, n', msg, hn', hr⟩ := answer F peer hdata hopen hidle hn
    by_cases hfull : channelCapacity ≤ s.broadcastQueue.length
    · exact ⟨hist, _, hr, ⟨.message msg, rfl, decide_eq_true hfull⟩, hidle.handing, hopen⟩
    have hr := hr.turn (by exact trivial) (step_send rfl (Nat.lt_of_not_le hfull))
    obtain ⟨hist', s', hr', hend⟩ := ih (s := { s with
        node := n', broadcastQueue := s.broadcastQueue ++ [msg], sending := [] })
      (by rw [List.length_append, List.length_singleton]; omega) hopen
      ⟨rfl, hidle.handing, hidle.msgQueue⟩ hn'
    exact ⟨_, s', hr.append hr', hend⟩

variable (F) in
theorem last_announcement (peer : PeerId)
    (hdata : codec.decodeConsensusMessage data = some (.commitBlock h x))
    (hfull : channelCapacity ≤ s.msgQueue.length) (hopen : s.runner.msgOpen = true)
    (hfree : s.handing = none) (hwaits : s.LoopWaits) :
    ∃ hist s', Run (step F codec) (Flood peer data) s hist s' ∧
      s'.Deadlocked := by
  refine ⟨_, _, .turn .init (by exact rfl) (step_announce F peer hdata hopen hfree), ?_, ?_⟩
  · obtain ⟨o, ho, hout⟩ := hwaits
    exact ⟨o, ho, by cases o <;> exact hout⟩
  · exact ⟨_, rfl, decide_eq_true hfull⟩

variable (F) in
/-- While the loop waits the announcements pile up, until the runner waits too. -/
theorem fill_messages (peer : PeerId)
    (hdata : codec.decodeConsensusMessage data = some (.commitBlock h x)) (room : Nat) :
    ∀ {s : Station C PeerId TopicHash}, channelCapacity ≤ s.msgQueue.length + room →
      s.runner.msgOpen = true → s.handing = none → s.LoopWaits →
      ∃ hist s', Run (step F codec) (Flood peer data) s hist s' ∧
        s'.Deadlocked := by
  induction room with
  | zero => exact last_announcement F peer hdata
  | succ room ih =>
    intro s hroom hopen hfree hwaits
    by_cases hfull : channelCapacity ≤ s.msgQueue.length
    · exact last_announcement F peer hdata hfull hopen hfree hwaits
    obtain ⟨hist, hr⟩ := deliver F peer hdata hopen hfree (Nat.lt_of_not_le hfull)
    obtain ⟨o, ho, hout⟩ := hwaits
    obtain ⟨hist', s', hr', hend⟩ := ih (s := { s with
        msgQueue := s.msgQueue ++ [announcement codec peer h x] })
      (by rw [List.length_append, List.length_singleton]; omega) hopen hfree
      ⟨o, ho, by cases o <;> exact hout⟩
    exact ⟨_, s', hr.append hr', hend⟩

/-! ## For ever -/

theorem second_idle : second.Idle := ⟨rfl, rfl, rfl⟩

/-- It leads height 1. -/
theorem second_leads : second.node.LeadsAfter ⟨0⟩ :=
  ⟨rfl, by decide, by unfold FeeMarket.Live; decide⟩

/-- **Announcements can deadlock a validator.** Whatever it has done so far, a validator that is
idle, has a key and a live fee market and leads the height after `h` can be stopped by any one peer,
with any bytes that the codec reads as the announcement of a commit at `h`, of any hash: there is a
run in which that peer does nothing but send these bytes, and at the end of which loop and runner
wait for each other. -/
theorem announcements_deadlock (peer : PeerId)
    (hdata : codec.decodeConsensusMessage data = some (.commitBlock h x)) (hidle : s.Idle)
    (hopen : s.runner.msgOpen = true) (hn : s.node.LeadsAfter h) :
    ∃ hist s', Run (step F codec) (Flood peer data) s hist s' ∧ s'.Deadlocked := by
  obtain ⟨hist, s', hr, hwaits, hfree, hopen'⟩ :=
    fill_broadcasts F peer hdata channelCapacity (Nat.le_add_left ..) hopen hidle hn
  obtain ⟨hist', s'', hr', hdead⟩ :=
    fill_messages F peer hdata channelCapacity (Nat.le_add_left ..) hopen' hfree hwaits
  exact ⟨_, s'', hr.append hr', hdead⟩

theorem answered_announcement :
    answered.decodeConsensusMessage [] = some (.commitBlock ⟨0⟩ .default) := rfl

theorem announcements_deadlock_second :
    ∃ hist s', Run (step FileCrates.sample answered) (Flood 7 []) second hist s' ∧
      s'.Deadlocked :=
  announcements_deadlock 7 answered_announcement second_idle rfl second_leads

/-- **A deadlock is for ever.** Loop and runner both stand still exactly when each waits for the
other to make room. From then on, whatever arrives, requests are all that is served: consensus, the
ledger and the channels between the two stay as they are. Only the pool still changes, and the queue
of submissions to RPC, which nobody empties any more. -/
theorem deadlock_is_forever {G : Station C PeerId TopicHash → StationEvent PeerId TopicHash → Prop}
    {s₀ s : Station C PeerId TopicHash} {hist : StationHistory C PeerId TopicHash}
    (hr : Run (step F codec) G s₀ hist s) :
    (s₀.Stands F codec .loop ∧ s₀.Stands F codec .runner ↔
      s₀.Deadlocked) ∧
    (s₀.Deadlocked →
      s.Deadlocked ∧ s₀.Behind s ∧ ∀ τ ∈ hist, τ.event.task = .rpc) := by
  refine ⟨and_congr loop_stands_iff runner_stands_iff, fun hd => ?_⟩
  have key : s₀.Behind s ∧ ∀ τ ∈ hist, τ.event.task = .rpc := by
    refine hr.invariant (I := fun hist s => s₀.Behind s ∧ ∀ τ ∈ hist, τ.event.task = .rpc)
      ⟨by rfl, by simp⟩ ?_
    intro hist s e s' out _ ih _ hstep
    have hds := ih.1.deadlocked hd
    cases e with
    | request req =>
      cases hstep
      exact ⟨ih.1.trans (by rfl), List.forall_mem_cons.mpr ⟨rfl, ih.2⟩⟩
    | takeMessage _ | takeTimeout _ _ | takeTransaction _ | takeGossip _ | send =>
      rw [loop_stands_iff.mpr hds.1 _ rfl] at hstep
      cases hstep
    | swarm _ | publish | publishTransaction | hand =>
      rw [runner_stands_iff.mpr hds.2 _ rfl] at hstep
      cases hstep
  exact ⟨key.1.deadlocked hd, key⟩

theorem deadlock_is_forever_second :
    ∃ hist s s', Run (step FileCrates.sample answered) (Flood 7 []) second hist s ∧
      s.step FileCrates.sample answered (.request .health) =
        some (s', [.reply (.health s.rpc.health)]) ∧
      s.Deadlocked ∧ s'.Deadlocked ∧ s.Behind s' := by
  obtain ⟨hist, s, hr, hwaits, hfree, hopen⟩ := fill_broadcasts FileCrates.sample 7
    answered_announcement channelCapacity (Nat.le_add_left ..) rfl second_idle second_leads
  obtain ⟨hist', s', hr', hdead⟩ := fill_messages FileCrates.sample 7 answered_announcement
    channelCapacity (Nat.le_add_left ..) hopen hfree hwaits
  have hserve : s'.step FileCrates.sample answered (.request .health) = _ := rfl
  have hlast := deadlock_is_forever (G := fun _ _ => True) (.turn .init trivial hserve)
  exact ⟨_, s', _, hr.append hr', hserve, hdead, (hlast.2 hdead).1, (hlast.2 hdead).2.1⟩

end Station

end Trv1Chain
