import Trv1Chain.Bft.History
import Trv1Chain.Validator.Node

/-!
# Everything one turn of the loop can do

`Node.Moves` is to the event loop what `BftStateMachine.Moves` is to the machine: a turn is a call
into the machine, with at most a proposal after it; or a commit, the machine's own or one the
network announced; or a transaction for the pool; or nothing. Every invariant of a node is read
off this list.

`Node.Does` is the same list with the actions in full, for what a node sends.
-/

set_option autoImplicit false

namespace Trv1Chain

open Lib

/-- Any action but a commit. -/
def Action.Quiet : Action → Prop
  | .applyCommit .. => False
  | _ => True

/-- A call answers with at most one message. -/
theorem BftStateMachine.Moves.out_cases {C : Crates} {m m' : BftStateMachine C} {e : BftEvent}
    {out : List ConsensusMessage} (hm : Moves m e m' out) : out = [] ∨ ∃ o, out = [o] := by
  cases hm with
  | ignore => exact Or.inl rfl
  | latePolka it v b hh hr ht hs hq => exact Or.inl rfl
  | prevote it v out hh hr ht ho => exact ho.imp id fun h => ⟨_, h⟩
  | precommit it v out hh hr ht ho => exact ho.imp id fun h => ⟨_, h⟩
  | _ => exact Or.inr ⟨_, rfl⟩

namespace Node

variable {C : Crates}

/-- The call into the machine that an event leads to. -/
inductive Calls (env : Env) : NodeEvent → BftEvent → Prop
  | proposal (p : Proposal) (block : Option Block) :
      Calls env (.network (.proposeBlock p block)) (.proposal p block)
  | prevote (v : Vote) : v.voteType = .prevote →
      Calls env (.network (.castVote v)) (.prevote env.counts v)
  | precommit (v : Vote) : v.voteType = .precommit →
      Calls env (.network (.castVote v)) (.precommit env.counts v)
  | timeout (te : TimeoutEvent) : Calls env (.timeout te) (.timeout te)

/-- The node proposes a block, or does not. -/
inductive Proposes (n : Node C) (env : Env) : Node C → List Action → Prop
  | skip : Proposes n env n []
  | propose (sk : Bytes 32) (height : Height) (round : Round) : n.signingKey = some sk →
      n.bft.isProposer = true →
      Proposes n env (n.proposeBlock env sk height round n.lastBlockHash).1
        (n.proposeBlock env sk height round n.lastBlockHash).2

/-- The node commits `x` at `h`: it applies the commit, advances the machine, and may propose. -/
inductive Commits (n : Node C) (env : Env) (h : Height) (x : BlockHash) :
    Node C → List Action → Prop
  | mk (n₁ n' : Node C) (txs : List Transaction) (proposed rest : List Action) :
      n.applyCommit env h x (n.bft.getCommittedBlock x) = some (n₁, txs) →
      Proposes (n₁.withBft (n₁.bft.advanceHeight ⟨h.val + 1⟩).1) env n' proposed →
      (∀ a ∈ rest, a.Quiet) → Commits n env h x n' (.applyCommit h x txs :: rest)

/-- What the loop sends of an answer of the machine: its timers, then its messages. -/
def sent (n : Node C) (out : List ConsensusMessage) : List Action :=
  (n.processOutput out).2 ++ (n.processOutput out).1.map .broadcast

/-- After a timeout of the precommit step, and only then, the node may propose. -/
def offerAfter (n : Node C) (env : Env) (te : TimeoutEvent) : Node C × List Action :=
  if te.step = .precommit then n.proposeIfProposer env n.bft.height n.bft.round else (n, [])

/-- One turn of the loop, with everything it sends. -/
inductive Does (n : Node C) (env : Env) : NodeEvent → Node C → List Action → Prop
  /-- A message whose call commits nothing. -/
  | answer {e : NodeEvent} {be : BftEvent} {m' : BftStateMachine C}
      {out : List ConsensusMessage} : Calls env e be → (∀ te, be ≠ .timeout te) →
      n.bft.handle be = some (m', out) → (∀ h x, .commitBlock h x ∉ out) →
      Does n env e (n.withBft m') ((n.withBft m').sent out)
  /-- A timeout, which never commits. -/
  | timeout {te : TimeoutEvent} {m' : BftStateMachine C} {out : List ConsensusMessage} :
      n.bft.onTimeout te = some (m', out) → (∀ h x, .commitBlock h x ∉ out) →
      Does n env (.timeout te) ((n.withBft m').offerAfter env te).1
        (((n.withBft m').processOutput out).2 ++ (((n.withBft m').offerAfter env te).2 ++
          ((n.withBft m').processOutput out).1.map .broadcast))
  /-- A call that commits. -/
  | commit {e : NodeEvent} {be : BftEvent} {m' : BftStateMachine C} {h : Height} {x : BlockHash}
      {n' : Node C} {acts : List Action} : Calls env e be →
      n.bft.handle be = some (m', [.commitBlock h x]) →
      (n.withBft m').commitAndAdvance env h x = some (n', acts) → Does n env e n' acts
  /-- A commit the network announced. -/
  | announced {h : Height} {x : BlockHash} {n' : Node C} {acts : List Action} :
      n.commitAndAdvance env h x = some (n', acts) →
      Does n env (.network (.commitBlock h x)) n' acts
  /-- A transaction for the pool. -/
  | pool (e : NodeEvent) (tx : Transaction) : e = .gossiped tx ∨ e = .submitted tx →
      Does n env e { n with mempool := (n.mempool.addTransaction C tx).1 } []
  | gossip (tx : Transaction) : Does n env (.toGossip tx) n [.gossip tx]
  | skip (te : TimeoutEvent) : Does n env (.network (.scheduleTimeout te)) n []

/-- One turn of the loop. -/
inductive Moves (n : Node C) (env : Env) : NodeEvent → Node C → List Action → Prop
  /-- A call that commits nothing. -/
  | call {e : NodeEvent} {be : BftEvent} {m' : BftStateMachine C} {out : List ConsensusMessage}
      {n' : Node C} {proposed acts : List Action} : Calls env e be →
      n.bft.handle be = some (m', out) → (∀ h x, .commitBlock h x ∉ out) →
      Proposes (n.withBft m') env n' proposed → (∀ a ∈ acts, a.Quiet) →
      Moves n env e n' acts
  /-- A call that commits. -/
  | commit {e : NodeEvent} {be : BftEvent} {m' : BftStateMachine C} {h : Height} {x : BlockHash}
      {n' : Node C} {acts : List Action} : Calls env e be →
      n.bft.handle be = some (m', [.commitBlock h x]) →
      Commits (n.withBft m') env h x n' acts → Moves n env e n' acts
  /-- A commit the network announced. -/
  | announced {h : Height} {x : BlockHash} {n' : Node C} {acts : List Action} :
      Commits n env h x n' acts → Moves n env (.network (.commitBlock h x)) n' acts
  /-- A transaction for the pool. -/
  | pool (e : NodeEvent) (tx : Transaction) : e = .gossiped tx ∨ e = .submitted tx →
      Moves n env e { n with mempool := (n.mempool.addTransaction C tx).1 } []
  | idle (e : NodeEvent) {acts : List Action} : (∀ a ∈ acts, a.Quiet) → Moves n env e n acts

/-- The node with a block applied, when the fee market has moved to `feeMarket`. -/
def withCommit (n : Node C) (env : Env) (height : Height) (blockHash : BlockHash)
    (block : Option Block) (feeMarket : FeeMarket) : Node C :=
  { n with
      stateDb := (StateDb.applyBlock C n.stateDb (n.committedTransactions env block).1).1
      mempool := n.mempool.removeCommitted C
        ((n.committedTransactions env block).1.map fun tx => tx.hash C)
      feeMarket := feeMarket
      currentHeight := height.val
      baseFee := feeMarket.currentBaseFee
      blockStore := n.blockStore ++
        [{ height := height.val
           timestamp := env.commitTime
           parentHash := toHex n.lastBlockHash.bytes.toList
           proposer := (n.committedTransactions env block).2
           txCount := (n.committedTransactions env block).1.length
           blockHash := toHex blockHash.bytes.toList }]
      lastBlockHash := blockHash }

/-- `apply_commit` fails where the fee market does, and nowhere else. -/
theorem applyCommit_eq (n : Node C) (env : Env) (height : Height) (blockHash : BlockHash)
    (block : Option Block) : n.applyCommit env height blockHash block =
      match n.feeMarket.updateBaseFee
        (UInt64.ofNat (n.committedTransactions env block).1.length * 21000) with
      | none => none
      | some feeMarket => some (n.withCommit env height blockHash block feeMarket,
          (n.committedTransactions env block).1) := rfl

theorem applyCommit_spec {n n' : Node C} {env : Env} {h : Height} {x : BlockHash}
    {block : Option Block} {txs : List Transaction}
    (ha : n.applyCommit env h x block = some (n', txs)) :
    txs = (n.committedTransactions env block).1 ∧ n'.stateDb = n.stateDb.executeAll txs ∧
      n'.mempool = n.mempool.removeCommitted C (txs.map fun tx => tx.hash C) ∧
      n'.bft = n.bft ∧ n'.signingKey = n.signingKey ∧ n'.lastBlockHash = x := by
  rw [applyCommit_eq] at ha
  split at ha
  · cases ha
  · cases ha
    exact ⟨rfl, StateDb.applyBlock_fst C _ _, rfl, rfl, rfl, rfl⟩

/-- With a live fee market `apply_commit` does not panic. -/
theorem applyCommit_live {n : Node C} (hl : n.feeMarket.Live) (env : Env) (h : Height)
    (x : BlockHash) (block : Option Block) :
    ∃ n' txs, n.applyCommit env h x block = some (n', txs) := by
  obtain ⟨fm, hfm, -⟩ := hl.updateBaseFee
    (UInt64.ofNat (n.committedTransactions env block).1.length * 21000)
  rw [applyCommit_eq, hfm]
  exact ⟨_, _, rfl⟩

/-- The node's own proposal goes to its machine, with a block of its own pool. -/
theorem proposeBlock_bft (n : Node C) (env : Env) (sk : Bytes 32) (height : Height)
    (round : Round) (parent : BlockHash) :
    ∃ p b, (n.proposeBlock env sk height round parent).1.bft = (n.bft.onProposal p (some b)).1 ∧
      b.transactions = n.mempool.getPendingOrdered env.proposePool 100 := ⟨_, _, rfl, rfl⟩

theorem proposeIfProposer_proposes (n : Node C) (env : Env) (height : Height) (round : Round) :
    Proposes n env (n.proposeIfProposer env height round).1
      (n.proposeIfProposer env height round).2 := by
  unfold proposeIfProposer
  cases hk : n.signingKey with
  | none => exact .skip
  | some sk =>
    dsimp only
    split
    · rename_i hp
      exact .propose sk height round hk hp
    · exact .skip

theorem Proposes.quiet {n n' : Node C} {env : Env} {acts : List Action}
    (h : Proposes n env n' acts) : ∀ a ∈ acts, a.Quiet := by
  cases h with
  | skip => intro a ha; simp at ha
  | propose sk height round hk hp =>
    intro a ha
    simp only [proposeBlock, List.mem_singleton] at ha
    rw [ha]
    trivial

/-- A message made ready is one of the machine's, signed afresh if it is a vote. -/
theorem processBftOutput_mem {sk : Option (Bytes 32)} {tc : TimeoutConfig}
    {msg : ConsensusMessage} : ∀ {msgs : List ConsensusMessage},
    msg ∈ (processBftOutput C sk tc msgs).1 → (msg ∈ msgs ∧ ∀ v, msg ≠ .castVote v) ∨
      ∃ k t, sk = some k ∧ .castVote t ∈ msgs ∧
        msg = .castVote (signVote C t.voteType t.height t.round t.blockHash k) := by
  intro msgs
  induction msgs with
  | nil => intro hmem; exact absurd hmem (by simp [processBftOutput])
  | cons first msgs ih =>
    have later : msg ∈ (processBftOutput C sk tc msgs).1 →
        (msg ∈ first :: msgs ∧ ∀ v, msg ≠ .castVote v) ∨
          ∃ k t, sk = some k ∧ .castVote t ∈ first :: msgs ∧
            msg = .castVote (signVote C t.voteType t.height t.round t.blockHash k) := by
      intro hmem
      rcases ih hmem with ⟨hmem, hv⟩ | ⟨k, t, hk, hmem, heq⟩
      · exact Or.inl ⟨List.mem_cons_of_mem _ hmem, hv⟩
      · exact Or.inr ⟨k, t, hk, List.mem_cons_of_mem _ hmem, heq⟩
    intro hmem
    unfold processBftOutput at hmem
    dsimp only at hmem
    cases first with
    | castVote template =>
      cases sk with
      | none => exact later hmem
      | some k =>
        rcases List.mem_cons.mp hmem with rfl | hmem
        · exact Or.inr ⟨k, template, rfl, List.mem_cons_self, rfl⟩
        · exact later hmem
    | scheduleTimeout te => exact later hmem
    | commitBlock h x =>
      rcases List.mem_cons.mp hmem with rfl | hmem
      · exact Or.inl ⟨List.mem_cons_self, by simp⟩
      · exact later hmem
    | proposeBlock p b =>
      rcases List.mem_cons.mp hmem with rfl | hmem
      · exact Or.inl ⟨List.mem_cons_self, by simp⟩
      · exact later hmem

theorem map_schedule_quiet (timers : List (TimeoutEvent × UInt64)) :
    ∀ a ∈ timers.map fun t => Action.schedule t.1 t.2, a.Quiet := by
  intro a ha
  obtain ⟨t, -, rfl⟩ := List.mem_map.mp ha
  trivial

theorem dispatch_quiet {env : Env} {n : Node C} : ∀ {msgs : List ConsensusMessage},
    (∀ h x, .commitBlock h x ∉ msgs) → dispatch env n msgs = some (n, msgs.map .broadcast) := by
  intro msgs
  induction msgs with
  | nil => intro _; rfl
  | cons msg msgs ih =>
    intro hno
    have htail := ih fun h x hmem => hno h x (List.mem_cons_of_mem _ hmem)
    unfold dispatch
    cases msg with
    | commitBlock h x => exact absurd List.mem_cons_self (hno h x)
    | _ => simp only [htail]; rfl

theorem map_broadcast_quiet (msgs : List ConsensusMessage) :
    ∀ a ∈ msgs.map Action.broadcast, a.Quiet := by
  intro a ha
  obtain ⟨m, -, rfl⟩ := List.mem_map.mp ha
  trivial

theorem sent_quiet (n : Node C) (out : List ConsensusMessage) : ∀ a ∈ n.sent out, a.Quiet := by
  intro a hmem
  rcases List.mem_append.mp hmem with hmem | hmem
  · exact map_schedule_quiet _ a hmem
  · exact map_broadcast_quiet _ a hmem

theorem Proposes.sent_quiet {n n' : Node C} {env : Env} {proposed : List Action}
    (hp : Proposes n env n' proposed) (out : List ConsensusMessage) :
    ∀ a ∈ (n.processOutput out).2 ++ (proposed ++ (n.processOutput out).1.map .broadcast),
      a.Quiet := by
  intro a hmem
  rcases List.mem_append.mp hmem with hmem | hmem
  · exact map_schedule_quiet _ a hmem
  rcases List.mem_append.mp hmem with hmem | hmem
  · exact hp.quiet a hmem
  · exact map_broadcast_quiet _ a hmem

/-- The node between applying a commit and proposing: its machine is at the next height. -/
def advanced (n : Node C) (h : Height) : Node C := n.withBft (n.bft.advanceHeight ⟨h.val + 1⟩).1

theorem commitAndAdvance_spec {n n' : Node C} {env : Env} {h : Height} {x : BlockHash}
    {acts : List Action} (hc : n.commitAndAdvance env h x = some (n', acts)) :
    ∃ n₁ txs msgs timers, n.applyCommit env h x (n.bft.getCommittedBlock x) = some (n₁, txs) ∧
      (n₁.advanced h).processOutput (n₁.bft.advanceHeight ⟨h.val + 1⟩).2 = (msgs, timers) ∧
      n' = ((n₁.advanced h).proposeIfProposer env ⟨h.val + 1⟩ ⟨0⟩).1 ∧
      acts = .applyCommit h x txs :: (timers ++
        (((n₁.advanced h).proposeIfProposer env ⟨h.val + 1⟩ ⟨0⟩).2 ++ msgs.map .broadcast)) := by
  unfold commitAndAdvance at hc
  cases ha : n.applyCommit env h x (n.bft.getCommittedBlock x) with
  | none => rw [ha] at hc; cases hc
  | some r =>
    obtain ⟨n₁, txs⟩ := r
    rw [ha] at hc
    obtain ⟨hn, hacts⟩ := Prod.mk.inj (Option.some.inj hc)
    exact ⟨n₁, txs, _, _, rfl, rfl, hn.symm, hacts.symm⟩

theorem commitAndAdvance_commits {n n' : Node C} {env : Env} {h : Height} {x : BlockHash}
    {acts : List Action} (hc : n.commitAndAdvance env h x = some (n', acts)) :
    Commits n env h x n' acts := by
  obtain ⟨n₁, txs, msgs, timers, ha, hsent, rfl, rfl⟩ := commitAndAdvance_spec hc
  have hprop := proposeIfProposer_proposes (n₁.advanced h) env ⟨h.val + 1⟩ ⟨0⟩
  have hquiet := hprop.sent_quiet (n₁.bft.advanceHeight ⟨h.val + 1⟩).2
  rw [hsent] at hquiet
  exact .mk n₁ _ txs _ _ ha hprop hquiet

theorem mem_processOutput {n : Node C} {h : Height} {x : BlockHash} {msgs : List ConsensusMessage}
    (hmem : .commitBlock h x ∈ (n.processOutput msgs).1) : .commitBlock h x ∈ msgs := by
  rcases processBftOutput_mem hmem with ⟨hmem, -⟩ | ⟨k, t, -, -, heq⟩
  · exact hmem
  · cases heq

theorem dispatch_commit (env : Env) (n : Node C) (h : Height) (x : BlockHash) :
    dispatch env n [.commitBlock h x] = n.commitAndAdvance env h x := by
  unfold dispatch
  dsimp only
  cases n.commitAndAdvance env h x with
  | none => rfl
  | some r => simp [dispatch]

/-- An answer of the machine without a commit is sent, and its timers started. -/
theorem afterBft_quiet {n : Node C} {env : Env} {m' : BftStateMachine C}
    {out : List ConsensusMessage} (hno : ∀ h x, .commitBlock h x ∉ out) :
    n.afterBft env (m', out) = some (n.withBft m', ((n.withBft m').processOutput out).2 ++
      ((n.withBft m').processOutput out).1.map .broadcast) := by
  unfold afterBft
  dsimp only
  rw [dispatch_quiet fun h x hmem => hno h x (mem_processOutput hmem)]
  rfl

theorem afterBft_commit (n : Node C) (env : Env) (m' : BftStateMachine C) (h : Height)
    (x : BlockHash) :
    n.afterBft env (m', [.commitBlock h x]) = (n.withBft m').commitAndAdvance env h x := by
  have hsent : (n.withBft m').processOutput [.commitBlock h x] = ([.commitBlock h x], []) := rfl
  unfold afterBft
  dsimp only
  rw [hsent]
  dsimp only
  rw [dispatch_commit]
  simp

theorem afterBft_does {n n' : Node C} {env : Env} {e : NodeEvent} {be : BftEvent}
    {m' : BftStateMachine C} {out : List ConsensusMessage} {acts : List Action}
    (hcall : Calls env e be) (hte : ∀ te, be ≠ .timeout te)
    (hs : n.bft.handle be = some (m', out)) (ha : n.afterBft env (m', out) = some (n', acts)) :
    Does n env e n' acts := by
  by_cases hno : ∀ h x, .commitBlock h x ∉ out
  · rw [afterBft_quiet hno] at ha
    cases ha
    exact .answer hcall hte hs hno
  · -- the one message of the answer is the commit
    push Not at hno
    obtain ⟨h, x, hmem⟩ := hno
    obtain rfl : out = [.commitBlock h x] := by
      rcases (BftStateMachine.handle_moves hs).out_cases with rfl | ⟨o, rfl⟩
      · simp at hmem
      · rw [List.mem_singleton.mp hmem]
    rw [afterBft_commit] at ha
    exact .commit hcall hs ha

theorem onTimeoutEvent_does {n n' : Node C} {env : Env} {te : TimeoutEvent}
    {acts : List Action} (ht : n.onTimeoutEvent env te = some (n', acts)) :
    Does n env (.timeout te) n' acts := by
  unfold onTimeoutEvent at ht
  cases hs : n.bft.onTimeout te with
  | none => rw [hs] at ht; cases ht
  | some r =>
    obtain ⟨m', out⟩ := r
    rw [hs] at ht
    dsimp only at ht
    -- none of the timeout's answers is a commit, so all of them are just sent
    have hno : ∀ h x, .commitBlock h x ∉ out := by
      intro h x hmem
      cases BftStateMachine.handle_moves (e := .timeout te) hs with
      | ignore => simp at hmem
      | proposeTimeout _ => simp at hmem
      | prevoteTimeout v _ => simp [BftStateMachine.precommitFor] at hmem
      | precommitTimeout _ => simp [BftStateMachine.startRound] at hmem
    rw [dispatch_quiet fun h x hmem => hno h x (mem_processOutput hmem)] at ht
    cases ht
    exact .timeout hs hno

/-- **The list of turns is complete**, and says all a turn sends. -/
theorem handle_does {n n' : Node C} {e : Env × NodeEvent} {acts : List Action}
    (h : n.handle e = some (n', acts)) : Does n e.1 e.2 n' acts := by
  obtain ⟨env, e⟩ := e
  cases e with
  | network msg =>
    cases msg with
    | proposeBlock p block => exact afterBft_does (.proposal p block) (by simp) rfl h
    | castVote v =>
      have h : n.onNetwork env (.castVote v) = some (n', acts) := h
      unfold onNetwork at h
      dsimp only at h
      cases ht : v.voteType with
      | prevote => rw [ht] at h; exact afterBft_does (.prevote v ht) (by simp) rfl h
      | precommit => rw [ht] at h; exact afterBft_does (.precommit v ht) (by simp) rfl h
    | commitBlock height x => exact .announced h
    | scheduleTimeout te => cases h; exact .skip te
  | timeout te => exact onTimeoutEvent_does h
  | gossiped tx => cases h; exact .pool _ tx (Or.inl rfl)
  | submitted tx => cases h; exact .pool _ tx (Or.inr rfl)
  | toGossip tx => cases h; exact .gossip tx

theorem offerAfter_proposes (n : Node C) (env : Env) (te : TimeoutEvent) :
    Proposes n env (n.offerAfter env te).1 (n.offerAfter env te).2 := by
  unfold offerAfter
  split
  · exact proposeIfProposer_proposes n env _ _
  · exact .skip

theorem Does.moves {n n' : Node C} {env : Env} {e : NodeEvent} {acts : List Action}
    (h : Does n env e n' acts) : Moves n env e n' acts := by
  cases h with
  | answer hcall _ hs hno => exact .call hcall hs hno .skip (sent_quiet _ _)
  | @timeout te m' out hs hno =>
    have hprop := offerAfter_proposes (n.withBft m') env te
    exact .call (.timeout te) hs hno hprop (hprop.sent_quiet out)
  | commit hcall hs hc => exact .commit hcall hs (commitAndAdvance_commits hc)
  | announced hc => exact .announced (commitAndAdvance_commits hc)
  | pool e tx he => exact .pool e tx he
  | gossip tx => exact .idle _ (by simp [Action.Quiet])
  | skip te => exact .idle _ (by simp)

theorem handle_moves {n n' : Node C} {e : Env × NodeEvent} {acts : List Action}
    (h : n.handle e = some (n', acts)) : Moves n e.1 e.2 n' acts := (handle_does h).moves

end Node

end Trv1Chain
