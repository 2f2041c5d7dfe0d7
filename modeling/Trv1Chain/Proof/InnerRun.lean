import Trv1Chain.Proof.Agreement
import Trv1Chain.Proof.HeldBlocks
import Trv1Chain.Validator.Offers

/-!
# The founded run inside a node

`machine_of_run` finds the run of the machine inside a run of the loop. This is the same for a node
whose input is orderly enough for the agreement theorem and whose prevoted proposals extend its
chain, and it keeps more: each hash the machine prevoted is that of a block built on a hash it had
committed one height below (`Founds`). That is so for the node's own proposals too, which are built
on the last hash the loop remembers.
-/

set_option autoImplicit false

namespace Trv1Chain

open Lib

namespace BftStateMachine

variable {C : Crates}

/-! ## Prevotes founded on commits -/

/-- The parent a block of height `h` has to name: the zero hash at height 0, and otherwise a hash
committed one height below. -/
def Builds (inner : History C) (h : Height) (parent : BlockHash) : Prop :=
  (h = ⟨0⟩ ∧ parent = BlockHash.default) ∨
    ∃ h' : Height, h.val.toNat = h'.val.toNat + 1 ∧ .commitBlock h' parent ∈ outputs inner

theorem Builds.cons {inner : History C} {h : Height} {parent : BlockHash}
    (hb : Builds inner h parent) (τ : Turn (BftStateMachine C) BftEvent ConsensusMessage) :
    Builds (τ :: inner) h parent := by
  refine hb.imp id ?_
  rintro ⟨h', hh, hmem⟩
  refine ⟨h', hh, ?_⟩
  rw [outputs_cons]
  exact List.mem_append_right _ hmem

theorem Cast.append {inner : History C} {t : VoteType} {h : Height} {r : Round}
    {x : Option BlockHash} (hc : Cast inner t h r x) (seg : History C) :
    Cast (seg ++ inner) t h r x := by
  obtain ⟨v, hv, rest⟩ := hc
  refine ⟨v, ?_, rest⟩
  rw [outputs_append]
  exact List.mem_append_right _ hv

/-- A machine run inside a node whose last hash is `last`: every hash it prevoted is that of a
block built on a commit, and so would be a block built on `last` now. -/
structure Founds (m₀ : BftStateMachine C) (last : BlockHash) (inner : History C)
    (m : BftStateMachine C) : Prop where
  run : BftRun C Network.NodeGuard m₀ inner m
  cache : m.Caches fun _ => True
  linked : Builds inner m.height last
  founded : ∀ h r x, Cast inner .prevote h r (some x) →
    ∃ b : Block, b.hash C = x ∧ b.header.height = h ∧ Builds inner h b.header.parentHash

variable {m₀ m m' : BftStateMachine C} {last : BlockHash} {inner : History C} {be : BftEvent}
  {out : List ConsensusMessage}

theorem Founds.init (hh : m₀.height = ⟨0⟩) (hc : m₀.proposedBlocks = ∅) :
    Founds m₀ BlockHash.default [] m₀ where
  run := .init
  cache := .empty hc
  linked := Or.inl ⟨hh, rfl⟩
  founded := by
    rintro h r x ⟨v, hv, -⟩
    exact absurd hv (by simp)

/-- The block of a proposal the machine accepts has the proposed hash, wherever it comes from. -/
theorem Accepts.hash_blockOf {p : Proposal} {block : Option Block} {b : Block}
    (ha : m.Accepts p block) (hc : m.Caches fun _ => True) (hb : m.blockOf p block = some b) :
    b.hash C = p.blockHash := by
  cases block with
  | none => exact (hc p.blockHash b hb).1
  | some b' =>
    cases hb
    exact ha.2.2.2.2 b rfl

/-- Any call but `advance_height`, as long as a proposal it prevotes builds on the last hash. -/
theorem Founds.call (hF : Founds m₀ last inner m) (hg : Network.NodeGuard m be)
    (hs : m.handle be = some (m', out)) (hadv : ∀ h, be ≠ .advanceHeight h)
    (hprop : ∀ p block, be = .proposal p block → m.Accepts p block →
      (m.decidePrevote p).isSome = true → ∃ b, m.blockOf p block = some b ∧
        b.header.height = m.height ∧ b.header.parentHash = last) :
    Founds m₀ last (⟨m, be, m', out⟩ :: inner) m' := by
  have hm := handle_moves hs
  refine ⟨.turn hF.run hg hs, hF.cache.step hm fun _ _ _ _ => trivial, ?_, ?_⟩
  · rw [hm.height hadv]
    exact hF.linked.cons _
  · intro h r x hcast
    rcases hcast.cases with hold | ⟨v, hv, ht, hh, hr, hb⟩
    · obtain ⟨b, hhash, hheight, hbuilds⟩ := hF.founded h r x hold
      exact ⟨b, hhash, hheight, hbuilds.cons _⟩
    · -- the call is the one that prevoted: its block is built on the last hash
      obtain ⟨p, block, hbe, ha, hvh, -, hdec⟩ := hm.of_prevote hv ht
      rw [hb] at hdec
      obtain ⟨b, hof, hheight, hparent⟩ := hprop p block hbe ha (by rw [← hdec]; rfl)
      refine ⟨b, ?_, ?_, ?_⟩
      · rw [decidePrevote_eq hdec.symm]
        exact ha.hash_blockOf hF.cache hof
      · rw [hheight, ← hvh, hh]
      · rw [hparent, ← hh, hvh]
        exact hF.linked.cons _

/-- After a commit the machine moves on, and the committed hash is the last one. -/
theorem Founds.advance {x : BlockHash} (hF : Founds m₀ last inner m)
    (hfits : m.height.val.toNat + 1 < 2 ^ 64) (hx : .commitBlock m.height x ∈ outputs inner) :
    Founds m₀ x
      (⟨m, .advanceHeight ⟨m.height.val + 1⟩, (m.advanceHeight ⟨m.height.val + 1⟩).1,
        (m.advanceHeight ⟨m.height.val + 1⟩).2⟩ :: inner)
      (m.advanceHeight ⟨m.height.val + 1⟩).1 := by
  have hsucc : (m.height.val + 1).toNat = m.height.val.toNat + 1 := toNat_add_of_fits hfits
  have hlater : m.height.val < m.height.val + 1 := by
    rw [UInt64.lt_iff_toNat_lt, hsucc]
    exact Nat.lt_succ_self _
  refine ⟨.turn hF.run ⟨hlater, trivial, by intro t v hv; cases hv⟩ rfl, .empty rfl, ?_, ?_⟩
  · refine Builds.cons (Or.inr ⟨m.height, hsucc, hx⟩) _
  · intro h r y hcast
    rcases hcast.cases with hold | ⟨v, hv, -⟩
    · obtain ⟨b, hhash, hheight, hbuilds⟩ := hF.founded h r y hold
      exact ⟨b, hhash, hheight, hbuilds.cons _⟩
    · simp [advanceHeight, startRound] at hv

/-- A commit: the call, and the advance that follows it. -/
theorem Founds.commit {it : CountOrder} {v : Vote} {x : BlockHash} (hF : Founds m₀ last inner m)
    (hg : Network.NodeGuard m (.precommit it v))
    (hs : m.handle (.precommit it v) = some (m', [.commitBlock m.height x]))
    (hfits : m.height.val.toNat + 1 < 2 ^ 64) :
    Founds m₀ x
      (⟨m', .advanceHeight ⟨m.height.val + 1⟩, (m'.advanceHeight ⟨m.height.val + 1⟩).1,
        (m'.advanceHeight ⟨m.height.val + 1⟩).2⟩ ::
        ⟨m, .precommit it v, m', [.commitBlock m.height x]⟩ :: inner)
      (m'.advanceHeight ⟨m.height.val + 1⟩).1 := by
  have hheight : m'.height = m.height := (handle_moves hs).height (by simp)
  have hcall := hF.call hg hs (by simp) (by simp)
  have hx : .commitBlock m'.height x ∈
      outputs (⟨m, .precommit it v, m', [.commitBlock m.height x]⟩ :: inner) := by
    rw [hheight, outputs_cons]
    exact List.mem_cons_self
  rw [← hheight] at hfits
  have hadv := hcall.advance hfits hx
  rwa [hheight] at hadv

end BftStateMachine

namespace Node

open BftStateMachine

variable {C : Crates} {m₀ : BftStateMachine C} {inner : History C}

/-! ## The machine of an orderly node -/

/-- What agreement asks of a node's input: no `CommitBlock` from the network, no `valid_round`,
correctly signed current votes by validators, and no counter at its end. -/
def Orderly (n : Node C) (e : Env × NodeEvent) : Prop :=
  match e.2 with
  | .network (.proposeBlock p _) => p.validRound = none
  | .network (.castVote v) => n.bft.height.val.toNat + 1 < 2 ^ 64 ∧
      (v.height = n.bft.height → v.round = n.bft.round → v.verify C = true →
        v.validator ∈ n.bft.validators)
  | .network (.commitBlock _ _) => False
  | .timeout te => n.bft.PrecommitEnds te → n.bft.round.val.toNat + 1 < 2 ^ 32
  | _ => True

instance (n : Node C) : ∀ e : Env × NodeEvent, Decidable (n.Orderly e)
  | (_, .network (.proposeBlock p _)) => inferInstanceAs (Decidable (p.validRound = none))
  | (_, .network (.castVote v)) => inferInstanceAs (Decidable
      (n.bft.height.val.toNat + 1 < 2 ^ 64 ∧ (v.height = n.bft.height → v.round = n.bft.round →
        v.verify C = true → v.validator ∈ n.bft.validators)))
  | (_, .network (.commitBlock _ _)) => inferInstanceAs (Decidable False)
  | (_, .timeout te) => inferInstanceAs (Decidable
      (n.bft.PrecommitEnds te → n.bft.round.val.toNat + 1 < 2 ^ 32))
  | (_, .network (.scheduleTimeout _)) => inferInstanceAs (Decidable True)
  | (_, .gossiped _) => inferInstanceAs (Decidable True)
  | (_, .submitted _) => inferInstanceAs (Decidable True)
  | (_, .toGossip _) => inferInstanceAs (Decidable True)

theorem Orderly.nodeGuard {n : Node C} {env : Env} {e : NodeEvent} {be : BftEvent}
    (ho : n.Orderly (env, e)) (hc : Calls env e be) : Network.NodeGuard n.bft be := by
  cases hc with
  | proposal p block => exact ⟨trivial, ho, by intro t v hv; cases hv⟩
  | prevote v ht =>
    refine ⟨trivial, trivial, ?_⟩
    intro t v' hv _ hh hr hver
    cases hv
    exact ho.2 hh hr hver
  | precommit v ht =>
    refine ⟨trivial, trivial, ?_⟩
    intro t v' hv _ hh hr hver
    cases hv
    exact ho.2 hh hr hver
  | timeout te =>
    refine ⟨?_, trivial, by intro t v hv; cases hv⟩
    intro hte hs
    exact ho ⟨hte, hs⟩

/-- Calls the node makes on its own account: no vote goes in and no commit comes out. -/
structure Silent (own : History C) : Prop where
  votes : ∀ τ ∈ own, τ.event.vote? = none
  commits : ∀ h x, .commitBlock h x ∉ outputs own

theorem Silent.nil : Silent ([] : History C) := ⟨by simp, by simp⟩

/-- A proposal of the node's own builds on its last hash. -/
theorem Proposes.founds {n n' : Node C} {env : Env} {acts : List Action}
    (hp : Proposes n env n' acts) (hF : Founds m₀ n.lastBlockHash inner n.bft) :
    ∃ own, Founds m₀ n'.lastBlockHash (own ++ inner) n'.bft ∧ Silent own := by
  cases hp with
  | skip => exact ⟨[], hF, .nil⟩
  | propose sk height round hk _ =>
    let block := buildBlock C env height n.lastBlockHash ⟨C.verifyingKey sk⟩
      (n.mempool.getPendingOrdered env.proposePool 100) n.stateDb
    let p := signProposal C height round (block.hash C) sk
    have hs : n.bft.handle (.proposal p (some block)) =
        some ((n.bft.onProposal p (some block)).1, (n.bft.onProposal p (some block)).2) := rfl
    refine ⟨[⟨n.bft, .proposal p (some block), _, _⟩], hF.call ?_ hs (by simp) ?_, ?_, ?_⟩
    · exact ⟨trivial, rfl, by intro t v hv; cases hv⟩
    · intro p' block' heq ha _
      cases heq
      exact ⟨block, rfl, ha.1, rfl⟩
    · intro τ hτ
      rw [List.mem_singleton.mp hτ]
      rfl
    · intro h x hmem
      rw [outputs_cons, outputs_nil, List.append_nil] at hmem
      obtain ⟨-, ⟨it, v, heq⟩, -⟩ := (BftStateMachine.handle_moves hs).of_commitBlock hmem
      cases heq

/-- What the calls of one turn have to do with the turn: the votes that go in are the event's, and
the votes and commits of the turn are among what comes out. -/
structure Segment (e : NodeEvent) (acts : List Action) (seg : History C) : Prop where
  votes : ∀ τ ∈ seg, ∀ t v, τ.event.vote? = some (t, v) → e = .network (.castVote v)
  sent : ∀ v ∈ votesSent acts, Cast seg v.voteType v.height v.round v.blockHash
  commits : ∀ h x, .commitBlock h x ∈ outputs seg ↔
    ∃ txs, (h, x, txs) ∈ acts.filterMap Action.commit?

/-- A turn that makes no call. -/
theorem Segment.idle {e : NodeEvent} {acts : List Action} (hv : votesSent acts = [])
    (hc : acts.filterMap Action.commit? = []) : Segment e acts ([] : History C) where
  votes := by simp
  sent := by simp [hv]
  commits := by simp [hc]

theorem Segment.own {e : NodeEvent} {acts : List Action} {seg own : History C}
    (hs : Segment e acts seg) (ho : Silent own) : Segment e acts (own ++ seg) where
  votes := by
    intro τ hτ t v hv
    rcases List.mem_append.mp hτ with hτ | hτ
    · rw [ho.votes τ hτ] at hv; cases hv
    · exact hs.votes τ hτ t v hv
  sent := fun v hv => (hs.sent v hv).append own
  commits := by
    intro h x
    rw [outputs_append, List.mem_append, ← hs.commits h x]
    exact or_iff_right (ho.commits h x)

theorem Calls.unique {env : Env} {e : NodeEvent} {be be' : BftEvent} (h : Calls env e be)
    (h' : Calls env e be') : be = be' := by
  cases h with
  | proposal p block => cases h'; rfl
  | prevote v ht =>
    cases h' with
    | prevote _ _ => rfl
    | precommit _ ht' => rw [ht] at ht'; cases ht'
  | precommit v ht =>
    cases h' with
    | prevote _ ht' => rw [ht] at ht'; cases ht'
    | precommit _ _ => rfl
  | timeout te => cases h'; rfl

/-- The call with the event, when the turn commits nothing. -/
theorem Does.segment_call {n n' : Node C} {env : Env} {e : NodeEvent} {acts : List Action}
    {be : BftEvent} {m' : BftStateMachine C} {out : List ConsensusMessage}
    (hd : Does n env e n' acts) (hcall : Calls env e be) (hs : n.bft.handle be = some (m', out))
    (hno : ∀ h x, .commitBlock h x ∉ out) (hquiet : acts.filterMap Action.commit? = []) :
    Segment e acts [⟨n.bft, be, m', out⟩] where
  votes := by
    intro τ hτ t v hv
    rw [List.mem_singleton.mp hτ] at hv
    exact (hcall.vote hv).1
  sent := by
    intro v hv
    obtain ⟨be', m'', out', t, k, hcall', hs', -, hmem, rfl⟩ := hd.vote_sent hv
    obtain rfl := hcall.unique hcall'
    rw [hs] at hs'
    cases hs'
    exact ⟨t, by simpa [outputs] using hmem, rfl, rfl, rfl, rfl⟩
  commits := by
    intro h x
    rw [outputs_cons, outputs_nil, List.append_nil, hquiet]
    exact iff_of_false (hno h x) (by simp)

/-- The call with the event, when it commits, and the advance after it. -/
theorem segment_commit {n n' : Node C} {env : Env} {e : NodeEvent} {acts : List Action}
    {be : BftEvent} {m' : BftStateMachine C} {h : Height} {x : BlockHash}
    (hcall : Calls env e be) (hc : (n.withBft m').commitAndAdvance env h x = some (n', acts)) :
    Segment e acts
      [⟨m', .advanceHeight ⟨h.val + 1⟩, (m'.advanceHeight ⟨h.val + 1⟩).1,
        (m'.advanceHeight ⟨h.val + 1⟩).2⟩, ⟨n.bft, be, m', [.commitBlock h x]⟩] where
  votes := by
    intro τ hτ t v hv
    rcases List.mem_pair.mp hτ with rfl | rfl
    · cases hv
    · exact (hcall.vote hv).1
  sent := by
    intro v hv
    exact absurd (mem_votesSent.mp hv) (not_vote_of_commit hc)
  commits := by
    intro h' x'
    obtain ⟨txs, hout, -⟩ := (commitAndAdvance_commits hc).stateDb
    rw [hout]
    simp [advanceHeight, startRound]

/-- What the node's condition on proposals says about its machine's calls. -/
theorem OffersExtend.builds {n : Node C} {env : Env} {e : NodeEvent} {be : BftEvent}
    (hx : n.OffersExtend e) (hkey : n.signingKey.isSome = true) (hc : Calls env e be) :
    ∀ p block, be = .proposal p block → n.bft.Accepts p block →
      (n.bft.decidePrevote p).isSome = true → ∃ b, n.bft.blockOf p block = some b ∧
        b.header.height = n.bft.height ∧ b.header.parentHash = n.lastBlockHash := by
  rintro p block rfl ha hdec
  cases hc
  obtain ⟨b, hof, hheight, -, hparent⟩ := hx hkey ha hdec
  exact ⟨b, hof, hheight, hparent⟩

theorem Calls.not_advance {env : Env} {e : NodeEvent} {be : BftEvent} (hc : Calls env e be) :
    ∀ h, be ≠ .advanceHeight h := by
  rintro h rfl
  cases hc

/-- **A turn of an orderly node is a segment of its machine's run**, and keeps its prevotes
founded. -/
theorem Does.segment {n n' : Node C} {env : Env} {e : NodeEvent} {acts : List Action}
    (hd : Does n env e n' acts) (ho : n.Orderly (env, e)) (hx : n.OffersExtend e)
    (hkey : n.signingKey.isSome = true) (hF : Founds m₀ n.lastBlockHash inner n.bft) :
    ∃ seg, Founds m₀ n'.lastBlockHash (seg ++ inner) n'.bft ∧ Segment e acts seg := by
  cases hd with
  | @answer _ be m' out hcall hte hs hno =>
    exact ⟨[⟨n.bft, be, m', out⟩],
      hF.call (ho.nodeGuard hcall) hs hcall.not_advance (hx.builds hkey hcall),
      (Does.answer hcall hte hs hno).segment_call hcall hs hno
        (Action.commit?_of_quiet (sent_quiet _ _))⟩
  | @timeout te m' out hs hno =>
    have hprop := offerAfter_proposes (n.withBft m') env te
    have hcall : Calls env (.timeout te) (.timeout te) := .timeout te
    obtain ⟨own, hown, hsil⟩ := hprop.founds
      (hF.call (ho.nodeGuard hcall) hs hcall.not_advance (hx.builds hkey hcall))
    refine ⟨own ++ [⟨n.bft, .timeout te, m', out⟩], ?_, ?_⟩
    · rw [List.append_assoc]
      exact hown
    · exact ((Does.timeout hs hno).segment_call hcall hs hno
        (Action.commit?_of_quiet (hprop.sent_quiet out))).own hsil
  | @commit _ be m' h x _ _ hcall hs hc =>
    -- the call, the advance to the next height, and perhaps a proposal
    obtain ⟨rfl, ⟨it, v, rfl⟩, -, -, hheight, -⟩ :=
      (BftStateMachine.handle_moves hs).of_commitBlock List.mem_cons_self
    have hadv := hF.commit (ho.nodeGuard hcall) hs (by
      obtain ⟨rfl, -⟩ := hcall.vote rfl
      exact ho.1)
    obtain ⟨n₁, txs, msgs, timers, ha, -, rfl, -⟩ := commitAndAdvance_spec hc
    have hprop := proposeIfProposer_proposes (n₁.advanced n.bft.height) env
      ⟨n.bft.height.val + 1⟩ ⟨0⟩
    have hbft : (n₁.advanced n.bft.height).bft =
        (m'.advanceHeight ⟨n.bft.height.val + 1⟩).1 := by
      unfold advanced
      rw [withBft_bft, (applyCommit_spec ha).2.2.2.1, withBft_bft]
    have hlast : (n₁.advanced n.bft.height).lastBlockHash = x := (applyCommit_spec ha).2.2.2.2.2
    obtain ⟨own, hown, hsil⟩ := hprop.founds (by rw [hbft, hlast]; exact hadv)
    refine ⟨own ++ _, ?_, (segment_commit hcall hc).own hsil⟩
    rw [List.append_assoc]
    exact hown
  | announced hc => exact ho.elim
  | pool e tx he => exact ⟨[], hF, .idle rfl rfl⟩
  | gossip tx => exact ⟨[], hF, .idle rfl rfl⟩
  | skip te => exact ⟨[], hF, .idle rfl rfl⟩

/-- The machine's run inside a node's run: it was handed the votes the node received, cast the
votes the node sent, and committed what the node committed. -/
structure Inner (m₀ : BftStateMachine C) (hist : NodeHistory C) (n : Node C)
    (inner : History C) : Prop where
  founds : Founds m₀ n.lastBlockHash inner n.bft
  key : n.signingKey.isSome = true
  received : VotesReceived inner hist
  sent : ∀ v ∈ votesSent (outputs hist), Cast inner v.voteType v.height v.round v.blockHash
  commits : ∀ h x, .commitBlock h x ∈ outputs inner ↔ ∃ txs, (h, x, txs) ∈ Node.commits hist

theorem Proposes.signingKey {n n' : Node C} {env : Env} {acts : List Action}
    (h : Proposes n env n' acts) : n'.signingKey = n.signingKey := by
  cases h with
  | skip => rfl
  | propose sk height round _ _ => rfl

theorem Commits.signingKey {n n' : Node C} {env : Env} {h : Height} {x : BlockHash}
    {acts : List Action} (hc : Commits n env h x n' acts) : n'.signingKey = n.signingKey := by
  cases hc with
  | mk n₁ _ txs proposed rest ha hp _ =>
    rw [hp.signingKey, withBft_signingKey, (applyCommit_spec ha).2.2.2.2.1]

theorem Moves.signingKey {n n' : Node C} {env : Env} {e : NodeEvent} {acts : List Action}
    (hm : Moves n env e n' acts) : n'.signingKey = n.signingKey := by
  cases hm with
  | call _ _ _ hp _ => rw [hp.signingKey, withBft_signingKey]
  | commit _ _ hc => rw [hc.signingKey, withBft_signingKey]
  | announced hc => exact hc.signingKey
  | pool e tx _ => rfl
  | idle e _ => rfl

/-- One more turn. -/
theorem Inner.turn {hist : NodeHistory C} {n n' : Node C} {e : Env × NodeEvent}
    {acts : List Action} {seg : History C} (hi : Inner m₀ hist n inner)
    (hkey : n'.signingKey = n.signingKey)
    (hF : Founds m₀ n'.lastBlockHash (seg ++ inner) n'.bft) (hseg : Segment e.2 acts seg) :
    Inner m₀ (⟨n, e, n', acts⟩ :: hist) n' (seg ++ inner) where
  founds := hF
  key := by rw [hkey]; exact hi.key
  received := by
    intro τ hτ t v hv
    rcases List.mem_append.mp hτ with hτ | hτ
    · exact ⟨_, List.mem_cons_self, hseg.votes τ hτ t v hv⟩
    · exact (hi.received τ hτ t v hv).mono (List.subset_cons_self _ _)
  sent := by
    intro v hv
    rw [mem_votesSent, outputs_cons, List.mem_append] at hv
    rcases hv with hv | hv
    · obtain ⟨w, hw, rest⟩ := hseg.sent v (mem_votesSent.mpr hv)
      exact ⟨w, by rw [outputs_append]; exact List.mem_append_left _ hw, rest⟩
    · exact (hi.sent v (mem_votesSent.mpr hv)).append seg
  commits := by
    intro h x
    rw [outputs_append, List.mem_append, hseg.commits, hi.commits, commits_cons]
    simp only [List.mem_append, exists_or]
    exact or_comm

/-- **An orderly run of a node holds a founded run of its machine.** -/
theorem inner_of_run {validators : List ValidatorId} {idx : Option Nat} {sk : Bytes 32}
    {db : StateDb} {fm : FeeMarket} {env : Env} {hist : NodeHistory C} {n : Node C}
    (hr : NodeRun C (fun n e => n.Orderly e ∧ n.OffersExtend e.2)
      ((genesis C validators idx (some sk) db fm).start env).1 hist n) :
    ∃ inner, Inner ((BftStateMachine.new C ⟨0⟩ validators idx TimeoutConfig.default).startRound
      ⟨0⟩).1 hist n inner := by
  refine hr.invariant (I := fun hist n => ∃ inner, Inner ((BftStateMachine.new C ⟨0⟩ validators idx
    TimeoutConfig.default).startRound ⟨0⟩).1 hist n inner) ?_ ?_
  · have hprop := proposeIfProposer_proposes ((genesis C validators idx (some sk) db fm).withBft
      ((genesis C validators idx (some sk) db fm).bft.startRound ⟨0⟩).1) env ⟨0⟩ ⟨0⟩
    obtain ⟨own, hown, hsil⟩ := hprop.founds (Founds.init rfl rfl)
    rw [List.append_nil] at hown
    refine ⟨own, hown, ?_, ?_, by simp [votesSent], ?_⟩
    · exact congrArg Option.isSome hprop.signingKey
    · intro τ hτ t v hv
      rw [hsil.votes τ hτ] at hv
      cases hv
    · intro h x
      exact iff_of_false (hsil.commits h x) (by simp [Node.commits])
  · rintro hist n ⟨env, e⟩ n' acts - ⟨inner, hi⟩ ⟨ho, hx⟩ hs
    obtain ⟨seg, hF, hseg⟩ := (handle_does hs).segment ho hx hi.key hi.founds
    exact ⟨seg ++ inner, hi.turn (handle_moves hs).signingKey hF hseg⟩

end Node

end Trv1Chain
