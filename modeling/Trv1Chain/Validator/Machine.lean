import Trv1Chain.Validator.Turns

/-!
# The machine inside the loop

The loop owns its state machine and reaches it through calls alone, so a run of the loop holds a
run of the machine (`machine_of_run`): what is known of every run of the machine is known of every
node. The votes of that inner run are the votes that came from the network, which is what ties a
quorum in the machine to messages the node received.
-/

set_option autoImplicit false

namespace Trv1Chain

open Lib

/-- The commit an action is, if it is one. -/
def Action.commit? : Action → Option (Height × BlockHash × List Transaction)
  | .applyCommit h x txs => some (h, x, txs)
  | _ => none

theorem Action.commit?_of_quiet {acts : List Action} (h : ∀ a ∈ acts, a.Quiet) :
    acts.filterMap Action.commit? = [] := by
  rw [List.filterMap_eq_nil_iff]
  intro a ha
  have := h a ha
  cases a with
  | applyCommit h x txs => exact absurd this (by simp [Action.Quiet])
  | broadcast m => rfl
  | gossip tx => rfl
  | schedule te d => rfl

namespace Node

variable {C : Crates}

abbrev NodeHistory (C : Crates) := List (Turn (Node C) (Env × NodeEvent) Action)

abbrev NodeRun (C : Crates) (G : Node C → Env × NodeEvent → Prop) (n₀ : Node C) :
    NodeHistory C → Node C → Prop := Run handle G n₀

/-- The commits of a run in order: height, hash, and the transactions executed. -/
def commits (hist : NodeHistory C) : List (Height × BlockHash × List Transaction) :=
  (chronicle hist).filterMap Action.commit?

theorem commits_cons (τ : Turn (Node C) (Env × NodeEvent) Action) (hist : NodeHistory C) :
    commits (τ :: hist) = commits hist ++ τ.out.filterMap Action.commit? := by
  unfold commits
  rw [chronicle_cons, List.filterMap_append]

def Received (hist : NodeHistory C) (v : Vote) : Prop :=
  ∃ τ ∈ hist, τ.event.2 = .network (.castVote v)

theorem Received.mono {hist hist' : NodeHistory C} {v : Vote} (hsub : hist ⊆ hist')
    (h : Received hist v) : Received hist' v := by
  obtain ⟨τ, hτ, he⟩ := h
  exact ⟨τ, hsub hτ, he⟩

/-- The calls of an inner run that carry a vote carry a received one. -/
def VotesReceived (inner : BftStateMachine.History C) (hist : NodeHistory C) : Prop :=
  ∀ τ ∈ inner, ∀ t v, τ.event.vote? = some (t, v) → Received hist v

/-- A segment of calls the loop makes on its own account: none carries a vote. -/
def OwnCalls (G : BftStateMachine C → BftEvent → Prop) (m m' : BftStateMachine C) : Prop :=
  ∃ seg, BftStateMachine.BftRun C G m seg m' ∧ ∀ τ ∈ seg, τ.event.vote? = none

variable {G : BftStateMachine C → BftEvent → Prop}

theorem OwnCalls.refl (m : BftStateMachine C) : OwnCalls G m m :=
  ⟨[], .init, by simp⟩

theorem OwnCalls.trans {m₁ m₂ m₃ : BftStateMachine C} (h : OwnCalls G m₁ m₂)
    (h' : OwnCalls G m₂ m₃) : OwnCalls G m₁ m₃ := by
  obtain ⟨seg, hr, hseg⟩ := h
  obtain ⟨seg', hr', hseg'⟩ := h'
  refine ⟨seg' ++ seg, hr.append hr', ?_⟩
  intro τ hτ
  rcases List.mem_append.mp hτ with hτ | hτ
  · exact hseg' τ hτ
  · exact hseg τ hτ

theorem OwnCalls.call {m m' : BftStateMachine C} (be : BftEvent) {out : List ConsensusMessage}
    (hg : G m be) (hv : be.vote? = none) (hs : m.handle be = some (m', out)) :
    OwnCalls G m m' := by
  refine ⟨[⟨m, be, m', out⟩], .turn .init hg hs, ?_⟩
  intro τ hτ
  rw [List.mem_singleton.mp hτ]
  exact hv

/-- The guard admits every call that carries no vote. -/
def FreeOwnCalls (G : BftStateMachine C → BftEvent → Prop) : Prop :=
  ∀ m be, be.vote? = none → G m be

theorem Proposes.ownCalls {n n' : Node C} {env : Env} {acts : List Action}
    (hG : FreeOwnCalls G) (h : Proposes n env n' acts) : OwnCalls G n.bft n'.bft := by
  cases h with
  | skip => exact .refl _
  | propose sk height round _ _ =>
    obtain ⟨p, b, hp, -⟩ := proposeBlock_bft n env sk height round n.lastBlockHash
    rw [hp]
    exact .call (.proposal p (some b)) (hG _ _ rfl) rfl rfl

theorem Commits.ownCalls {n n' : Node C} {env : Env} {h : Height} {x : BlockHash}
    {acts : List Action} (hG : FreeOwnCalls G) (hc : Commits n env h x n' acts) :
    OwnCalls G n.bft n'.bft := by
  cases hc with
  | mk n₁ _ txs proposed rest ha hp _ =>
    have hadv : OwnCalls G n₁.bft (n₁.bft.advanceHeight ⟨h.val + 1⟩).1 :=
      .call (.advanceHeight _) (hG _ _ rfl) rfl rfl
    rw [(applyCommit_spec ha).2.2.2.1] at hadv
    refine hadv.trans ?_
    have := hp.ownCalls hG
    rwa [withBft_bft, (applyCommit_spec ha).2.2.2.1] at this

/-- The vote of a call is the one the network sent. -/
theorem Calls.vote {env : Env} {e : NodeEvent} {be : BftEvent} (h : Calls env e be)
    {t : VoteType} {v : Vote} (hv : be.vote? = some (t, v)) :
    e = .network (.castVote v) ∧ v.voteType = t := by
  cases h with
  | proposal p block => cases hv
  | prevote v ht => cases hv; exact ⟨rfl, ht⟩
  | precommit v ht => cases hv; exact ⟨rfl, ht⟩
  | timeout te => cases hv

/-- A turn of the loop is at most one call with the event, and then calls of its own. -/
theorem Moves.machine {n n' : Node C} {env : Env} {e : NodeEvent} {acts : List Action}
    (hG : FreeOwnCalls G) (hm : Moves n env e n' acts) :
    OwnCalls G n.bft n'.bft ∨ ∃ be m' out, Calls env e be ∧
      n.bft.handle be = some (m', out) ∧ OwnCalls G m' n'.bft := by
  cases hm with
  | call hcall hs _ hp _ => exact Or.inr ⟨_, _, _, hcall, hs, hp.ownCalls hG⟩
  | commit hcall hs hc => exact Or.inr ⟨_, _, _, hcall, hs, hc.ownCalls hG⟩
  | announced hc => exact Or.inl (hc.ownCalls hG)
  | pool e tx _ => exact Or.inl (.refl _)
  | idle e _ => exact Or.inl (.refl _)

/-- **A run of the loop holds a run of the machine**, on the votes the node received. -/
theorem machine_of_run {GN : Node C → Env × NodeEvent → Prop} (hG : FreeOwnCalls G)
    (hcall : ∀ n (e : Env × NodeEvent) be, GN n e → Calls e.1 e.2 be → G n.bft be)
    {m₀ : BftStateMachine C} {n₀ n : Node C} (h₀ : OwnCalls G m₀ n₀.bft) {hist : NodeHistory C}
    (hr : NodeRun C GN n₀ hist n) :
    ∃ inner, BftStateMachine.BftRun C G m₀ inner n.bft ∧ VotesReceived inner hist := by
  refine hr.invariant (I := fun hist n =>
    ∃ inner, BftStateMachine.BftRun C G m₀ inner n.bft ∧ VotesReceived inner hist) ?_ ?_
  · obtain ⟨seg, hseg, hown⟩ := h₀
    refine ⟨seg, hseg, ?_⟩
    intro τ hτ t v hv
    rw [hown τ hτ] at hv
    cases hv
  · intro hist n e n' acts _ ih hg hs
    obtain ⟨inner, hin, hrec⟩ := ih
    have hold : VotesReceived inner (⟨n, e, n', acts⟩ :: hist) :=
      fun τ hτ t v hv => (hrec τ hτ t v hv).mono (List.subset_cons_self _ _)
    have hown : ∀ {seg : BftStateMachine.History C}, (∀ τ ∈ seg, τ.event.vote? = none) →
        ∀ {base : BftStateMachine.History C}, VotesReceived base (⟨n, e, n', acts⟩ :: hist) →
          VotesReceived (seg ++ base) (⟨n, e, n', acts⟩ :: hist) := by
      intro seg hseg base hbase τ hτ t v hv
      rcases List.mem_append.mp hτ with hτ | hτ
      · rw [hseg τ hτ] at hv; cases hv
      · exact hbase τ hτ t v hv
    rcases (handle_moves hs).machine hG with
      ⟨seg, hseg, hsil⟩ | ⟨be, m', out, hc, hbe, seg, hseg, hsil⟩
    · exact ⟨seg ++ inner, hin.append hseg, hown hsil hold⟩
    · -- the call with the event first, then the loop's own
      refine ⟨seg ++ (⟨n.bft, be, m', out⟩ :: inner),
        (Run.turn hin (hcall n e be hg hc) hbe).append hseg, hown hsil ?_⟩
      intro τ hτ t v hv
      rcases List.mem_cons.mp hτ with rfl | hτ
      · exact ⟨_, List.mem_cons_self, (hc.vote hv).1⟩
      · exact hold τ hτ t v hv

theorem start_ownCalls (hG : FreeOwnCalls G) (n : Node C) (env : Env) :
    OwnCalls G n.bft (n.start env).1.bft := by
  have hround : OwnCalls G n.bft (n.bft.startRound ⟨0⟩).1 :=
    .call (.startRound ⟨0⟩) (hG _ _ rfl) rfl rfl
  have hprop := proposeIfProposer_proposes (n.withBft (n.bft.startRound ⟨0⟩).1) env ⟨0⟩ ⟨0⟩
  exact hround.trans (hprop.ownCalls hG)

/-! ## Heights -/

theorem Calls.height {env : Env} {e : NodeEvent} {be : BftEvent} {m m' : BftStateMachine C}
    {out : List ConsensusMessage} (hc : Calls env e be) (hs : m.handle be = some (m', out)) :
    m'.height = m.height := by
  apply (BftStateMachine.handle_moves hs).height
  intro h heq
  subst heq
  cases hc

theorem Proposes.height {n n' : Node C} {env : Env} {acts : List Action}
    (h : Proposes n env n' acts) : n'.bft.height = n.bft.height := by
  cases h with
  | skip => rfl
  | propose sk height round _ _ =>
    obtain ⟨p, b, hp, -⟩ := proposeBlock_bft n env sk height round n.lastBlockHash
    rw [hp]
    have hm := BftStateMachine.handle_moves (m := n.bft) (e := .proposal p (some b)) rfl
    exact hm.height fun h => by simp

theorem Commits.height {n n' : Node C} {env : Env} {h : Height} {x : BlockHash}
    {acts : List Action} (hc : Commits n env h x n' acts) : n'.bft.height = ⟨h.val + 1⟩ := by
  cases hc with
  | mk n₁ _ txs proposed rest ha hp _ => rw [hp.height]; rfl

end Node

end Trv1Chain
