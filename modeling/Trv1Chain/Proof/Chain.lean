import Trv1Chain.Proof.CommitCertificate
import Trv1Chain.Proof.Replica

/-!
# The chain a node builds

The machine commits its own height, on a quorum, and the loop then moves it to the next height; so
the heights a node applies are `0, 1, 2, …` and each is certified (`chain_contiguous`). The one
way around this is a `CommitBlock` from the network: the loop applies it as it is, whatever height
and hash it names (`announced_commit`). Nothing in the repository sends one.
-/

set_option autoImplicit false

namespace Trv1Chain

open Lib

namespace Node

variable {C : Crates}

/-! ## Heights -/

/-- **A turn leaves the height, or commits one and moves past it**: its own height, unless the
network announced another. -/
theorem Moves.height {n n' : Node C} {env : Env} {e : NodeEvent} {acts : List Action}
    (hm : Moves n env e n' acts) :
    (acts.filterMap Action.commit? = [] ∧ n'.bft.height = n.bft.height) ∨
      ∃ h x txs, acts.filterMap Action.commit? = [(h, x, txs)] ∧ n'.bft.height = ⟨h.val + 1⟩ ∧
        (h = n.bft.height ∨ e = .network (.commitBlock h x)) := by
  cases hm with
  | call hcall hs _ hp hq =>
    refine Or.inl ⟨Action.commit?_of_quiet hq, ?_⟩
    rw [hp.height, withBft_bft, hcall.height hs]
  | commit hcall hs hc =>
    obtain ⟨txs, hout, -⟩ := hc.stateDb
    obtain ⟨hh, -⟩ := (BftStateMachine.handle_moves hs).of_commitBlock List.mem_cons_self
    exact Or.inr ⟨_, _, txs, hout, hc.height, Or.inl hh⟩
  | announced hc =>
    obtain ⟨txs, hout, -⟩ := hc.stateDb
    exact Or.inr ⟨_, _, txs, hout, hc.height, Or.inr rfl⟩
  | pool e tx _ => exact Or.inl ⟨rfl, rfl⟩
  | idle e hq => exact Or.inl ⟨Action.commit?_of_quiet hq, rfl⟩

def heightsUpTo (k : Nat) : List Height := (List.range k).map fun i => ⟨UInt64.ofNat i⟩

theorem heightsUpTo_succ (k : Nat) :
    heightsUpTo (k + 1) = heightsUpTo k ++ [⟨UInt64.ofNat k⟩] := by
  simp [heightsUpTo, List.range_succ]

/-- From height 0 on, without announcements, the heights applied are all heights below the
machine's, each once and in order. -/
theorem heights_of_run {G : Node C → Env × NodeEvent → Prop}
    (hG : ∀ n e h x, G n e → e.2 ≠ .network (.commitBlock h x)) {n₀ n : Node C}
    (h₀ : n₀.bft.height = ⟨0⟩) {hist : NodeHistory C} (hr : NodeRun C G n₀ hist n) :
    n.bft.height = ⟨UInt64.ofNat (commits hist).length⟩ ∧
      (commits hist).map (fun c => c.1) = heightsUpTo (commits hist).length := by
  refine hr.invariant (I := fun hist n => n.bft.height = ⟨UInt64.ofNat (commits hist).length⟩ ∧
    (commits hist).map (fun c => c.1) = heightsUpTo (commits hist).length) ⟨h₀, rfl⟩ ?_
  intro hist n e n' acts _ ih hg hs
  rw [commits_cons]
  dsimp only
  rcases (handle_moves hs).height with ⟨hout, hh⟩ | ⟨h, x, txs, hout, hh, hown⟩
  · rw [hout, List.append_nil, hh]
    exact ih
  · rcases hown with rfl | hann
    · rw [hout, List.length_append, List.length_singleton, List.map_append, ih.2,
        heightsUpTo_succ, hh, ih.1]
      refine ⟨?_, rfl⟩
      show Height.mk _ = Height.mk _
      simp
    · exact absurd hann (hG n e h x hg)

/-! ## Certificates -/

/-- More than two thirds of the validators, each with a signed precommit for `x` at `h` received,
all of one round. -/
def Certified (hist : NodeHistory C) (validators : List ValidatorId) (h : Height)
    (x : BlockHash) : Prop :=
  ∃ (r : Round) (Q : Finset ValidatorId), 2 * validators.length < 3 * Q.card ∧
    ∀ k ∈ Q, k ∈ validators ∧ ∃ v, Received hist v ∧ v.validator = k ∧ v.verify C = true ∧
      v.voteType = .precommit ∧ v.height = h ∧ v.round = r ∧ v.blockHash = some x

/-- No `CommitBlock` from the network, and every correctly signed precommit for the machine's
height and round is a validator's. All other input is free. -/
def PlainInput (n : Node C) (e : Env × NodeEvent) : Prop :=
  match e.2 with
  | .network (.commitBlock _ _) => False
  | .network (.castVote v) => v.voteType = .precommit → v.height = n.bft.height →
      v.round = n.bft.round → v.verify C = true → v.validator ∈ n.bft.validators
  | _ => True

theorem freeOwnCalls_votesFromValidators (t : VoteType) :
    FreeOwnCalls (BftStateMachine.VotesFromValidators (C := C) t) := by
  intro m be hnone v hv
  rw [hnone] at hv
  cases hv

theorem PlainInput.votes {n : Node C} {e : Env × NodeEvent} {be : BftEvent}
    (hg : PlainInput n e) (hc : Calls e.1 e.2 be) :
    BftStateMachine.VotesFromValidators .precommit n.bft be := by
  intro v hv ht hh hrd hver
  obtain ⟨he, -⟩ := hc.vote hv
  unfold PlainInput at hg
  rw [he] at hg
  exact hg ht hh hrd hver

theorem certified_of_certificate {inner : BftStateMachine.History C} {hist : NodeHistory C}
    {validators : List ValidatorId} {h : Height} {r : Round} {x : BlockHash}
    (hrec : VotesReceived inner hist)
    (hcert : BftStateMachine.Certificate inner validators .precommit h r x) :
    Certified hist validators h x := by
  obtain ⟨Q, hcard, hQ⟩ := hcert
  refine ⟨r, Q, hcard, ?_⟩
  intro k hk
  obtain ⟨hmem, v, ⟨τ, hτ, hev, -, -⟩, hrest⟩ := hQ k hk
  exact ⟨hmem, v, hrec τ hτ _ v hev, hrest⟩

/-- The commit of a turn is certified by what was received up to that turn. -/
theorem certified_of_turn {validators : List ValidatorId} {idx : Option Nat} {tc : TimeoutConfig}
    {n₀ n n' : Node C} {hist : NodeHistory C} {e : Env × NodeEvent} {acts : List Action}
    (h₀ : OwnCalls (BftStateMachine.VotesFromValidators .precommit)
      (BftStateMachine.new C ⟨0⟩ validators idx tc) n₀.bft)
    (hr : NodeRun C PlainInput n₀ hist n) (hg : PlainInput n e)
    (hs : n.handle e = some (n', acts)) {h : Height} {x : BlockHash} {txs : List Transaction}
    (hout : .applyCommit h x txs ∈ acts) :
    Certified (⟨n, e, n', acts⟩ :: hist) validators h x := by
  obtain ⟨inner, hin, hrec⟩ := machine_of_run (freeOwnCalls_votesFromValidators .precommit)
    (fun n e be hg hc => PlainInput.votes hg hc) h₀ hr
  have hquiet : (∀ a ∈ acts, a.Quiet) → False := fun hq => hq _ hout
  obtain ⟨env, ev⟩ := e
  have hm : Moves n env ev n' acts := handle_moves hs
  cases hm with
  | call _ _ _ _ hq => exact absurd hq hquiet
  | commit hcall hbe hc =>
    obtain ⟨txs', hone, -⟩ := hc.stateDb
    have hmem : (h, x, txs) ∈ acts.filterMap Action.commit? :=
      List.mem_filterMap.mpr ⟨_, hout, rfl⟩
    rw [hone, List.mem_singleton] at hmem
    cases hmem
    obtain ⟨-, -, hcert⟩ := BftStateMachine.certificate_of_commit (fun _ _ hg => hg)
      (BftStateMachine.setsOk_new ⟨0⟩ validators idx tc) (hin.turn (hg.votes hcall) hbe)
      List.mem_cons_self
    apply certified_of_certificate _ hcert
    intro τ hτ t v hv
    rcases List.mem_cons.mp hτ with rfl | hτ
    · exact ⟨_, List.mem_cons_self, (hcall.vote hv).1⟩
    · exact (hrec τ hτ t v hv).mono (List.subset_cons_self _ _)
  | announced hc => exact hg.elim
  | pool _ tx _ => exact absurd hout (by simp)
  | idle _ hq => exact absurd hq hquiet

/-- **Chain contiguity.** In every run of the loop from genesis whose network input has no
`CommitBlock` and whose correctly signed current precommits are the validators': the heights
applied are `0, 1, 2, …`, and a commit is certified by precommits received by then. -/
theorem chain_contiguous {validators : List ValidatorId} {idx : Option Nat}
    {sk : Option (Bytes 32)} {db : StateDb} {fm : FeeMarket} {env : Env} {hist : NodeHistory C}
    {n : Node C}
    (hr : NodeRun C PlainInput ((Node.genesis C validators idx sk db fm).start env).1 hist n) :
    (commits hist).map (fun c => c.1) = heightsUpTo (commits hist).length ∧
      ∀ τ ∈ hist, ∀ h x txs, .applyCommit h x txs ∈ τ.out →
        ∃ past, τ :: past <:+ hist ∧ Certified (τ :: past) validators h x := by
  have h₀ := start_ownCalls (freeOwnCalls_votesFromValidators .precommit)
    (Node.genesis C validators idx sk db fm) env
  constructor
  · refine (heights_of_run ?_ ?_ hr).2
    · intro n e h x hg heq
      unfold PlainInput at hg
      rw [heq] at hg
      exact hg
    · exact (proposeIfProposer_proposes _ env ⟨0⟩ ⟨0⟩).height
  · intro τ hτ h x txs hout
    obtain ⟨past, hsuf, hr', hg, hs⟩ := hr.of_mem hτ
    exact ⟨past, hsuf, certified_of_turn h₀ hr' hg hs hout⟩

/-! ## Four validators, watched -/

instance (n : Node C) : ∀ e : Env × NodeEvent, Decidable (PlainInput n e)
  | (_, .network (.commitBlock _ _)) => inferInstanceAs (Decidable False)
  | (_, .network (.castVote v)) => inferInstanceAs (Decidable (v.voteType = .precommit →
      v.height = n.bft.height → v.round = n.bft.round → v.verify C = true →
        v.validator ∈ n.bft.validators))
  | (_, .network (.proposeBlock _ _)) => inferInstanceAs (Decidable True)
  | (_, .network (.scheduleTimeout _)) => inferInstanceAs (Decidable True)
  | (_, .timeout _) => inferInstanceAs (Decidable True)
  | (_, .gossiped _) => inferInstanceAs (Decidable True)
  | (_, .submitted _) => inferInstanceAs (Decidable True)
  | (_, .toGossip _) => inferInstanceAs (Decidable True)

/-- A node without a key that follows four validators. -/
def quadObserver : Node Crates.sample :=
  ((Node.genesis Crates.sample BftStateMachine.quadKeys none none genesisDb
    ⟨FeeConfig.default, 1⟩).start storedOrder).1

/-- A block is proposed by the validator whose turn it is, and the first three precommit it. -/
def quadPrecommits (b : Block) (proposer : UInt8) : List (Env × NodeEvent) :=
  (storedOrder, .network (.proposeBlock (signProposal Crates.sample b.header.height ⟨0⟩
    (b.hash Crates.sample) (Crates.sampleKey proposer)) (some b))) ::
  [1, 2, 3].map fun key =>
    (storedOrder, .network (.castVote (Vote.new Crates.sample .precommit b.header.height ⟨0⟩
      (some (b.hash Crates.sample)) (Crates.sampleKey key))))

/-- Two heights are decided, in order, each on the precommits of three of the four. -/
theorem chain_contiguous_quad :
    ∃ hist n, NodeRun Crates.sample PlainInput quadObserver hist n ∧
      commits hist = [(⟨0⟩, firstBlock.hash Crates.sample, firstBlock.transactions),
        (⟨1⟩, secondBlock.hash Crates.sample, secondBlock.transactions)] ∧
      (commits hist).map (fun c => c.1) = heightsUpTo (commits hist).length ∧
      ∀ τ ∈ hist, ∀ h x txs, .applyCommit h x txs ∈ τ.out →
        ∃ past, τ :: past <:+ hist ∧ Certified (τ :: past) BftStateMachine.quadKeys h x := by
  obtain ⟨hist, n, hr, hcommits⟩ : ∃ hist n,
      NodeRun Crates.sample PlainInput quadObserver hist n ∧
        commits hist = [(⟨0⟩, firstBlock.hash Crates.sample, firstBlock.transactions),
          (⟨1⟩, secondBlock.hash Crates.sample, secondBlock.transactions)] :=
    Run.exists_of_replay (quadPrecommits firstBlock 1 ++ quadPrecommits secondBlock 2)
      (by decide +kernel)
  exact ⟨hist, n, hr, hcommits, chain_contiguous hr⟩

/-! ## One validator, watched -/

/-- A node without a key that follows the one validator `1`. -/
def soloObserver : Node Crates.sample :=
  ((Node.genesis Crates.sample [⟨Crates.sampleKey 1⟩] none none genesisDb
    ⟨FeeConfig.default, 1⟩).start storedOrder).1

/-- **An announced commit is applied.** A `CommitBlock` for height 5 reaches a fresh node, and the
first height it applies is 5; it has received no vote at all. -/
theorem announced_commit :
    ∃ hist n, NodeRun Crates.sample (fun _ _ => True) soloObserver hist n ∧
      (commits hist).map (fun c => (c.1, c.2.1)) = [(⟨5⟩, BftStateMachine.soloHash)] ∧
      (commits hist).map (fun c => c.1) ≠ heightsUpTo 1 ∧ ∀ v, ¬ Received hist v := by
  have hr : NodeRun Crates.sample (fun _ _ => True) soloObserver _ _ :=
    Run.single (e := (storedOrder, .network (.commitBlock ⟨5⟩ BftStateMachine.soloHash)))
      trivial (by decide +kernel)
  refine ⟨_, _, hr, by decide +kernel, by decide +kernel, ?_⟩
  intro v ⟨τ, hτ, he⟩
  rw [List.mem_singleton.mp hτ] at he
  cases he

end Node

end Trv1Chain
