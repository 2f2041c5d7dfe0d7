import Trv1Chain.Proof.Assembly

/-!
# Nothing is committed that was not proposed

A commit needs a quorum of precommits, an honest precommit a quorum of prevotes, and an honest
prevote a proposal from the network (the node's own proposals are not prevoted: the loop drops that
answer). So behind every commit of an honest node there is one round in which more than a third of
the validators, all of them honest, were each handed a proposal for the committed hash that named
the round's proposer, and answered it with the prevote.

That the proposal was the proposer's own is not part of it: no handler looks at its signature.
-/

set_option autoImplicit false

namespace Trv1Chain

open Lib BftStateMachine Node

namespace Node

variable {C : Crates}

/-- In this turn the node was handed a proposal for `x` at `(h, r)` under the name of the proposer
of that round, and prevoted it. -/
def PrevotesOffer (τ : Turn (Node C) (Env × NodeEvent) Action) (h : Height) (r : Round)
    (x : BlockHash) : Prop :=
  ∃ p block, τ.event.2 = .network (.proposeBlock p block) ∧ p.height = h ∧ p.round = r ∧
    p.blockHash = x ∧ (∀ b ∈ block, b.hash C = x) ∧
    τ.before.bft.validators[τ.before.bft.proposerIndex h r]? = some p.proposer ∧
    ∃ v ∈ votesSent τ.out, v.voteType = .prevote ∧ v.height = h ∧ v.round = r ∧
      v.blockHash = some x

/-- **A prevote for a hash answers a proposal for it.** -/
theorem prevotesOffer_of_sent {G : Node C → Env × NodeEvent → Prop} {n₀ n : Node C}
    {hist : NodeHistory C} (hr : NodeRun C G n₀ hist n) {v : Vote}
    (hv : v ∈ votesSent (outputs hist)) (ht : v.voteType = .prevote) {x : BlockHash}
    (hx : v.blockHash = some x) : ∃ τ ∈ hist, PrevotesOffer τ v.height v.round x := by
  obtain ⟨τ, hτ, hsent⟩ := mem_outputs.mp (mem_votesSent.mp hv)
  have hsent : v ∈ votesSent τ.out := mem_votesSent.mpr hsent
  obtain ⟨-, -, -, -, hs⟩ := hr.of_mem hτ
  obtain ⟨p, block, he, -, ha, hh, hrd, hb⟩ := (handle_does hs).prevote_sent hsent ht
  have hp : x = p.blockHash := decidePrevote_eq (hb.symm.trans hx)
  refine ⟨τ, hτ, p, block, he, ?_, ?_, hp.symm, ?_, ?_, v, hsent, ht, rfl, rfl, hx⟩
  · rw [hh, ha.1]
  · rw [hrd, ha.2.1]
  · rw [hp]
    exact ha.2.2.2.2
  · rw [hh, hrd]
    exact ha.2.2.2.1

end Node

namespace Fleet

variable {C : Crates}

/-- The honest members of a quorum are more than a third. -/
theorem lt_three_mul_honest (F : Fleet C) {Q : Finset ValidatorId}
    (hcard : 2 * F.validators.length < 3 * Q.card) (hQ : ∀ k ∈ Q, k ∈ F.validators) :
    F.validators.length < 3 * (Q.filter (· ∉ F.byzantine)).card := by
  have hbyz : (Q.filter (· ∈ F.byzantine)).card ≤
      (F.validators.filter (· ∈ F.byzantine)).length := by
    refine le_trans (Finset.card_le_card fun k hk => ?_) (List.toFinset_card_le _)
    obtain ⟨hk, hb⟩ := Finset.mem_filter.mp hk
    exact List.mem_toFinset.mpr (List.mem_filter.mpr ⟨hQ k hk, by simpa using hb⟩)
  have hsum := Finset.card_filter_add_card_filter_not (s := Q) (· ∈ F.byzantine)
  have hfew := F.few_byzantine
  omega

/-- Behind every commit of an honest node there is a polka that an honest node received. -/
theorem polka_of_commit (F : Fleet C) {i : ValidatorId} (hi : i ∉ F.byzantine) {h : Height}
    {x : BlockHash} {txs : List Transaction} (hc : (h, x, txs) ∈ commits (F.hist i)) :
    ∃ u, u ∉ F.byzantine ∧ ∃ r, ∃ Q : Finset ValidatorId,
      2 * F.validators.length < 3 * Q.card ∧ ∀ k ∈ Q, k ∈ F.validators ∧
        ∃ v, Received (F.hist u) v ∧ v.validator = k ∧ v.verify C = true ∧
          v.voteType = .prevote ∧ v.height = h ∧ v.round = r ∧ v.blockHash = some x := by
  obtain ⟨w, hw, hbyz, htr⟩ := F.exists_traced_world
  obtain ⟨r, hpre⟩ := hw.commit_votedBy (((htr.traced i hi).commits h x).mpr ⟨txs, hc⟩)
  obtain ⟨u, -, rd, -, hcast⟩ := hpre.exists_correct
  have hu : u ∉ F.byzantine := by
    intro hu
    obtain ⟨v, hv, -⟩ := hcast
    rw [hbyz u hu] at hv
    exact absurd hv (by simp)
  obtain ⟨Q, hcard, hQ⟩ := hcast.precommit_polka (fun _ _ hg => hg.2.2 .prevote)
    (F.network.start_setsOk u) (hw.run u)
  exact ⟨u, hu, rd, Q, hcard, fun k hk =>
    ⟨(hQ k hk).1, htr.received_of_signedVote hu (hQ k hk).2⟩⟩

/-- **Commit integrity.** Whatever an honest node of a fleet commits was proposed: in one round more
than a third of the validators, all honest, were handed a proposal for the committed hash under the
name of the round's proposer, and prevoted it. Orderly input is needed: an announced commit has no
proposal behind it. -/
theorem commit_was_proposed (F : Fleet C) {i : ValidatorId} (hi : i ∉ F.byzantine) {h : Height}
    {x : BlockHash} {txs : List Transaction} (hc : (h, x, txs) ∈ commits (F.hist i)) :
    ∃ (r : Round) (S : Finset ValidatorId), S ⊆ F.validators.toFinset ∧
      F.validators.length < 3 * S.card ∧
      ∀ k ∈ S, k ∉ F.byzantine ∧ ∃ τ ∈ F.hist k, PrevotesOffer τ h r x := by
  obtain ⟨u, hu, r, Q, hcard, hQ⟩ := F.polka_of_commit hi hc
  refine ⟨r, Q.filter (· ∉ F.byzantine), ?_,
    F.lt_three_mul_honest hcard fun k hk => (hQ k hk).1, ?_⟩
  · intro k hk
    exact List.mem_toFinset.mpr (hQ k (Finset.mem_filter.mp hk).1).1
  · intro k hk
    obtain ⟨hk, hhon⟩ := Finset.mem_filter.mp hk
    obtain ⟨v, hrec, rfl, hver, ht, rfl, rfl, hb⟩ := (hQ k hk).2
    -- received under an honest key, so sent by that node
    obtain ⟨v', hv', ht', hh', hr', hb'⟩ := F.assembly.sent_of_received hu hrec hver hhon
    obtain ⟨τ, hτ, hoffer⟩ := prevotesOffer_of_sent (F.run v.validator hhon) hv' (ht'.trans ht)
      (hb'.trans hb)
    rw [hh', hr'] at hoffer
    exact ⟨hhon, τ, hτ, hoffer⟩

/-- Two of the three honest nodes at least, of four validators, were offered the first block. -/
theorem commit_was_proposed_quad :
    (commits (quadFleet.hist ⟨Crates.sampleKey 1⟩)).map (fun c => (c.1, c.2.1)) =
        [(⟨0⟩, quadFirst.hash Crates.sample), (⟨1⟩, quadSecond.hash Crates.sample)] ∧
      ∃ (r : Round) (S : Finset ValidatorId), S ⊆ quadFleet.validators.toFinset ∧
        quadFleet.validators.length < 3 * S.card ∧
        ∀ k ∈ S, k ∉ quadFleet.byzantine ∧ ∃ τ ∈ quadFleet.hist k,
          PrevotesOffer τ ⟨0⟩ r (quadFirst.hash Crates.sample) := by
  have hcommits : (commits (quadFleet.hist ⟨Crates.sampleKey 1⟩)).map (fun c => (c.1, c.2.1)) =
      [(⟨0⟩, quadFirst.hash Crates.sample), (⟨1⟩, quadSecond.hash Crates.sample)] := by
    decide +kernel
  have hmem : ((⟨0⟩ : Height), quadFirst.hash Crates.sample) ∈
      (commits (quadFleet.hist ⟨Crates.sampleKey 1⟩)).map (fun c => (c.1, c.2.1)) := by
    rw [hcommits]
    exact List.mem_cons_self
  obtain ⟨⟨h, x, txs⟩, hc, heq⟩ := List.mem_map.mp hmem
  cases heq
  exact ⟨hcommits, commit_was_proposed quadFleet (i := ⟨Crates.sampleKey 1⟩) (by decide) hc⟩

end Fleet

end Trv1Chain
