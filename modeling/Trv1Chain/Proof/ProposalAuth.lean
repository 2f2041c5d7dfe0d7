import Trv1Chain.Proof.Equivocation
import Trv1Chain.Proof.Lock
import Trv1Chain.Validator.Signing

/-!
# Who can make a node record a proposal

A proposal carries its proposer's name and a signature. `on_proposal` compares the name with the
designated proposer's and never looks at the signature, where the vote handlers verify every
vote they store. So a proposal is as good as its name, and anyone can write a name
(`forged_proposal_prevoted`).

A signature check alone would not close the gap either: the text `sign_proposal` signs has no
`valid_round` in it, and the locking rule reads that field.
-/

set_option autoImplicit false

namespace Trv1Chain

open Lib

namespace BftStateMachine

variable {C : Crates}

/-- The validator whose turn it is to propose. -/
def designatedProposer (m : BftStateMachine C) : Option ValidatorId :=
  m.validators[m.proposerIndex m.height m.round]?

/-- `on_proposal` changed the state or emitted a prevote. -/
def ActsOn (m : BftStateMachine C) (p : Proposal) (block : Option Block) : Prop :=
  (m.onProposal p block).1 ≠ m ∨
    ∃ v, .castVote v ∈ (m.onProposal p block).2 ∧ v.voteType = .prevote

/-- **`on_proposal` acts on exactly the proposals that pass its checks.** -/
theorem actsOn_iff (m : BftStateMachine C) (p : Proposal) (block : Option Block) :
    m.ActsOn p block ↔ m.Accepts p block := by
  unfold ActsOn
  rw [onProposal_eq]
  constructor
  · intro hact
    by_contra hno
    rw [if_neg hno] at hact
    rcases hact with hne | ⟨v, hv, -⟩
    · exact hne rfl
    · simp at hv
  · intro hacc
    rw [if_pos hacc]
    right
    refine ⟨_, List.mem_singleton_self _, rfl⟩

end BftStateMachine

/-- The bytes `sign_proposal` signs for a proposal. -/
def Proposal.message (p : Proposal) : List UInt8 := proposalMessage p.height p.round p.blockHash

def Proposal.verifies (C : Crates) (p : Proposal) (k : ValidatorId) : Bool :=
  C.verify k.asBytes p.message p.signature

/-- The signed bytes fix every field of the proposal that the machine acts on. -/
def Proposal.MessageDetermines (p : Proposal) : Prop :=
  ∀ q : Proposal, q.message = p.message →
    q.height = p.height ∧ q.round = p.round ∧ q.blockHash = p.blockHash ∧
      q.validRound = p.validRound

/-- The same bytes stand for a proposal with any other `valid_round`. -/
theorem Proposal.not_messageDetermines (p : Proposal) : ¬ p.MessageDetermines := by
  intro hdet
  cases hvr : p.validRound with
  | none =>
    have := (hdet { p with validRound := some ⟨0⟩ } rfl).2.2.2
    rw [hvr] at this
    cases this
  | some vr =>
    have := (hdet { p with validRound := none } rfl).2.2.2
    rw [hvr] at this
    cases this

namespace BftStateMachine

variable {C : Crates}

/-- A proposal that is acted on is signed by the designated proposer, over bytes that fix all the
machine acts on. -/
def ProposalAuthentic (m : BftStateMachine C) (p : Proposal) (block : Option Block) : Prop :=
  m.ActsOn p block → ∃ k, m.designatedProposer = some k ∧ p.verifies C k = true ∧
    p.MessageDetermines

/-- The same without the last part. -/
def ProposalSigned (m : BftStateMachine C) (p : Proposal) (block : Option Block) : Prop :=
  m.ActsOn p block → ∃ k, m.designatedProposer = some k ∧ p.verifies C k = true

/-- **Authenticity, exactly.** It holds of the proposals `on_proposal` ignores (another
height or round, another step, another proposer's name, a block with another hash) and of no
proposal it acts on. Leaving `valid_round` aside, it holds where the sender happened to send a
signature that verifies under the name it wrote. -/
theorem proposal_authentic_iff (m : BftStateMachine C) (p : Proposal) (block : Option Block) :
    (m.ProposalAuthentic p block ↔ ¬ m.Accepts p block) ∧
      (m.ProposalSigned p block ↔ (m.Accepts p block → p.verifies C p.proposer = true)) := by
  refine ⟨⟨?_, ?_⟩, ⟨?_, ?_⟩⟩
  · intro hauth hacc
    obtain ⟨k, -, -, hdet⟩ := hauth ((actsOn_iff m p block).mpr hacc)
    exact p.not_messageDetermines hdet
  · intro hno hact
    exact absurd ((actsOn_iff m p block).mp hact) hno
  · intro hsig hacc
    obtain ⟨k, hk, hver⟩ := hsig ((actsOn_iff m p block).mpr hacc)
    -- the designated proposer is the one the proposal names
    have hname : m.designatedProposer = some p.proposer := hacc.2.2.2.1
    rw [hk] at hname
    cases hname
    exact hver
  · intro hver hact
    have hacc := (actsOn_iff m p block).mp hact
    exact ⟨p.proposer, hacc.2.2.2.1, hver hacc⟩

/-! ## A forged proposal -/

theorem startRound_run {G : BftStateMachine C → BftEvent → Prop} {m : BftStateMachine C}
    {r : Round} (hg : G m (.startRound r)) :
    BftRun C G m [⟨m, .startRound r, (m.startRound r).1, (m.startRound r).2⟩]
      (m.startRound r).1 := .turn .init hg rfl

/-- A proposal in the validator's name with 64 zero bytes for a signature. -/
def forgedProposal : Proposal := loneProposal ⟨0⟩ otherHash none

/-- **Anyone can propose.** The machine, started and waiting for the proposal of its round,
prevotes the hash of a proposal whose signature does not verify. -/
theorem forged_proposal_prevoted :
    (∃ hist, BftRun Crates.sample (fun _ _ => True) lockStart hist (lockStart.startRound ⟨0⟩).1) ∧
      (∃ v, .castVote v ∈ ((lockStart.startRound ⟨0⟩).1.onProposal forgedProposal none).2 ∧
        v.voteType = .prevote ∧ v.blockHash = some otherHash) ∧
      forgedProposal.verifies Crates.sample ⟨Crates.sampleKey 1⟩ = false ∧
      ¬ (lockStart.startRound ⟨0⟩).1.ProposalAuthentic forgedProposal none := by
  have hacc : (lockStart.startRound ⟨0⟩).1.Accepts forgedProposal none := by decide +kernel
  refine ⟨⟨_, startRound_run trivial⟩, ?_, by decide +kernel, ?_⟩
  · rw [onProposal_eq, if_pos hacc]
    refine ⟨_, List.mem_singleton_self _, rfl, ?_⟩
    decide +kernel
  · intro hauth
    obtain ⟨k, -, -, hdet⟩ := hauth ((actsOn_iff _ _ _).mpr hacc)
    exact forgedProposal.not_messageDetermines hdet

end BftStateMachine

end Trv1Chain
