import Trv1Chain.Bft.Vote
import Trv1Chain.Bft.Block

/-!
# The consensus state machine

`consensus/bft/src/state_machine.rs`, handler by handler. Each takes the machine and an input and
answers the machine after it with the messages it emits. `onTimeout` is the only handler that can
panic (`self.validators[0]` on an empty list), so it alone answers an `Option`.

The two vote handlers loop over a hash map of counts (`quorum_block`) and therefore take the
order of that loop.
-/

set_option autoImplicit false

namespace Trv1Chain

open Lib

structure RoundState (C : Crates) where
  round : Round
  step : RoundStep
  proposal : Option BlockHash
  prevotes : VoteSet C
  precommits : VoteSet C

def RoundState.new (C : Crates) (round : Round) (height : Height) (totalValidators : Nat) :
    RoundState C where
  round := round
  step := .newRound
  proposal := none
  prevotes := VoteSet.new C .prevote height round totalValidators
  precommits := VoteSet.new C .precommit height round totalValidators

structure BftStateMachine (C : Crates) where
  height : Height
  round : Round
  step : RoundStep
  validatorIndex : Option Nat
  validators : List ValidatorId
  roundState : RoundState C
  /-- The block hash we have precommitted for. -/
  lockedValue : Option BlockHash
  lockedRound : Option Round
  /-- The block hash we have seen a polka (2/3+ prevotes) for. -/
  validValue : Option BlockHash
  validRound : Option Round
  timeoutConfig : TimeoutConfig
  /-- Blocks received with proposals, by block hash. -/
  proposedBlocks : HashMap BlockHash Block

abbrev CountOrder := IterOrder (Sigma fun _ : BlockHash => Nat)

namespace BftStateMachine

variable {C : Crates}

def new (C : Crates) (height : Height) (validators : List ValidatorId)
    (validatorIndex : Option Nat) (timeoutConfig : TimeoutConfig) : BftStateMachine C where
  height := height
  round := ⟨0⟩
  step := .newRound
  validatorIndex := validatorIndex
  validators := validators
  roundState := RoundState.new C ⟨0⟩ height validators.length
  lockedValue := none
  lockedRound := none
  validValue := none
  validRound := none
  timeoutConfig := timeoutConfig
  proposedBlocks := ∅

def startRound (m : BftStateMachine C) (round : Round) :
    BftStateMachine C × List ConsensusMessage :=
  ({ m with
      round := round
      step := .propose
      roundState := RoundState.new C round m.height m.validators.length },
   [.scheduleTimeout ⟨m.height, round, .propose⟩])

/-- Simple rotation. The sum is taken in a 64-bit `usize`. -/
def proposerIndex (m : BftStateMachine C) (height : Height) (round : Round) : Nat :=
  if m.validators.length = 0 then 0
  else (height.val + round.val.toUInt64).toNat % m.validators.length

def isProposer (m : BftStateMachine C) : Bool :=
  match m.validatorIndex with
  | some idx => m.proposerIndex m.height m.round == idx
  | none => false

theorem isProposer_of_index {m : BftStateMachine C} {idx : Nat} (h : m.validatorIndex = some idx) :
    m.isProposer = (m.proposerIndex m.height m.round == idx) := by
  unfold isProposer
  rw [h]

/-- The locking rule: what to prevote on a proposal that passed the checks. -/
def decidePrevote (m : BftStateMachine C) (proposal : Proposal) : Option BlockHash :=
  match m.lockedValue with
  | some locked =>
    if proposal.blockHash = locked then some proposal.blockHash
    else match proposal.validRound, m.lockedRound with
      | some propVr, some lr =>
        if propVr.val ≥ lr.val then some proposal.blockHash else none
      | _, _ => none
  | none => some proposal.blockHash

/-- The second half of `on_proposal`, after the checks and the caching of the block. -/
def recordProposal (m : BftStateMachine C) (proposal : Proposal) :
    BftStateMachine C × List ConsensusMessage :=
  ({ m with
      roundState := { m.roundState with proposal := some proposal.blockHash }
      step := .prevote },
   [.castVote
      { voteType := .prevote
        height := m.height
        round := m.round
        blockHash := m.decidePrevote proposal
        validator := proposal.proposer
        signature := proposal.signature }])

def onProposal (m : BftStateMachine C) (proposal : Proposal) (block : Option Block) :
    BftStateMachine C × List ConsensusMessage :=
  if proposal.height ≠ m.height ∨ proposal.round ≠ m.round then (m, [])
  else if m.step ≠ .propose then (m, [])
  else
    let expectedIdx := m.proposerIndex m.height m.round
    if expectedIdx ≥ m.validators.length then (m, [])
    else if m.validators[expectedIdx]? ≠ some proposal.proposer then (m, [])
    else match block with
      | some blk =>
        if blk.hash C ≠ proposal.blockHash then (m, [])
        else
          recordProposal
            { m with proposedBlocks := m.proposedBlocks.insert proposal.blockHash blk } proposal
      | none => recordProposal m proposal

def addPrevote (m : BftStateMachine C) (vote : Vote) : BftStateMachine C :=
  { m with
    roundState := { m.roundState with prevotes := (m.roundState.prevotes.addVote vote).1 } }

def addPrecommit (m : BftStateMachine C) (vote : Vote) : BftStateMachine C :=
  { m with
    roundState := { m.roundState with precommits := (m.roundState.precommits.addVote vote).1 } }

/-- A precommit for the current height and round. The signer and signature are placeholders the
caller overwrites. -/
def precommitFor (m : BftStateMachine C) (blockHash : Option BlockHash) (validator : ValidatorId)
    (signature : Signature) : ConsensusMessage :=
  .castVote
    { voteType := .precommit
      height := m.height
      round := m.round
      blockHash := blockHash
      validator := validator
      signature := signature }

/-- A polka in the prevote step: remember it as valid, lock on it and move on. -/
def lockOn (m : BftStateMachine C) (hash : BlockHash) : BftStateMachine C :=
  { m with
    validValue := some hash
    validRound := some m.round
    lockedValue := some hash
    lockedRound := some m.round
    step := .precommit }

def onPrevote (m : BftStateMachine C) (it : CountOrder) (vote : Vote) :
    BftStateMachine C × List ConsensusMessage :=
  if vote.height ≠ m.height ∨ vote.round ≠ m.round then (m, [])
  else if vote.voteType ≠ .prevote then (m, [])
  else
    let m := m.addPrevote vote
    match m.step with
    | .prevote =>
      match m.roundState.prevotes.quorumBlock it with
      | some hash =>
        (m.lockOn hash, [m.precommitFor (some hash) vote.validator vote.signature])
      | none =>
        if m.roundState.prevotes.hasQuorumForNil then
          ({ m with step := .precommit }, [m.precommitFor none vote.validator vote.signature])
        else if m.roundState.prevotes.hasTwoThirdsAny then
          (m, [.scheduleTimeout ⟨m.height, m.round, .prevote⟩])
        else (m, [])
    | .precommit =>
      match m.roundState.prevotes.quorumBlock it with
      | some hash => ({ m with validValue := some hash, validRound := some m.round }, [])
      | none => (m, [])
    | _ => (m, [])

def onPrecommit (m : BftStateMachine C) (it : CountOrder) (vote : Vote) :
    BftStateMachine C × List ConsensusMessage :=
  if vote.height ≠ m.height ∨ vote.round ≠ m.round then (m, [])
  else if vote.voteType ≠ .precommit then (m, [])
  else
    let m := m.addPrecommit vote
    match m.roundState.precommits.quorumBlock it with
    | some hash =>
      if m.step ≠ .commit then ({ m with step := .commit }, [.commitBlock m.height hash])
      else (m, [])
    | none =>
      if m.roundState.precommits.hasTwoThirdsAny ∧ m.step = .precommit then
        (m, [.scheduleTimeout ⟨m.height, m.round, .precommit⟩])
      else (m, [])

def onTimeout (m : BftStateMachine C) (event : TimeoutEvent) :
    Option (BftStateMachine C × List ConsensusMessage) :=
  if event.height ≠ m.height ∨ event.round ≠ m.round then some (m, [])
  else match event.step with
    | .propose =>
      if m.step = .propose then
        some ({ m with step := .prevote }, [.scheduleTimeout ⟨m.height, m.round, .prevote⟩])
      else some (m, [])
    | .prevote =>
      if m.step = .prevote then
        match m.validators[0]? with
        | some v =>
          some ({ m with step := .precommit }, [m.precommitFor none v (Bytes.fill 64 0)])
        | none => none
      else some (m, [])
    | .precommit =>
      if m.step = .precommit then some (m.startRound ⟨m.round.val + 1⟩)
      else some (m, [])

def getCommittedBlock (m : BftStateMachine C) (hash : BlockHash) : Option Block :=
  m.proposedBlocks.lookup hash

def advanceHeight (m : BftStateMachine C) (newHeight : Height) :
    BftStateMachine C × List ConsensusMessage :=
  startRound
    { m with
      height := newHeight
      lockedValue := none
      lockedRound := none
      validValue := none
      validRound := none
      proposedBlocks := ∅ }
    ⟨0⟩

end BftStateMachine

/-- One call into the state machine. -/
inductive BftEvent where
  | startRound (round : Round)
  | proposal (proposal : Proposal) (block : Option Block)
  | prevote (it : CountOrder) (vote : Vote)
  | precommit (it : CountOrder) (vote : Vote)
  | timeout (event : TimeoutEvent)
  | advanceHeight (newHeight : Height)

/-- The machine's turn on one call; `none` is a panic. -/
def BftStateMachine.handle {C : Crates} (m : BftStateMachine C) :
    BftEvent → Option (BftStateMachine C × List ConsensusMessage)
  | .startRound round => some (m.startRound round)
  | .proposal proposal block => some (m.onProposal proposal block)
  | .prevote it vote => some (m.onPrevote it vote)
  | .precommit it vote => some (m.onPrecommit it vote)
  | .timeout event => m.onTimeout event
  | .advanceHeight newHeight => some (m.advanceHeight newHeight)

end Trv1Chain
