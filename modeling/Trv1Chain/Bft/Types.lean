import Trv1Chain.Lib.Bytes
import Trv1Chain.Lib.HashMap

/-!
# The consensus data

The data of `consensus/bft/src/types.rs`, `round.rs` and `block.rs`: what validators sign, what
they send each other, and what a block carries. Field by field as the source has it, less the
logging and serialisation attributes.
-/

set_option autoImplicit false

namespace Trv1Chain

open Lib

/-- An ed25519 public key identifying a validator, by its 32 bytes (which is what the key type
compares). -/
structure ValidatorId where
  asBytes : Bytes 32
  deriving DecidableEq

structure BlockHash where
  bytes : Bytes 32
  deriving DecidableEq

/-- The zero hash: the parent of the first block. -/
def BlockHash.default : BlockHash := ⟨Bytes.fill 32 0⟩

structure Height where
  val : UInt64
  deriving DecidableEq

structure Round where
  val : UInt32
  deriving DecidableEq

abbrev Signature := Bytes 64

inductive VoteType where
  | prevote
  | precommit
  deriving DecidableEq

/-- A vote cast by a validator; `blockHash = none` is a nil vote. -/
structure Vote where
  voteType : VoteType
  height : Height
  round : Round
  blockHash : Option BlockHash
  validator : ValidatorId
  signature : Signature
  deriving DecidableEq

/-- A block proposal from the round's designated proposer. A set `validRound` says the proposal
is for a previously locked block. -/
structure Proposal where
  height : Height
  round : Round
  blockHash : BlockHash
  proposer : ValidatorId
  signature : Signature
  validRound : Option Round
  deriving DecidableEq

structure BlockHeader where
  height : Height
  timestamp : UInt64
  parentHash : BlockHash
  proposer : ValidatorId
  stateRoot : Bytes 32
  txMerkleRoot : Bytes 32
  deriving DecidableEq

structure Transaction where
  sender : Bytes 32
  recipient : Bytes 32
  amount : UInt64
  nonce : UInt64
  signature : List UInt8
  data : List UInt8
  deriving DecidableEq

structure Block where
  header : BlockHeader
  transactions : List Transaction
  deriving DecidableEq

inductive TimeoutStep where
  | propose
  | prevote
  | precommit
  deriving DecidableEq

structure TimeoutEvent where
  height : Height
  round : Round
  step : TimeoutStep
  deriving DecidableEq

inductive ConsensusMessage where
  | proposeBlock (proposal : Proposal) (block : Option Block)
  | castVote (vote : Vote)
  | commitBlock (height : Height) (blockHash : BlockHash)
  | scheduleTimeout (event : TimeoutEvent)
  deriving DecidableEq

inductive RoundStep where
  | newRound
  | propose
  | prevote
  | precommit
  | commit
  deriving DecidableEq

/-- Timeout durations for each phase, in milliseconds. -/
structure TimeoutConfig where
  proposeMs : UInt64
  prevoteMs : UInt64
  precommitMs : UInt64
  incrementMs : UInt64
  deriving DecidableEq

def TimeoutConfig.default : TimeoutConfig where
  proposeMs := 3000
  prevoteMs := 1000
  precommitMs := 1000
  incrementMs := 500

/-- The timeout of a step, with linear backoff in the round. -/
def TimeoutConfig.timeoutFor (c : TimeoutConfig) (step : TimeoutStep) (round : Round) : UInt64 :=
  let base := match step with
    | .propose => c.proposeMs
    | .prevote => c.prevoteMs
    | .precommit => c.precommitMs
  base + c.incrementMs * round.val.toUInt64

end Trv1Chain
