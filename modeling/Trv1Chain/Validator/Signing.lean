import Trv1Chain.Bft.Vote
import Trv1Chain.Lib.Framing

/-!
# What a validator signs

The signing half of `validator/src/main.rs`. A validator signs two kinds of bytes with one key:
votes (`Vote.signBytes`, a tag byte and fixed-width words) and proposals (a text). Nothing but
the first byte keeps the two apart, and the text has no field for `valid_round`.
-/

set_option autoImplicit false

namespace Trv1Chain

open Lib

/-- `format!("propose:{}:{}:{}", height, round, to_hex(block_hash))`. -/
def proposalMessage (height : Height) (round : Round) (blockHash : BlockHash) : List UInt8 :=
  ascii ['p', 'r', 'o', 'p', 'o', 's', 'e', ':'] ++ (decimal height.val.toNat ++
    58 :: (decimal round.val.toNat ++ 58 :: toHex blockHash.bytes.toList))

def signProposal (C : Crates) (height : Height) (round : Round) (blockHash : BlockHash)
    (signingKey : Bytes 32) : Proposal where
  height := height
  round := round
  blockHash := blockHash
  proposer := ⟨C.verifyingKey signingKey⟩
  signature := C.sign signingKey (proposalMessage height round blockHash)
  validRound := none

def signVote (C : Crates) (voteType : VoteType) (height : Height) (round : Round)
    (blockHash : Option BlockHash) (signingKey : Bytes 32) : Vote :=
  Vote.new C voteType height round blockHash signingKey

/-- The messages of a state machine made ready for the network: a vote is signed afresh (or
dropped, on a node that has no key), a timeout goes to the timer with its duration. -/
def processBftOutput (C : Crates) (signingKey : Option (Bytes 32)) (timeoutConfig : TimeoutConfig) :
    List ConsensusMessage → List ConsensusMessage × List (TimeoutEvent × UInt64)
  | [] => ([], [])
  | msg :: msgs =>
    let (toBroadcast, timers) := processBftOutput C signingKey timeoutConfig msgs
    match msg with
    | .castVote template => match signingKey with
      | some sk =>
        (.castVote (signVote C template.voteType template.height template.round
          template.blockHash sk) :: toBroadcast, timers)
      | none => (toBroadcast, timers)
    | .scheduleTimeout te =>
      (toBroadcast, (te, timeoutConfig.timeoutFor te.step te.round) :: timers)
    | .commitBlock .. => (msg :: toBroadcast, timers)
    | .proposeBlock .. => (msg :: toBroadcast, timers)

theorem decimal_colon_inj {x y : Nat} {l l' : List UInt8}
    (h : decimal x ++ 58 :: l = decimal y ++ 58 :: l') : x = y ∧ l = l' := by
  rw [List.append_cons, List.append_cons (decimal y)] at h
  exact framed_decimal (Or.inr (by decide)) h

/-- **The signed text determines the height, the round and the hash.** -/
theorem proposalMessage_inj {h h' : Height} {r r' : Round} {b b' : BlockHash}
    (he : proposalMessage h r b = proposalMessage h' r' b') : h = h' ∧ r = r' ∧ b = b' := by
  unfold proposalMessage at he
  obtain ⟨hh, hrest⟩ := decimal_colon_inj (List.append_cancel_left he)
  obtain ⟨hr, hb⟩ := decimal_colon_inj hrest
  refine ⟨?_, ?_, ?_⟩
  · cases h; cases h'; exact congrArg Height.mk (UInt64.toNat_inj.mp hh)
  · cases r; cases r'; exact congrArg Round.mk (UInt32.toNat_inj.mp hr)
  · cases b; cases b'; exact congrArg BlockHash.mk (Bytes.toList_inj (toHex_inj hb))

/-- The two kinds of signed bytes do not meet: a vote's tag is `1` or `2`, a text starts with
`p`. -/
theorem signBytes_ne_proposalMessage {t : VoteType} {h h' : Height} {r r' : Round}
    {b : Option BlockHash} {b' : BlockHash} :
    Vote.signBytes t h r b ≠ proposalMessage h' r' b' := by
  intro he
  unfold Vote.signBytes proposalMessage ascii at he
  have htag := (List.cons.inj he).1
  cases t with
  | prevote => exact absurd htag (by decide)
  | precommit => exact absurd htag (by decide)

end Trv1Chain
