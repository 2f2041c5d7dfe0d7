import Mathlib.Algebra.BigOperators.Group.Finset.Basic
import Trv1Chain.Lib.Delivery
import Trv1Chain.Validator.Turns

/-!
# Validators among themselves

A cluster is `n` nodes that each run the event loop, one for every key of the validator list, with
nobody else on the network. It starts with all nodes at one height in round 0, where the round's
proposer proposes; from there on messages are delivered, in any order, and no timeout fires.

`RoundCommits` is what a round without faults is for: when nothing is left to deliver, every node
has committed the block that was proposed. `InOrderCommits` asks it only of deliveries that respect
the phases of the round.
-/

set_option autoImplicit false

namespace Trv1Chain

open Lib

def sentMessages (acts : List Action) : List ConsensusMessage :=
  acts.filterMap fun
    | .broadcast msg => some msg
    | _ => none

theorem sentMessages_append (acts acts' : List Action) :
    sentMessages (acts ++ acts') = sentMessages acts ++ sentMessages acts' :=
  List.filterMap_append

theorem sentMessages_schedules (timers : List (TimeoutEvent × UInt64)) :
    sentMessages (timers.map fun t => .schedule t.1 t.2) = [] := by
  simp [sentMessages, List.filterMap_map]

namespace ConsensusMessage

def height : ConsensusMessage → Height
  | .proposeBlock p _ => p.height
  | .castVote v => v.height
  | .commitBlock h _ => h
  | .scheduleTimeout te => te.height

/-- Proposals come first, then prevotes, then precommits. -/
def phase : ConsensusMessage → Nat
  | .proposeBlock _ _ => 0
  | .castVote v => match v.voteType with
    | .prevote => 1
    | .precommit => 2
  | .commitBlock _ _ => 3
  | .scheduleTimeout _ => 3

end ConsensusMessage

variable {C : Crates} {n : Nat}

/-- The validator list of a cluster, by the secret keys of its members. -/
def validatorIds (C : Crates) (keys : Fin n → Bytes 32) : List ValidatorId :=
  List.ofFn fun i => ⟨C.verifyingKey (keys i)⟩

namespace Node

/-- A node takes a message from the network, whatever else the turn reads. -/
def Receives (nd : Node C) (msg : ConsensusMessage) (nd' : Node C) (acts : List Action) : Prop :=
  ∃ env, nd.handle (env, .network msg) = some (nd', acts)

/-- Member `i` of the cluster at the start of round 0 of height `h`: in the propose step, with no
vote and no lock. Its pool, accounts and last block are its own. -/
structure Fresh (keys : Fin n → Bytes 32) (h : Height) (i : Fin n) (nd : Node C) : Prop where
  height : nd.bft.height = h
  round : nd.bft.round = ⟨0⟩
  step : nd.bft.step = .propose
  roundState : nd.bft.roundState = RoundState.new C ⟨0⟩ h n
  unlocked : nd.bft.lockedValue = none
  validators : nd.bft.validators = validatorIds C keys
  index : nd.bft.validatorIndex = some i.val
  key : nd.signingKey = some (keys i)
  live : nd.feeMarket.Live

/-- Member `i` as the program launches it, once its machine has started round 0. -/
def atLaunch (C : Crates) (keys : Fin n → Bytes 32) (i : Fin n) (db : StateDb) (fm : FeeMarket) :
    Node C :=
  let nd := Node.genesis C (validatorIds C keys) (some i.val) (some (keys i)) db fm
  nd.withBft (nd.bft.startRound ⟨0⟩).1

theorem fresh_atLaunch (keys : Fin n → Bytes 32) (i : Fin n) (db : StateDb) {fm : FeeMarket}
    (hfm : fm.Live) : (atLaunch C keys i db fm).Fresh keys ⟨0⟩ i := by
  refine ⟨rfl, rfl, rfl, ?_, rfl, rfl, rfl, rfl, hfm⟩
  show RoundState.new C ⟨0⟩ ⟨0⟩ (validatorIds C keys).length = _
  rw [validatorIds, List.length_ofFn]

end Node

abbrev Cluster (C : Crates) (n : Nat) := Net n (Node C) ConsensusMessage Action

namespace Cluster

/-- Round 0 of height `h` begins: the proposer proposes, the others wait. -/
def launch (nodes : Fin n → Node C) (env : Fin n → Env) (h : Height) : Cluster C n where
  nodes i := ((nodes i).proposeIfProposer (env i) h ⟨0⟩).1
  inFlight := ∑ i, spread i (sentMessages ((nodes i).proposeIfProposer (env i) h ⟨0⟩).2)
  log i := ((nodes i).proposeIfProposer (env i) h ⟨0⟩).2

/-- Every node has committed at `h` a block that was proposed at the launch. -/
def AllCommitted (w₀ w : Cluster C n) (h : Height) : Prop :=
  ∀ i, ∃ j p b txs, .broadcast (.proposeBlock p b) ∈ w₀.log j ∧
    .applyCommit h p.blockHash txs ∈ w.log i

/-- **Whatever the order of deliveries**, when nothing is left in flight every node has
committed. -/
def RoundCommits (w₀ : Cluster C n) (h : Height) : Prop :=
  ∀ w, Reaches Node.Receives sentMessages (fun _ _ _ => True) w₀ w → w.inFlight = 0 →
    AllCommitted w₀ w h

/-- Nothing of height `h` is overtaken: a message is delivered to `i` only when no message of `h`
in flight to `i` is of an earlier phase, and one of another height only when none of `h` is in
flight at all. -/
def InOrder (h : Height) (w : Cluster C n) (i : Fin n) (msg : ConsensusMessage) : Prop :=
  ∀ k msg', (k, msg') ∈ w.inFlight → msg'.height = h →
    msg.height = h ∧ (k = i → msg.phase ≤ msg'.phase)

def RoundOver (h : Height) (w : Cluster C n) : Prop := ∀ q ∈ w.inFlight, q.2.height ≠ h

/-- **If nothing of the height is overtaken**, when nothing of it is left in flight every node has
committed. -/
def InOrderCommits (w₀ : Cluster C n) (h : Height) : Prop :=
  ∀ w, Reaches Node.Receives sentMessages (InOrder h) w₀ w → RoundOver h w → AllCommitted w₀ w h

end Cluster

end Trv1Chain
