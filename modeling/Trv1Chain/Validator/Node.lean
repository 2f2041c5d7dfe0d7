import Trv1Chain.Bft.StateMachine
import Trv1Chain.Fees.FeeMarket
import Trv1Chain.Mempool.Pool
import Trv1Chain.State.StateDb
import Trv1Chain.Validator.Signing

/-!
# The validator's event loop

`validator/src/main.rs` from the start of consensus on: the loop over network messages, timeouts
and transactions, with `apply_commit` and `propose_block`. A turn of the loop is `Node.handle`; it
answers what the node sends and does as a list of `Action`s, the calls of `apply_commit` among
them.

What a turn reads from outside the node comes in an `Env`: the clock, and the order of each loop
over a hash map. The staking pool and the validator registry, which the loop rotates at an epoch
boundary and never reads, are not part of the node.
-/

set_option autoImplicit false

namespace Trv1Chain

open Lib

/-- What RPC serves about a committed block; the two hashes and the key in hex. -/
structure BlockResponse where
  height : UInt64
  timestamp : UInt64
  parentHash : List UInt8
  proposer : List UInt8
  txCount : Nat
  blockHash : List UInt8
  deriving DecidableEq

/-- What one turn of the loop reads from outside. -/
structure Env where
  counts : CountOrder
  accounts : AccountOrder
  /-- The pool's order when a commit falls back on it, and when a block is built. -/
  commitPool : PoolOrder
  proposePool : PoolOrder
  /-- `now_secs()` at a commit, and when a block is built. -/
  commitTime : UInt64
  blockTime : UInt64

/-- The loop's state: consensus, and what it shares with RPC. -/
structure Node (C : Crates) where
  bft : BftStateMachine C
  signingKey : Option (Bytes 32)
  timeoutConfig : TimeoutConfig
  mempool : TransactionPool
  stateDb : StateDb
  feeMarket : FeeMarket
  lastBlockHash : BlockHash
  currentHeight : UInt64
  baseFee : UInt64
  blockStore : List BlockResponse

/-- What a turn does to the world outside the loop, and the commits it applies. -/
inductive Action where
  | broadcast (msg : ConsensusMessage)
  | gossip (tx : Transaction)
  | schedule (event : TimeoutEvent) (durationMs : UInt64)
  | applyCommit (height : Height) (blockHash : BlockHash) (txs : List Transaction)

def buildBlock (C : Crates) (env : Env) (height : Height) (parentHash : BlockHash)
    (proposer : ValidatorId) (transactions : List Transaction) (stateDb : StateDb) : Block where
  header :=
    { height := height
      timestamp := env.blockTime
      parentHash := parentHash
      proposer := proposer
      stateRoot := stateDb.computeStateRoot C env.accounts
      txMerkleRoot := Block.computeTxMerkleRoot C transactions }
  transactions := transactions

namespace Node

variable {C : Crates}

/-- A turn at time 0 that meets every map in the order it is stored. -/
def storedOrder : Env := ⟨.stored, .stored, .stored, .stored, 0, 0⟩

/-- The node after a call into its machine. -/
def withBft (n : Node C) (bft : BftStateMachine C) : Node C := { n with bft := bft }

@[simp] theorem withBft_bft (n : Node C) (m : BftStateMachine C) : (n.withBft m).bft = m := rfl

@[simp] theorem withBft_signingKey (n : Node C) (m : BftStateMachine C) :
    (n.withBft m).signingKey = n.signingKey := rfl

@[simp] theorem withBft_mempool (n : Node C) (m : BftStateMachine C) :
    (n.withBft m).mempool = n.mempool := rfl

@[simp] theorem withBft_stateDb (n : Node C) (m : BftStateMachine C) :
    (n.withBft m).stateDb = n.stateDb := rfl

/-- The transactions a commit executes, and the proposer's name in hex: the cached block's, or
the pool's own first hundred where there is none. -/
def committedTransactions (n : Node C) (env : Env) :
    Option Block → List Transaction × List UInt8
  | some block => (block.transactions, toHex block.header.proposer.asBytes.toList)
  | none => (n.mempool.getPendingOrdered env.commitPool 100, [])

/-- Apply a committed block: execute transactions, update mempool, fees and RPC state. `none` is
the fee market's panic. -/
def applyCommit (n : Node C) (env : Env) (height : Height) (blockHash : BlockHash)
    (committedBlock : Option Block) : Option (Node C × List Transaction) :=
  let (txs, proposer) := n.committedTransactions env committedBlock
  let (stateDb, _receipts) := StateDb.applyBlock C n.stateDb txs
  let mempool := n.mempool.removeCommitted C (txs.map fun tx => tx.hash C)
  match n.feeMarket.updateBaseFee (UInt64.ofNat txs.length * 21000) with
  | none => none
  | some feeMarket =>
    some
      ({ n with
          stateDb := stateDb
          mempool := mempool
          feeMarket := feeMarket
          currentHeight := height.val
          baseFee := feeMarket.currentBaseFee
          blockStore := n.blockStore ++
            [{ height := height.val
               timestamp := env.commitTime
               parentHash := toHex n.lastBlockHash.bytes.toList
               proposer := proposer
               txCount := txs.length
               blockHash := toHex blockHash.bytes.toList }]
          lastBlockHash := blockHash },
       txs)

/-- Propose a new block. The machine's answer to the node's own proposal, its prevote among it,
is dropped. -/
def proposeBlock (n : Node C) (env : Env) (signingKey : Bytes 32) (height : Height)
    (round : Round) (parentHash : BlockHash) : Node C × List Action :=
  let txs := n.mempool.getPendingOrdered env.proposePool 100
  let block := buildBlock C env height parentHash ⟨C.verifyingKey signingKey⟩ txs n.stateDb
  let proposal := signProposal C height round (block.hash C) signingKey
  (n.withBft (n.bft.onProposal proposal (some block)).1,
   [.broadcast (.proposeBlock proposal (some block))])

/-- `if bft.is_proposer()`, with a key at hand. -/
def proposeIfProposer (n : Node C) (env : Env) (height : Height) (round : Round) :
    Node C × List Action :=
  match n.signingKey with
  | some sk =>
    if n.bft.isProposer then n.proposeBlock env sk height round n.lastBlockHash else (n, [])
  | none => (n, [])

/-- The messages of the machine made ready, and the timers they start. -/
def processOutput (n : Node C) (msgs : List ConsensusMessage) :
    List ConsensusMessage × List Action :=
  let (toBroadcast, timers) := processBftOutput C n.signingKey n.timeoutConfig msgs
  (toBroadcast, timers.map fun t => .schedule t.1 t.2)

/-- The three places that commit: apply the block, advance the machine, propose if it is our
turn, send what the advance produced. -/
def commitAndAdvance (n : Node C) (env : Env) (height : Height) (blockHash : BlockHash) :
    Option (Node C × List Action) :=
  match n.applyCommit env height blockHash (n.bft.getCommittedBlock blockHash) with
  | none => none
  | some (n, txs) =>
    let nextHeight : Height := ⟨height.val + 1⟩
    let (bft, advanceMsgs) := n.bft.advanceHeight nextHeight
    let n := n.withBft bft
    let (toBroadcast, timers) := n.processOutput advanceMsgs
    let (n, proposed) := n.proposeIfProposer env nextHeight ⟨0⟩
    some (n, .applyCommit height blockHash txs :: (timers ++ (proposed ++
      toBroadcast.map .broadcast)))

/-- The loop over the messages to send: a commit is applied, the rest is sent. -/
def dispatch (env : Env) : Node C → List ConsensusMessage → Option (Node C × List Action)
  | n, [] => some (n, [])
  | n, msg :: msgs =>
    let here := match msg with
      | .commitBlock height blockHash => n.commitAndAdvance env height blockHash
      | _ => some (n, [.broadcast msg])
    match here with
    | none => none
    | some (n, acts) => match dispatch env n msgs with
      | none => none
      | some (n, acts') => some (n, acts ++ acts')

/-- What the loop does with an answer of the machine. -/
def afterBft (n : Node C) (env : Env) (r : BftStateMachine C × List ConsensusMessage) :
    Option (Node C × List Action) :=
  let n := n.withBft r.1
  let (toBroadcast, timers) := n.processOutput r.2
  (dispatch env n toBroadcast).map fun (n, acts) => (n, timers ++ acts)

def onNetwork (n : Node C) (env : Env) : ConsensusMessage → Option (Node C × List Action)
  | .proposeBlock proposal block => n.afterBft env (n.bft.onProposal proposal block)
  | .castVote vote => match vote.voteType with
    | .prevote => n.afterBft env (n.bft.onPrevote env.counts vote)
    | .precommit => n.afterBft env (n.bft.onPrecommit env.counts vote)
  | .commitBlock height blockHash => n.commitAndAdvance env height blockHash
  | .scheduleTimeout _ => some (n, [])

/-- A timeout fired. After a precommit timeout the node checks whether it is the proposer. -/
def onTimeoutEvent (n : Node C) (env : Env) (event : TimeoutEvent) :
    Option (Node C × List Action) :=
  match n.bft.onTimeout event with
  | none => none
  | some (bft, msgs) =>
    let n := n.withBft bft
    let (toBroadcast, timers) := n.processOutput msgs
    let (n, proposed) :=
      if event.step = .precommit then n.proposeIfProposer env n.bft.height n.bft.round
      else (n, [])
    (dispatch env n toBroadcast).map fun (n, acts) => (n, timers ++ (proposed ++ acts))

end Node

/-- What wakes the loop, and what shares its state: a gossiped transaction, an RPC submission,
and the submission coming around to be gossiped. -/
inductive NodeEvent where
  | network (msg : ConsensusMessage)
  | timeout (event : TimeoutEvent)
  | gossiped (tx : Transaction)
  | submitted (tx : Transaction)
  | toGossip (tx : Transaction)

/-- One turn of the loop; `none` is a panic. -/
def Node.handle {C : Crates} (n : Node C) : Env × NodeEvent → Option (Node C × List Action)
  | (env, .network msg) => n.onNetwork env msg
  | (env, .timeout event) => n.onTimeoutEvent env event
  | (_, .gossiped tx) => some ({ n with mempool := (n.mempool.addTransaction C tx).1 }, [])
  | (_, .submitted tx) => some ({ n with mempool := (n.mempool.addTransaction C tx).1 }, [])
  | (_, .toGossip tx) => some (n, [.gossip tx])

/-- The node before its first turn: fresh consensus at height 0 and the genesis accounts. -/
def Node.genesis (C : Crates) (validators : List ValidatorId) (validatorIndex : Option Nat)
    (signingKey : Option (Bytes 32)) (stateDb : StateDb) (feeMarket : FeeMarket) : Node C where
  bft := BftStateMachine.new C ⟨0⟩ validators validatorIndex TimeoutConfig.default
  signingKey := signingKey
  timeoutConfig := TimeoutConfig.default
  mempool := TransactionPool.new MempoolConfig.default
  stateDb := stateDb
  feeMarket := feeMarket
  lastBlockHash := BlockHash.default
  currentHeight := 0
  baseFee := feeMarket.currentBaseFee
  blockStore := []

/-- The start of consensus: round 0, and the first block if this node proposes it. -/
def Node.start {C : Crates} (n : Node C) (env : Env) : Node C × List Action :=
  let (bft, msgs) := n.bft.startRound ⟨0⟩
  let n := n.withBft bft
  let (toBroadcast, timers) := n.processOutput msgs
  let (n, proposed) := n.proposeIfProposer env ⟨0⟩ ⟨0⟩
  (n, timers ++ (proposed ++ toBroadcast.map .broadcast))

end Trv1Chain
