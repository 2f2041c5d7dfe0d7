import Trv1Chain.Lib.Locks
import Trv1Chain.Rpc.Server
import Trv1Chain.Validator.Registry
import Trv1Chain.Validator.Turns

/-!
# The validator's tasks, lock by lock

The RPC handlers of `rpc/src/server.rs` run on threads of their own beside the event loop of
`validator/src/main.rs`, and share its state cell by cell: every cell has a reader-writer lock. This
is the code of the handlers and of the loop's own accesses (`apply_commit`, `propose_block`, a
gossiped transaction, the save at shutdown) as tasks over those locks, with every guard taken where
the source takes it and dropped where the source drops it.

A guard that is a temporary lives to the end of its statement. So `get_block` keeps the block store
while it reads the height, the base fee is written with the fee market still held, and the staking
pool is held over the whole epoch handling; everything else takes one lock at a time.

Run alone, a task is the function of the model it stands for (`commitTask_run`, `serveTask_run`).
-/

set_option autoImplicit false

namespace Trv1Chain.Rpc

open Lib Staking ValidatorSet Genesis RpcState

/-- The cells that have a lock. -/
inductive Lock where
  | stakingPool
  | validatorSet
  | mempool
  | stateDb
  | feeMarket
  | baseFee
  | blockStore
  | currentHeight
  | validatorCount
  deriving DecidableEq

/-- All the cells, and the loop's own note of the last hash. -/
structure Shared where
  rpc : RpcState
  feeMarket : FeeMarket
  stakingPool : StakingPool
  validatorSet : ValidatorSetManager
  lastBlockHash : BlockHash

/-- What a task ends with. -/
inductive Outcome where
  | reply (r : Reply)
  | committed (txs : List Transaction)
  | built (block : Block)
  | added (r : Except MempoolError Unit)
  | saved (db : StateDb)
  | panicked

abbrev ValidatorTask := Task Lock Shared Outcome

/-! ## The handlers -/

/-- `get_block` with the block store's guard in hand. -/
def lookUp (height : UInt64) (s : Shared) : ValidatorTask :=
  match s.rpc.blockStore[height.toNat]? with
  | some block => .release .blockStore (.done (.reply (.block (.ok block))))
  | none => .peek .currentHeight fun s =>
      .release .blockStore (.done (.reply (.block (missingBlock height s.rpc.currentHeight))))

def getBlockTask (height : UInt64) : ValidatorTask :=
  .acquire .blockStore .read (.act id (lookUp height))

/-- `get_latest_block` drops the guard before it reads the height. -/
def getLatestBlockTask : ValidatorTask :=
  .peek .blockStore fun s =>
    match s.rpc.blockStore.getLast? with
    | some block => .done (.reply (.block (.ok block)))
    | none => .peek .currentHeight fun s =>
        .done (.reply (.block (.ok (placeholder s.rpc.currentHeight))))

def healthTask : ValidatorTask :=
  .peek .currentHeight fun s =>
    .peek .validatorCount fun s' =>
      .done (.reply (.health ⟨"ok", s.rpc.currentHeight, s'.rpc.validatorCount, "0.1.0"⟩))

/-- The pool's guard is held until the transaction is in the channel. -/
def submitTransactionTask (C : Crates) (F : FileCrates) (req : SubmitTransactionRequest) :
    ValidatorTask :=
  match decodeTransaction F req with
  | .error e => .done (.reply (.submitted (.error e)))
  | .ok tx => .under .mempool .write (fun s => { s with rpc := (letIn C F s.rpc tx).1 })
      fun s => .done (.reply (.submitted (letIn C F s.rpc tx).2))

def getAccountTask (F : FileCrates) (pubkey : Text) : ValidatorTask :=
  match decodeKey F "pubkey" pubkey with
  | .error e => .done (.reply (.account (.error e)))
  | .ok _ => .peek .stateDb fun s => .done (.reply (.account (s.rpc.getAccount F pubkey)))

/-- The task of a request. The genesis validators are never written and have no lock. -/
def serveTask (C : Crates) (F : FileCrates) : Request → ValidatorTask
  | .getBlock height => getBlockTask height
  | .getLatestBlock => getLatestBlockTask
  | .getValidators => .act id fun s => .done (.reply (.validators s.rpc.getValidators))
  | .getStakingInfo pubkey => .done (.reply (.stakingInfo ⟨pubkey, 0, 0⟩))
  | .getFeeInfo => .peek .baseFee fun s => .done (.reply (.feeInfo s.rpc.getFeeInfo))
  | .health => healthTask
  | .submitTransaction req => submitTransactionTask C F req
  | .getAccount pubkey => getAccountTask F pubkey

/-! ## The event loop -/

/-- The epoch handling: the pool stays locked over the rotation of the registry. A rotation returns
on every registry the program builds. -/
def epochTask (o : RotationOrder) (genesis : GenesisConfig) (height : Height)
    (txs : List Transaction) : ValidatorTask :=
  if ValidatorNode.EndsEpoch genesis height then
    .acquire .stakingPool .read (.under .validatorSet .write
      (fun s => match s.validatorSet.epochRotation o s.stakingPool with
        | some (validatorSet, _) => { s with validatorSet := validatorSet }
        | none => s)
      fun _ => .release .stakingPool (.done (.committed txs)))
  else .done (.committed txs)

/-- The last part of `apply_commit`: the block is stored, and its hash noted. -/
def storeTask (env : Env) (o : RotationOrder) (genesis : GenesisConfig) (height : Height)
    (blockHash : BlockHash) (txs : List Transaction) (proposer : List UInt8) : ValidatorTask :=
  .under .blockStore .write
    (fun s => { s with rpc := { s.rpc with blockStore := s.rpc.blockStore ++
      [{ height := height.val
         timestamp := env.commitTime
         parentHash := toHex s.lastBlockHash.bytes.toList
         proposer := proposer
         txCount := txs.length
         blockHash := toHex blockHash.bytes.toList }] } })
    fun _ => .act (fun s => { s with lastBlockHash := blockHash })
      fun _ => epochTask o genesis height txs

/-- The middle part: the height, and the base fee with the fee market held. -/
def publishTask (env : Env) (o : RotationOrder) (genesis : GenesisConfig) (height : Height)
    (blockHash : BlockHash) (txs : List Transaction) (proposer : List UInt8) : ValidatorTask :=
  .under .currentHeight .write
    (fun s => { s with rpc := { s.rpc with currentHeight := height.val } })
    fun _ => .acquire .feeMarket .read (.act id fun s =>
      .under .baseFee .write
        (fun s' => { s' with rpc := { s'.rpc with baseFee := s.feeMarket.currentBaseFee } })
        fun _ => .release .feeMarket
          (storeTask env o genesis height blockHash txs proposer))

/-- `apply_commit` with the transactions it executes. -/
def executeTask (C : Crates) (env : Env) (o : RotationOrder) (genesis : GenesisConfig)
    (height : Height) (blockHash : BlockHash) (txs : List Transaction) (proposer : List UInt8) :
    ValidatorTask :=
  .under .stateDb .write
    (fun s => { s with rpc := { s.rpc with
      stateDb := (StateDb.applyBlock C s.rpc.stateDb txs).1 } })
    fun _ => .under .mempool .write
      (fun s => { s with rpc := { s.rpc with
        mempool := s.rpc.mempool.removeCommitted C (txs.map fun tx => tx.hash C) } })
      fun _ => .under .feeMarket .write
        (fun s => match s.feeMarket.updateBaseFee (UInt64.ofNat txs.length * 21000) with
          | some feeMarket => { s with feeMarket := feeMarket }
          | none => s)
        fun s => match s.feeMarket.updateBaseFee (UInt64.ofNat txs.length * 21000) with
          | some _ => publishTask env o genesis height blockHash txs proposer
          | none => .done .panicked

def commitTask (C : Crates) (genesis : GenesisConfig) (c : ValidatorNode.CommitCall) :
    ValidatorTask :=
  match c.committedBlock with
  | some block => executeTask C c.env c.rotation genesis c.height c.blockHash block.transactions
      (toHex block.header.proposer.asBytes.toList)
  | none => .peek .mempool fun s => executeTask C c.env c.rotation genesis c.height c.blockHash
      (s.rpc.mempool.getPendingOrdered c.env.commitPool 100) []

/-- What `propose_block` reads: the pool, then the accounts for the state root. -/
def proposeTask (C : Crates) (env : Env) (signingKey : Bytes 32) (height : Height) :
    ValidatorTask :=
  .peek .mempool fun s => .peek .stateDb fun s' =>
    .done (.built (buildBlock C env height s.lastBlockHash ⟨C.verifyingKey signingKey⟩
      (s.rpc.mempool.getPendingOrdered env.proposePool 100) s'.rpc.stateDb))

def gossipedTask (C : Crates) (tx : Transaction) : ValidatorTask :=
  .under .mempool .write
    (fun s => { s with rpc := { s.rpc with mempool := (s.rpc.mempool.addTransaction C tx).1 } })
    fun s => .done (.added (s.rpc.mempool.addTransaction C tx).2)

/-- The save at shutdown reads the accounts. -/
def saveTask : ValidatorTask := .peek .stateDb fun s => .done (.saved s.rpc.stateDb)

/-- The loop's tasks but for the commits. -/
inductive SideTask (C : Crates) : ValidatorTask → Prop
  | propose (env : Env) (signingKey : Bytes 32) (height : Height) :
      SideTask C (proposeTask C env signingKey height)
  | gossiped (tx : Transaction) : SideTask C (gossipedTask C tx)
  | save : SideTask C saveTask

/-- Every task of the validator. -/
inductive IsTask (C : Crates) (F : FileCrates) (genesis : GenesisConfig) : ValidatorTask → Prop
  | request (r : Request) : IsTask C F genesis (serveTask C F r)
  | commit (c : ValidatorNode.CommitCall) : IsTask C F genesis (commitTask C genesis c)
  | side {t : ValidatorTask} : SideTask C t → IsTask C F genesis t

/-! ## Alone, a task is its function -/

/-- The cells of a running validator that nothing else is said about. -/
def Shared.ofNode {C : Crates} (v : ValidatorNode C) (validatorCount : Nat)
    (genesisValidators : List ValidatorResponse) (queue : Option (List Transaction)) : Shared where
  rpc :=
    { currentHeight := v.node.currentHeight
      validatorCount := validatorCount
      baseFee := v.node.baseFee
      mempool := v.node.mempool
      stateDb := v.node.stateDb
      blockStore := v.node.blockStore
      genesisValidators := genesisValidators
      txGossipTx := queue }
  feeMarket := v.node.feeMarket
  stakingPool := v.stakingPool
  validatorSet := v.validatorSet
  lastBlockHash := v.node.lastBlockHash

variable {C : Crates} (count : Nat) (vals : List ValidatorResponse)
  (queue : Option (List Transaction))

theorem epochTask_run {o : RotationOrder} {v v' : ValidatorNode C} {height : Height}
    (h : v.handleEpoch o height = some v') (txs : List Transaction) :
    (epochTask o v.genesis height txs).run (.ofNode v count vals queue) =
      (.ofNode v' count vals queue, .committed txs) := by
  unfold ValidatorNode.handleEpoch at h
  unfold epochTask
  split at h
  · rename_i hends
    rw [if_pos hends]
    cases hrot : v.validatorSet.epochRotation o v.stakingPool with
    | none => rw [hrot] at h; cases h
    | some r =>
      rw [hrot] at h
      cases h
      rw [Task.run, Task.run_under]
      dsimp only [Shared.ofNode]
      rw [hrot]
      rfl
  · rename_i hends
    cases h
    rw [if_neg hends]
    rfl

/-- The locked steps up to the epoch handling are the node's part of the commit. -/
theorem executeTask_run {v : ValidatorNode C} {env : Env} {o : RotationOrder} {height : Height}
    {blockHash : BlockHash} {block : Option Block} {feeMarket : FeeMarket}
    (h : v.node.feeMarket.updateBaseFee
      (UInt64.ofNat (v.node.committedTransactions env block).1.length * 21000) =
        some feeMarket) :
    (executeTask C env o v.genesis height blockHash (v.node.committedTransactions env block).1
        (v.node.committedTransactions env block).2).run (.ofNode v count vals queue) =
      (epochTask o v.genesis height (v.node.committedTransactions env block).1).run
        (.ofNode { v with node := v.node.withCommit env height blockHash block feeMarket }
          count vals queue) := by
  unfold executeTask
  rw [Task.run_under, Task.run_under, Task.run_under]
  dsimp only [Shared.ofNode]
  rw [h]
  rfl

/-- **`apply_commit` alone.** With no other task in between, the locked steps amount to the
`applyCommit` of the model. -/
theorem commitTask_run {v v' : ValidatorNode C} {c : ValidatorNode.CommitCall}
    {txs : List Transaction} (h : v.applyCommit c = some (v', txs)) :
    (commitTask C v.genesis c).run (.ofNode v count vals queue) =
      (.ofNode v' count vals queue, .committed txs) := by
  unfold ValidatorNode.applyCommit at h
  rw [Node.applyCommit_eq] at h
  cases hfee : v.node.feeMarket.updateBaseFee (UInt64.ofNat
      (v.node.committedTransactions c.env c.committedBlock).1.length * 21000) with
  | none => rw [hfee] at h; cases h
  | some feeMarket =>
    rw [hfee] at h
    dsimp only at h
    obtain ⟨v₁, hepoch, heq⟩ := Option.map_eq_some_iff.mp h
    cases heq
    have hcommit : (commitTask C v.genesis c).run (.ofNode v count vals queue) =
        (executeTask C c.env c.rotation v.genesis c.height c.blockHash
          (v.node.committedTransactions c.env c.committedBlock).1
          (v.node.committedTransactions c.env c.committedBlock).2).run
            (.ofNode v count vals queue) := by
      unfold commitTask
      cases c.committedBlock with
      | none => rfl
      | some block => rfl
    rw [hcommit, executeTask_run count vals queue hfee]
    exact epochTask_run count vals queue hepoch _

/-- **A request alone** is served as on one moment's state. -/
theorem serveTask_run (F : FileCrates) (r : Request) (s : Shared) :
    (serveTask C F r).run s =
      ({ s with rpc := (s.rpc.serve C F r).1 }, .reply (s.rpc.serve C F r).2) := by
  cases r with
  | getBlock height =>
    show (lookUp height s).run s = (s, .reply (.block (s.rpc.getBlock height)))
    unfold lookUp RpcState.getBlock
    cases s.rpc.blockStore[height.toNat]? with
    | none => rfl
    | some block => rfl
  | getLatestBlock =>
    show getLatestBlockTask.run s = (s, .reply (.block (.ok s.rpc.getLatestBlock)))
    unfold getLatestBlockTask RpcState.getLatestBlock
    rw [Task.run_peek]
    cases s.rpc.blockStore.getLast? with
    | none => rfl
    | some block => rfl
  | getValidators => rfl
  | getStakingInfo pubkey => rfl
  | getFeeInfo => rfl
  | health => rfl
  | submitTransaction req =>
    show (submitTransactionTask C F req).run s =
      ({ s with rpc := (s.rpc.submitTransaction C F req).1 },
        .reply (.submitted (s.rpc.submitTransaction C F req).2))
    unfold submitTransactionTask RpcState.submitTransaction
    cases decodeTransaction F req with
    | error e => rfl
    | ok tx => rfl
  | getAccount pubkey =>
    show (getAccountTask F pubkey).run s = (s, .reply (.account (s.rpc.getAccount F pubkey)))
    unfold getAccountTask
    cases hkey : decodeKey F "pubkey" pubkey with
    | error e =>
      unfold RpcState.getAccount
      rw [hkey]
      rfl
    | ok key => rfl

end Trv1Chain.Rpc
