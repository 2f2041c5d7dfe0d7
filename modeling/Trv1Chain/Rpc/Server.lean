import Trv1Chain.State.Files
import Trv1Chain.Validator.Node

/-!
# The RPC server

`rpc/src/{types,handlers,server}.rs`: the state the handlers share with the event loop, and the
eight methods. Strings that come from outside or hold hex digits are byte strings; the texts the
server writes itself are `String`s. Serving the methods over HTTP is left to `jsonrpsee`.

A handler here runs on one moment's state. What it can see while the loop is in the middle of a
commit is the subject of `Rpc.Tasks`.
-/

set_option autoImplicit false

namespace Trv1Chain

open Lib

/-- The text of an error, as the enumeration's `Display` writes it. -/
def MempoolError.message : MempoolError → String
  | .duplicateTransaction => "duplicate transaction"
  | .poolFull => "mempool is full"
  | .invalidSignature => "invalid signature"
  | .nonceTooLow expected got => s!"nonce too low: expected {expected.toNat}, got {got.toNat}"
  | .insufficientBalance => "insufficient balance"
  | .invalidTransaction message => s!"invalid transaction: {message}"

namespace Rpc

/-! ## Requests and responses -/

structure ValidatorResponse where
  pubkey : Text
  stake : UInt64
  commissionRate : UInt16
  status : String
  performanceScore : UInt16

structure StakingInfoResponse where
  pubkey : Text
  totalStaked : UInt64
  votingPower : UInt64

structure FeeInfoResponse where
  baseFee : UInt64
  targetGasPerBlock : UInt64
  maxGasPerBlock : UInt64

structure HealthResponse where
  status : String
  currentHeight : UInt64
  validatorCount : Nat
  version : String

/-- A transaction to submit; the two keys, the signature and the data in hex. -/
structure SubmitTransactionRequest where
  sender : Text
  recipient : Text
  amount : UInt64
  nonce : UInt64
  signature : Text
  data : Text

structure SubmitTransactionResponse where
  txHash : Text
  accepted : Bool

structure AccountResponse where
  pubkey : Text
  balance : UInt64
  nonce : UInt64

/-- A JSON-RPC error object. -/
structure RpcError where
  code : Int
  message : String
  deriving DecidableEq

/-! ## The shared state -/

/-- How many submitted transactions the channel to the event loop holds. -/
def gossipCapacity : Nat := 256

/-- What the handlers see. The channel is its queue, oldest first. -/
structure RpcState where
  currentHeight : UInt64
  validatorCount : Nat
  baseFee : UInt64
  mempool : TransactionPool
  stateDb : StateDb
  blockStore : List BlockResponse
  genesisValidators : List ValidatorResponse
  txGossipTx : Option (List Transaction)

namespace RpcState

def new (mempool : TransactionPool) (stateDb : StateDb)
    (genesisValidators : List ValidatorResponse) : RpcState where
  currentHeight := 0
  validatorCount := genesisValidators.length
  baseFee := 1
  mempool := mempool
  stateDb := stateDb
  blockStore := []
  genesisValidators := genesisValidators
  txGossipTx := none

def withTxGossip (s : RpcState) : RpcState := { s with txGossipTx := some [] }

/-- `try_send`: a full channel refuses, and nobody looks at the refusal. -/
def trySend (s : RpcState) (tx : Transaction) : RpcState :=
  match s.txGossipTx with
  | none => s
  | some queue =>
    if queue.length < gossipCapacity then { s with txGossipTx := some (queue ++ [tx]) } else s

/-! ## Blocks -/

/-- Sixty-four zero digits. -/
def zeroHex : Text := List.replicate 64 48

/-- The block that stands in for one that is not stored. -/
def placeholder (height : UInt64) : BlockResponse where
  height := height
  timestamp := 0
  parentHash := zeroHex
  proposer := zeroHex
  txCount := 0
  blockHash := zeroHex

def notCommitted (height current : UInt64) : RpcError where
  code := -32001
  message :=
    s!"block at height {height.toNat} not yet committed (current: {current.toNat})"

/-- What `get_block` answers when the store has nothing at the height. -/
def missingBlock (height current : UInt64) : Except RpcError BlockResponse :=
  if height > current then .error (notCommitted height current) else .ok (placeholder height)

def getBlock (s : RpcState) (height : UInt64) : Except RpcError BlockResponse :=
  match s.blockStore[height.toNat]? with
  | some block => .ok block
  | none => missingBlock height s.currentHeight

def getLatestBlock (s : RpcState) : BlockResponse :=
  match s.blockStore.getLast? with
  | some block => block
  | none => placeholder s.currentHeight

/-! ## The other queries -/

def getValidators (s : RpcState) : List ValidatorResponse := s.genesisValidators

/-- A stub of the source: every account has staked nothing. -/
def getStakingInfo (_ : RpcState) (pubkey : Text) : StakingInfoResponse := ⟨pubkey, 0, 0⟩

def getFeeInfo (s : RpcState) : FeeInfoResponse := ⟨s.baseFee, 15000000, 30000000⟩

def health (s : RpcState) : HealthResponse := ⟨"ok", s.currentHeight, s.validatorCount, "0.1.0"⟩

/-- An argument that should be hex digits. -/
def decodeHex (F : FileCrates) (what : String) (text : Text) : Except RpcError (List UInt8) :=
  match F.hexDecode text with
  | .ok bytes => .ok bytes
  | .error e => .error ⟨-32602, s!"invalid {what} hex: {e}"⟩

/-- An argument that should be the hex digits of a key. -/
def decodeKey (F : FileCrates) (what : String) (text : Text) : Except RpcError (Bytes 32) :=
  match decodeHex F what text with
  | .error e => .error e
  | .ok bytes =>
    if h : bytes.length = 32 then .ok ⟨bytes, h⟩
    else .error ⟨-32602, s!"{what} must be 32 bytes"⟩

def getAccount (F : FileCrates) (s : RpcState) (pubkey : Text) :
    Except RpcError AccountResponse :=
  match decodeKey F "pubkey" pubkey with
  | .error e => .error e
  | .ok key =>
    match s.stateDb.getAccount key with
    | some acct => .ok ⟨pubkey, acct.balance, acct.nonce⟩
    | none => .ok ⟨pubkey, 0, 0⟩

/-! ## Submission -/

/-- The transaction a request describes; the fields are decoded in this order, and the first that
fails is reported. -/
def decodeTransaction (F : FileCrates) (req : SubmitTransactionRequest) :
    Except RpcError Transaction :=
  match decodeKey F "'from'" req.sender with
  | .error e => .error e
  | .ok sender =>
    match decodeKey F "'to'" req.recipient with
    | .error e => .error e
    | .ok recipient =>
      match decodeHex F "'signature'" req.signature with
      | .error e => .error e
      | .ok signature =>
        match decodeHex F "'data'" req.data with
        | .error e => .error e
        | .ok data => .ok ⟨sender, recipient, req.amount, req.nonce, signature, data⟩

/-- The admission of a decoded transaction. -/
def letIn (C : Crates) (F : FileCrates) (s : RpcState) (tx : Transaction) :
    RpcState × Except RpcError SubmitTransactionResponse :=
  match s.mempool.addTransaction C tx with
  | (pool, .ok ()) =>
    (trySend { s with mempool := pool } tx, .ok ⟨F.hexEncode (computeTxHash C tx).toList, true⟩)
  | (pool, .error e) =>
    ({ s with mempool := pool }, .error ⟨-32000, s!"transaction rejected: {e.message}"⟩)

def submitTransaction (C : Crates) (F : FileCrates) (s : RpcState)
    (req : SubmitTransactionRequest) :
    RpcState × Except RpcError SubmitTransactionResponse :=
  match decodeTransaction F req with
  | .error e => (s, .error e)
  | .ok tx => letIn C F s tx

end RpcState

/-! ## Serving -/

inductive Request where
  | getBlock (height : UInt64)
  | getLatestBlock
  | getValidators
  | getStakingInfo (pubkey : Text)
  | getFeeInfo
  | health
  | submitTransaction (req : SubmitTransactionRequest)
  | getAccount (pubkey : Text)

inductive Reply where
  | block (r : Except RpcError BlockResponse)
  | validators (r : List ValidatorResponse)
  | stakingInfo (r : StakingInfoResponse)
  | feeInfo (r : FeeInfoResponse)
  | health (r : HealthResponse)
  | submitted (r : Except RpcError SubmitTransactionResponse)
  | account (r : Except RpcError AccountResponse)

/-- One request, answered. -/
def RpcState.serve (C : Crates) (F : FileCrates) (s : RpcState) : Request → RpcState × Reply
  | .getBlock height => (s, .block (s.getBlock height))
  | .getLatestBlock => (s, .block (.ok s.getLatestBlock))
  | .getValidators => (s, .validators s.getValidators)
  | .getStakingInfo pubkey => (s, .stakingInfo (s.getStakingInfo pubkey))
  | .getFeeInfo => (s, .feeInfo s.getFeeInfo)
  | .health => (s, .health s.health)
  | .submitTransaction req =>
    ((s.submitTransaction C F req).1, .submitted (s.submitTransaction C F req).2)
  | .getAccount pubkey => (s, .account (s.getAccount F pubkey))

end Rpc

end Trv1Chain
