import Mathlib.Data.List.Sort
import Mathlib.Data.Finset.Basic
import Trv1Chain.Bft.Block

/-!
# The transaction pool

`mempool/src/{types,validation,pool}.rs`. Admission is the one place of the program that verifies
a transaction's signature, so `AllVerified` is an invariant of every pool, and of every list of
transactions taken out of one.

The pool knows a transaction by the hash of its JSON; `Transaction::hash` is over bincode.
-/

set_option autoImplicit false

namespace Trv1Chain

open Lib

inductive MempoolError where
  | duplicateTransaction
  | poolFull
  | invalidSignature
  | nonceTooLow (expected got : UInt64)
  | insufficientBalance
  | invalidTransaction (message : String)
  deriving DecidableEq

structure MempoolConfig where
  maxSize : Nat
  maxTxPerAccount : Nat

def MempoolConfig.default : MempoolConfig := ⟨10000, 100⟩

structure PendingTransaction where
  tx : Transaction
  addedAt : UInt64
  feePriority : UInt64

def PendingTransaction.new (tx : Transaction) (addedAt : UInt64) : PendingTransaction :=
  ⟨tx, addedAt, tx.amount⟩

def validateTransaction (tx : Transaction) : Except MempoolError Unit :=
  if tx.sender = Bytes.fill 32 0 then
    .error (.invalidTransaction "sender cannot be zero address")
  else if tx.signature.isEmpty then .error (.invalidTransaction "signature cannot be empty")
  else .ok ()

def buildSigningMessage (C : Crates) (tx : Transaction) : Bytes 32 :=
  C.sha256 (tx.sender.toList ++ (tx.recipient.toList ++ (leBytes 8 tx.amount.toNat ++
    (leBytes 8 tx.nonce.toNat ++ tx.data))))

/-- Verify the ed25519 signature on a transaction, strictly. -/
def verifySignature (C : Crates) (tx : Transaction) : Except MempoolError Unit :=
  if C.isPoint tx.sender = false then .error .invalidSignature
  else if hlen : tx.signature.length = 64 then
    if C.verifyStrict tx.sender (buildSigningMessage C tx).toList ⟨tx.signature, hlen⟩ then .ok ()
    else .error .invalidSignature
  else .error .invalidSignature

def computeTxHash (C : Crates) (tx : Transaction) : Bytes 32 := C.sha256 (C.jsonTransaction tx)

structure TransactionPool where
  config : MempoolConfig
  /-- Transactions grouped by sender. -/
  bySender : HashMap (Bytes 32) (List PendingTransaction)
  /-- Known transaction hashes. -/
  knownHashes : Finset (Bytes 32)
  totalCount : Nat

/-- The order of a loop over the senders. -/
abbrev PoolOrder := IterOrder (Sigma fun _ : Bytes 32 => List PendingTransaction)

namespace TransactionPool

def new (config : MempoolConfig) : TransactionPool := ⟨config, ∅, ∅, 0⟩

/-- The last step of an admission. The sender's entry exists from here on, also when its limit
refuses the transaction. -/
def pushPending (C : Crates) (pool : TransactionPool) (tx : Transaction) :
    TransactionPool × Except MempoolError Unit :=
  let senderTxs := (pool.bySender.lookup tx.sender).getD []
  if senderTxs.length ≥ pool.config.maxTxPerAccount then
    ({ pool with bySender := pool.bySender.insert tx.sender senderTxs }, .error .poolFull)
  else
    ({ pool with
        bySender := pool.bySender.insert tx.sender
          (senderTxs ++ [PendingTransaction.new tx (UInt64.ofNat pool.totalCount)])
        knownHashes := insert (computeTxHash C tx) pool.knownHashes
        totalCount := pool.totalCount + 1 }, .ok ())

def addTransaction (C : Crates) (pool : TransactionPool) (tx : Transaction) :
    TransactionPool × Except MempoolError Unit :=
  match validateTransaction tx with
  | .error e => (pool, .error e)
  | .ok () => match verifySignature C tx with
    | .error e => (pool, .error e)
    | .ok () =>
      if pool.totalCount ≥ pool.config.maxSize then (pool, .error .poolFull)
      else if computeTxHash C tx ∈ pool.knownHashes then (pool, .error .duplicateTransaction)
      else pool.pushPending C tx

def retainUncommitted (C : Crates) (txHashes : List (Bytes 32)) (txs : List PendingTransaction) :
    List PendingTransaction :=
  txs.filter fun ptx => !txHashes.contains (computeTxHash C ptx.tx)

def removeCommitted (C : Crates) (pool : TransactionPool) (txHashes : List (Bytes 32)) :
    TransactionPool :=
  let kept := pool.bySender.mapValues (retainUncommitted C txHashes)
  let removed := (pool.bySender.values.map List.length).sum - (kept.values.map List.length).sum
  { pool with
    bySender := kept.retain fun txs => !txs.isEmpty
    knownHashes := pool.knownHashes \ txHashes.toFinset
    totalCount := pool.totalCount - removed }

/-- Check if a transaction hash is already in the pool. -/
def contains (pool : TransactionPool) (txHash : Bytes 32) : Bool :=
  decide (txHash ∈ pool.knownHashes)

/-- Remove all pending transactions. -/
def clear (pool : TransactionPool) : TransactionPool :=
  { pool with bySender := ∅, knownHashes := ∅, totalCount := 0 }

/-- Higher fee priority first; among equals, earlier additions first. -/
def before (a b : PendingTransaction) : Prop :=
  b.feePriority < a.feePriority ∨ a.feePriority = b.feePriority ∧ a.addedAt ≤ b.addedAt

instance (a b : PendingTransaction) : Decidable (before a b) :=
  inferInstanceAs (Decidable (_ ∨ _ ∧ _))

/-- Pending transactions ordered by fee priority, up to `maxCount`. The sort is stable. -/
def getPendingOrdered (it : PoolOrder) (pool : TransactionPool) (maxCount : Nat) :
    List Transaction :=
  ((((it.enum pool.bySender.entries).flatMap (·.2)).insertionSort before).take maxCount).map (·.tx)

/-! ## What an addition does -/

/-- What is pending of one sender. -/
def senderTxs (pool : TransactionPool) (k : Bytes 32) : List PendingTransaction :=
  (pool.bySender.lookup k).getD []

theorem senderTxs_of_mem {pool : TransactionPool} {k : Bytes 32} {ptx : PendingTransaction}
    (h : ptx ∈ pool.senderTxs k) : ∃ txs, ⟨k, txs⟩ ∈ pool.bySender.entries ∧ ptx ∈ txs := by
  unfold senderTxs at h
  cases hl : pool.bySender.lookup k with
  | none => rw [hl] at h; simp at h
  | some txs =>
    rw [hl] at h
    exact ⟨txs, AList.mem_lookup_iff.mp hl, h⟩

inductive Adds (C : Crates) (pool : TransactionPool) (tx : Transaction) :
    TransactionPool × Except MempoolError Unit → Prop
  | refused (e : MempoolError) : Adds C pool tx (pool, .error e)
  /-- The sender has its share; its entry is made all the same. -/
  | limited : pool.config.maxTxPerAccount ≤ (pool.senderTxs tx.sender).length →
      Adds C pool tx
        ({ pool with bySender := pool.bySender.insert tx.sender (pool.senderTxs tx.sender) },
          .error .poolFull)
  | admitted : validateTransaction tx = .ok () → verifySignature C tx = .ok () →
      pool.totalCount < pool.config.maxSize → computeTxHash C tx ∉ pool.knownHashes →
      (pool.senderTxs tx.sender).length < pool.config.maxTxPerAccount →
      Adds C pool tx
        ({ pool with
            bySender := pool.bySender.insert tx.sender (pool.senderTxs tx.sender ++
              [PendingTransaction.new tx (UInt64.ofNat pool.totalCount)])
            knownHashes := insert (computeTxHash C tx) pool.knownHashes
            totalCount := pool.totalCount + 1 }, .ok ())

theorem addTransaction_adds (C : Crates) (pool : TransactionPool) (tx : Transaction) :
    Adds C pool tx (pool.addTransaction C tx) := by
  unfold addTransaction
  cases hval : validateTransaction tx with
  | error e => exact .refused e
  | ok _ =>
    dsimp only
    cases hver : verifySignature C tx with
    | error e => exact .refused e
    | ok _ =>
      dsimp only
      split
      · exact .refused _
      rename_i hroom
      split
      · exact .refused _
      rename_i hnew
      unfold pushPending
      dsimp only
      split
      · rename_i hfull
        exact .limited hfull
      · rename_i hshare
        exact .admitted hval hver (Nat.not_le.mp hroom) hnew (Nat.not_le.mp hshare)

/-- The transactions that wait in the pool. -/
def pending (pool : TransactionPool) : List Transaction :=
  pool.bySender.entries.flatMap fun e => e.2.map fun ptx => ptx.tx

/-- The same with what the pool notes about them. -/
def waiting (pool : TransactionPool) : List PendingTransaction :=
  pool.bySender.entries.flatMap (·.2)

theorem pending_eq (pool : TransactionPool) :
    pool.pending = pool.waiting.map PendingTransaction.tx := List.map_flatMap.symm

/-- Removal drops what has one of the hashes, and nothing else. -/
theorem waiting_removeCommitted (C : Crates) (pool : TransactionPool) (hashes : List (Bytes 32)) :
    (pool.removeCommitted C hashes).waiting = retainUncommitted C hashes pool.waiting := by
  unfold waiting removeCommitted HashMap.retain HashMap.mapValues retainUncommitted
  dsimp only
  induction pool.bySender.entries with
  | nil => rfl
  | cons e l ih =>
    -- a sender whose list comes out empty is dropped, and had nothing to add
    have hdrop : ∀ txs : List PendingTransaction,
        (bif !txs.isEmpty then [(⟨e.1, txs⟩ : Sigma fun _ : Bytes 32 => _)] else []).flatMap
          (·.2) = txs := by
      intro txs
      cases txs with
      | nil => rfl
      | cons ptx txs => exact List.append_nil _
    rw [List.map_cons, ← List.singleton_append, List.filter_append, List.flatMap_append, ih,
      List.filter_singleton, List.flatMap_cons, List.filter_append]
    refine congrArg (· ++ _) ?_
    exact hdrop _

theorem pending_removeCommitted (C : Crates) (pool : TransactionPool) (hashes : List (Bytes 32)) :
    (pool.removeCommitted C hashes).pending =
      pool.pending.filter fun tx => !hashes.contains (computeTxHash C tx) := by
  rw [pending_eq, pending_eq, waiting_removeCommitted, List.filter_map]
  rfl

/-! ## Every transaction of a pool was verified -/

/-- The strict check of the pool is no weaker than the block's own. -/
theorem verifySignature_ok {C : Crates} (hC : C.StrictVerifies) {tx : Transaction}
    (h : verifySignature C tx = .ok ()) : tx.verifySignature C = true := by
  unfold Trv1Chain.verifySignature at h
  unfold Transaction.verifySignature
  split at h
  · cases h
  rename_i hpoint
  split at h
  · rename_i hlen
    split at h
    · rename_i hstrict
      rw [dif_pos hlen, Bool.and_eq_true]
      exact ⟨by simpa using hpoint, hC _ _ _ hstrict⟩
    · cases h
  · cases h

/-- Every pending transaction passed the signature check. -/
def AllVerified (C : Crates) (pool : TransactionPool) : Prop :=
  ∀ e ∈ pool.bySender.entries, ∀ ptx ∈ e.2, verifySignature C ptx.tx = .ok ()

theorem allVerified_new (C : Crates) (config : MempoolConfig) : (new config).AllVerified C := by
  intro e he
  simp [new] at he

theorem AllVerified.insert {C : Crates} {pool : TransactionPool} (h : pool.AllVerified C)
    {k : Bytes 32} {txs : List PendingTransaction}
    (htxs : ∀ ptx ∈ txs, verifySignature C ptx.tx = .ok ()) :
    ∀ e ∈ (pool.bySender.insert k txs).entries, ∀ ptx ∈ e.2, verifySignature C ptx.tx = .ok () := by
  intro e he ptx hptx
  rcases HashMap.mem_insert he with rfl | hold
  · exact htxs ptx hptx
  · exact h e hold ptx hptx

theorem AllVerified.senderTxs {C : Crates} {pool : TransactionPool} (h : pool.AllVerified C)
    (k : Bytes 32) : ∀ ptx ∈ pool.senderTxs k, verifySignature C ptx.tx = .ok () := by
  intro ptx hptx
  obtain ⟨txs, hmem, hptx⟩ := senderTxs_of_mem hptx
  exact h ⟨k, txs⟩ hmem ptx hptx

theorem AllVerified.addTransaction {C : Crates} {pool : TransactionPool} (h : pool.AllVerified C)
    (tx : Transaction) : (pool.addTransaction C tx).1.AllVerified C := by
  have hadds := addTransaction_adds C pool tx
  generalize pool.addTransaction C tx = r at hadds
  cases hadds with
  | refused e => exact h
  | limited => exact h.insert (h.senderTxs tx.sender)
  | admitted _ hv =>
    refine h.insert ?_
    intro ptx hptx
    rcases List.mem_append.mp hptx with hold | hnew
    · exact h.senderTxs tx.sender ptx hold
    · rw [List.mem_singleton.mp hnew]
      exact hv

theorem AllVerified.removeCommitted {C : Crates} {pool : TransactionPool} (h : pool.AllVerified C)
    (txHashes : List (Bytes 32)) : (pool.removeCommitted C txHashes).AllVerified C := by
  intro e he ptx hptx
  have he : e ∈ (pool.bySender.mapValues (retainUncommitted C txHashes)).entries :=
    (List.mem_filter.mp he).1
  obtain ⟨e', he', rfl⟩ := List.mem_map.mp he
  exact h e' he' ptx (List.mem_filter.mp hptx).1

/-- **What leaves the pool for a block was verified.** -/
theorem AllVerified.getPendingOrdered {C : Crates} (hC : C.StrictVerifies)
    {pool : TransactionPool} (h : pool.AllVerified C) {it : PoolOrder} {maxCount : Nat} :
    ∀ tx ∈ pool.getPendingOrdered it maxCount, tx.verifySignature C = true := by
  intro tx htx
  obtain ⟨ptx, hptx, rfl⟩ := List.mem_map.mp htx
  have hmem := (List.mem_insertionSort _).mp (List.mem_of_mem_take hptx)
  obtain ⟨e, he, hin⟩ := List.mem_flatMap.mp hmem
  exact verifySignature_ok hC (h e (it.mem_enum.mp he) ptx hin)

end TransactionPool

end Trv1Chain
