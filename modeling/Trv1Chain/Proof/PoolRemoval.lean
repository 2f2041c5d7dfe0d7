import Trv1Chain.Proof.Replica

/-!
# Committed transactions and the pool

`apply_commit` hands `remove_committed` the hashes of the block's transactions, and the pool drops
what has one of them. But the two sides hash differently: `Transaction::hash` is over bincode, the
pool's `compute_tx_hash` over JSON. Where the digests do not collide and the two serialisers never
write the same bytes, the removal finds nothing. So a commit clears the pool of its block exactly
when the pool held nothing of it (`commit_clears_pool`).
-/

set_option autoImplicit false

namespace Trv1Chain

open Lib

namespace TransactionPool

theorem mem_pending_removeCommitted {C : Crates} {pool : TransactionPool}
    {hashes : List (Bytes 32)} {tx : Transaction} :
    tx ∈ (pool.removeCommitted C hashes).pending ↔
      tx ∈ pool.pending ∧ computeTxHash C tx ∉ hashes := by
  rw [pending_removeCommitted, List.mem_filter]
  simp

theorem contains_removeCommitted {C : Crates} {pool : TransactionPool}
    {hashes : List (Bytes 32)} {h : Bytes 32} :
    (pool.removeCommitted C hashes).contains h = true ↔ pool.contains h = true ∧ h ∉ hashes := by
  simp [removeCommitted, contains]

end TransactionPool

/-- The pool was cleared of a block: none of its transactions waits or is known, and the other
ones that waited still do. -/
def Cleared (C : Crates) (pool pool' : TransactionPool) (txs : List Transaction) : Prop :=
  (∀ tx ∈ txs, tx ∉ pool'.pending ∧ pool'.contains (computeTxHash C tx) = false) ∧
    ∀ tx ∈ pool.pending, tx ∉ txs → tx ∈ pool'.pending

/-- What is assumed of the digest and of the serialisers, about one block and one pool: SHA-256
does not collide on what the two of them hash, and no transaction's bincode is a transaction's
JSON. -/
structure HashesApart (C : Crates) (pool : TransactionPool) (txs : List Transaction) : Prop where
  collisionFree : C.CollisionFree
    {l | l ∈ txs.map C.bincodeTransaction ++ (pool.pending ++ txs).map C.jsonTransaction}
  serialisers : ∀ tx ∈ txs, ∀ tx' ∈ pool.pending ++ txs,
    C.bincodeTransaction tx ≠ C.jsonTransaction tx'

/-- The pool knows no transaction by a hash of the block. -/
theorem HashesApart.notMem {C : Crates} {pool : TransactionPool} {txs : List Transaction}
    (h : HashesApart C pool txs) {tx : Transaction} (htx : tx ∈ pool.pending ++ txs) :
    computeTxHash C tx ∉ txs.map fun tx => tx.hash C := by
  intro hmem
  obtain ⟨tx', htx', heq⟩ := List.mem_map.mp hmem
  have hbytes : C.bincodeTransaction tx' = C.jsonTransaction tx :=
    h.collisionFree (List.mem_append_left _ (List.mem_map_of_mem htx'))
      (List.mem_append_right _ (List.mem_map_of_mem htx)) heq
  exact h.serialisers tx' htx' tx htx hbytes

namespace Node

variable {C : Crates}

/-- **A commit clears the pool of what it did not hold.** After a committed block is applied, none
of its transactions is pending or known and all others are still pending, exactly when none was
pending or known before. -/
theorem commit_clears_pool {n n' : Node C} {env : Env} {h : Height} {x : BlockHash} {block : Block}
    {txs : List Transaction} (ha : n.applyCommit env h x (some block) = some (n', txs))
    (hC : HashesApart C n.mempool block.transactions) :
    Cleared C n.mempool n'.mempool block.transactions ↔
      ∀ tx ∈ block.transactions,
        tx ∉ n.mempool.pending ∧ n.mempool.contains (computeTxHash C tx) = false := by
  obtain ⟨htxs, -, hpool, -, -⟩ := applyCommit_spec ha
  have htxs : txs = block.transactions := htxs
  subst htxs
  -- no pending hash and no hash of the block's own is on the list handed over
  have hpending : ∀ tx, tx ∈ n'.mempool.pending ↔ tx ∈ n.mempool.pending := by
    intro tx
    rw [hpool, TransactionPool.mem_pending_removeCommitted, and_iff_left_iff_imp]
    intro hp
    exact hC.notMem (List.mem_append_left _ hp)
  have hcontains : ∀ tx ∈ block.transactions, n'.mempool.contains (computeTxHash C tx) =
      n.mempool.contains (computeTxHash C tx) := by
    intro tx htx
    rw [hpool, Bool.eq_iff_iff, TransactionPool.contains_removeCommitted, and_iff_left_iff_imp]
    intro _
    exact hC.notMem (List.mem_append_right _ htx)
  constructor
  · intro hclear tx htx
    obtain ⟨hnot, hunknown⟩ := hclear.1 tx htx
    rw [hpending tx] at hnot
    rw [hcontains tx htx] at hunknown
    exact ⟨hnot, hunknown⟩
  · intro hfree
    refine ⟨?_, fun tx hp _ => (hpending tx).mpr hp⟩
    intro tx htx
    rw [hpending tx, hcontains tx htx]
    exact hfree tx htx

/-! ## A pool with one transaction -/

def blockOf (tx : Transaction) : Block := bodyBlock (Bytes.fill 32 0) [tx]

/-- A payment the pool does not have. -/
def otherTransfer : Transaction := ⟨Crates.sampleKey 7, Crates.sampleKey 6, 1, 0, [], []⟩

/-- A node with one transaction waiting applies a block of one transaction. -/
def afterBlock (tx : Transaction) : Option (Node Crates.sample × List Transaction) :=
  misser.applyCommit storedOrder ⟨0⟩ ((blockOf tx).hash Crates.sample) (some (blockOf tx))

theorem afterBlock_other : (afterBlock otherTransfer).isSome = true := by decide +kernel

theorem afterBlock_signed : (afterBlock signedTransfer).isSome = true := by decide +kernel

theorem hashesApart_other :
    HashesApart Crates.sample misser.mempool (blockOf otherTransfer).transactions := by
  have hall : ∀ a ∈ (blockOf otherTransfer).transactions.map Crates.sample.bincodeTransaction ++
        (misser.mempool.pending ++ (blockOf otherTransfer).transactions).map
          Crates.sample.jsonTransaction,
      ∀ b ∈ (blockOf otherTransfer).transactions.map Crates.sample.bincodeTransaction ++
        (misser.mempool.pending ++ (blockOf otherTransfer).transactions).map
          Crates.sample.jsonTransaction,
      Crates.sample.sha256 a = Crates.sample.sha256 b → a = b := by decide +kernel
  exact ⟨fun a ha b hb => hall a ha b hb, by decide +kernel⟩

/-- A block of strangers leaves the pool as it should. -/
theorem commit_clears_pool_other :
    ∃ n' txs, afterBlock otherTransfer = some (n', txs) ∧
      misser.mempool.pending = [signedTransfer] ∧
      Cleared Crates.sample misser.mempool n'.mempool [otherTransfer] := by
  refine ⟨_, _, (Option.some_get afterBlock_other).symm, by decide +kernel, ?_⟩
  exact (commit_clears_pool (Option.some_get afterBlock_other).symm hashesApart_other).mpr
    (by decide +kernel)

/-- **A committed transaction stays pending.** The block has the very transaction that waits; after
its commit it is executed, and waits still. -/
theorem committed_stays_pending :
    ∃ n' txs, afterBlock signedTransfer = some (n', txs) ∧ txs = [signedTransfer] ∧
      n'.stateDb.getAccount (Crates.sampleKey 5) = some ⟨90, 1⟩ ∧
      n'.mempool.pending = [signedTransfer] ∧
      n'.mempool.contains (computeTxHash Crates.sample signedTransfer) = true ∧
      ¬ Cleared Crates.sample misser.mempool n'.mempool [signedTransfer] := by
  refine ⟨((afterBlock signedTransfer).get afterBlock_signed).1,
    ((afterBlock signedTransfer).get afterBlock_signed).2,
    (Option.some_get afterBlock_signed).symm,
    by decide +kernel, by decide +kernel, by decide +kernel, by decide +kernel, ?_⟩
  intro hclear
  have hnot := (hclear.1 signedTransfer (List.mem_singleton_self _)).1
  exact absurd hnot (by decide +kernel)

end Node

end Trv1Chain
