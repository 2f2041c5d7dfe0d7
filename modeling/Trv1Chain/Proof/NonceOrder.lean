import Trv1Chain.Proof.Arrivals
import Trv1Chain.State.Executions

/-!
# Fees before nonces

The list of a block is by decreasing amount over all senders, and a sender's nonces play no part in
it. So of two transactions of one sender the one with the larger amount goes first, and fails if it
has the later nonce. A sender whose amounts fall as the nonces rise is served in the order of its
nonces, and such a sender's block goes through.

Two transactions of one sender and one amount are left to their stamps, and nothing is said about
them here.
-/

set_option autoImplicit false

namespace Trv1Chain

open Lib

namespace StateDb

/-! ## A sender's transactions in a block -/

theorem isSome_setAccount {db : StateDb} {k : Bytes 32} (h : (db.getAccount k).isSome = true)
    (k' : Bytes 32) (a : AccountState) : ((db.setAccount k' a).getAccount k).isSome = true := by
  rw [isSome_setAccount_eq, h]
  rfl

/-- No account is ever dropped. -/
theorem isSome_execute {db : StateDb} {k : Bytes 32} (h : (db.getAccount k).isSome = true)
    (tx : Transaction) : ((db.execute tx).1.getAccount k).isSome = true := by
  have hx := execute_executes db tx
  generalize (db.execute tx).1 = db' at hx ⊢
  generalize (db.execute tx).2 = r at hx
  cases hx with
  | refused _ _ => exact h
  | toSelf _ _ => exact isSome_setAccount h _ _
  | paid _ _ _ => exact isSome_setAccount (isSome_setAccount h _ _) _ _
  | lost _ _ _ => exact isSome_setAccount h _ _

/-- The nonces of `k` in a list of transactions. -/
def noncesOf (txs : List Transaction) (k : Bytes 32) : List Nat :=
  (txs.filter fun tx => tx.sender = k).map fun tx => tx.nonce.toNat

/-- The sender can pay each of its transactions when it comes to be executed. -/
def Affords (db : StateDb) (txs : List Transaction) (k : Bytes 32) : Prop :=
  ∀ x ∈ db.executions txs, x.2.sender = k → x.2.amount ≤ (x.1.account k).balance

/-- **Transactions with successive nonces all pass the checks**, whatever stands between them. -/
theorem executions_ready {k : Bytes 32} {txs : List Transaction} {db : StateDb} {n : Nat}
    (hacc : (db.getAccount k).isSome = true)
    (hnonces : noncesOf txs k = List.range' (db.account k).nonce.toNat n)
    (hafford : db.Affords txs k) :
    ∀ x ∈ db.executions txs, x.2.sender = k → x.1.Ready x.2 := by
  induction txs generalizing db n with
  | nil => intro x hx; cases hx
  | cons tx txs ih =>
    unfold Affords at hafford
    rw [executions_cons, List.forall_mem_cons] at hafford ⊢
    obtain ⟨hhead, htail⟩ := hafford
    have hacc' := isSome_execute hacc tx
    unfold noncesOf at hnonces
    by_cases hk : tx.sender = k
    · subst hk
      rw [List.filter_cons_of_pos (by simp), List.map_cons] at hnonces
      cases n with
      | zero => cases hnonces
      | succ n =>
        rw [List.range'_succ, List.cons.injEq] at hnonces
        obtain ⟨hnonce, hrest⟩ := hnonces
        have hready : db.Ready tx :=
          ⟨hacc, UInt64.toNat_inj.mp hnonce.symm, hhead rfl⟩
        refine ⟨fun _ => hready, ih hacc' (n := n) ?_ htail⟩
        unfold noncesOf
        rw [hrest]
        -- the next nonce is one of the list, so it has not run out of 64 bits
        cases n with
        | zero => rfl
        | succ n =>
          have hnext : (db.account tx.sender).nonce.toNat + 1 ∈
              (txs.filter fun tx' => tx'.sender = tx.sender).map fun tx => tx.nonce.toNat := by
            rw [hrest]
            exact List.mem_cons_self
          obtain ⟨tx', -, htx'⟩ := List.mem_map.mp hnext
          have hlt := tx'.nonce.toNat_lt
          rw [toNat_nonce_execute db tx (by omega), if_pos ⟨rfl, hready⟩]
    · rw [List.filter_cons_of_neg (by simpa using hk)] at hnonces
      refine ⟨fun h => absurd h hk, ih hacc' (n := n) ?_ htail⟩
      rw [nonce_execute, if_neg fun h => hk h.1, UInt64.add_zero]
      exact hnonces

end StateDb

namespace TransactionPool

variable {C : Crates}

/-- No two pending transactions of `k` have one amount. -/
def DistinctAmounts (pool : TransactionPool) (k : Bytes 32) : Prop :=
  ∀ a ∈ pool.pending, ∀ b ∈ pool.pending, a.sender = k → b.sender = k → a.amount = b.amount → a = b

/-- Of two pending transactions of `k` the one with the larger amount has the lower nonce. -/
def FallingAmounts (pool : TransactionPool) (k : Bytes 32) : Prop :=
  ∀ a ∈ pool.pending, ∀ b ∈ pool.pending, a.sender = k → b.sender = k → b.amount < a.amount →
    a.nonce < b.nonce

/-- The transactions of `k` stand in the order of their nonces. -/
def NonceOrdered (txs : List Transaction) (k : Bytes 32) : Prop :=
  (txs.filter fun tx => tx.sender = k).Pairwise fun a b => a.nonce < b.nonce

section State

variable {hist : List (Turn TransactionPool Call (Except MempoolError Unit))}
  {pool : TransactionPool}

theorem Queued.amounts_ordered (hq : Queued C hist pool) (it : PoolOrder) :
    ((pool.ordered it).map PendingTransaction.tx).Pairwise fun a b => b.amount ≤ a.amount := by
  have hmem : ∀ ptx ∈ pool.ordered it, ptx.feePriority = ptx.tx.amount := fun ptx hptx =>
    feePriority_queue (hq.perm.mem_iff.mp ((pool.ordered_perm it).mem_iff.mp hptx))
  rw [List.pairwise_map]
  refine (pool.pairwise_ordered it).imp_of_mem fun {a b} ha hb hbefore => ?_
  rw [← hmem a ha, ← hmem b hb]
  rcases hbefore with hlt | ⟨heq, -⟩
  · exact UInt64.le_of_lt hlt
  · exact UInt64.le_of_eq heq.symm

/-- The whole list is in nonce order exactly if the amounts fall. -/
theorem Queued.nonceOrdered_iff (hq : Queued C hist pool) (hrep : pool.Represented C)
    {k : Bytes 32} (hdistinct : pool.DistinctAmounts k) (it : PoolOrder) :
    NonceOrdered ((pool.ordered it).map PendingTransaction.tx) k ↔ pool.FallingAmounts k := by
  have hperm := ordered_map_perm it pool
  have hnodup := hrep.nodup_ordered it
  have hamounts : ∀ {a b}, [a, b].Sublist ((pool.ordered it).map PendingTransaction.tx) →
      b.amount ≤ a.amount := List.pairwise_iff_forall_sublist.mp (hq.amounts_ordered it)
  unfold NonceOrdered
  rw [List.pairwise_filter, List.pairwise_iff_forall_sublist]
  constructor
  · intro h a ha b hb hka hkb hlt
    have hne : a ≠ b := by
      rintro rfl
      exact UInt64.lt_irrefl _ hlt
    -- the larger amount is listed first
    have hpair := (pair_or_pair (hperm.mem_iff.mpr ha) (hperm.mem_iff.mpr hb) hne).resolve_right
      fun hswap => absurd (hamounts hswap) (UInt64.not_le.mpr hlt)
    exact h hpair (by simpa using hka) (by simpa using hkb)
  · intro h a b hpair hka hkb
    have hka : a.sender = k := by simpa using hka
    have hkb : b.sender = k := by simpa using hkb
    have ha : a ∈ pool.pending := hperm.mem_iff.mp (hpair.subset (by simp))
    have hb : b ∈ pool.pending := hperm.mem_iff.mp (hpair.subset (by simp))
    refine h a ha b hb hka hkb ?_
    have hle := UInt64.le_iff_toNat_le.mp (hamounts hpair)
    have hne : b.amount.toNat ≠ a.amount.toNat := fun heq => ne_of_pair hnodup hpair
      (hdistinct a ha b hb hka hkb (UInt64.toNat_inj.mp heq.symm))
    exact UInt64.lt_iff_toNat_lt.mpr (by omega)

theorem nonceOrdered_take {txs : List Transaction} {k : Bytes 32} (h : NonceOrdered txs k)
    (n : Nat) : NonceOrdered (txs.take n) k := h.sublist ((List.take_sublist n txs).filter _)

/-- In nonce order, nonces that are successive in some order are so as they stand. -/
theorem NonceOrdered.noncesOf_eq {txs : List Transaction} {k : Bytes 32}
    (h : NonceOrdered txs k) {s n : Nat} (hperm : (StateDb.noncesOf txs k).Perm (List.range' s n)) :
    StateDb.noncesOf txs k = List.range' s n := by
  have hsorted : (StateDb.noncesOf txs k).Pairwise (· ≤ ·) := by
    unfold StateDb.noncesOf
    rw [List.pairwise_map]
    exact h.imp fun hlt => Nat.le_of_lt (UInt64.lt_iff_toNat_lt.mp hlt)
  exact List.Perm.eq_of_pairwise (fun _ _ _ _ => Nat.le_antisymm) hsorted
    (List.pairwise_le_range' 1) hperm

end State

/-- **Fees before nonces.** Every list of a reached pool is by decreasing amount. A sender whose
amounts are distinct has its transactions in the order of their nonces, in every list, exactly if
the amounts fall as the nonces rise. Then its transactions of a block, if they go on from its
account's nonce without a gap and it can pay them, all pass the checks, and succeed unless the
receiver's balance overflows. -/
theorem fees_before_nonces {config : MempoolConfig}
    {hist : List (Turn TransactionPool Call (Except MempoolError Unit))} {pool : TransactionPool}
    (hr : Run (step C) (fun _ _ => True) (new config) hist pool) :
    (∀ it maxCount,
        (pool.getPendingOrdered it maxCount).Pairwise fun a b => b.amount ≤ a.amount) ∧
      ∀ k, pool.DistinctAmounts k →
        ((∀ it maxCount, NonceOrdered (pool.getPendingOrdered it maxCount) k) ↔
            pool.FallingAmounts k) ∧
          (pool.FallingAmounts k → ∀ it maxCount (db : StateDb) n,
            (db.getAccount k).isSome = true →
            (StateDb.noncesOf (pool.getPendingOrdered it maxCount) k).Perm
              (List.range' (db.account k).nonce.toNat n) →
            db.Affords (pool.getPendingOrdered it maxCount) k →
            ∀ x ∈ db.executions (pool.getPendingOrdered it maxCount), x.2.sender = k →
              x.1.Ready x.2 ∧ ((x.1.execute x.2).2.isOk = true ∨ x.1.Overflows x.2)) := by
  obtain ⟨hrep, hq⟩ := queued_of_run hr
  refine ⟨fun it maxCount => ?_, fun k hdistinct => ?_⟩
  · rw [getPendingOrdered_eq]
    exact (hq.amounts_ordered it).sublist (List.take_sublist _ _)
  have hfalling : pool.FallingAmounts k → ∀ it maxCount,
      NonceOrdered (pool.getPendingOrdered it maxCount) k := by
    intro h it maxCount
    rw [getPendingOrdered_eq]
    exact nonceOrdered_take ((hq.nonceOrdered_iff hrep hdistinct it).mpr h) maxCount
  refine ⟨⟨fun h => ?_, hfalling⟩, ?_⟩
  · -- a call for all of them
    have hall := h IterOrder.stored
      ((pool.ordered IterOrder.stored).map PendingTransaction.tx).length
    rw [getPendingOrdered_eq, List.take_length] at hall
    exact (hq.nonceOrdered_iff hrep hdistinct _).mp hall
  · intro h it maxCount db n hacc hperm hafford x hx hsender
    have hnonces := (hfalling h it maxCount).noncesOf_eq hperm
    have hready := StateDb.executions_ready hacc hnonces hafford x hx hsender
    refine ⟨hready, ?_⟩
    by_cases hover : x.1.Overflows x.2
    · exact Or.inr hover
    · exact Or.inl ((StateDb.execute_executes x.1 x.2).isOk.mpr ⟨hready, hover⟩)

/-- Two payments of key `5`, the larger first, and one of another key between them. -/
def fallingCalls : List Call :=
  [.addTransaction (signedPayment 5 1 1), .addTransaction (signedPayment 5 3 0),
    .addTransaction (signedPayment 7 2 0)]

theorem fees_before_nonces_falling :
    ∃ hist pool, Run (step Crates.sample) (fun _ _ => True) (new MempoolConfig.default) hist pool ∧
      pool.getPendingOrdered IterOrder.stored 10 =
        [signedPayment 5 3 0, signedPayment 7 2 0, signedPayment 5 1 1] ∧
      ∀ x ∈ Node.genesisDb.executions (pool.getPendingOrdered IterOrder.stored 10),
        x.2.sender = Crates.sampleKey 5 → x.1.Ready x.2 := by
  obtain ⟨hist, pool, hr, hpending, hdistinct, hfalling⟩ : ∃ hist pool,
      Run (step Crates.sample) (fun _ _ => True) (new MempoolConfig.default) hist pool ∧
        pool.getPendingOrdered IterOrder.stored 10 =
          [signedPayment 5 3 0, signedPayment 7 2 0, signedPayment 5 1 1] ∧
        pool.DistinctAmounts (Crates.sampleKey 5) ∧ pool.FallingAmounts (Crates.sampleKey 5) :=
    Run.exists_of_replay fallingCalls (by unfold DistinctAmounts FallingAmounts; decide +kernel)
  have hfive := ((fees_before_nonces hr).2 (Crates.sampleKey 5) hdistinct).2 hfalling
    IterOrder.stored 10 Node.genesisDb 2
  rw [hpending] at hfive
  refine ⟨hist, pool, hr, hpending, fun x hx hsender => ?_⟩
  rw [hpending] at hx
  exact (hfive (by decide +kernel) (by decide +kernel)
    (by unfold StateDb.Affords; decide +kernel) x hx hsender).1

/-- Two payments of key `5`, the larger with the later nonce. -/
def risingCalls : List Call :=
  [.addTransaction (signedPayment 5 1 0), .addTransaction (signedPayment 5 3 1)]

/-- **The later nonce goes first and fails.** Both payments are affordable and successive, and came
in order. -/
theorem later_nonce_first :
    ∃ hist pool, Run (step Crates.sample) (fun _ _ => True) (new MempoolConfig.default) hist pool ∧
      pool.getPendingOrdered IterOrder.stored 10 = [signedPayment 5 3 1, signedPayment 5 1 0] ∧
      ¬ NonceOrdered (pool.getPendingOrdered IterOrder.stored 10) (Crates.sampleKey 5) ∧
      (Node.genesisDb.execute (signedPayment 5 3 1)).2 = .error (.invalidNonce 0 1) := by
  exact Run.exists_of_replay risingCalls (by unfold NonceOrdered; decide +kernel)

end TransactionPool

end Trv1Chain
