import Trv1Chain.Proof.Chain

/-!
# Who can spend

Executing a transaction takes from its sender alone (`execute_frame`). Whether the sender agreed is
checked where a transaction enters the pool, and nowhere else: the body of a block that comes with
a proposal is executed as it is. So an account is safe as far as proposed bodies are signed
(`spending_authorised`), and one block with an unsigned transfer is enough to empty it
(`unsigned_transfer_spends`).
-/

set_option autoImplicit false

namespace Trv1Chain

open Lib

namespace StateDb

/-- Executing `tx` lowers the balance of `k` or moves its nonce. -/
def Spends (db : StateDb) (tx : Transaction) (k : Bytes 32) : Prop :=
  ((db.execute tx).1.account k).balance < (db.account k).balance ∨
    ((db.execute tx).1.account k).nonce ≠ (db.account k).nonce

/-- `k` has lost nothing from one database to the other. -/
def Keeps (db db' : StateDb) (k : Bytes 32) : Prop :=
  (db.account k).balance ≤ (db'.account k).balance ∧ (db'.account k).nonce = (db.account k).nonce

theorem Keeps.refl (db : StateDb) (k : Bytes 32) : db.Keeps db k := ⟨UInt64.le_refl _, rfl⟩

theorem keeps_of_eq {db db' : StateDb} {k : Bytes 32} (h : db'.account k = db.account k) :
    db.Keeps db' k := by
  unfold Keeps
  rw [h]
  exact ⟨UInt64.le_refl _, rfl⟩

/-- **A transaction takes from its sender alone.** -/
theorem execute_frame (db : StateDb) (tx : Transaction) {k : Bytes 32} (hk : k ≠ tx.sender) :
    db.Keeps (db.execute tx).1 k := by
  have hx := execute_executes db tx
  generalize (db.execute tx).1 = db' at hx ⊢
  generalize (db.execute tx).2 = result at hx
  cases hx with
  | refused hready he => exact .refl db k
  | toSelf hready hself => exact keeps_of_eq (account_setAccount_ne db _ hk)
  | lost hready hne hover => exact keeps_of_eq (account_setAccount_ne db _ hk)
  | paid hready hne hfit =>
    by_cases hrec : k = tx.recipient
    · -- the sum fits, so it is no less than the balance
      subst hrec
      unfold Keeps
      rw [account_setAccount]
      refine ⟨?_, rfl⟩
      rw [UInt64.le_iff_toNat_le, toNat_add_of_fits hfit]
      omega
    · apply keeps_of_eq
      rw [account_setAccount_ne _ _ hrec, account_setAccount_ne db _ hk]

theorem Spends.sender {db : StateDb} {tx : Transaction} {k : Bytes 32} (h : db.Spends tx k) :
    tx.sender = k := by
  by_contra hne
  obtain ⟨hbal, hnonce⟩ := execute_frame db tx (Ne.symm hne)
  rcases h with h | h
  · exact absurd hbal (UInt64.not_le.mpr h)
  · exact h hnonce

end StateDb

namespace Node

variable {C : Crates}

/-- The body of a block is signed by its senders. -/
def SignedBody (C : Crates) (b : Block) : Prop :=
  ∀ tx ∈ b.transactions, tx.verifySignature C = true

/-- A block that comes with a proposal the machine accepts has a signed body. All other input is
free. -/
def SignedBodies (n : Node C) (e : Env × NodeEvent) : Prop :=
  match e.2 with
  | .network (.proposeBlock p (some b)) => n.bft.Accepts p (some b) → SignedBody C b
  | _ => True

/-- Every transaction the node may come to execute was verified. -/
structure AllSigned (n : Node C) : Prop where
  pool : n.mempool.AllVerified C
  cache : n.bft.Caches (SignedBody C)

theorem AllSigned.committedTransactions (hC : C.StrictVerifies) {n : Node C} (h : n.AllSigned)
    (env : Env) (x : BlockHash) :
    ∀ tx ∈ (n.committedTransactions env (n.bft.getCommittedBlock x)).1,
      tx.verifySignature C = true := by
  cases hb : n.bft.getCommittedBlock x with
  | none => exact h.pool.getPendingOrdered hC
  | some b => exact (h.cache x b hb).2

theorem Proposes.allSigned (hC : C.StrictVerifies) {n n' : Node C} {env : Env}
    {acts : List Action} (hp : Proposes n env n' acts) (h : n.AllSigned) : n'.AllSigned := by
  cases hp with
  | skip => exact h
  | propose sk height round _ _ =>
    obtain ⟨p, b, hbft, hbody⟩ := proposeBlock_bft n env sk height round n.lastBlockHash
    refine ⟨h.pool, ?_⟩
    rw [hbft]
    have hm := BftStateMachine.handle_moves (m := n.bft) (e := .proposal p (some b)) rfl
    refine h.cache.step hm ?_
    intro p' b' heq _
    cases heq
    intro tx htx
    rw [hbody] at htx
    exact h.pool.getPendingOrdered hC tx htx

theorem Commits.allSigned (hC : C.StrictVerifies) {n n' : Node C} {env : Env} {h : Height}
    {x : BlockHash} {acts : List Action} (hc : Commits n env h x n' acts) (hn : n.AllSigned) :
    n'.AllSigned := by
  cases hc with
  | mk n₁ _ txs proposed rest ha hp _ =>
    obtain ⟨-, -, hpool, -, -⟩ := applyCommit_spec ha
    refine hp.allSigned hC ⟨?_, .empty rfl⟩
    rw [withBft_mempool, hpool]
    exact hn.pool.removeCommitted _

theorem AllSigned.call {n : Node C} {e : Env × NodeEvent} {be : BftEvent}
    {m' : BftStateMachine C} {out : List ConsensusMessage} (h : n.AllSigned)
    (hg : SignedBodies n e) (hc : Calls e.1 e.2 be) (hs : n.bft.handle be = some (m', out)) :
    (n.withBft m').AllSigned := by
  refine ⟨h.pool, h.cache.step (BftStateMachine.handle_moves hs) ?_⟩
  rintro p b rfl ha
  obtain ⟨env, ev⟩ := e
  cases hc with
  | proposal p block => exact hg ha

theorem AllSigned.turn (hC : C.StrictVerifies) {n n' : Node C} {e : Env × NodeEvent}
    {acts : List Action} (h : n.AllSigned) (hg : SignedBodies n e)
    (hm : Moves n e.1 e.2 n' acts) : n'.AllSigned := by
  obtain ⟨env, ev⟩ := e
  cases hm with
  | call hcall hs _ hp _ => exact hp.allSigned hC (h.call hg hcall hs)
  | commit hcall hs hc => exact hc.allSigned hC (h.call hg hcall hs)
  | announced hc => exact hc.allSigned hC h
  | pool _ tx _ => exact ⟨h.pool.addTransaction tx, h.cache⟩
  | idle _ _ => exact h

theorem allSigned_of_run (hC : C.StrictVerifies) {n₀ n : Node C} {hist : NodeHistory C}
    (h₀ : n₀.AllSigned) (hr : NodeRun C SignedBodies n₀ hist n) : n.AllSigned := by
  refine hr.invariant (I := fun _ n => n.AllSigned) h₀ ?_
  intro _ _ _ _ _ _ ih hg hs
  exact ih.turn hC hg (handle_moves hs)

theorem allSigned_start (hC : C.StrictVerifies) (validators : List ValidatorId)
    (idx : Option Nat) (sk : Option (Bytes 32)) (db : StateDb) (fm : FeeMarket) (env : Env) :
    ((Node.genesis C validators idx sk db fm).start env).1.AllSigned := by
  refine (proposeIfProposer_proposes _ env ⟨0⟩ ⟨0⟩).allSigned hC ?_
  exact ⟨TransactionPool.allVerified_new C _, .empty rfl⟩

/-- **No unauthorised spending.** In every run of the loop from genesis in which the blocks of
accepted proposals have signed bodies, a turn changes the database by executing the transactions
it commits, and each of them that lowers a balance or moves a nonce does so to its own sender, and
is signed under that key. -/
theorem spending_authorised (hC : C.StrictVerifies) {validators : List ValidatorId}
    {idx : Option Nat} {sk : Option (Bytes 32)} {db : StateDb} {fm : FeeMarket} {env : Env}
    {hist : NodeHistory C} {n : Node C}
    (hr : NodeRun C SignedBodies ((Node.genesis C validators idx sk db fm).start env).1 hist n) :
    ∀ τ ∈ hist, τ.after.stateDb =
        τ.before.stateDb.executeAll ((commits [τ]).flatMap fun c => c.2.2) ∧
      ∀ done tx rest, ((commits [τ]).flatMap fun c => c.2.2) = done ++ tx :: rest →
        ∀ k, (τ.before.stateDb.executeAll done).Spends tx k →
          tx.sender = k ∧ tx.verifySignature C = true := by
  intro τ hτ
  obtain ⟨past, -, hr', hg, hs⟩ := hr.of_mem hτ
  have hsigned := allSigned_of_run hC (allSigned_start hC validators idx sk db fm env) hr'
  refine ⟨stateDb_of_run (.turn (.init (G := SignedBodies)) hg hs), ?_⟩
  intro done tx rest hsplit k hspends
  refine ⟨hspends.sender, ?_⟩
  have hmem : tx ∈ (commits [τ]).flatMap fun c => c.2.2 := by
    rw [hsplit]
    simp
  rw [commits_cons] at hmem
  rcases (handle_moves hs).stateDb with ⟨hout, -⟩ | ⟨h, x, txs, hout, htxs, -⟩
  · rw [hout] at hmem
    simp [commits] at hmem
  · rw [hout] at hmem
    have hmem : tx ∈ txs := by simpa [commits] using hmem
    rw [htxs] at hmem
    exact hsigned.committedTransactions hC _ x tx hmem

/-! ## A transfer in a proposed block -/

/-- The validator proposes a block with one transaction, and precommits it. -/
def spendProposal (tx : Transaction) : Env × NodeEvent :=
  (storedOrder, .network (.proposeBlock
    (BftStateMachine.bodyProposal (bodyBlock (Bytes.fill 32 0) [tx]))
    (some (bodyBlock (Bytes.fill 32 0) [tx]))))

def spendPrecommit (tx : Transaction) : Env × NodeEvent :=
  (storedOrder, .network (.castVote (Vote.new Crates.sample .precommit ⟨0⟩ ⟨0⟩
    (some ((bodyBlock (Bytes.fill 32 0) [tx]).hash Crates.sample)) (Crates.sampleKey 1))))

theorem sample_strictVerifies : Crates.sample.StrictVerifies := fun _ _ _ h => h

/-- A signed transfer is committed, and takes 10 from its sender. -/
theorem spending_authorised_signed :
    ∃ hist n, NodeRun Crates.sample SignedBodies soloObserver hist n ∧
      (commits hist).map (fun c => c.2.2) = [[signedTransfer]] ∧
      n.stateDb.account (Crates.sampleKey 5) = ⟨90, 1⟩ ∧
      ∀ τ ∈ hist, ∀ done tx rest, ((commits [τ]).flatMap fun c => c.2.2) = done ++ tx :: rest →
        ∀ k, (τ.before.stateDb.executeAll done).Spends tx k →
          tx.sender = k ∧ tx.verifySignature Crates.sample = true := by
  have hr : NodeRun Crates.sample SignedBodies soloObserver _ _ :=
    (Run.single (e := spendProposal signedTransfer)
      (fun _ tx htx => by rw [List.mem_singleton.mp htx]; decide +kernel)
      (by decide +kernel)).append
      (Run.single (e := spendPrecommit signedTransfer) trivial (by decide +kernel))
  refine ⟨_, _, hr, by decide +kernel, by decide +kernel, ?_⟩
  intro τ hτ
  exact (spending_authorised sample_strictVerifies hr τ hτ).2

/-- **An unsigned transfer in a block spends.** The block is accepted, committed and executed; the
account of key `5` loses 10 and moves its nonce by a transaction without a signature. -/
theorem unsigned_transfer_spends :
    unsignedTransfer.verifySignature Crates.sample = false ∧
      soloObserver.stateDb.account (Crates.sampleKey 5) = ⟨100, 0⟩ ∧
      ∃ hist n, NodeRun Crates.sample (fun _ _ => True) soloObserver hist n ∧
        (commits hist).map (fun c => c.2.2) = [[unsignedTransfer]] ∧
        n.stateDb.account (Crates.sampleKey 5) = ⟨90, 1⟩ := by
  refine ⟨by decide +kernel, by decide +kernel, ?_⟩
  have hr : NodeRun Crates.sample (fun _ _ => True) soloObserver _ _ :=
    (Run.single (e := spendProposal unsignedTransfer) trivial (by decide +kernel)).append
      (Run.single (e := spendPrecommit unsignedTransfer) trivial (by decide +kernel))
  exact ⟨_, _, hr, by decide +kernel, by decide +kernel⟩

end Node

end Trv1Chain
