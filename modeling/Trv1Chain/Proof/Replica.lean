import Trv1Chain.Proof.BlockBody
import Trv1Chain.Validator.Machine

/-!
# Replicas

What a run of the loop leaves in the account database is the database it started from, with the
transactions of its commits executed in order (`stateDb_of_run`). Which transactions those are is
a matter of where they come from: the cached block, or this node's own mempool when there is no
cached block. Nodes that hold the agreed block at every commit stay the same; a node that missed
one executes something else (`replicas_diverge`).
-/

set_option autoImplicit false

namespace Trv1Chain

open Lib

namespace Node

variable {C : Crates}

/-! ## One commit -/

theorem Proposes.stateDb {n n' : Node C} {env : Env} {acts : List Action}
    (h : Proposes n env n' acts) : n'.stateDb = n.stateDb := by
  cases h with
  | skip => rfl
  | propose sk height round _ _ => rfl

theorem Commits.stateDb {n n' : Node C} {env : Env} {h : Height} {x : BlockHash}
    {acts : List Action} (hc : Commits n env h x n' acts) :
    ∃ txs, acts.filterMap Action.commit? = [(h, x, txs)] ∧
      txs = (n.committedTransactions env (n.bft.getCommittedBlock x)).1 ∧
      n'.stateDb = n.stateDb.executeAll txs := by
  cases hc with
  | mk n₁ _ txs proposed rest ha hp hq =>
    obtain ⟨htxs, hdb, -⟩ := applyCommit_spec ha
    refine ⟨txs, ?_, htxs, ?_⟩
    · simp [Action.commit?, Action.commit?_of_quiet hq]
    · rw [hp.stateDb, withBft_stateDb, hdb]

theorem getCommittedBlock_of_commit {m m' : BftStateMachine C} {be : BftEvent} {h : Height}
    {x : BlockHash} (hs : m.handle be = some (m', [.commitBlock h x])) (y : BlockHash) :
    m'.getCommittedBlock y = m.getCommittedBlock y := by
  cases BftStateMachine.handle_moves hs with
  | commit it v b hh hr ht hst hq => rfl
  | prevote it v out hh hr ht ho => rcases ho with ho | ho <;> cases ho
  | precommit it v out hh hr ht ho => rcases ho with ho | ho <;> cases ho

/-- **A turn of the loop leaves the database, or commits.** The transactions of a commit are those
of the block cached before the turn, where there is one. -/
theorem Moves.stateDb {n n' : Node C} {env : Env} {e : NodeEvent} {acts : List Action}
    (hm : Moves n env e n' acts) :
    (acts.filterMap Action.commit? = [] ∧ n'.stateDb = n.stateDb) ∨
      ∃ h x txs, acts.filterMap Action.commit? = [(h, x, txs)] ∧
        txs = (n.committedTransactions env (n.bft.getCommittedBlock x)).1 ∧
        n'.stateDb = n.stateDb.executeAll txs := by
  cases hm with
  | call _ _ _ hp hq => exact Or.inl ⟨Action.commit?_of_quiet hq, hp.stateDb⟩
  | commit hcall hs hc =>
    obtain ⟨txs, hout, htxs, hdb⟩ := hc.stateDb
    refine Or.inr ⟨_, _, txs, hout, ?_, hdb⟩
    rw [htxs, withBft_bft, getCommittedBlock_of_commit hs]
    cases n.bft.getCommittedBlock _ with
    | none => rfl
    | some b => rfl
  | announced hc =>
    obtain ⟨txs, hout, htxs, hdb⟩ := hc.stateDb
    exact Or.inr ⟨_, _, txs, hout, htxs, hdb⟩
  | pool e tx _ => exact Or.inl ⟨rfl, rfl⟩
  | idle e hq => exact Or.inl ⟨Action.commit?_of_quiet hq, rfl⟩

/-! ## Runs -/

theorem executeAll_append (db : StateDb) (l l' : List Transaction) :
    db.executeAll (l ++ l') = (db.executeAll l).executeAll l' := by
  unfold StateDb.executeAll
  rw [List.foldl_append]

/-- **The database is what the commits made of it.** -/
theorem stateDb_of_run {G : Node C → Env × NodeEvent → Prop} {n₀ n : Node C}
    {hist : NodeHistory C} (hr : NodeRun C G n₀ hist n) :
    n.stateDb = n₀.stateDb.executeAll ((commits hist).flatMap fun c => c.2.2) := by
  refine hr.invariant (I := fun hist n =>
    n.stateDb = n₀.stateDb.executeAll ((commits hist).flatMap fun c => c.2.2)) rfl ?_
  intro hist n e n' acts _ ih _ hs
  rw [commits_cons, List.flatMap_append, executeAll_append, ← ih]
  rcases (handle_moves hs).stateDb with ⟨hout, hdb⟩ | ⟨h, x, txs, hout, -, hdb⟩
  · dsimp only
    rw [hout, hdb]
    rfl
  · dsimp only
    rw [hout, hdb, List.flatMap_singleton]

/-- At each of its commits the node held a block for the hash, with the agreed body. -/
def HoldsBodies (body : BlockHash → List Transaction) (hist : NodeHistory C) : Prop :=
  ∀ τ ∈ hist, ∀ h x txs, .applyCommit h x txs ∈ τ.out →
    ∃ b, τ.before.bft.getCommittedBlock x = some b ∧ b.transactions = body x

theorem commits_of_holdsBodies {G : Node C → Env × NodeEvent → Prop} {n₀ n : Node C}
    {body : BlockHash → List Transaction} {hist : NodeHistory C} (hr : NodeRun C G n₀ hist n)
    (hb : HoldsBodies body hist) : ∀ c ∈ commits hist, c.2.2 = body c.2.1 := by
  intro c hc
  obtain ⟨a, ha, hca⟩ := List.mem_filterMap.mp hc
  obtain ⟨τ, hτ, hout⟩ := List.mem_flatMap.mp ha
  have hτ : τ ∈ hist := List.mem_reverse.mp hτ
  obtain ⟨-, -, -, -, hs⟩ := hr.of_mem hτ
  cases a with
  | applyCommit h x txs =>
    cases hca
    rcases (handle_moves hs).stateDb with
      ⟨hnone, -⟩ | ⟨h', x', txs', hone, htxs, -⟩
    · have : (h, x, txs) ∈ τ.out.filterMap Action.commit? := List.mem_filterMap.mpr ⟨_, hout, rfl⟩
      rw [hnone] at this
      simp at this
    · have : (h, x, txs) ∈ τ.out.filterMap Action.commit? := List.mem_filterMap.mpr ⟨_, hout, rfl⟩
      rw [hone, List.mem_singleton] at this
      cases this
      obtain ⟨b, hcached, hbody⟩ := hb τ hτ h x txs hout
      rw [hcached] at htxs
      exact htxs.trans hbody
  | broadcast m => cases hca
  | gossip tx => cases hca
  | schedule te d => cases hca

/-- **Replica determinism.** Two nodes with the same database that hold the agreed block when they
commit a hash have the same database after it, whatever else differs; so two runs that commit the
same hashes, holding the block each time, end with the same accounts and the same state root. -/
theorem replicas_agree :
    (∀ (n₁ n₂ : Node C) (env₁ env₂ : Env) (h : Height) (x : BlockHash) (b₁ b₂ : Block),
      n₁.stateDb.Same n₂.stateDb → n₁.feeMarket.Live → n₂.feeMarket.Live →
      n₁.bft.getCommittedBlock x = some b₁ → n₂.bft.getCommittedBlock x = some b₂ →
      b₁.transactions = b₂.transactions →
      ∃ r₁ r₂, n₁.applyCommit env₁ h x (n₁.bft.getCommittedBlock x) = some r₁ ∧
        n₂.applyCommit env₂ h x (n₂.bft.getCommittedBlock x) = some r₂ ∧
        r₁.1.stateDb.Same r₂.1.stateDb) ∧
    (∀ (G : Node C → Env × NodeEvent → Prop) (n₁ n₂ m₁ m₂ : Node C) (hist₁ hist₂ : NodeHistory C)
      (body : BlockHash → List Transaction), n₁.stateDb.Same n₂.stateDb →
      NodeRun C G n₁ hist₁ m₁ → NodeRun C G n₂ hist₂ m₂ →
      HoldsBodies body hist₁ → HoldsBodies body hist₂ →
      (commits hist₁).map (fun c => c.2.1) = (commits hist₂).map (fun c => c.2.1) →
      m₁.stateDb.Same m₂.stateDb ∧ ∀ it₁ it₂,
        m₁.stateDb.computeStateRoot C it₁ = m₂.stateDb.computeStateRoot C it₂) := by
  constructor
  · intro n₁ n₂ env₁ env₂ h x b₁ b₂ hsame hl₁ hl₂ hb₁ hb₂ hbody
    obtain ⟨n₁', txs₁, h₁⟩ := applyCommit_live hl₁ env₁ h x (some b₁)
    obtain ⟨n₂', txs₂, h₂⟩ := applyCommit_live hl₂ env₂ h x (some b₂)
    obtain ⟨rfl, hdb₁, -⟩ := applyCommit_spec h₁
    obtain ⟨rfl, hdb₂, -⟩ := applyCommit_spec h₂
    refine ⟨_, _, by rw [hb₁]; exact h₁, by rw [hb₂]; exact h₂, ?_⟩
    show n₁'.stateDb.Same n₂'.stateDb
    rw [hdb₁, hdb₂]
    show (n₁.stateDb.executeAll b₁.transactions).Same (n₂.stateDb.executeAll b₂.transactions)
    rw [hbody]
    exact hsame.executeAll _
  · intro G n₁ n₂ m₁ m₂ hist₁ hist₂ body hsame hr₁ hr₂ hh₁ hh₂ hcommits
    have hflat : ∀ cs : List (Height × BlockHash × List Transaction),
        (∀ c ∈ cs, c.2.2 = body c.2.1) →
        cs.flatMap (fun c => c.2.2) = (cs.map fun c => c.2.1).flatMap body := by
      intro cs hcs
      rw [List.flatMap_map]
      exact List.flatMap_congr hcs
    have hdb : m₁.stateDb.Same m₂.stateDb := by
      rw [stateDb_of_run hr₁, stateDb_of_run hr₂, hflat _ (commits_of_holdsBodies hr₁ hh₁),
        hflat _ (commits_of_holdsBodies hr₂ hh₂), hcommits]
      exact hsame.executeAll _
    exact ⟨hdb, fun it₁ it₂ => hdb.computeStateRoot C it₁ it₂⟩

/-! ## Two nodes -/

/-- A transfer from key `5` to key `6`, before it is signed. -/
def unsigned (amount nonce : UInt64) : Transaction :=
  ⟨Crates.sampleKey 5, Crates.sampleKey 6, amount, nonce, [], []⟩

def transfer (amount nonce : UInt64) : Transaction :=
  { unsigned amount nonce with
    signature := (Crates.sample.sign (Crates.sampleKey 5)
      ((unsigned amount nonce).signingMessage Crates.sample).toList).toList }

/-- A transfer of 10. -/
def unsignedTransfer : Transaction := unsigned 10 0

def signedTransfer : Transaction := transfer 10 0

/-- One account, of key `5`, with 100. -/
def genesisDb : StateDb := StateDb.new.setAccount (Crates.sampleKey 5) (AccountState.new 100)

/-- A node of the one validator `1`, without a key of its own. -/
def observer (bft : BftStateMachine Crates.sample) (mempool : TransactionPool) :
    Node Crates.sample :=
  { Node.genesis Crates.sample [⟨Crates.sampleKey 1⟩] none none genesisDb
      ⟨FeeConfig.default, 1⟩ with
    bft := bft
    mempool := mempool }

theorem observer_bft (m : BftStateMachine Crates.sample) (pool : TransactionPool) :
    (observer m pool).bft = m := rfl

theorem observer_stateDb (m : BftStateMachine Crates.sample) (pool : TransactionPool) :
    (observer m pool).stateDb = genesisDb := rfl

theorem observer_live (m : BftStateMachine Crates.sample) (pool : TransactionPool) :
    (observer m pool).feeMarket.Live := by
  show FeeConfig.default.targetGasPerBlock.toNat * FeeConfig.default.elasticityMultiplier.toNat ≠ 0
  decide

/-! ### Both hold it -/

/-- A block by the validator `1` with one transaction. -/
def transferBlock (h : Height) (tx : Transaction) : Block where
  header := ⟨h, 0, BlockHash.default, ⟨Crates.sampleKey 1⟩, Bytes.fill 32 0,
    Crates.sample.sha256 (Crates.sample.bincodeTransaction tx)⟩
  transactions := [tx]

/-- Other orders and another clock. -/
def otherOrder : Env :=
  let backwards {α : Type} : IterOrder α := ⟨List.reverse, List.reverse_perm⟩
  ⟨backwards, backwards, backwards, backwards, 40, 50⟩

/-- A pool with one transaction waiting. -/
def poolOf (tx : Transaction) : TransactionPool :=
  ((TransactionPool.new MempoolConfig.default).addTransaction Crates.sample tx).1

def firstBlock : Block := transferBlock ⟨0⟩ (transfer 10 0)

def secondBlock : Block := transferBlock ⟨1⟩ (transfer 20 1)

def transferBody (x : BlockHash) : List Transaction :=
  if x = firstBlock.hash Crates.sample then firstBlock.transactions else secondBlock.transactions

/-- The blocks are proposed, and the validator precommits each. -/
def transferScript (env : Env) : List (Env × NodeEvent) :=
  [firstBlock, secondBlock].flatMap fun b =>
    [(env, .network (.proposeBlock (signProposal Crates.sample b.header.height ⟨0⟩
        (b.hash Crates.sample) (Crates.sampleKey 1)) (some b))),
      (env, .network (.castVote (Vote.new Crates.sample .precommit b.header.height ⟨0⟩
        (some (b.hash Crates.sample)) (Crates.sampleKey 1))))]

/-- A node in round 0 with a transaction of its own waiting. -/
def waiting (tx : Transaction) : Node Crates.sample :=
  observer (BftStateMachine.bodyStart.startRound ⟨0⟩).1 (poolOf tx)

/-- The same node when it has taken the first block. -/
def keeper (tx : Transaction) : Node Crates.sample :=
  observer (BftStateMachine.bodyMachine firstBlock) (poolOf tx)

theorem keeper_holds (tx : Transaction) :
    (keeper tx).bft.getCommittedBlock (firstBlock.hash Crates.sample) = some firstBlock := by
  unfold keeper
  rw [observer_bft]
  exact BftStateMachine.bodyMachine_holds firstBlock

theorem holdsBodies_of_commit? {body : BlockHash → List Transaction} {hist : NodeHistory C}
    (h : ∀ τ ∈ hist, ∀ c ∈ τ.out.filterMap Action.commit?,
      ∃ b ∈ τ.before.bft.getCommittedBlock c.2.1, b.transactions = body c.2.1) :
    HoldsBodies body hist := by
  intro τ hτ h' x txs hout
  exact h τ hτ (h', x, txs) (List.mem_filterMap.mpr ⟨_, hout, rfl⟩)

/-- Whichever of the two a node is, it commits both blocks and keeps its own transaction. -/
theorem transferScript_runs :
    ∀ a ∈ [(storedOrder, transfer 30 0), (otherOrder, transfer 40 0)], ∃ hist m,
      NodeRun Crates.sample (fun _ _ => True) (waiting a.2) hist m ∧
      HoldsBodies transferBody hist ∧ m.mempool.pending = [a.2] ∧
      (commits hist).map (fun c => c.2.1) =
        [firstBlock.hash Crates.sample, secondBlock.hash Crates.sample] ∧
      m.stateDb.getAccount (Crates.sampleKey 5) = some ⟨70, 2⟩ := by
  intro a ha
  obtain ⟨hist, m, hr, hholds, hrest⟩ : ∃ hist m,
      NodeRun Crates.sample (fun _ _ => True) (waiting a.2) hist m ∧
      (∀ τ ∈ hist, ∀ c ∈ τ.out.filterMap Action.commit?,
        ∃ b ∈ τ.before.bft.getCommittedBlock c.2.1, b.transactions = transferBody c.2.1) ∧
      m.mempool.pending = [a.2] ∧
      (commits hist).map (fun c => c.2.1) =
        [firstBlock.hash Crates.sample, secondBlock.hash Crates.sample] ∧
      m.stateDb.getAccount (Crates.sampleKey 5) = some ⟨70, 2⟩ :=
    Run.exists_of_replay (transferScript a.1) (by revert a; decide +kernel)
  exact ⟨hist, m, hr, holdsBodies_of_commit? hholds, hrest⟩

/-- One node has a transfer of 30 in its pool, the other one of 40, and their maps are enumerated
the other way round: they stay the same at a commit, and over two commits. -/
theorem replicas_agree_pools :
    (∃ r₁ r₂, (keeper (transfer 30 0)).applyCommit storedOrder ⟨0⟩ (firstBlock.hash Crates.sample)
        ((keeper (transfer 30 0)).bft.getCommittedBlock (firstBlock.hash Crates.sample)) =
          some r₁ ∧
      (keeper (transfer 40 0)).applyCommit otherOrder ⟨0⟩ (firstBlock.hash Crates.sample)
        ((keeper (transfer 40 0)).bft.getCommittedBlock (firstBlock.hash Crates.sample)) =
          some r₂ ∧
      r₁.1.stateDb.Same r₂.1.stateDb) ∧
    ∃ hist₁ m₁ hist₂ m₂,
      NodeRun Crates.sample (fun _ _ => True) (waiting (transfer 30 0)) hist₁ m₁ ∧
      NodeRun Crates.sample (fun _ _ => True) (waiting (transfer 40 0)) hist₂ m₂ ∧
      m₁.mempool.pending = [transfer 30 0] ∧ m₂.mempool.pending = [transfer 40 0] ∧
      m₁.stateDb.getAccount (Crates.sampleKey 5) = some ⟨70, 2⟩ ∧
      m₁.stateDb.Same m₂.stateDb ∧ ∀ it₁ it₂,
        m₁.stateDb.computeStateRoot Crates.sample it₁ =
          m₂.stateDb.computeStateRoot Crates.sample it₂ := by
  constructor
  · exact replicas_agree.1 (keeper (transfer 30 0)) (keeper (transfer 40 0)) storedOrder otherOrder
      ⟨0⟩ (firstBlock.hash Crates.sample) firstBlock firstBlock (StateDb.Same.refl genesisDb)
      (observer_live _ _) (observer_live _ _) (keeper_holds _) (keeper_holds _) rfl
  · obtain ⟨hist₁, m₁, hr₁, hholds₁, hpool₁, hcommits₁, hpaid⟩ :=
      transferScript_runs (storedOrder, transfer 30 0) List.mem_cons_self
    obtain ⟨hist₂, m₂, hr₂, hholds₂, hpool₂, hcommits₂, -⟩ :=
      transferScript_runs (otherOrder, transfer 40 0)
        (List.mem_cons_of_mem _ (List.mem_singleton_self _))
    exact ⟨hist₁, m₁, hist₂, m₂, hr₁, hr₂, hpool₁, hpool₂, hpaid,
      replicas_agree.2 _ _ _ m₁ m₂ hist₁ hist₂ transferBody (StateDb.Same.refl genesisDb) hr₁ hr₂
        hholds₁ hholds₂ (hcommits₁.trans hcommits₂.symm)⟩

/-! ### One of them missed it -/

/-- The agreed block, which is empty. -/
def agreedBlock : Block := bodyBlock (Bytes.fill 32 0) []

/-- The node that took the proposal. -/
def holder : Node Crates.sample :=
  observer (BftStateMachine.bodyMachine agreedBlock) (TransactionPool.new MempoolConfig.default)

/-- The node that did not, and has a transaction waiting. -/
def misser : Node Crates.sample :=
  observer (BftStateMachine.bodyStart.startRound ⟨0⟩).1
    ((TransactionPool.new MempoolConfig.default).addTransaction Crates.sample signedTransfer).1

theorem holder_holds :
    holder.bft.getCommittedBlock (agreedBlock.hash Crates.sample) = some agreedBlock := by
  unfold holder
  rw [observer_bft]
  exact BftStateMachine.bodyMachine_holds agreedBlock

/-- The balance and nonce of key `5` after a node's commit of the agreed hash. -/
def afterCommit (n : Node Crates.sample) : Option AccountState :=
  (n.applyCommit storedOrder ⟨0⟩ (agreedBlock.hash Crates.sample)
    (n.bft.getCommittedBlock (agreedBlock.hash Crates.sample))).bind
    fun r => r.1.stateDb.getAccount (Crates.sampleKey 5)

/-- **The node that missed the proposal diverges**: from one database, on one height and hash, the
holder executes the empty agreed block and the other its own pool. -/
theorem replicas_diverge :
    holder.stateDb.Same misser.stateDb ∧
      holder.bft.getCommittedBlock (agreedBlock.hash Crates.sample) = some agreedBlock ∧
      misser.bft.getCommittedBlock (agreedBlock.hash Crates.sample) = none ∧
      afterCommit holder = some ⟨100, 0⟩ ∧ afterCommit misser = some ⟨90, 1⟩ := by
  refine ⟨?_, holder_holds, ?_, ?_, ?_⟩
  · unfold holder misser
    rw [observer_stateDb, observer_stateDb]
    exact StateDb.Same.refl _
  · decide +kernel
  · decide +kernel
  · decide +kernel

end Node

end Trv1Chain
