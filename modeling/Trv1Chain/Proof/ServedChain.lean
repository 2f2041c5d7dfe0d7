import Trv1Chain.Proof.Replication
import Trv1Chain.Rpc.Server

/-!
# The chain a node publishes

`apply_commit` pushes one `BlockResponse` to the store that RPC reads, with the hash committed
before as its parent. Over a whole run the store is the node's list of commits, entry by entry
(`Serves`), on any input at all: announced commits are stored like the node's own, under whatever
height they name.

In a fleet the stores are then one chain: wherever two honest nodes both have an entry it has the
same height, the same parent and the same hash.
-/

set_option autoImplicit false

namespace Trv1Chain

open Lib Node

/-- One commit: height, hash, and the transactions executed. -/
abbrev Commit := Height × BlockHash × List Transaction

/-- What a stored block says about its commit. The time and the proposer's name are not part of the
commit. -/
def BlockResponse.entry (b : BlockResponse) : UInt64 × List UInt8 × Nat × List UInt8 :=
  (b.height, b.parentHash, b.txCount, b.blockHash)

/-- The entry of a commit made on top of `parent`. -/
def storedEntry (parent : BlockHash) (c : Commit) : UInt64 × List UInt8 × Nat × List UInt8 :=
  (c.1.val, toHex parent.bytes.toList, c.2.2.length, toHex c.2.1.bytes.toList)

/-- The hash of the last commit, and the zero hash before the first. -/
def lastHash (committed : List Commit) : BlockHash :=
  match committed.getLast? with
  | some c => c.2.1
  | none => BlockHash.default

/-- The height of the last commit, and 0 before the first. -/
def lastHeight (committed : List Commit) : UInt64 :=
  match committed.getLast? with
  | some c => c.1.val
  | none => 0

/-- The entries of a list of commits, each on top of the one before. -/
def storedEntries : BlockHash → List Commit → List (UInt64 × List UInt8 × Nat × List UInt8)
  | _, [] => []
  | parent, c :: committed => storedEntry parent c :: storedEntries c.2.1 committed

theorem storedEntries_concat (c : Commit) : ∀ (committed : List Commit) (parent : BlockHash),
    storedEntries parent (committed ++ [c]) = storedEntries parent committed ++
      [storedEntry ((committed.getLast?.map fun d => d.2.1).getD parent) c] := by
  intro committed
  induction committed with
  | nil => intro parent; rfl
  | cons d committed ih =>
    intro parent
    rw [List.cons_append, storedEntries, ih, storedEntries, List.cons_append]
    cases committed with
    | nil => rfl
    | cons d' committed => rfl

theorem lastHash_eq (committed : List Commit) :
    lastHash committed = (committed.getLast?.map fun d => d.2.1).getD BlockHash.default := by
  unfold lastHash
  cases committed.getLast? <;> rfl

theorem lastHash_concat (committed : List Commit) (c : Commit) :
    lastHash (committed ++ [c]) = c.2.1 := by
  unfold lastHash
  rw [List.getLast?_concat]

theorem lastHeight_concat (committed : List Commit) (c : Commit) :
    lastHeight (committed ++ [c]) = c.1.val := by
  unfold lastHeight
  rw [List.getLast?_concat]

theorem length_storedEntries : ∀ (committed : List Commit) (parent : BlockHash),
    (storedEntries parent committed).length = committed.length := by
  intro committed
  induction committed with
  | nil => intro _; rfl
  | cons c committed ih =>
    intro parent
    rw [storedEntries, List.length_cons, ih, List.length_cons]

namespace Node

variable {C : Crates}

/-! ## One turn -/

/-- What the node publishes is its commits. -/
structure Serves (committed : List Commit) (n : Node C) : Prop where
  store : n.blockStore.map BlockResponse.entry = storedEntries BlockHash.default committed
  last : n.lastBlockHash = lastHash committed
  height : n.currentHeight = lastHeight committed
  baseFee : n.baseFee = n.feeMarket.currentBaseFee

theorem Serves.proposes {committed : List Commit} {n n' : Node C} {env : Env}
    {acts : List Action} (h : Serves committed n) (hp : Proposes n env n' acts) :
    Serves committed n' := by
  cases hp with
  | skip => exact h
  | propose sk height round _ _ => exact ⟨h.store, h.last, h.height, h.baseFee⟩

theorem Serves.withBft {committed : List Commit} {n : Node C} (h : Serves committed n)
    (m : BftStateMachine C) : Serves committed (n.withBft m) :=
  ⟨h.store, h.last, h.height, h.baseFee⟩

/-- `apply_commit` publishes the commit. -/
theorem Serves.applyCommit {committed : List Commit} {n n' : Node C} {env : Env} {h : Height}
    {x : BlockHash} {block : Option Block} {txs : List Transaction} (hn : Serves committed n)
    (ha : n.applyCommit env h x block = some (n', txs)) :
    Serves (committed ++ [(h, x, txs)]) n' := by
  rw [applyCommit_eq] at ha
  split at ha
  · cases ha
  · cases ha
    refine ⟨?_, ?_, ?_, rfl⟩
    · show (n.blockStore ++ [_]).map BlockResponse.entry = _
      rw [List.map_append, hn.store, storedEntries_concat, ← lastHash_eq, ← hn.last]
      rfl
    · rw [lastHash_concat]
      rfl
    · rw [lastHeight_concat]
      rfl

theorem Serves.commits {committed : List Commit} {n n' : Node C} {env : Env} {h : Height}
    {x : BlockHash} {acts : List Action} (hn : Serves committed n)
    (hc : Commits n env h x n' acts) :
    Serves (committed ++ acts.filterMap Action.commit?) n' := by
  cases hc with
  | mk n₁ _ txs proposed rest ha hp hq =>
    have hacts : (Action.applyCommit h x txs :: rest).filterMap Action.commit? =
        [(h, x, txs)] := by
      simp [Action.commit?, Action.commit?_of_quiet hq]
    rw [hacts]
    exact ((hn.applyCommit ha).withBft _).proposes hp

/-- **A turn publishes what it commits**, and nothing else. -/
theorem Moves.serves {committed : List Commit} {n n' : Node C} {env : Env} {e : NodeEvent}
    {acts : List Action} (hm : Moves n env e n' acts) (hn : Serves committed n) :
    Serves (committed ++ acts.filterMap Action.commit?) n' := by
  cases hm with
  | call _ _ _ hp hq =>
    rw [Action.commit?_of_quiet hq, List.append_nil]
    exact (hn.withBft _).proposes hp
  | commit _ _ hc => exact (hn.withBft _).commits hc
  | announced hc => exact hn.commits hc
  | pool e tx _ =>
    rw [List.filterMap_nil, List.append_nil]
    exact ⟨hn.store, hn.last, hn.height, hn.baseFee⟩
  | idle e hq => rwa [Action.commit?_of_quiet hq, List.append_nil]

/-! ## Runs -/

theorem serves_start {validators : List ValidatorId} {idx : Option Nat} {sk : Option (Bytes 32)}
    {db : StateDb} {fm : FeeMarket} (env : Env) :
    Serves [] ((genesis C validators idx sk db fm).start env).1 := by
  have hfresh : Serves [] (genesis C validators idx sk db fm) := ⟨rfl, rfl, rfl, rfl⟩
  unfold Node.start
  exact (hfresh.withBft _).proposes (proposeIfProposer_proposes _ env ⟨0⟩ ⟨0⟩)

theorem serves_of_run {G : Node C → Env × NodeEvent → Prop} {n₀ n : Node C}
    {hist : NodeHistory C} (h₀ : Serves [] n₀) (hr : NodeRun C G n₀ hist n) :
    Serves (commits hist) n := by
  refine hr.invariant (I := fun hist n => Serves (commits hist) n) h₀ ?_
  intro hist n e n' acts _ ih _ hs
  rw [commits_cons]
  exact (handle_moves hs).serves ih

end Node

/-- A stored block's place in the chain. -/
def BlockResponse.link (b : BlockResponse) : UInt64 × List UInt8 × List UInt8 :=
  (b.height, b.parentHash, b.blockHash)

/-- The links of a list of decisions. -/
def storedLinks :
    BlockHash → List (Height × BlockHash) → List (UInt64 × List UInt8 × List UInt8)
  | _, [] => []
  | parent, d :: decided =>
    (d.1.val, toHex parent.bytes.toList, toHex d.2.bytes.toList) :: storedLinks d.2 decided

theorem map_link_of_storedEntries : ∀ (committed : List Commit) (parent : BlockHash)
    (store : List BlockResponse), store.map BlockResponse.entry = storedEntries parent committed →
    store.map BlockResponse.link = storedLinks parent (committed.map fun c => (c.1, c.2.1)) := by
  intro committed
  induction committed with
  | nil =>
    intro parent store h
    rw [storedEntries, List.map_eq_nil_iff] at h
    rw [h]
    rfl
  | cons c committed ih =>
    intro parent store h
    cases store with
    | nil => cases h
    | cons b store =>
      rw [List.map_cons, storedEntries, List.cons.injEq] at h
      obtain ⟨hb, hrest⟩ := h
      rw [List.map_cons, List.map_cons, storedLinks, ih _ _ hrest]
      unfold BlockResponse.entry storedEntry at hb
      simp only [Prod.mk.injEq] at hb
      unfold BlockResponse.link
      rw [hb.1, hb.2.1, hb.2.2.2]

theorem storedLinks_isPrefix :
    ∀ {decided decided' : List (Height × BlockHash)} (parent : BlockHash),
      decided <+: decided' → storedLinks parent decided <+: storedLinks parent decided' := by
  intro decided
  induction decided with
  | nil => intro decided' parent _; exact List.nil_prefix
  | cons d decided ih =>
    intro decided' parent h
    cases decided' with
    | nil => exact absurd h (by simp)
    | cons d' decided' =>
      obtain ⟨rfl, hrest⟩ := List.cons_prefix_cons.mp h
      rw [storedLinks, storedLinks]
      exact List.cons_prefix_cons.mpr ⟨rfl, ih _ hrest⟩

/-- **The store is the chain.** In every run from genesis, on any input, what a node publishes is
its commits: the stored blocks one by one, each naming the hash committed before it as its parent,
the last hash, the last height, and the fee market's base fee. In a fleet, with fewer than a third
Byzantine and orderly input, one honest node's stored chain is a prefix of the other's. -/
theorem store_is_chain {C : Crates} :
    (∀ {validators : List ValidatorId} {idx : Option Nat} {sk : Option (Bytes 32)} {db : StateDb}
        {fm : FeeMarket} {env : Env} {hist : NodeHistory C} {n : Node C},
      NodeRun C (fun _ _ => True) ((genesis C validators idx sk db fm).start env).1 hist n →
      Serves (commits hist) n) ∧
    ∀ (F : Fleet C) (i j : ValidatorId), i ∉ F.byzantine → j ∉ F.byzantine →
      (F.node i).blockStore.map BlockResponse.link <+:
          (F.node j).blockStore.map BlockResponse.link ∨
        (F.node j).blockStore.map BlockResponse.link <+:
          (F.node i).blockStore.map BlockResponse.link := by
  refine ⟨fun hr => serves_of_run (serves_start _) hr, ?_⟩
  intro F i j hi hj
  have hlinks : ∀ k, k ∉ F.byzantine → (F.node k).blockStore.map BlockResponse.link =
      storedLinks BlockHash.default (F.decisions k) := fun k hk =>
    map_link_of_storedEntries _ _ _ (serves_of_run (serves_start _) (F.run k hk)).store
  rw [hlinks i hi, hlinks j hj]
  exact (F.decisions_agree hi hj).comparable.imp (storedLinks_isPrefix _) (storedLinks_isPrefix _)

/-- An observer of one validator stores the block it has committed, and two nodes of a fleet that
have decided two heights store one chain. -/
theorem store_is_chain_quad :
    (∃ hist n, NodeRun Crates.sample (fun _ _ => True) soloObserver hist n ∧
      (commits hist).length = 1 ∧ Serves (commits hist) n) ∧
    ((quadFleet.node ⟨Crates.sampleKey 1⟩).blockStore.map BlockResponse.link).length = 2 ∧
      ((quadFleet.node ⟨Crates.sampleKey 1⟩).blockStore.map BlockResponse.link <+:
          (quadFleet.node ⟨Crates.sampleKey 3⟩).blockStore.map BlockResponse.link ∨
        (quadFleet.node ⟨Crates.sampleKey 3⟩).blockStore.map BlockResponse.link <+:
          (quadFleet.node ⟨Crates.sampleKey 1⟩).blockStore.map BlockResponse.link) := by
  refine ⟨?_, by decide +kernel, store_is_chain.2 quadFleet _ _ (by decide) (by decide)⟩
  have hr : NodeRun Crates.sample (fun _ _ => True) soloObserver _ _ :=
    Run.single (e := (storedOrder, .network (.castVote (BftStateMachine.soloPrecommit 1))))
      trivial (by decide +kernel)
  exact ⟨_, _, hr, by decide +kernel, store_is_chain.1 hr⟩

end Trv1Chain
