import Trv1Chain.Lib.Log
import Trv1Chain.Proof.Assembly

/-!
# State machine replication

A fleet is a replicated log. The commits of a node are at the heights `0, 1, 2, …`, so the index of
a commit is its height, and by agreement two honest nodes have the same hash wherever both have a
commit. One node's chain of hashes is then a prefix of the other's. All of it is under the fleet's
conditions, fewer than a third Byzantine and orderly input: two announced commits fork two nodes.

The ledgers follow as far as the hash determines what is executed. That is where the node holds the
block, and the block's Merkle root binds its body (`Fleet.HoldsBound`); then any two moments at
which two nodes have committed equally often find the same accounts and the same state root.
-/

set_option autoImplicit false

namespace Trv1Chain

open Lib BftStateMachine Node

namespace Node

variable {C : Crates} {G : Node C → Env × NodeEvent → Prop}

/-- Every block in a node's cache is stored under its own hash. -/
theorem caches_of_nodeRun {validators : List ValidatorId} {idx : Option Nat}
    {sk : Option (Bytes 32)} {db : StateDb} {fm : FeeMarket} {env : Env} {hist : NodeHistory C}
    {n : Node C} (hr : NodeRun C G ((genesis C validators idx sk db fm).start env).1 hist n) :
    n.bft.Caches fun _ => True := by
  have hfree : FreeOwnCalls (C := C) fun _ _ => True := fun _ _ _ => trivial
  obtain ⟨inner, hin, -⟩ := machine_of_run hfree (fun _ _ _ _ _ => trivial)
    (start_ownCalls hfree (genesis C validators idx sk db fm) env) hr
  refine hin.invariant (I := fun _ m => m.Caches fun _ => True) (.empty rfl) ?_
  intro _ _ _ _ _ _ ih _ hs
  exact ih.step (BftStateMachine.handle_moves hs) fun _ _ _ _ => trivial

/-- The commits of a run's past are the first of the run's. -/
theorem commits_of_suffix {hist past : NodeHistory C} (h : past <:+ hist) :
    commits past <+: commits hist := by
  obtain ⟨later, rfl⟩ := h
  unfold commits chronicle
  rw [List.reverse_append, List.flatMap_append, List.filterMap_append]
  exact List.prefix_append _ _

theorem Orderly.not_announced {n : Node C} {e : Env × NodeEvent} {h : Height} {x : BlockHash}
    (ho : n.Orderly e) : e.2 ≠ .network (.commitBlock h x) := by
  intro he
  unfold Orderly at ho
  rw [he] at ho
  exact ho

end Node

namespace Fleet

variable {C : Crates}

/-- An honest node as it enters its event loop. -/
def start (F : Fleet C) (k : ValidatorId) : Node C :=
  ((genesis C F.validators (F.index k) (some (F.signingKey k)) (F.stateDb k) (F.feeMarket k)).start
    (F.env k)).1

theorem start_stateDb (F : Fleet C) (k : ValidatorId) : (F.start k).stateDb = F.stateDb k := by
  unfold start Node.start
  exact (proposeIfProposer_proposes _ _ _ _).stateDb

theorem start_height (F : Fleet C) (k : ValidatorId) : (F.start k).bft.height = ⟨0⟩ := by
  unfold start Node.start
  exact (proposeIfProposer_proposes _ _ _ _).height

/-- **The index of a commit is its height.** -/
theorem height_of_commit (F : Fleet C) {k : ValidatorId} (hk : k ∉ F.byzantine) {p : Nat}
    {c : Height × BlockHash × List Transaction} (hc : (commits (F.hist k))[p]? = some c) :
    c.1 = ⟨UInt64.ofNat p⟩ := by
  have hheights := (heights_of_run (fun _ _ _ _ ho => Orderly.not_announced ho)
    (F.start_height k) (F.run k hk)).2
  have hp : p < (commits (F.hist k)).length := (List.getElem?_eq_some_iff.mp hc).1
  have hat : ((commits (F.hist k)).map fun c => c.1)[p]? = some c.1 := by
    rw [List.getElem?_map, hc]
    rfl
  rw [hheights, heightsUpTo, List.getElem?_map, List.getElem?_range hp] at hat
  exact (Option.some.inj hat).symm

/-- **Two honest nodes have one hash at a height.** -/
theorem same_commit (F : Fleet C) {i j : ValidatorId} (hi : i ∉ F.byzantine)
    (hj : j ∉ F.byzantine) {h : Height} {x y : BlockHash} {txs txs' : List Transaction}
    (hx : (h, x, txs) ∈ commits (F.hist i)) (hy : (h, y, txs') ∈ commits (F.hist j)) : x = y := by
  obtain ⟨w, hw, -, htr⟩ := F.exists_traced_world
  exact hw.same_hash (((htr.traced i hi).commits h x).mpr ⟨txs, hx⟩)
    (((htr.traced j hj).commits h y).mpr ⟨txs', hy⟩)

/-- What was decided at each height. -/
def decisions (F : Fleet C) (k : ValidatorId) : List (Height × BlockHash) :=
  (commits (F.hist k)).map fun c => (c.1, c.2.1)

theorem decisions_agree (F : Fleet C) {i j : ValidatorId} (hi : i ∉ F.byzantine)
    (hj : j ∉ F.byzantine) : AgreeAt (F.decisions i) (F.decisions j) := by
  intro p a b ha hb
  unfold decisions at ha hb
  rw [List.getElem?_map, Option.map_eq_some_iff] at ha hb
  obtain ⟨⟨h, x, txs⟩, hc, rfl⟩ := ha
  obtain ⟨⟨h', y, txs'⟩, hc', rfl⟩ := hb
  obtain rfl : h = h' := (F.height_of_commit hi hc).trans (F.height_of_commit hj hc').symm
  rw [F.same_commit hi hj (List.mem_of_getElem? hc) (List.mem_of_getElem? hc')]

/-! ## What the hash determines -/

/-- Node `k` held the block `b` when it committed `x`. -/
def Executed (F : Fleet C) (k : ValidatorId) (x : BlockHash) (b : Block) : Prop :=
  ∃ τ ∈ F.hist k, ∃ h txs, .applyCommit h x txs ∈ τ.out ∧
    τ.before.bft.getCommittedBlock x = some b

/-- At each commit of an honest node it held the block. The Merkle roots of the blocks so executed
bind their bodies, and SHA-256 and bincode tell them apart. -/
structure HoldsBound (F : Fleet C) : Prop where
  held : ∀ k, k ∉ F.byzantine → ∀ τ ∈ F.hist k, ∀ h x txs, .applyCommit h x txs ∈ τ.out →
    ∃ b, τ.before.bft.getCommittedBlock x = some b
  bound : ∀ k, k ∉ F.byzantine → ∀ x b, F.Executed k x b → b.BodyBound C
  apart : ∀ k, k ∉ F.byzantine → ∀ k', k' ∉ F.byzantine → ∀ x b b', F.Executed k x b →
    F.Executed k' x b' → b.EncodedApart C b'

theorem Executed.hash {F : Fleet C} {k : ValidatorId} (hk : k ∉ F.byzantine) {x : BlockHash}
    {b : Block} (he : F.Executed k x b) : b.hash C = x := by
  obtain ⟨τ, hτ, -, -, -, hb⟩ := he
  obtain ⟨past, -, hr, -, -⟩ := (F.run k hk).of_mem hτ
  exact (caches_of_nodeRun hr x b hb).1

/-- **Under one hash the honest nodes execute one body.** -/
theorem HoldsBound.exists_body {F : Fleet C} (hb : F.HoldsBound) :
    ∃ body, ∀ k, k ∉ F.byzantine → HoldsBodies body (F.hist k) := by
  classical
  -- the body of any block an honest node executed under the hash
  let body : BlockHash → List Transaction := fun x =>
    if h : ∃ k b, k ∉ F.byzantine ∧ F.Executed k x b then h.choose_spec.choose.transactions else []
  refine ⟨body, fun k hk τ hτ h x txs hout => ?_⟩
  obtain ⟨b, hcached⟩ := hb.held k hk τ hτ h x txs hout
  have he : F.Executed k x b := ⟨τ, hτ, h, txs, hout, hcached⟩
  have hex : ∃ k b, k ∉ F.byzantine ∧ F.Executed k x b := ⟨k, b, hk, he⟩
  obtain ⟨hk', he'⟩ := hex.choose_spec.choose_spec
  refine ⟨b, hcached, ?_⟩
  have hbody : body x = hex.choose_spec.choose.transactions := dif_pos hex
  rw [hbody]
  exact (hb.bound k hk x b he).transactions_eq (hb.bound _ hk' x _ he')
    (hb.apart k hk _ hk' x b _ he he') ((he.hash hk).trans (he'.hash hk').symm)

theorem HoldsBound.commits_comparable {F : Fleet C} (hb : F.HoldsBound) {i j : ValidatorId}
    (hi : i ∉ F.byzantine) (hj : j ∉ F.byzantine) :
    AgreeAt (commits (F.hist i)) (commits (F.hist j)) := by
  obtain ⟨body, hbody⟩ := hb.exists_body
  rintro p ⟨h, x, txs⟩ ⟨h', y, txs'⟩ hc hc'
  have hx := commits_of_holdsBodies (F.run i hi) (hbody i hi) _ (List.mem_of_getElem? hc)
  have hy := commits_of_holdsBodies (F.run j hj) (hbody j hj) _ (List.mem_of_getElem? hc')
  obtain rfl : h = h' := (F.height_of_commit hi hc).trans (F.height_of_commit hj hc').symm
  obtain rfl := F.same_commit hi hj (List.mem_of_getElem? hc) (List.mem_of_getElem? hc')
  obtain rfl : txs = txs' := hx.trans hy.symm
  rfl

/-- **Replication.** In a fleet, with fewer than a third Byzantine and orderly input, of two honest
nodes' decisions one is a prefix of the other's. Where the nodes hold bound blocks and start from
the same accounts, so are the executed transactions, and at any two moments of the two runs with
equally many commits the accounts and the state roots are the same. -/
theorem ledgers_replicate (F : Fleet C) {i j : ValidatorId} (hi : i ∉ F.byzantine)
    (hj : j ∉ F.byzantine) :
    (F.decisions i <+: F.decisions j ∨ F.decisions j <+: F.decisions i) ∧
      (F.HoldsBound → (F.stateDb i).Same (F.stateDb j) →
        (commits (F.hist i) <+: commits (F.hist j) ∨ commits (F.hist j) <+: commits (F.hist i)) ∧
        ∀ past past' n n', past <:+ F.hist i → past' <:+ F.hist j →
          NodeRun C Orderly (F.start i) past n → NodeRun C Orderly (F.start j) past' n' →
          (commits past).length = (commits past').length →
            n.stateDb.Same n'.stateDb ∧ ∀ it it', n.stateDb.computeStateRoot C it =
              n'.stateDb.computeStateRoot C it') := by
  refine ⟨(F.decisions_agree hi hj).comparable, ?_⟩
  intro hb hdb
  have hagree := hb.commits_comparable hi hj
  refine ⟨hagree.comparable, ?_⟩
  intro past past' n n' hpast hpast' hr hr' hlen
  have hcommits : commits past = commits past' :=
    hagree.eq_of_prefixes (commits_of_suffix hpast) (commits_of_suffix hpast') hlen
  have hsame : n.stateDb.Same n'.stateDb := by
    rw [stateDb_of_run hr, stateDb_of_run hr', F.start_stateDb, F.start_stateDb, hcommits]
    exact hdb.executeAll _
  exact ⟨hsame, fun it it' => hsame.computeStateRoot C it it'⟩

end Fleet

/-! ## Empty blocks -/

theorem Block.bodyBound_of_empty {C : Crates} {b : Block} (ht : b.transactions = [])
    (hroot : b.header.txMerkleRoot = Bytes.fill 32 0) : b.BodyBound C where
  root := by rw [ht, hroot]; rfl
  twinFree := by
    rw [ht]
    intro l hl
    simp [Block.leaves, Merkle.levels] at hl
  nonzero := fun hne => absurd ht hne

theorem Block.encodedApart_of_empty {C : Crates} {b : Block} (ht : b.transactions = []) :
    b.EncodedApart C b where
  header := fun _ => rfl
  transaction := by rw [ht]; simp
  length := by rw [ht]; simp
  sha256 := by
    have honly : ∀ s ∈ b.preimages C, s = C.bincodeHeader b.header := by
      rintro s (rfl | ⟨tx, htx, -⟩ | ⟨p, hp, -⟩)
      · rfl
      · rw [ht] at htx
        exact absurd htx (by simp)
      · rw [ht] at hp
        exact absurd hp (by simp [Block.leaves, Merkle.hashed, Merkle.levels])
    intro s hs s' hs' _
    rw [Set.union_self] at hs hs'
    rw [honly s hs, honly s' hs']

/-! ## Two heights, three honest nodes -/

/-- The honest nodes hold the block at each of their commits, and it is one of the two. -/
theorem quadReplay_executed :
    ∀ k ∈ quadKeys, k ≠ ⟨Crates.sampleKey 2⟩ → ∀ τ ∈ (quadReplay k).1, ∀ a ∈ τ.out,
      ∀ c ∈ a.commit?, ∃ b ∈ τ.before.bft.getCommittedBlock c.2.1,
        b = quadFirst ∨ b = quadSecond := by
  decide +kernel

theorem quadFleet_turns {k : ValidatorId} (hk : k ∉ quadFleet.byzantine)
    {τ : Turn (Node Crates.sample) (Env × NodeEvent) Action} (hτ : τ ∈ quadFleet.hist k)
    {h : Height} {x : BlockHash} {txs : List Transaction} (hout : .applyCommit h x txs ∈ τ.out) :
    ∃ b, τ.before.bft.getCommittedBlock x = some b ∧ (b = quadFirst ∨ b = quadSecond) := by
  have hτ : τ ∈ (quadReplay k).1 := hτ
  have hmem : k ∈ quadKeys := by
    by_contra hno
    rw [quadReplay_stranger hno] at hτ
    exact absurd hτ (by simp)
  obtain ⟨b, hb, hone⟩ := quadReplay_executed k hmem (by simpa [quadFleet] using hk) τ hτ _ hout
    (h, x, txs) rfl
  exact ⟨b, hb, hone⟩

theorem quadFleet_executed {k : ValidatorId} (hk : k ∉ quadFleet.byzantine) {x : BlockHash}
    {b : Block} (he : quadFleet.Executed k x b) : b = quadFirst ∨ b = quadSecond := by
  obtain ⟨τ, hτ, h, txs, hout, hb⟩ := he
  obtain ⟨b', hb', hone⟩ := quadFleet_turns hk hτ hout
  rw [hb] at hb'
  cases hb'
  exact hone

theorem quadFleet_holdsBound : quadFleet.HoldsBound where
  held := by
    intro k hk τ hτ h x txs hout
    obtain ⟨b, hb, -⟩ := quadFleet_turns hk hτ hout
    exact ⟨b, hb⟩
  bound := by
    intro k hk x b he
    rcases quadFleet_executed hk he with rfl | rfl
    · exact Block.bodyBound_of_empty rfl rfl
    · exact Block.bodyBound_of_empty rfl rfl
  apart := by
    intro k hk k' hk' x b b' he he'
    -- two blocks with one hash are one block here
    have hhash : b.hash Crates.sample = b'.hash Crates.sample :=
      (he.hash hk).trans (he'.hash hk').symm
    have hne : quadFirst.hash Crates.sample ≠ quadSecond.hash Crates.sample := by decide +kernel
    rcases quadFleet_executed hk he with rfl | rfl <;>
      rcases quadFleet_executed hk' he' with rfl | rfl
    · exact Block.encodedApart_of_empty rfl
    · exact absurd hhash hne
    · exact absurd hhash.symm hne
    · exact Block.encodedApart_of_empty rfl

/-- Two nodes that have each decided two heights, with the same accounts. -/
theorem ledgers_replicate_quad :
    (quadFleet.decisions ⟨Crates.sampleKey 1⟩).length = 2 ∧ quadFleet.HoldsBound ∧
      (quadFleet.decisions ⟨Crates.sampleKey 1⟩ <+: quadFleet.decisions ⟨Crates.sampleKey 3⟩ ∨
        quadFleet.decisions ⟨Crates.sampleKey 3⟩ <+: quadFleet.decisions ⟨Crates.sampleKey 1⟩) ∧
      (quadFleet.node ⟨Crates.sampleKey 1⟩).stateDb.Same
        (quadFleet.node ⟨Crates.sampleKey 3⟩).stateDb := by
  have h₁ : (⟨Crates.sampleKey 1⟩ : ValidatorId) ∉ quadFleet.byzantine := by decide
  have h₃ : (⟨Crates.sampleKey 3⟩ : ValidatorId) ∉ quadFleet.byzantine := by decide
  have hrep := Fleet.ledgers_replicate quadFleet h₁ h₃
  refine ⟨by decide +kernel, quadFleet_holdsBound, hrep.1, ?_⟩
  exact ((hrep.2 quadFleet_holdsBound (StateDb.Same.refl _)).2 _ _ _ _ (List.suffix_refl _)
    (List.suffix_refl _) (quadFleet.run _ h₁) (quadFleet.run _ h₃) (by decide +kernel)).1

end Trv1Chain
