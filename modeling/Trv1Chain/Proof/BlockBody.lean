import Trv1Chain.Bft.History
import Trv1Chain.Proof.MerkleRoot

/-!
# What a block hash says about the body

A node caches the block that comes with a proposal under the proposal's hash, and executes the
cached body when that hash is committed. `Block::hash` is over the header alone, and
`on_proposal` compares only the hash: the header's `tx_merkle_root` is never compared with the
body it comes with. So two nodes can hold different bodies under one hash (`two_bodies`).

`Block.BodyBound` is the missing check: the root is the body's own, the body has no twin at the
end of a Merkle level (the tree pairs an odd node with itself), and only an empty body has the
all-zero root. Among accepted blocks that would pass it, the hash determines the body.
-/

set_option autoImplicit false

namespace Trv1Chain

open Lib

namespace Block

variable (C : Crates)

/-- The byte strings whose SHA-256 a block's hash and Merkle root are made of. -/
def preimages (b : Block) : Set (List UInt8) :=
  { s | s = C.bincodeHeader b.header ∨ (∃ tx ∈ b.transactions, s = C.bincodeTransaction tx) ∨
    ∃ p ∈ Merkle.hashed (nodeHash C) (leaves C b.transactions), s = nodePreimage p.1 p.2 }

/-- SHA-256 and bincode tell apart all that goes into the two blocks' digests. A transaction's
encoding is never as short as the 64 bytes of a Merkle node. -/
structure EncodedApart (b₁ b₂ : Block) : Prop where
  header : C.bincodeHeader b₁.header = C.bincodeHeader b₂.header → b₁.header = b₂.header
  transaction : ∀ tx₁ ∈ b₁.transactions, ∀ tx₂ ∈ b₂.transactions,
    C.bincodeTransaction tx₁ = C.bincodeTransaction tx₂ → tx₁ = tx₂
  length : ∀ tx, tx ∈ b₁.transactions ∨ tx ∈ b₂.transactions →
    (C.bincodeTransaction tx).length ≠ 64
  sha256 : C.CollisionFree (b₁.preimages C ∪ b₂.preimages C)

/-- The header's Merkle root binds the body. -/
structure BodyBound (b : Block) : Prop where
  root : computeTxMerkleRoot C b.transactions = b.header.txMerkleRoot
  twinFree : Merkle.TwinFree (nodeHash C) (leaves C b.transactions)
  nonzero : b.transactions ≠ [] → b.header.txMerkleRoot ≠ Bytes.fill 32 0

variable {C}

theorem EncodedApart.bodies {b₁ b₂ : Block} (h : EncodedApart C b₁ b₂) :
    BodiesApart C b₁.transactions b₂.transactions where
  transaction := h.transaction
  length := h.length
  sha256 := h.sha256.mono (Set.union_subset_union (fun _ => Or.inr) (fun _ => Or.inr))

theorem EncodedApart.transactions_eq {b₁ b₂ : Block} (h : EncodedApart C b₁ b₂)
    (heq : leaves C b₁.transactions = leaves C b₂.transactions) :
    b₁.transactions = b₂.transactions := by
  refine Merkle.eq_of_map_eq ?_ heq
  intro tx₁ h₁ tx₂ h₂ hsha
  exact h.bodies.leaf_inj h₁ h₂ hsha

/-- **The hash of a block whose root binds its body determines the body.** -/
theorem BodyBound.transactions_eq {b₁ b₂ : Block} (h₁ : BodyBound C b₁) (h₂ : BodyBound C b₂)
    (henc : EncodedApart C b₁ b₂) (hhash : b₁.hash C = b₂.hash C) :
    b₁.transactions = b₂.transactions := by
  have hhead : b₁.header = b₂.header := by
    refine henc.header (henc.sha256 (Or.inl (Or.inl rfl)) (Or.inr (Or.inl rfl)) ?_)
    exact BlockHash.mk.inj hhash
  have hroot : computeTxMerkleRoot C b₁.transactions = computeTxMerkleRoot C b₂.transactions := by
    rw [h₁.root, h₂.root, hhead]
  -- an empty body is told from another by its all-zero root
  by_cases he₁ : b₁.transactions = []
  · by_contra hne
    have hne₂ : b₂.transactions ≠ [] := fun h => hne (he₁.trans h.symm)
    apply h₂.nonzero hne₂
    rw [← h₂.root, ← hroot, he₁]
    rfl
  by_cases he₂ : b₂.transactions = []
  · exfalso
    apply h₁.nonzero he₁
    rw [← h₁.root, hroot, he₂]
    rfl
  apply henc.transactions_eq
  rw [computeTxMerkleRoot_of_ne_nil he₁, computeTxMerkleRoot_of_ne_nil he₂] at hroot
  refine Merkle.root_inj (d := 0) henc.bodies.separated _ ?_ ?_ ?_ ?_ ?_ ?_ h₁.twinFree
    h₂.twinFree hroot
  · exact leaves_ne_nil he₁
  · exact leaves_ne_nil he₂
  · intro x hx
    exact .leaf (Or.inl hx)
  · intro x hx
    exact .leaf (Or.inr hx)
  · intro p hp
    exact Or.inl hp
  · intro p hp
    exact Or.inr hp

end Block

namespace BftStateMachine

variable {C : Crates}

/-- Every block that comes with an accepted proposal has a root that binds its body. -/
def BodiesBound (m : BftStateMachine C) : BftEvent → Prop
  | .proposal p (some b) => m.Accepts p (some b) → b.BodyBound C
  | _ => True

theorem caches_of_run {m₀ m : BftStateMachine C} {hist : History C}
    (h₀ : m₀.proposedBlocks = ∅) (hr : BftRun C BodiesBound m₀ hist m) :
    m.Caches (Block.BodyBound C) := by
  refine hr.invariant (I := fun _ m => m.Caches (Block.BodyBound C)) (Caches.empty h₀) ?_
  intro _ _ _ _ _ _ ih hg hs
  refine ih.step (handle_moves hs) ?_
  rintro p b rfl ha
  exact hg ha

/-- **One hash, one body.** Two runs of two nodes in which every accepted block's root binds its
body: what the two caches hold under one hash has the same transactions. -/
theorem committed_body_unique {h₁ h₂ : Height} {vs₁ vs₂ : List ValidatorId} {i₁ i₂ : Option Nat}
    {tc₁ tc₂ : TimeoutConfig} {hist₁ hist₂ : History C} {m₁ m₂ : BftStateMachine C}
    (hr₁ : BftRun C BodiesBound (new C h₁ vs₁ i₁ tc₁) hist₁ m₁)
    (hr₂ : BftRun C BodiesBound (new C h₂ vs₂ i₂ tc₂) hist₂ m₂) {x : BlockHash} {b₁ b₂ : Block}
    (hb₁ : m₁.getCommittedBlock x = some b₁) (hb₂ : m₂.getCommittedBlock x = some b₂)
    (henc : Block.EncodedApart C b₁ b₂) : b₁.transactions = b₂.transactions := by
  obtain ⟨hx₁, hbound₁⟩ := caches_of_run rfl hr₁ x b₁ hb₁
  obtain ⟨hx₂, hbound₂⟩ := caches_of_run rfl hr₂ x b₂ hb₂
  exact hbound₁.transactions_eq hbound₂ henc (hx₁.trans hx₂.symm)

end BftStateMachine

/-! ## Two bodies under one header -/

def bodyTransaction : Transaction :=
  ⟨Crates.sampleKey 5, Crates.sampleKey 6, 10, 0, [], []⟩

/-- A first block by the validator `1` with a given root and body. -/
def bodyBlock (root : Bytes 32) (transactions : List Transaction) : Block where
  header := ⟨⟨0⟩, 0, BlockHash.default, ⟨Crates.sampleKey 1⟩, Bytes.fill 32 0, root⟩
  transactions := transactions

theorem bodyBlock_preimages {root : Bytes 32} {txs : List Transaction}
    (h : txs = [] ∨ txs = [bodyTransaction]) :
    (bodyBlock root txs).preimages Crates.sample ⊆
      {Crates.sample.bincodeHeader (bodyBlock root []).header,
        Crates.sample.bincodeTransaction bodyTransaction} := by
  rintro s (rfl | ⟨tx, htx, rfl⟩ | ⟨p, hp, -⟩)
  · exact Or.inl rfl
  · rcases h with rfl | rfl
    · exact absurd htx (by simp [bodyBlock])
    · obtain rfl : tx = bodyTransaction := by simpa [bodyBlock] using htx
      exact Or.inr rfl
  · rcases h with rfl | rfl <;>
      simp [bodyBlock, Block.leaves, Merkle.hashed, Merkle.levels] at hp

theorem bodyBlock_encodedApart {root : Bytes 32} {txs₁ txs₂ : List Transaction}
    (hsha : Crates.sample.sha256 (Crates.sample.bincodeHeader (bodyBlock root []).header) ≠
      Crates.sample.sha256 (Crates.sample.bincodeTransaction bodyTransaction))
    (h₁ : txs₁ = [] ∨ txs₁ = [bodyTransaction]) (h₂ : txs₂ = [] ∨ txs₂ = [bodyTransaction]) :
    Block.EncodedApart Crates.sample (bodyBlock root txs₁) (bodyBlock root txs₂) := by
  have honly : ∀ {txs : List Transaction} {tx}, (txs = [] ∨ txs = [bodyTransaction]) →
      tx ∈ txs → tx = bodyTransaction := by
    rintro txs tx (rfl | rfl) htx
    · exact absurd htx (by simp)
    · exact List.mem_singleton.mp htx
  refine ⟨fun _ => rfl, ?_, ?_, ?_⟩
  · intro tx htx tx' htx' _
    rw [honly h₁ htx, honly h₂ htx']
  · intro tx htx
    have : tx = bodyTransaction := htx.elim (honly h₁) (honly h₂)
    rw [this]
    decide +kernel
  · refine Set.InjOn.mono (Set.union_subset (bodyBlock_preimages h₁) (bodyBlock_preimages h₂)) ?_
    rintro s (rfl | rfl) s' (rfl | rfl) heq
    · rfl
    · exact absurd heq hsha
    · exact absurd heq.symm hsha
    · rfl

namespace BftStateMachine

def bodyStart : BftStateMachine Crates.sample :=
  new Crates.sample ⟨0⟩ [⟨Crates.sampleKey 1⟩] none TimeoutConfig.default

def bodyProposal (b : Block) : Proposal :=
  ⟨⟨0⟩, ⟨0⟩, b.hash Crates.sample, ⟨Crates.sampleKey 1⟩, Bytes.fill 64 0, none⟩

/-- The machine that was started and took that proposal with the block. -/
def bodyMachine (b : Block) : BftStateMachine Crates.sample :=
  ((bodyStart.startRound ⟨0⟩).1.onProposal (bodyProposal b) (some b)).1

theorem bodyProposal_accepted (b : Block) :
    (bodyStart.startRound ⟨0⟩).1.Accepts (bodyProposal b) (some b) := by
  refine ⟨rfl, rfl, rfl, ?_, ?_⟩
  · show _ = some (⟨Crates.sampleKey 1⟩ : ValidatorId)
    decide +kernel
  · intro b' hb'
    rw [← Option.mem_some_iff.mp hb']
    rfl

theorem bodyMachine_run {G : BftStateMachine Crates.sample → BftEvent → Prop} {b : Block}
    (h₀ : G bodyStart (.startRound ⟨0⟩))
    (h₁ : G (bodyStart.startRound ⟨0⟩).1 (.proposal (bodyProposal b) (some b))) :
    ∃ hist, BftRun Crates.sample G bodyStart hist (bodyMachine b) := by
  have hstart : BftRun Crates.sample G bodyStart _ (bodyStart.startRound ⟨0⟩).1 :=
    .turn .init h₀ rfl
  exact ⟨_, .turn hstart h₁ rfl⟩

theorem bodyMachine_holds (b : Block) :
    (bodyMachine b).getCommittedBlock (b.hash Crates.sample) = some b := by
  unfold bodyMachine
  rw [onProposal_eq, if_pos (bodyProposal_accepted b)]
  exact AList.lookup_insert _

/-- The block of one transaction under its own root. -/
def boundBlock : Block :=
  bodyBlock (Crates.sample.sha256 (Crates.sample.bincodeTransaction bodyTransaction))
    [bodyTransaction]

theorem boundBlock_bound : boundBlock.BodyBound Crates.sample := by
  refine ⟨?_, ?_, ?_⟩
  · simp [boundBlock, bodyBlock, Block.computeTxMerkleRoot, Block.leaves, Merkle.root]
  · exact Merkle.twinFree_singleton _ _
  · intro _
    decide +kernel

/-- The one block that may come with a proposal. -/
def Carries (b : Block) : BftEvent → Prop
  | .proposal _ (some b') => b' = b
  | _ => True

instance (b : Block) : DecidablePred (Carries b)
  | .proposal _ (some b') => inferInstanceAs (Decidable (b' = b))
  | .proposal _ none => inferInstanceAs (Decidable True)
  | .startRound _ => inferInstanceAs (Decidable True)
  | .prevote .. => inferInstanceAs (Decidable True)
  | .precommit .. => inferInstanceAs (Decidable True)
  | .timeout _ => inferInstanceAs (Decidable True)
  | .advanceHeight _ => inferInstanceAs (Decidable True)

theorem bodiesBound_of_carries {b : Block} (hb : b.BodyBound Crates.sample)
    {m₀ m : BftStateMachine Crates.sample} {hist : History Crates.sample}
    (hr : BftRun Crates.sample (fun _ e => Carries b e) m₀ hist m) :
    BftRun Crates.sample BodiesBound m₀ hist m := by
  refine hr.weaken ?_
  intro m e hcarries
  cases e with
  | proposal p block =>
    cases block with
    | none => trivial
    | some b' =>
      intro _
      rw [show b' = b from hcarries]
      exact hb
  | _ => trivial

/-- The block is proposed in round 0. -/
def punctual : List BftEvent :=
  [.startRound ⟨0⟩, .proposal (bodyProposal boundBlock) (some boundBlock)]

/-- Round 0 runs out, and the block is proposed in round 1. -/
def delayed : List BftEvent :=
  [.startRound ⟨0⟩, .timeout ⟨⟨0⟩, ⟨0⟩, .propose⟩, .timeout ⟨⟨0⟩, ⟨0⟩, .prevote⟩,
    .timeout ⟨⟨0⟩, ⟨0⟩, .precommit⟩,
    .proposal { bodyProposal boundBlock with round := ⟨1⟩ } (some boundBlock)]

/-- An observer takes the bound block in round 0 and the validator itself in round 1: what the two
hold under its hash has the same transactions. -/
theorem committed_body_unique_rounds :
    ∃ hist₁ m₁ hist₂ m₂, BftRun Crates.sample BodiesBound bodyStart hist₁ m₁ ∧
      BftRun Crates.sample BodiesBound (new Crates.sample ⟨0⟩ [⟨Crates.sampleKey 1⟩] (some 0)
        TimeoutConfig.default) hist₂ m₂ ∧
      m₁.round = ⟨0⟩ ∧ m₂.round = ⟨1⟩ ∧
      ∃ b₁ b₂, m₁.getCommittedBlock (boundBlock.hash Crates.sample) = some b₁ ∧
        m₂.getCommittedBlock (boundBlock.hash Crates.sample) = some b₂ ∧
        b₁.transactions = b₂.transactions ∧ b₁.transactions ≠ [] := by
  obtain ⟨hist₁, m₁, hr₁, hround₁, hb₁⟩ : ∃ hist₁ m₁,
      BftRun Crates.sample (fun _ e => Carries boundBlock e) bodyStart hist₁ m₁ ∧
        m₁.round = ⟨0⟩ ∧
        m₁.getCommittedBlock (boundBlock.hash Crates.sample) = some boundBlock :=
    Run.exists_of_replay punctual (by decide +kernel)
  obtain ⟨hist₂, m₂, hr₂, hround₂, hb₂⟩ : ∃ hist₂ m₂,
      BftRun Crates.sample (fun _ e => Carries boundBlock e)
          (new Crates.sample ⟨0⟩ [⟨Crates.sampleKey 1⟩] (some 0) TimeoutConfig.default) hist₂ m₂ ∧
        m₂.round = ⟨1⟩ ∧
        m₂.getCommittedBlock (boundBlock.hash Crates.sample) = some boundBlock :=
    Run.exists_of_replay delayed (by decide +kernel)
  have hr₁ := bodiesBound_of_carries boundBlock_bound hr₁
  have hr₂ := bodiesBound_of_carries boundBlock_bound hr₂
  exact ⟨hist₁, m₁, hist₂, m₂, hr₁, hr₂, hround₁, hround₂, boundBlock, boundBlock, hb₁, hb₂,
    committed_body_unique hr₁ hr₂ hb₁ hb₂
      (bodyBlock_encodedApart (by decide +kernel) (Or.inr rfl) (Or.inr rfl)),
    List.cons_ne_nil _ _⟩

/-- **Two bodies under one hash.** An empty block and one with a transaction under the same
header: each is accepted and cached by a node, under one hash. -/
theorem two_bodies :
    let empty := bodyBlock (Bytes.fill 32 0) []
    let full := bodyBlock (Bytes.fill 32 0) [bodyTransaction]
    (∃ hist, BftRun Crates.sample (fun _ _ => True) bodyStart hist (bodyMachine empty)) ∧
      (∃ hist, BftRun Crates.sample (fun _ _ => True) bodyStart hist (bodyMachine full)) ∧
      Block.EncodedApart Crates.sample empty full ∧
      (bodyMachine empty).getCommittedBlock (empty.hash Crates.sample) = some empty ∧
      (bodyMachine full).getCommittedBlock (empty.hash Crates.sample) = some full ∧
      empty.transactions ≠ full.transactions := by
  intro empty full
  refine ⟨bodyMachine_run trivial trivial, bodyMachine_run trivial trivial, ?_,
    bodyMachine_holds empty, bodyMachine_holds full, ?_⟩
  · exact bodyBlock_encodedApart (by decide +kernel) (Or.inl rfl) (Or.inr rfl)
  · simp [empty, full, bodyBlock]

end BftStateMachine

end Trv1Chain
