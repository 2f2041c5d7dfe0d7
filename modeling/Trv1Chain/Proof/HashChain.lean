import Trv1Chain.Proof.InnerRun
import Trv1Chain.Proof.Proposals

/-!
# One hash chain

When every honest node prevotes only blocks that extend its own chain, the headers committed by
the honest nodes form one chain. A commit needs a quorum of precommits, a precommit a quorum of
prevotes, and a quorum has an honest member: it has prevoted a block built on the hash it had
committed one height below, and by agreement that is the hash everybody committed there.

A `Fleet` is a run of the event loop on orderly input for every honest node, tied together by
signatures alone. The order in which the nodes took their turns is left open, so every interleaving
is covered.
-/

set_option autoImplicit false

namespace Trv1Chain

open Lib

/-! ## Fleets -/

open BftStateMachine Node

/-- What the key of an honest node has signed: the votes the node sent, and proposals. -/
def Node.Signed {C : Crates} (hist : NodeHistory C) (msg : List UInt8) : Prop :=
  (∃ v ∈ votesSent (outputs hist),
    msg = Vote.signBytes v.voteType v.height v.round v.blockHash) ∨
  ∃ h r b, msg = proposalMessage h r b

/-- A run of the event loop from genesis for every honest validator. Three things are assumed: fewer
than a third of the validator list is Byzantine; what an honest node takes up is `Orderly`, so in
particular no peer announces a commit; and a vote that verifies under an honest key is one that key
has signed. Beyond that the Byzantine ones and the network do what they like. -/
structure Fleet (C : Crates) where
  validators : List ValidatorId
  byzantine : Finset ValidatorId
  few_byzantine : 3 * (validators.filter (· ∈ byzantine)).length < validators.length
  index : ValidatorId → Option Nat
  signingKey : ValidatorId → Bytes 32
  stateDb : ValidatorId → StateDb
  feeMarket : ValidatorId → FeeMarket
  env : ValidatorId → Env
  hist : ValidatorId → NodeHistory C
  node : ValidatorId → Node C
  run : ∀ k, k ∉ byzantine → NodeRun C Orderly
    ((genesis C validators (index k) (some (signingKey k)) (stateDb k) (feeMarket k)).start
      (env k)).1 (hist k) (node k)
  unforged : ∀ i, i ∉ byzantine → ∀ v, Received (hist i) v → v.verify C = true →
    v.validator ∉ byzantine →
    Signed (hist v.validator) (Vote.signBytes v.voteType v.height v.round v.blockHash)

namespace Fleet

variable {C : Crates}

/-- Every honest node's turns meet the condition on the proposals it prevotes. -/
def OffersExtend (F : Fleet C) : Prop :=
  ∀ k, k ∉ F.byzantine → ∀ τ ∈ F.hist k, τ.before.OffersExtend τ.event.2

/-- The committed headers form one chain: each commit of an honest node is the hash of a header
for that height. Its parent is the zero hash at height 0 and committed by an honest node one
height below otherwise. Whatever any honest node committed at that height is the same hash, and
whatever any committed one height below is the parent. -/
def HashChain (F : Fleet C) : Prop :=
  ∀ i, i ∉ F.byzantine → ∀ h y txs, (h, y, txs) ∈ commits (F.hist i) →
    ∃ b : Block, b.hash C = y ∧ b.header.height = h ∧
      (h = ⟨0⟩ → b.header.parentHash = BlockHash.default) ∧
      (h ≠ ⟨0⟩ → ∃ j, j ∉ F.byzantine ∧ ∃ h' txs',
        (h', b.header.parentHash, txs') ∈ commits (F.hist j) ∧
          h.val.toNat = h'.val.toNat + 1) ∧
      ∀ j, j ∉ F.byzantine → ∀ h' x txs', (h', x, txs') ∈ commits (F.hist j) →
        (h' = h → x = y) ∧ (h.val.toNat = h'.val.toNat + 1 → b.header.parentHash = x)

/-- The network of the machines. -/
def network (F : Fleet C) : Network where
  validators := F.validators
  byzantine := F.byzantine
  few_byzantine := F.few_byzantine
  height _ := ⟨0⟩
  validatorIndex := F.index
  timeoutConfig _ := TimeoutConfig.default

theorem exists_inner (F : Fleet C) (hx : F.OffersExtend) {k : ValidatorId}
    (hk : k ∉ F.byzantine) :
    ∃ inner, Inner (F.network.start C k) (F.hist k) (F.node k) inner := by
  refine inner_of_run ((F.run k hk).restrict fun τ hτ => ?_)
  obtain ⟨-, -, -, ho, -⟩ := (F.run k hk).of_mem hτ
  exact ⟨ho, hx k hk τ hτ⟩

/-- The world of the machines inside the nodes; the Byzantine ones never move. -/
theorem exists_world (F : Fleet C) (hx : F.OffersExtend) :
    ∃ w : World C, F.network.Consistent w ∧ (∀ k, k ∈ F.byzantine → w.log k = []) ∧
      ∀ k, k ∉ F.byzantine → Inner (F.network.start C k) (F.hist k) (F.node k) (w.log k) := by
  classical
  choose inner hinner using fun k (hk : k ∉ F.byzantine) => F.exists_inner hx hk
  let w : World C :=
    { node := fun k => if k ∈ F.byzantine then F.network.start C k else (F.node k).bft
      log := fun k => if hk : k ∈ F.byzantine then [] else inner k hk }
  have hbyz : ∀ k, k ∈ F.byzantine → w.log k = [] := fun k hk => dif_pos hk
  have hhon : ∀ k, k ∉ F.byzantine →
      Inner (F.network.start C k) (F.hist k) (F.node k) (w.log k) := by
    intro k hk
    have hlog : w.log k = inner k hk := dif_neg hk
    rw [hlog]
    exact hinner k hk
  refine ⟨w, ⟨?_, ?_⟩, hbyz, hhon⟩
  · intro u
    by_cases hu : u ∈ F.byzantine
    · have hnode : w.node u = F.network.start C u := if_pos hu
      rw [hbyz u hu, hnode]
      exact .init
    · have hnode : w.node u = (F.node u).bft := if_neg hu
      rw [hnode]
      exact (hhon u hu).founds.run
  · rintro u t v ⟨τ, hτ, hev, -, -⟩ hver hv
    have hu : u ∉ F.byzantine := by
      intro hu
      rw [hbyz u hu] at hτ
      exact absurd hτ (by simp)
    have hrec := (hhon u hu).received τ hτ t v hev
    rcases F.unforged u hu v hrec hver hv with ⟨v', hv', hbytes⟩ | ⟨h, r, b, hbytes⟩
    · obtain ⟨ht, hh, hr, hb⟩ := Vote.signBytes_inj hbytes
      rw [ht, hh, hr, hb]
      exact (hhon v.validator hv).sent v' hv'
    · exact absurd hbytes signBytes_ne_proposalMessage

/-- **One hash chain.** -/
theorem hashChain (F : Fleet C) (hx : F.OffersExtend) : F.HashChain := by
  obtain ⟨w, hw, hbyz, hinner⟩ := F.exists_world hx
  intro i hi h y txs hc
  have hcommit : .commitBlock h y ∈ outputs (w.log i) := ((hinner i hi).commits h y).mpr ⟨txs, hc⟩
  -- an honest validator has prevoted the committed hash
  obtain ⟨r, hpre⟩ := hw.commit_votedBy hcommit
  obtain ⟨u, hu, hprecommit⟩ := hpre.exists_correct
  obtain ⟨k, -, rd, -, hprevote⟩ :=
    ((hw.locking h).precommit_polka u hu r y hprecommit).exists_correct
  have hk : k ∉ F.byzantine := by
    intro hk
    obtain ⟨v, hv, -⟩ := hprevote
    rw [hbyz k hk] at hv
    exact absurd hv (by simp)
  obtain ⟨b, hhash, hheight, hbuilds⟩ := (hinner k hk).founds.founded h rd y hprevote
  refine ⟨b, hhash, hheight, ?_, ?_, ?_⟩
  · rintro rfl
    rcases hbuilds with ⟨-, hparent⟩ | ⟨h', hsucc, -⟩
    · exact hparent
    · exact absurd hsucc (by simp)
  · intro hne
    rcases hbuilds with ⟨hzero, -⟩ | ⟨h', hsucc, hparent⟩
    · exact absurd hzero hne
    · obtain ⟨txs', hmem⟩ := ((hinner k hk).commits h' _).mp hparent
      exact ⟨k, hk, h', txs', hmem, hsucc⟩
  · intro j hj h' x txs' hmem
    have hx' : .commitBlock h' x ∈ outputs (w.log j) :=
      ((hinner j hj).commits h' x).mpr ⟨txs', hmem⟩
    refine ⟨?_, ?_⟩
    · rintro rfl
      exact hw.same_hash hx' hcommit
    · intro hsucc
      rcases hbuilds with ⟨rfl, -⟩ | ⟨h'', hsucc', hparent⟩
      · exact absurd hsucc (by simp)
      · obtain rfl : h'' = h' := by
          have hval : h''.val.toNat = h'.val.toNat := by omega
          cases h''
          cases h'
          exact congrArg Height.mk (UInt64.toNat_inj.mp hval)
        exact hw.same_hash hparent hx'

end Fleet

/-- **Only held, chain-extending blocks are prevoted.** In every run from genesis, on any input, a
turn prevotes only blocks the node holds and that extend its chain exactly when the proposal it
prevotes is one. And a fleet whose honest nodes all keep to that commits one hash chain. -/
theorem prevotes_extend_chain {C : Crates} :
    (∀ {validators : List ValidatorId} {idx : Option Nat} {sk : Option (Bytes 32)} {db : StateDb}
        {fm : FeeMarket} {env : Env} {hist : NodeHistory C} {n : Node C},
      NodeRun C (fun _ _ => True) ((genesis C validators idx sk db fm).start env).1 hist n →
      ∀ τ past, τ :: past <:+ hist →
        ((∀ v ∈ votesSent τ.out, PrevoteHeld τ.after (commits past) v) ↔
          τ.before.OffersExtend τ.event.2)) ∧
      ∀ F : Fleet C, F.OffersExtend → F.HashChain := by
  refine ⟨?_, Fleet.hashChain⟩
  intro validators idx sk db fm env hist n hr τ past hsuf
  obtain ⟨hpast, -, hs⟩ := hr.of_suffix hsuf
  exact (handle_does hs).prevotes_held_iff (linked_of_run hpast)

/-! ## Three honest validators of four -/

/-- An empty block of the second validator. -/
def quadBlock (h : Height) (parent : BlockHash) : Block where
  header := ⟨h, 0, parent, ⟨Crates.sampleKey 2⟩, Bytes.fill 32 0, Bytes.fill 32 0⟩
  transactions := []

def quadFirst : Block := quadBlock ⟨0⟩ BlockHash.default

def quadSecond : Block := quadBlock ⟨1⟩ (quadFirst.hash Crates.sample)

/-- The block is proposed, and the votes of the others come in. -/
def quadDecides (b : Block) (r : Round) (others : List ValidatorId) : List (Env × NodeEvent) :=
  (storedOrder, .network (.proposeBlock (signProposal Crates.sample b.header.height r
    (b.hash Crates.sample) (Crates.sampleKey 2)) (some b))) ::
  [.prevote, .precommit].flatMap fun t => others.map fun k =>
    (storedOrder, .network (.castVote (Vote.new Crates.sample t b.header.height r
      (some (b.hash Crates.sample)) k.asBytes)))

/-- Round 0 runs out. The second validator proposes in round 1, and again at height 1. -/
def quadScript (k : ValidatorId) : List (Env × NodeEvent) :=
  if k ∈ quadKeys then
    [quadTimeout .propose, quadTimeout .prevote, quadTimeout .precommit] ++
      quadDecides quadFirst ⟨1⟩ (quadKeys.erase k) ++
      quadDecides quadSecond ⟨0⟩ (quadKeys.erase k)
  else []

def quadStart (k : ValidatorId) : Node Crates.sample :=
  ((genesis Crates.sample quadKeys (quadKeys.idxOf? k) (some k.asBytes) genesisDb
    ⟨FeeConfig.default, 1⟩).start storedOrder).1

def quadReplay (k : ValidatorId) : NodeHistory Crates.sample × Node Crates.sample :=
  (Run.replay Node.handle (quadStart k) [] (quadScript k)).getD ([], quadStart k)

theorem quadReplay_stranger {k : ValidatorId} (hk : k ∉ quadKeys) :
    quadReplay k = ([], quadStart k) := by
  unfold quadReplay quadScript
  rw [if_neg hk]
  rfl

theorem quadReplay_turns :
    ∀ k ∈ quadKeys, ∀ τ ∈ (quadReplay k).1,
      τ.before.Orderly τ.event ∧ τ.before.OffersExtend τ.event.2 := by
  decide +kernel

theorem quadReplay_run (k : ValidatorId) :
    NodeRun Crates.sample Orderly (quadStart k) (quadReplay k).1 (quadReplay k).2 := by
  by_cases hk : k ∈ quadKeys
  · have ho := fun τ hτ => (quadReplay_turns k hk τ hτ).1
    unfold quadReplay at ho ⊢
    cases hr : Run.replay Node.handle (quadStart k) [] (quadScript k) with
    | none => exact .init
    | some r =>
      rw [hr] at ho
      exact Run.of_replay .init hr ho
  · rw [quadReplay_stranger hk]
    exact .init

/-- Whatever vote of an honest validator a node receives, that validator has sent. -/
theorem quadReplay_sent :
    ∀ i ∈ quadKeys, ∀ τ ∈ (quadReplay i).1, ∀ v ∈ τ.event.2.vote?,
      v.validator ≠ ⟨Crates.sampleKey 2⟩ → ∃ v' ∈ votesSent (outputs (quadReplay v.validator).1),
        v'.voteType = v.voteType ∧ v'.height = v.height ∧ v'.round = v.round ∧
          v'.blockHash = v.blockHash := by
  decide +kernel

def quadFleet : Fleet Crates.sample where
  validators := quadKeys
  byzantine := {⟨Crates.sampleKey 2⟩}
  few_byzantine := by decide
  index := quadKeys.idxOf?
  signingKey k := k.asBytes
  stateDb _ := genesisDb
  feeMarket _ := ⟨FeeConfig.default, 1⟩
  env _ := storedOrder
  hist k := (quadReplay k).1
  node k := (quadReplay k).2
  run k _ := quadReplay_run k
  unforged := by
    rintro i - v ⟨τ, hτ, hev⟩ - hv
    have hi : i ∈ quadKeys := by
      by_contra hi
      rw [quadReplay_stranger hi] at hτ
      exact absurd hτ (by simp)
    obtain ⟨v', hv', ht, hh, hr, hb⟩ := quadReplay_sent i hi τ hτ v (by rw [hev]; rfl)
      (by simpa using hv)
    exact Or.inl ⟨v', hv', by rw [ht, hh, hr, hb]⟩

theorem quadFleet_offersExtend : quadFleet.OffersExtend := by
  intro k _ τ hτ
  have hτ : τ ∈ (quadReplay k).1 := hτ
  by_cases hk : k ∈ quadKeys
  · exact (quadReplay_turns k hk τ hτ).2
  · rw [quadReplay_stranger hk] at hτ
    exact absurd hτ (by simp)

/-- Two heights are decided, by prevotes for held blocks, and the second block names the first. -/
theorem prevotes_extend_chain_quad :
    (commits (quadFleet.hist ⟨Crates.sampleKey 1⟩)).map (fun c => (c.1, c.2.1)) =
        [(⟨0⟩, quadFirst.hash Crates.sample), (⟨1⟩, quadSecond.hash Crates.sample)] ∧
      (∀ k ∈ quadKeys, ∀ τ past, τ :: past <:+ quadFleet.hist k →
        ∀ v ∈ votesSent τ.out, PrevoteHeld τ.after (commits past) v) ∧
      quadFleet.HashChain := by
  refine ⟨by decide +kernel, ?_, prevotes_extend_chain.2 quadFleet quadFleet_offersExtend⟩
  intro k hk τ past hsuf
  have hr : NodeRun Crates.sample (fun _ _ => True) (quadStart k) (quadReplay k).1
      (quadReplay k).2 := (quadReplay_run k).weaken fun _ _ _ => trivial
  exact (prevotes_extend_chain.1 hr τ past hsuf).mpr
    (quadReplay_turns k hk τ (hsuf.subset List.mem_cons_self)).2

/-- A block for another height, by another proposer, on another chain. -/
def quadStray : Block where
  header := ⟨⟨9⟩, 0, quadHash, ⟨Crates.sampleKey 3⟩, Bytes.fill 32 0, Bytes.fill 32 0⟩
  transactions := []

/-- What the first validator, the proposer of round 0, sends. -/
def quadOffer (x : BlockHash) (block : Option Block) : Env × NodeEvent :=
  (storedOrder, .network (.proposeBlock (signProposal Crates.sample ⟨0⟩ ⟨0⟩ x
    (Crates.sampleKey 1)) block))

/-- **Blind prevotes.** The second validator prevotes a hash without any block, and a block whose
header has another height, another proposer and an unknown parent. -/
theorem blind_prevotes :
    (∃ hist n, NodeRun Crates.sample (fun _ _ => True) quadLaunch.1 hist n ∧
      ∃ v ∈ votesSent (outputs hist), v.voteType = .prevote ∧ v.blockHash = some quadHash ∧
        n.bft.proposedBlocks.lookup quadHash = none) ∧
    ∃ hist n, NodeRun Crates.sample (fun _ _ => True) quadLaunch.1 hist n ∧
      ∃ v ∈ votesSent (outputs hist), v.voteType = .prevote ∧ v.height = ⟨0⟩ ∧
        v.blockHash = some (quadStray.hash Crates.sample) ∧
        (n.bft.proposedBlocks.lookup (quadStray.hash Crates.sample)).map
            (fun b => (b.header.height, b.header.proposer, b.header.parentHash)) =
          some (⟨9⟩, ⟨Crates.sampleKey 3⟩, quadHash) ∧
        quadKeys[n.bft.proposerIndex ⟨0⟩ ⟨0⟩]? = some ⟨Crates.sampleKey 1⟩ ∧
        n.lastBlockHash = BlockHash.default := by
  constructor
  · exact ⟨_, _, Run.single (e := quadOffer quadHash none) trivial (by decide +kernel),
      by decide +kernel⟩
  · exact ⟨_, _, Run.single (e := quadOffer (quadStray.hash Crates.sample) (some quadStray)) trivial
      (by decide +kernel), by decide +kernel⟩

end Trv1Chain
