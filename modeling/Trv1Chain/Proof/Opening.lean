import Trv1Chain.Bft.Moves
import Trv1Chain.Validator.Cluster

/-!
# A machine in the opening round

A node counts the votes it receives, and it receives every vote but its own: it neither hands its
own votes to its vote sets nor gets them back from the network. The proposer moreover throws its
prevote away.

This module follows one machine through round 0 of a height without faults. An `Opening` is the
round with its proposal. `InRound` is what a machine looks like until it commits, kept by each of
the three messages it can be handed: whom it has counted, and what it has not reached.
-/

set_option autoImplicit false

namespace Trv1Chain

open Lib

variable {C : Crates} {n : Nat}

/-- Round 0 of a height in a cluster, and its proposal. -/
structure Opening (C : Crates) (n : Nat) where
  keys : Fin n → Bytes 32
  height : Height
  leader : Fin n
  /-- The proposer of the height after. -/
  next : Fin n
  proposal : Proposal
  block : Block
  distinct : Function.Injective fun i => C.verifyingKey (keys i)
  leader_val : leader.val = (height.val + (0 : UInt32).toUInt64).toNat % n
  next_val : next.val = (height.val + 1 + (0 : UInt32).toUInt64).toNat % n
  proposal_height : proposal.height = height
  proposal_round : proposal.round = ⟨0⟩
  proposal_proposer : proposal.proposer = ⟨C.verifyingKey (keys leader)⟩
  block_hash : block.hash C = proposal.blockHash

namespace Opening

variable (S : Opening C n)

def idOf (j : Fin n) : ValidatorId := ⟨C.verifyingKey (S.keys j)⟩

/-- The vote of `j` for the proposed block, as the loop signs it. -/
def ballot (t : VoteType) (j : Fin n) : Vote :=
  signVote C t S.height ⟨0⟩ (some S.proposal.blockHash) (S.keys j)

/-- Who a machine has counted for the proposed block. -/
def prevoters (m : BftStateMachine C) : Finset ValidatorId :=
  m.roundState.prevotes.voters (some S.proposal.blockHash)

def precommitters (m : BftStateMachine C) : Finset ValidatorId :=
  m.roundState.precommits.voters (some S.proposal.blockHash)

variable {S}

theorem idOf_injective : Function.Injective S.idOf := by
  intro i j h
  exact S.distinct (ValidatorId.mk.inj h)

/-- Voters that are members of `T` are no more than `T`. -/
theorem card_le_of_forall {V : Finset ValidatorId} {T : Finset (Fin n)}
    (h : ∀ k ∈ V, ∃ j ∈ T, k = S.idOf j) : V.card ≤ T.card := by
  calc V.card ≤ (T.image S.idOf).card := by
        apply Finset.card_le_card
        intro k hk
        obtain ⟨j, hj, rfl⟩ := h k hk
        exact Finset.mem_image_of_mem _ hj
    _ ≤ T.card := Finset.card_image_le

theorem le_card_of_forall {V : Finset ValidatorId} {T : Finset (Fin n)}
    (h : ∀ j ∈ T, S.idOf j ∈ V) : T.card ≤ V.card := by
  rw [← Finset.card_image_of_injective T S.idOf_injective]
  apply Finset.card_le_card
  intro k hk
  obtain ⟨j, hj, rfl⟩ := Finset.mem_image.mp hk
  exact h j hj

theorem card_followers {i : Fin n} (hi : i ≠ S.leader) :
    ((Finset.univ.erase S.leader).erase i).card = n - 2 := by
  rw [Finset.card_erase_of_mem (Finset.mem_erase.mpr ⟨hi, Finset.mem_univ i⟩),
    Finset.card_erase_of_mem (Finset.mem_univ _), Finset.card_univ, Fintype.card_fin]
  omega

/-! ## A vote set of the round -/

variable (S) in
/-- A set of the round's votes of one type, all of them for the proposed block. -/
structure Tallies (t : VoteType) (s : VoteSet C) : Prop where
  voteType : s.voteType = t
  height : s.height = S.height
  round : s.round = ⟨0⟩
  total : s.totalValidators = n
  unanimous : s.Unanimous S.proposal.blockHash

theorem tallies_new (t : VoteType) : S.Tallies t (VoteSet.new C t S.height ⟨0⟩ n) :=
  ⟨rfl, rfl, rfl, rfl, VoteSet.unanimous_new _ _ _ _ _⟩

theorem Tallies.addVote (hC : C.SignatureCorrect) {t : VoteType} {s : VoteSet C}
    (h : S.Tallies t s) (j : Fin n) :
    S.Tallies t (s.addVote (S.ballot t j)).1 ∧
      (s.addVote (S.ballot t j)).1.voters (some S.proposal.blockHash) =
        insert (S.idOf j) (s.voters (some S.proposal.blockHash)) := by
  obtain ⟨hun, hvoters⟩ := h.unanimous.addVote (v := S.ballot t j) h.voteType.symm h.height.symm
    h.round.symm (Vote.verify_new hC _ _ _ _ _) rfl
  refine ⟨⟨?_, ?_, ?_, ?_, hun⟩, hvoters⟩
  · rw [VoteSet.addVote_voteType, h.voteType]
  · rw [VoteSet.addVote_height, h.height]
  · rw [VoteSet.addVote_round, h.round]
  · rw [VoteSet.addVote_totalValidators, h.total]

/-! ## A machine of the round -/

variable (S) in
/-- Node `i`'s machine in round 0, before it commits, when only the nodes in `V` precommit. It has
counted prevotes of followers and precommits of `V`, and never its own. -/
structure InRound (V : Finset (Fin n)) (i : Fin n) (m : BftStateMachine C) : Prop where
  height : m.height = S.height
  round : m.round = ⟨0⟩
  validators : m.validators = validatorIds C S.keys
  index : m.validatorIndex = some i.val
  prevotes : S.Tallies .prevote m.roundState.prevotes
  precommits : S.Tallies .precommit m.roundState.precommits
  steps : m.step = .propose ∨ m.step = .prevote ∨ m.step = .precommit
  waiting : m.step = .propose → m.lockedValue = none ∧ i ≠ S.leader ∧ S.prevoters m = ∅
  prevoting : m.step = .prevote → 3 * (S.prevoters m).card ≤ 2 * n
  precommitted : m.step = .precommit → i ∈ V ∧ 2 * n < 3 * (S.prevoters m).card
  uncommitted : 3 * (S.precommitters m).card ≤ 2 * n
  from_followers : ∀ k ∈ S.prevoters m, ∃ j, j ≠ S.leader ∧ j ≠ i ∧ k = S.idOf j
  from_precommitted : ∀ k ∈ S.precommitters m, ∃ j ∈ V, j ≠ i ∧ k = S.idOf j

variable {V : Finset (Fin n)}

variable (S) in
/-- Node `i`'s machine in round 0 before it has counted a vote. -/
structure Blank (i : Fin n) (m : BftStateMachine C) : Prop where
  height : m.height = S.height
  round : m.round = ⟨0⟩
  validators : m.validators = validatorIds C S.keys
  index : m.validatorIndex = some i.val
  prevotes : m.roundState.prevotes = VoteSet.new C .prevote S.height ⟨0⟩ n
  precommits : m.roundState.precommits = VoteSet.new C .precommit S.height ⟨0⟩ n

theorem Blank.prevoters {i : Fin n} {m : BftStateMachine C} (h : S.Blank i m) :
    S.prevoters m = ∅ := by
  unfold Opening.prevoters
  rw [h.prevotes]
  rfl

theorem Blank.precommitters {i : Fin n} {m : BftStateMachine C} (h : S.Blank i m) :
    S.precommitters m = ∅ := by
  unfold Opening.precommitters
  rw [h.precommits]
  rfl

theorem Blank.inRound {i : Fin n} {m : BftStateMachine C} (h : S.Blank i m)
    (hstep : m.step = .propose ∧ m.lockedValue = none ∧ i ≠ S.leader ∨ m.step = .prevote) :
    S.InRound V i m := by
  constructor
  case height => exact h.height
  case round => exact h.round
  case validators => exact h.validators
  case index => exact h.index
  case prevotes => rw [h.prevotes]; exact tallies_new .prevote
  case precommits => rw [h.precommits]; exact tallies_new .precommit
  case steps => exact hstep.imp (fun h => h.1) Or.inl
  case waiting =>
    intro hs
    rcases hstep with ⟨-, hl, hlead⟩ | hs'
    · exact ⟨hl, hlead, h.prevoters⟩
    · rw [hs'] at hs; cases hs
  case prevoting => intro _; rw [h.prevoters]; simp
  case precommitted =>
    intro hs
    rcases hstep with ⟨hs', -⟩ | hs'
    · rw [hs'] at hs; cases hs
    · rw [hs'] at hs; cases hs
  case uncommitted => rw [h.precommitters]; simp
  case from_followers => rw [h.prevoters]; simp
  case from_precommitted => rw [h.precommitters]; simp

/-- An answer that sends nothing: at most a timer. -/
def Silent (out : List ConsensusMessage) : Prop := out = [] ∨ ∃ te, out = [.scheduleTimeout te]

/-- The proposal passes every check of a machine that waits for it. -/
theorem accepts {m : BftStateMachine C} (hh : m.height = S.height) (hr : m.round = ⟨0⟩)
    (hs : m.step = .propose) (hv : m.validators = validatorIds C S.keys) :
    m.Accepts S.proposal (some S.block) := by
  refine ⟨?_, ?_, hs, ?_, ?_⟩
  · rw [S.proposal_height, hh]
  · rw [S.proposal_round, hr]
  · have hlen : (validatorIds C S.keys).length = n := List.length_ofFn
    have hn : n ≠ 0 := Nat.ne_of_gt (Nat.lt_of_le_of_lt (Nat.zero_le _) S.leader.isLt)
    unfold BftStateMachine.proposerIndex
    rw [hv, hlen, if_neg hn, hh, hr, ← S.leader_val, S.proposal_proposer]
    simp [validatorIds]
  · intro b hb
    rw [← Option.mem_some_iff.mp hb]
    exact S.block_hash

/-- A machine that waits takes the proposal, and votes for it. -/
theorem onProposal_fresh {m : BftStateMachine C} (hh : m.height = S.height)
    (hr : m.round = ⟨0⟩) (hs : m.step = .propose) (hv : m.validators = validatorIds C S.keys)
    (hl : m.lockedValue = none) :
    ∃ m' v, m.onProposal S.proposal (some S.block) = (m', [.castVote v]) ∧
      v.voteType = .prevote ∧ v.height = S.height ∧ v.round = ⟨0⟩ ∧
      v.blockHash = some S.proposal.blockHash ∧ m'.step = .prevote ∧ m'.height = m.height ∧
      m'.round = m.round ∧ m'.validators = m.validators ∧ m'.validatorIndex = m.validatorIndex ∧
      m'.roundState.prevotes = m.roundState.prevotes ∧
      m'.roundState.precommits = m.roundState.precommits := by
  rw [BftStateMachine.onProposal_eq, if_pos (accepts hh hr hs hv)]
  refine ⟨_, _, rfl, rfl, hh, hr, ?_, rfl, rfl, rfl, rfl, rfl, rfl, rfl⟩
  show BftStateMachine.decidePrevote _ S.proposal = _
  rw [BftStateMachine.cacheBlock_decidePrevote]
  unfold BftStateMachine.decidePrevote
  rw [hl]

theorem InRound.onProposal {i : Fin n} {m : BftStateMachine C} (h : S.InRound V i m)
    (hs : m.step = .propose) :
    ∃ m' v, m.onProposal S.proposal (some S.block) = (m', [.castVote v]) ∧
      v.voteType = .prevote ∧ v.height = S.height ∧ v.round = ⟨0⟩ ∧
      v.blockHash = some S.proposal.blockHash ∧ S.InRound V i m' ∧ m'.step = .prevote ∧
      S.prevoters m' = S.prevoters m ∧ S.precommitters m' = S.precommitters m := by
  obtain ⟨hlock, hlead, hnone⟩ := h.waiting hs
  obtain ⟨m', v, heq, ht, hvh, hvr, hvb, hs', hh', hr', hv', hi', hpre, hcom⟩ :=
    onProposal_fresh h.height h.round hs h.validators hlock
  have hprevoters : S.prevoters m' = S.prevoters m := by unfold prevoters; rw [hpre]
  have hprecommitters : S.precommitters m' = S.precommitters m := by
    unfold precommitters; rw [hcom]
  refine ⟨m', v, heq, ht, hvh, hvr, hvb, ?_, hs', hprevoters, hprecommitters⟩
  constructor
  case height => rw [hh', h.height]
  case round => rw [hr', h.round]
  case validators => rw [hv', h.validators]
  case index => rw [hi', h.index]
  case prevotes => rw [hpre]; exact h.prevotes
  case precommits => rw [hcom]; exact h.precommits
  case steps => exact Or.inr (Or.inl hs')
  case waiting => intro hp; rw [hs'] at hp; cases hp
  case prevoting => intro _; rw [hprevoters, hnone]; simp
  case precommitted => intro hp; rw [hs'] at hp; cases hp
  case uncommitted => rw [hprecommitters]; exact h.uncommitted
  case from_followers => rw [hprevoters]; exact h.from_followers
  case from_precommitted => rw [hprecommitters]; exact h.from_precommitted

theorem onProposal_ignored {m : BftStateMachine C}
    (h : m.height ≠ S.height ∨ m.step ≠ .propose) :
    m.onProposal S.proposal (some S.block) = (m, []) := by
  rw [BftStateMachine.onProposal_eq, if_neg]
  rintro ⟨hh, -, hs, -⟩
  rcases h with h | h
  · exact h (hh.symm.trans S.proposal_height)
  · exact h hs

/-! ## Prevotes -/

/-- The machine once a prevote is counted, apart from what the count leads to. -/
theorem InRound.counted {i j : Fin n} {m : BftStateMachine C} (h : S.InRound V i m)
    (hC : C.SignatureCorrect) (hlead : j ≠ S.leader) (hij : j ≠ i) :
    S.Tallies .prevote (m.addPrevote (S.ballot .prevote j)).roundState.prevotes ∧
      S.prevoters (m.addPrevote (S.ballot .prevote j)) = insert (S.idOf j) (S.prevoters m) ∧
      ∀ k ∈ insert (S.idOf j) (S.prevoters m), ∃ j, j ≠ S.leader ∧ j ≠ i ∧ k = S.idOf j := by
  obtain ⟨htally, hvoters⟩ := h.prevotes.addVote hC j
  refine ⟨htally, hvoters, ?_⟩
  intro k hk
  rcases Finset.mem_insert.mp hk with rfl | hk
  · exact ⟨j, hlead, hij, rfl⟩
  · exact h.from_followers k hk

/-- A follower counts at most the other followers. -/
theorem card_prevoters_le {i : Fin n} {T : Finset ValidatorId} (hi : i ≠ S.leader)
    (hT : ∀ k ∈ T, ∃ j, j ≠ S.leader ∧ j ≠ i ∧ k = S.idOf j) : T.card ≤ n - 2 := by
  rw [← card_followers hi]
  apply card_le_of_forall
  intro k hk
  obtain ⟨j, hj, hji, rfl⟩ := hT k hk
  exact ⟨j, by simp [hj, hji], rfl⟩

/-- **A prevote is counted, and at a quorum answered with a precommit.** A node outside `V` is
handed prevotes only in a cluster so small that they are never a quorum. -/
theorem InRound.onPrevote {i j : Fin n} {m : BftStateMachine C} (h : S.InRound V i m)
    (hC : C.SignatureCorrect) (hlead : j ≠ S.leader) (hij : j ≠ i) (hstep : m.step ≠ .propose)
    (hsafe : i ∈ V ∨ i ≠ S.leader ∧ 3 * (n - 2) ≤ 2 * n) (it : CountOrder) :
    ∃ m' out, m.onPrevote it (S.ballot .prevote j) = (m', out) ∧ S.InRound V i m' ∧
      m'.step ≠ .propose ∧ S.prevoters m' = insert (S.idOf j) (S.prevoters m) ∧
      S.precommitters m' = S.precommitters m ∧
      (m'.step = m.step ∧ Silent out ∨
        i ∈ V ∧ m'.step = .precommit ∧
          ∃ k s, out = [m.precommitFor (some S.proposal.blockHash) k s]) := by
  obtain ⟨htally, hvoters, hfrom⟩ := h.counted hC hlead hij
  have htotal := htally.total
  unfold BftStateMachine.onPrevote
  rw [if_neg (by simp [ballot, signVote, Vote.new, h.height, h.round]),
    if_neg (by simp [ballot, signVote, Vote.new])]
  dsimp only
  rcases h.steps with hs | hs | hs
  · exact absurd hs hstep
  · -- in the prevote step a quorum locks, and no quorum for nil can come about
    have hs' : (m.addPrevote (S.ballot .prevote j)).step = .prevote := hs
    rw [hs']
    dsimp only
    cases hq : (m.addPrevote (S.ballot .prevote j)).roundState.prevotes.quorumBlock it with
    | some b =>
      obtain ⟨rfl, hcard⟩ := htally.unanimous.quorumBlock_some hq
      rw [htotal] at hcard
      have hV : i ∈ V := by
        rcases hsafe with hV | ⟨hi, hsmall⟩
        · exact hV
        · have hle := card_prevoters_le hi hfrom
          rw [← hvoters] at hle
          unfold prevoters at hle
          omega
      refine ⟨_, _, rfl, ?_, by simp [BftStateMachine.lockOn], hvoters, rfl,
        Or.inr ⟨hV, rfl, _, _, rfl⟩⟩
      exact ⟨h.height, h.round, h.validators, h.index, htally, h.precommits,
        Or.inr (Or.inr rfl), (fun hp => by cases hp), (fun hp => by cases hp),
        fun _ => ⟨hV, hcard⟩, h.uncommitted, fun k hk => hfrom k (hvoters ▸ hk),
        h.from_precommitted⟩
    | none =>
      have hshort := VoteSet.quorumBlock_none_card hq S.proposal.blockHash
      rw [htotal] at hshort
      have hprev : m.step ≠ .precommit := by rw [hs]; simp
      have hin : S.InRound V i (m.addPrevote (S.ballot .prevote j)) :=
        ⟨h.height, h.round, h.validators, h.index, htally, h.precommits, h.steps,
          (fun hp => absurd hp hstep), (fun _ => hshort), (fun hp => absurd hp hprev),
          h.uncommitted, fun k hk => hfrom k (hvoters ▸ hk), h.from_precommitted⟩
      dsimp only
      rw [htally.unanimous.hasQuorumForNil, if_neg (by simp)]
      split
      · exact ⟨_, _, rfl, hin, hstep, hvoters, rfl, Or.inl ⟨rfl, Or.inr ⟨_, rfl⟩⟩⟩
      · exact ⟨_, _, rfl, hin, hstep, hvoters, rfl, Or.inl ⟨rfl, Or.inl rfl⟩⟩
  · have hs' : (m.addPrevote (S.ballot .prevote j)).step = .precommit := hs
    rw [hs']
    have hprev : m.step ≠ .prevote := by rw [hs]; simp
    have hmore : i ∈ V ∧
        2 * n < 3 * (S.prevoters (m.addPrevote (S.ballot .prevote j))).card := by
      obtain ⟨hV, hcard⟩ := h.precommitted hs
      have hle := Finset.card_le_card (Finset.subset_insert (S.idOf j) (S.prevoters m))
      rw [← hvoters] at hle
      exact ⟨hV, by omega⟩
    have hin : S.InRound V i (m.addPrevote (S.ballot .prevote j)) :=
      ⟨h.height, h.round, h.validators, h.index, htally, h.precommits, h.steps,
        (fun hp => absurd hp hstep), (fun hp => absurd hp hprev), (fun _ => hmore),
        h.uncommitted, fun k hk => hfrom k (hvoters ▸ hk), h.from_precommitted⟩
    dsimp only
    cases (m.addPrevote (S.ballot .prevote j)).roundState.prevotes.quorumBlock it with
    | some b =>
      refine ⟨_, _, rfl, ?_, by simp, hvoters, rfl, Or.inl ⟨hs.symm, Or.inl rfl⟩⟩
      exact ⟨hin.height, hin.round, hin.validators, hin.index, hin.prevotes, hin.precommits,
        Or.inr (Or.inr rfl), (fun hp => by cases hp), (fun hp => by cases hp),
        (fun _ => hmore), hin.uncommitted, hin.from_followers, hin.from_precommitted⟩
    | none => exact ⟨_, _, rfl, hin, hstep, hvoters, rfl, Or.inl ⟨rfl, Or.inl rfl⟩⟩

/-! ## Precommits -/

/-- **A precommit is counted, and at a quorum the machine commits.** -/
theorem InRound.onPrecommit {i j : Fin n} {m : BftStateMachine C} (h : S.InRound V i m)
    (hC : C.SignatureCorrect) (hj : j ∈ V) (hij : j ≠ i) (it : CountOrder) :
    (∃ m' out, m.onPrecommit it (S.ballot .precommit j) = (m', out) ∧ S.InRound V i m' ∧
      m'.step = m.step ∧ S.prevoters m' = S.prevoters m ∧
      S.precommitters m' = insert (S.idOf j) (S.precommitters m) ∧ Silent out) ∨
    (2 * n < 3 * (insert (S.idOf j) (S.precommitters m)).card ∧
      ∃ m', m.onPrecommit it (S.ballot .precommit j) =
        (m', [.commitBlock S.height S.proposal.blockHash]) ∧
      m'.validators = m.validators ∧ m'.validatorIndex = m.validatorIndex) := by
  obtain ⟨htally, hvoters⟩ :
      S.Tallies .precommit (m.addPrecommit (S.ballot .precommit j)).roundState.precommits ∧
        S.precommitters (m.addPrecommit (S.ballot .precommit j)) =
          insert (S.idOf j) (S.precommitters m) := h.precommits.addVote hC j
  have htotal := htally.total
  have hfrom : ∀ k ∈ insert (S.idOf j) (S.precommitters m),
      ∃ j ∈ V, j ≠ i ∧ k = S.idOf j := by
    intro k hk
    rcases Finset.mem_insert.mp hk with rfl | hk
    · exact ⟨j, hj, hij, rfl⟩
    · exact h.from_precommitted k hk
  unfold BftStateMachine.onPrecommit
  rw [if_neg (by simp [ballot, signVote, Vote.new, h.height, h.round]),
    if_neg (by simp [ballot, signVote, Vote.new])]
  dsimp only
  cases hq : (m.addPrecommit (S.ballot .precommit j)).roundState.precommits.quorumBlock it with
  | some b =>
    right
    obtain ⟨rfl, hcard⟩ := htally.unanimous.quorumBlock_some hq
    rw [htotal] at hcard
    have hstep : (m.addPrecommit (S.ballot .precommit j)).step ≠ .commit := by
      show m.step ≠ .commit
      rcases h.steps with hs | hs | hs <;> rw [hs] <;> simp
    refine ⟨by rw [← hvoters]; exact hcard,
      { m.addPrecommit (S.ballot .precommit j) with step := .commit }, ?_, rfl, rfl⟩
    dsimp only
    rw [if_pos hstep]
    show (_, [ConsensusMessage.commitBlock m.height _]) = _
    rw [h.height]
  | none =>
    left
    have hshort := VoteSet.quorumBlock_none_card hq S.proposal.blockHash
    rw [htotal] at hshort
    have hin : S.InRound V i (m.addPrecommit (S.ballot .precommit j)) :=
      ⟨h.height, h.round, h.validators, h.index, h.prevotes, htally, h.steps, h.waiting,
        h.prevoting, h.precommitted, hshort, h.from_followers,
        fun k hk => hfrom k (hvoters ▸ hk)⟩
    dsimp only
    split
    · exact ⟨_, _, rfl, hin, rfl, rfl, hvoters, Or.inr ⟨_, rfl⟩⟩
    · exact ⟨_, _, rfl, hin, rfl, rfl, hvoters, Or.inl rfl⟩

theorem onVote_ignored {m : BftStateMachine C} (h : m.height ≠ S.height) (j : Fin n)
    (it : CountOrder) :
    m.onPrevote it (S.ballot .prevote j) = (m, []) ∧
      m.onPrecommit it (S.ballot .precommit j) = (m, []) := by
  have hvote : ∀ t, (S.ballot t j).height ≠ m.height ∨ (S.ballot t j).round ≠ m.round :=
    fun t => Or.inl (Ne.symm h)
  unfold BftStateMachine.onPrevote BftStateMachine.onPrecommit
  rw [if_pos (hvote _), if_pos (hvote _)]
  exact ⟨rfl, rfl⟩

end Opening

end Trv1Chain
