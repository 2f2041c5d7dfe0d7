import Trv1Chain.Bft.Moves
import Trv1Chain.Lib.Run

/-!
# What the vote sets hold, and where it came from

A run of the state machine and the votes it was handed. The vote sets of the current round are
filled from the network, call by call, and `start_round` throws them away; `SetsOk` is the
invariant that ties what they hold to the history: each stored vote was handed to the matching
handler while the machine was at the vote's own height and round.

`Certificate` is what a quorum in a set then means, once the signers are known to be validators:
more than two thirds of the validator list, each with a signed vote for this very hash.
-/

set_option autoImplicit false

namespace Trv1Chain

open Lib

/-- The vote a call carries, with the handler it is for. -/
def BftEvent.vote? : BftEvent → Option (VoteType × Vote)
  | .prevote _ v => some (.prevote, v)
  | .precommit _ v => some (.precommit, v)
  | _ => none

namespace BftStateMachine

variable {C : Crates}

abbrev History (C : Crates) := List (Turn (BftStateMachine C) BftEvent ConsensusMessage)

abbrev BftRun (C : Crates) (G : BftStateMachine C → BftEvent → Prop) (m₀ : BftStateMachine C) :
    History C → BftStateMachine C → Prop := Run handle G m₀

/-- `v` was handed to the handler for votes of type `t` while the machine was at `v`'s height and
round. -/
def Delivered (hist : History C) (t : VoteType) (v : Vote) : Prop :=
  ∃ τ ∈ hist, τ.event.vote? = some (t, v) ∧ v.height = τ.before.height ∧ v.round = τ.before.round

theorem Delivered.mono {hist hist' : History C} {t : VoteType} {v : Vote} (hsub : hist ⊆ hist')
    (h : Delivered hist t v) : Delivered hist' t v :=
  let ⟨τ, hτ, rest⟩ := h
  ⟨τ, hsub hτ, rest⟩

/-- A signed vote of type `t` for `b` at `(height, round)` by `k` was delivered. -/
def SignedVote (hist : History C) (t : VoteType) (height : Height) (round : Round)
    (b : Option BlockHash) (k : ValidatorId) : Prop :=
  ∃ v, Delivered hist t v ∧ v.validator = k ∧ v.verify C = true ∧
    v.voteType = t ∧ v.height = height ∧ v.round = round ∧ v.blockHash = b

theorem SignedVote.mono {hist hist' : History C} {t : VoteType} {height : Height} {round : Round}
    {b : Option BlockHash} {k : ValidatorId} (hsub : hist ⊆ hist')
    (h : SignedVote hist t height round b k) : SignedVote hist' t height round b k :=
  let ⟨v, hd, rest⟩ := h
  ⟨v, hd.mono hsub, rest⟩

/-- More than two thirds of the validator list, each with a signed vote for `b` delivered. -/
def Certificate (hist : History C) (validators : List ValidatorId) (t : VoteType)
    (height : Height) (round : Round) (b : BlockHash) : Prop :=
  ∃ Q : Finset ValidatorId, 2 * validators.length < 3 * Q.card ∧
    ∀ k ∈ Q, k ∈ validators ∧ SignedVote hist t height round (some b) k

theorem Certificate.mono {hist hist' : History C} {validators : List ValidatorId} {t : VoteType}
    {height : Height} {round : Round} {b : BlockHash} (hsub : hist ⊆ hist')
    (h : Certificate hist validators t height round b) :
    Certificate hist' validators t height round b :=
  let ⟨Q, hcard, hQ⟩ := h
  ⟨Q, hcard, fun k hk => ⟨(hQ k hk).1, (hQ k hk).2.mono hsub⟩⟩

/-! ## A vote set and its history -/

/-- A set of votes of type `t` for `(height, round)` counted against `total`, all of whose votes
were delivered. -/
structure Tracks (s : VoteSet C) (t : VoteType) (height : Height) (round : Round) (total : Nat)
    (hist : History C) : Prop where
  voteType : s.voteType = t
  height : s.height = height
  round : s.round = round
  total : s.totalValidators = total
  delivered : ∀ e ∈ s.votes.entries, Delivered hist t e.2

theorem Tracks.fresh (t : VoteType) (height : Height) (round : Round) (total : Nat)
    (hist : History C) : Tracks (VoteSet.new C t height round total) t height round total hist :=
  ⟨rfl, rfl, rfl, rfl, fun _ he => absurd he (by simp [VoteSet.new])⟩

theorem Tracks.mono {s : VoteSet C} {t : VoteType} {height : Height} {round : Round} {total : Nat}
    {hist hist' : History C} (hsub : hist ⊆ hist') (h : Tracks s t height round total hist) :
    Tracks s t height round total hist' :=
  { h with delivered := fun e he => (h.delivered e he).mono hsub }

theorem Tracks.addVote {s : VoteSet C} {t : VoteType} {height : Height} {round : Round}
    {total : Nat} {hist : History C} {v : Vote} (h : Tracks s t height round total hist)
    (hv : Delivered hist t v) : Tracks (s.addVote v).1 t height round total hist where
  voteType := by rw [VoteSet.addVote_voteType, h.voteType]
  height := by rw [VoteSet.addVote_height, h.height]
  round := by rw [VoteSet.addVote_round, h.round]
  total := by rw [VoteSet.addVote_totalValidators, h.total]
  delivered := by
    intro e he
    rcases VoteSet.mem_addVote he with he | he
    · exact h.delivered e he
    · rw [he]; exact hv

theorem Tracks.signedVote {s : VoteSet C} {t : VoteType} {height : Height} {round : Round}
    {total : Nat} {hist : History C} (h : Tracks s t height round total hist)
    {b : Option BlockHash} {k : ValidatorId} (hk : k ∈ s.voters b) :
    SignedVote hist t height round b k := by
  obtain ⟨v, hmem, hb⟩ := VoteSet.mem_voters.mp hk
  obtain ⟨ht, hh, hr, hver, hkey⟩ := s.admitted _ hmem
  refine ⟨v, h.delivered _ hmem, ?_, hver, ?_, ?_, ?_, hb⟩
  · cases hv : v.validator with
    | mk bytes => rw [hv] at hkey; cases k; exact congrArg ValidatorId.mk hkey
  · rw [ht, h.voteType]
  · rw [hh, h.height]
  · rw [hr, h.round]

/-- **A quorum of validators is a certificate.** -/
theorem Tracks.certificate {s : VoteSet C} {t : VoteType} {height : Height} {round : Round}
    {validators : List ValidatorId} {hist : History C}
    (h : Tracks s t height round validators.length hist) {b : BlockHash} {it : CountOrder}
    (hq : s.quorumBlock it = some b)
    (hmem : ∀ k, SignedVote hist t height round (some b) k → k ∈ validators) :
    Certificate hist validators t height round b := by
  refine ⟨s.voters (some b), ?_, fun k hk => ⟨hmem k (h.signedVote hk), h.signedVote hk⟩⟩
  have := VoteSet.isQuorum_countFor.mp (VoteSet.quorumBlock_some hq)
  rwa [h.total] at this

/-! ## The invariant of a run -/

/-- Both vote sets of the machine are for its current height and round, counted against its
validator list, and hold delivered votes only. -/
structure SetsOk (hist : History C) (m : BftStateMachine C) : Prop where
  prevotes : Tracks m.roundState.prevotes .prevote m.height m.round m.validators.length hist
  precommits : Tracks m.roundState.precommits .precommit m.height m.round m.validators.length hist

theorem SetsOk.fresh (hist : History C) {m : BftStateMachine C}
    (h : m.roundState = RoundState.new C m.round m.height m.validators.length) :
    SetsOk hist m := by
  constructor
  · rw [h]; exact Tracks.fresh ..
  · rw [h]; exact Tracks.fresh ..

theorem SetsOk.mono {hist hist' : History C} {m : BftStateMachine C} (hsub : hist ⊆ hist')
    (h : SetsOk hist m) : SetsOk hist' m := ⟨h.prevotes.mono hsub, h.precommits.mono hsub⟩

theorem SetsOk.addPrevote {hist : History C} {m : BftStateMachine C} {v : Vote}
    (h : SetsOk hist m) (hv : Delivered hist .prevote v) : SetsOk hist (m.addPrevote v) :=
  ⟨h.prevotes.addVote hv, h.precommits⟩

theorem SetsOk.addPrecommit {hist : History C} {m : BftStateMachine C} {v : Vote}
    (h : SetsOk hist m) (hv : Delivered hist .precommit v) : SetsOk hist (m.addPrecommit v) :=
  ⟨h.prevotes, h.precommits.addVote hv⟩

/-- The sets before the quorum test of a move are the sets the move leaves. -/
theorem SetsOk.step {hist : History C} {m m' : BftStateMachine C} {e : BftEvent}
    {out : List ConsensusMessage} (h : SetsOk hist m) (hm : Moves m e m' out) :
    SetsOk (⟨m, e, m', out⟩ :: hist) m' := by
  have hsub : hist ⊆ (⟨m, e, m', out⟩ :: hist) := List.subset_cons_self _ _
  have here : ∀ {t v}, e.vote? = some (t, v) → v.height = m.height → v.round = m.round →
      Delivered (⟨m, e, m', out⟩ :: hist) t v :=
    fun hv hh hr => ⟨_, List.mem_cons_self, hv, hh, hr⟩
  have h' := h.mono hsub
  cases hm with
  | startRound r => exact SetsOk.fresh _ rfl
  | advance h => exact SetsOk.fresh _ rfl
  | ignore => exact h'
  | accept p block _ =>
    constructor
    · simpa [recordProposal] using h'.prevotes
    · simpa [recordProposal] using h'.precommits
  | prevote it v out hh hr ht _ => exact h'.addPrevote (here rfl hh hr)
  | lock it v b hh hr ht _ _ =>
    have := h'.addPrevote (here rfl hh hr)
    exact ⟨this.prevotes, this.precommits⟩
  | precommitNil it v hh hr ht _ _ =>
    have := h'.addPrevote (here rfl hh hr)
    exact ⟨this.prevotes, this.precommits⟩
  | latePolka it v b hh hr ht _ _ =>
    have := h'.addPrevote (here rfl hh hr)
    exact ⟨this.prevotes, this.precommits⟩
  | precommit it v out hh hr ht _ => exact h'.addPrecommit (here rfl hh hr)
  | commit it v b hh hr ht _ _ =>
    have := h'.addPrecommit (here rfl hh hr)
    exact ⟨this.prevotes, this.precommits⟩
  | proposeTimeout => exact ⟨h'.prevotes, h'.precommits⟩
  | prevoteTimeout v => exact ⟨h'.prevotes, h'.precommits⟩
  | precommitTimeout => exact SetsOk.fresh _ rfl

theorem setsOk_of_run {G : BftStateMachine C → BftEvent → Prop} {m₀ m : BftStateMachine C}
    {hist : History C} (h₀ : SetsOk [] m₀) (hr : BftRun C G m₀ hist m) : SetsOk hist m :=
  hr.invariant h₀ fun _ ih _ hs => ih.step (handle_moves hs)

theorem setsOk_new (height : Height) (validators : List ValidatorId) (idx : Option Nat)
    (tc : TimeoutConfig) : SetsOk [] (new C height validators idx tc) := SetsOk.fresh _ rfl

theorem Moves.validators {m m' : BftStateMachine C} {e : BftEvent} {out : List ConsensusMessage}
    (hm : Moves m e m' out) : m'.validators = m.validators := by
  cases hm with
  | accept p block _ => exact cacheBlock_validators m p.blockHash block
  | _ => rfl

theorem Moves.height {m m' : BftStateMachine C} {e : BftEvent} {out : List ConsensusMessage}
    (hm : Moves m e m' out) (he : ∀ h, e ≠ .advanceHeight h) : m'.height = m.height := by
  cases hm with
  | advance h => exact absurd rfl (he h)
  | accept p block _ => exact cacheBlock_height m p.blockHash block
  | _ => rfl

theorem validators_of_run {G : BftStateMachine C → BftEvent → Prop} {m₀ m : BftStateMachine C}
    {hist : History C} (hr : BftRun C G m₀ hist m) : m.validators = m₀.validators := by
  refine hr.invariant (I := fun _ m => m.validators = m₀.validators) rfl ?_
  intro _ _ _ _ _ _ ih _ hs
  rw [(handle_moves hs).validators, ih]

/-! ## The block cache -/

/-- What the cache holds: blocks under their own hash, each with the property `P`. -/
def Caches (P : Block → Prop) (m : BftStateMachine C) : Prop :=
  ∀ x b, m.getCommittedBlock x = some b → b.hash C = x ∧ P b

variable {P : Block → Prop}

theorem Caches.congr {m m' : BftStateMachine C} (h : m.Caches P)
    (heq : m'.proposedBlocks = m.proposedBlocks) : m'.Caches P := by
  intro x b hb
  unfold getCommittedBlock at hb
  rw [heq] at hb
  exact h x b hb

theorem Caches.empty {m : BftStateMachine C} (h : m.proposedBlocks = ∅) : m.Caches P := by
  intro x b hb
  unfold getCommittedBlock at hb
  rw [h, AList.lookup_empty] at hb
  cases hb

/-- A block enters the cache with an accepted proposal, and in no other way. -/
theorem Caches.step {m m' : BftStateMachine C} {e : BftEvent} {out : List ConsensusMessage}
    (h : m.Caches P) (hm : Moves m e m' out)
    (hnew : ∀ p b, e = .proposal p (some b) → m.Accepts p (some b) → P b) : m'.Caches P := by
  cases hm with
  | advance h' => exact Caches.empty rfl
  | accept p block ha =>
    cases block with
    | none => exact h.congr rfl
    | some blk =>
      intro x b hb
      have hb : (m.proposedBlocks.insert p.blockHash blk).lookup x = some b := hb
      by_cases hx : x = p.blockHash
      · subst hx
        rw [AList.lookup_insert] at hb
        cases hb
        exact ⟨ha.2.2.2.2 blk rfl, hnew p blk rfl ha⟩
      · rw [AList.lookup_insert_ne hx] at hb
        exact h x b hb
  | _ => exact h.congr rfl

/-! ## Votes by validators -/

/-- Every correctly signed vote of type `t` for the current height and round is a validator's.
Other calls, and votes that the handler ignores or refuses, are arbitrary. -/
def VotesFromValidators (t : VoteType) (m : BftStateMachine C) (e : BftEvent) : Prop :=
  ∀ v, e.vote? = some (t, v) → v.voteType = t → v.height = m.height → v.round = m.round →
    v.verify C = true → v.validator ∈ m.validators

instance (t : VoteType) (m : BftStateMachine C) (e : BftEvent) :
    Decidable (VotesFromValidators t m e) :=
  decidable_of_iff (∀ x ∈ e.vote?, x.1 = t → x.2.voteType = t → x.2.height = m.height →
    x.2.round = m.round → x.2.verify C = true → x.2.validator ∈ m.validators)
    ⟨fun h v hv => h (t, v) hv rfl, fun h x hx ht => h x.2 (by rw [hx, ← ht])⟩

instance (m : BftStateMachine C) (e : BftEvent) : Decidable (∀ t, VotesFromValidators t m e) :=
  decidable_of_iff (VotesFromValidators .prevote m e ∧ VotesFromValidators .precommit m e)
    ⟨fun h t => by
      cases t with
      | prevote => exact h.1
      | precommit => exact h.2, fun h => ⟨h _, h _⟩⟩

/-- A signer of a delivered vote is a validator: the guard was in force at the turn that
delivered it. -/
theorem mem_validators_of_signedVote {t : VoteType} {G : BftStateMachine C → BftEvent → Prop}
    (hG : ∀ m e, G m e → VotesFromValidators t m e) {m₀ m : BftStateMachine C}
    {hist : History C} (hr : BftRun C G m₀ hist m) {height : Height} {round : Round}
    {b : Option BlockHash} {k : ValidatorId} (hk : SignedVote hist t height round b k) :
    k ∈ m₀.validators := by
  obtain ⟨v, ⟨τ, hτ, hev, hh, hrd⟩, rfl, hver, ht, -, -, -⟩ := hk
  -- the validator list is the same at that turn as at the start
  obtain ⟨h', -, hr', hg, -⟩ := hr.of_mem hτ
  rw [← validators_of_run hr']
  exact hG _ _ hg v hev ht hh hrd hver

end BftStateMachine

end Trv1Chain
