import Trv1Chain.Bft.History

/-!
# The lock

A machine locks on a hash when a polka makes it precommit, and gives the lock up at the next
height. `LockEffect` says all that one turn can do to the lock, `Moves.of_prevote` where a prevote
comes from. The rest is read off the two:

* a lock rests on a delivered polka (`LockOk`);
* a locked machine prevotes something else only for a proposal that *says* it has a polka from
  the lock's round or later (`decidePrevote_ne_locked`). Nobody checks that it has:
  `lock_given_up` gives up a lock for a hash no prevote was ever cast for.
-/

set_option autoImplicit false

namespace Trv1Chain

open Lib

namespace BftStateMachine

variable {C : Crates}

/-- What one turn can do to the lock: keep it, take it (with the precommit that goes with it), or
drop it with the height. -/
inductive LockEffect (m m' : BftStateMachine C) (out : List ConsensusMessage) : Prop
  | keep : m'.height = m.height → m'.lockedValue = m.lockedValue →
      m'.lockedRound = m.lockedRound →
      (∀ v, .castVote v ∈ out → v.voteType = .precommit → v.blockHash = none) →
      LockEffect m m' out
  | take (it : CountOrder) (v : Vote) (b : BlockHash) : m.step = .prevote → out = [.castVote v] →
      v.voteType = .precommit → v.height = m.height → v.round = m.round →
      v.blockHash = some b → m'.height = m.height → m'.round = m.round →
      m'.lockedValue = some b → m'.lockedRound = some m.round →
      m'.roundState.prevotes.quorumBlock it = some b →
      LockEffect m m' out
  | drop (h : Height) : m' = (m.advanceHeight h).1 → (∀ v, .castVote v ∉ out) →
      LockEffect m m' out

theorem Moves.lockEffect {m m' : BftStateMachine C} {e : BftEvent} {out : List ConsensusMessage}
    (hm : Moves m e m' out) : LockEffect m m' out := by
  cases hm with
  | startRound r =>
    refine .keep rfl rfl rfl ?_
    intro v hv
    simp [BftStateMachine.startRound] at hv
  | advance h =>
    refine .drop h rfl ?_
    intro v hv
    simp [advanceHeight, BftStateMachine.startRound] at hv
  | ignore =>
    refine .keep rfl rfl rfl ?_
    intro v hv
    simp at hv
  | accept p block _ =>
    refine .keep ?_ ?_ ?_ ?_
    · simp [recordProposal]
    · simp [recordProposal]
    · simp [recordProposal]
    · intro v hv ht
      simp only [recordProposal, List.mem_singleton, ConsensusMessage.castVote.injEq] at hv
      rw [hv] at ht
      cases ht
  | prevote it v out hh hr ht ho =>
    refine .keep rfl rfl rfl ?_
    intro v hv
    rcases ho with rfl | rfl <;> simp at hv
  | lock it v b hh hr ht hs hq => exact .take it _ b hs rfl rfl rfl rfl rfl rfl rfl rfl rfl hq
  | precommitNil it v hh hr ht hs hq =>
    refine .keep rfl rfl rfl ?_
    intro v' hv' _
    simp only [precommitFor, List.mem_singleton, ConsensusMessage.castVote.injEq] at hv'
    rw [hv']
  | latePolka it v b hh hr ht hs hq =>
    refine .keep rfl rfl rfl ?_
    intro v hv
    simp at hv
  | precommit it v out hh hr ht ho =>
    refine .keep rfl rfl rfl ?_
    intro v hv
    rcases ho with rfl | rfl <;> simp at hv
  | commit it v b hh hr ht hs hq =>
    refine .keep rfl rfl rfl ?_
    intro v hv
    simp at hv
  | proposeTimeout hs =>
    refine .keep rfl rfl rfl ?_
    intro v hv
    simp at hv
  | prevoteTimeout v hs =>
    refine .keep rfl rfl rfl ?_
    intro v' hv' _
    simp only [precommitFor, List.mem_singleton, ConsensusMessage.castVote.injEq] at hv'
    rw [hv']
  | precommitTimeout hs =>
    refine .keep rfl rfl rfl ?_
    intro v hv
    simp [BftStateMachine.startRound] at hv

/-- A prevote is cast only on an accepted proposal, for the hash the locking rule decides. -/
theorem Moves.of_prevote {m m' : BftStateMachine C} {e : BftEvent} {out : List ConsensusMessage}
    (hm : Moves m e m' out) {v : Vote} (hv : .castVote v ∈ out) (ht : v.voteType = .prevote) :
    ∃ p block, e = .proposal p block ∧ m.Accepts p block ∧ v.height = m.height ∧
      v.round = m.round ∧ v.blockHash = m.decidePrevote p := by
  cases hm with
  | accept p block ha =>
    simp only [recordProposal, List.mem_singleton, ConsensusMessage.castVote.injEq] at hv
    refine ⟨p, block, rfl, ha, ?_, ?_, ?_⟩
    · rw [hv]; exact cacheBlock_height ..
    · rw [hv]; exact cacheBlock_round ..
    · rw [hv]; exact cacheBlock_decidePrevote ..
  | startRound r => simp [BftStateMachine.startRound] at hv
  | advance h => simp [advanceHeight, BftStateMachine.startRound] at hv
  | ignore => simp at hv
  | prevote it w out hh hr ht ho => rcases ho with rfl | rfl <;> simp at hv
  | latePolka it w b hh hr ht hs hq => simp at hv
  | precommit it w out hh hr ht ho => rcases ho with rfl | rfl <;> simp at hv
  | commit it w b hh hr ht hs hq => simp at hv
  | proposeTimeout hs => simp at hv
  | precommitTimeout hs => simp [BftStateMachine.startRound] at hv
  | lock it w b hh hr ht' hs hq =>
    simp only [precommitFor, List.mem_singleton, ConsensusMessage.castVote.injEq] at hv
    rw [hv] at ht
    cases ht
  | precommitNil it w hh hr ht' hs hq =>
    simp only [precommitFor, List.mem_singleton, ConsensusMessage.castVote.injEq] at hv
    rw [hv] at ht
    cases ht
  | prevoteTimeout w hs =>
    simp only [precommitFor, List.mem_singleton, ConsensusMessage.castVote.injEq] at hv
    rw [hv] at ht
    cases ht

/-! ## What a lock rests on -/

/-- The lock of a machine rests on a polka delivered at its height, in the lock's round. -/
def LockOk (validators : List ValidatorId) (hist : History C) (m : BftStateMachine C) : Prop :=
  ∀ b lr, m.lockedValue = some b → m.lockedRound = some lr →
    Certificate hist validators .prevote m.height lr b

theorem lockOk_of_run {G : BftStateMachine C → BftEvent → Prop}
    (hG : ∀ m e, G m e → VotesFromValidators .prevote m e) {m₀ m : BftStateMachine C}
    (h₀ : SetsOk [] m₀) (hl : m₀.lockedValue = none) {hist : History C}
    (hr : BftRun C G m₀ hist m) : LockOk m₀.validators hist m := by
  refine hr.invariant (I := LockOk m₀.validators) ?_ ?_
  · intro b lr hb
    rw [hl] at hb
    cases hb
  · intro hist m e m' out hr ih hg hs b lr hb hlr
    have hr' := hr.turn hg hs
    cases (handle_moves hs).lockEffect with
    | keep hh hv hrd _ =>
      rw [hv] at hb
      rw [hrd] at hlr
      rw [hh]
      exact (ih b lr hb hlr).mono (List.subset_cons_self _ _)
    | take it v b' _ _ _ _ _ _ hh hrd hv hlr' hq =>
      rw [hv] at hb
      rw [hlr'] at hlr
      cases hb
      cases hlr
      -- the quorum that was tested is in the set the turn leaves
      have hsets := (setsOk_of_run h₀ hr').prevotes
      rw [hrd, validators_of_run hr'] at hsets
      exact hsets.certificate hq fun k hk => mem_validators_of_signedVote hG hr' hk
    | drop h hm' _ =>
      rw [hm'] at hb
      cases hb

/-- **The locking rule.** A locked machine prevotes another hash only on a proposal whose
`valid_round` is at least the lock's round. -/
theorem decidePrevote_ne_locked {m : BftStateMachine C} {p : Proposal} {A B : BlockHash}
    {lr : Round} (hA : m.lockedValue = some A) (hlr : m.lockedRound = some lr)
    (hB : m.decidePrevote p = some B) (hne : B ≠ A) :
    p.blockHash = B ∧ ∃ vr, p.validRound = some vr ∧ lr.val ≤ vr.val := by
  unfold decidePrevote at hB
  rw [hA] at hB
  dsimp only at hB
  split at hB
  · rename_i heq
    cases hB
    exact absurd heq hne
  · rw [hlr] at hB
    cases hvr : p.validRound with
    | none => rw [hvr] at hB; cases hB
    | some vr =>
      rw [hvr] at hB
      dsimp only at hB
      split at hB
      · rename_i hle
        cases hB
        exact ⟨rfl, vr, rfl, hle⟩
      · cases hB

/-- **Giving up a lock.** In a run whose prevotes are validators', a machine that is locked on
`(A, lr)` and prevotes `B ≠ A` on a proposal does so because the proposal is for `B` and claims a
`valid_round` at or after `lr`; and the lock it goes against was taken on a delivered polka. -/
theorem lock_yields_to_valid_round {height : Height} {validators : List ValidatorId}
    {idx : Option Nat} {tc : TimeoutConfig} {m : BftStateMachine C}
    {τ : Turn (BftStateMachine C) BftEvent ConsensusMessage} {past : History C}
    (hr : BftRun C (VotesFromValidators .prevote) (new C height validators idx tc) (τ :: past) m)
    {p : Proposal} {block : Option Block} (hev : τ.event = .proposal p block)
    {A B : BlockHash} {lr : Round} (hA : τ.before.lockedValue = some A)
    (hlr : τ.before.lockedRound = some lr) {v : Vote} (hv : .castVote v ∈ τ.out)
    (hB : v.blockHash = some B) (hne : B ≠ A) :
    p.blockHash = B ∧ (∃ vr, p.validRound = some vr ∧ lr.val ≤ vr.val) ∧
      Certificate past validators .prevote τ.before.height lr A := by
  cases hr with
  | turn hr hg hs =>
    have hlock := lockOk_of_run (fun _ _ h => h) (setsOk_new ..) rfl hr A lr hA hlr
    subst hev
    have ht : v.voteType = .prevote := by
      cases handle_moves hs with
      | accept p' block' _ =>
        simp only [recordProposal, List.mem_singleton, ConsensusMessage.castVote.injEq] at hv
        rw [hv]
      | ignore => simp at hv
    obtain ⟨p', block', he, -, -, -, hdec⟩ := (handle_moves hs).of_prevote hv ht
    cases he
    rw [hB] at hdec
    obtain ⟨hp, hvr⟩ := decidePrevote_ne_locked hA hlr hdec.symm hne
    exact ⟨hp, hvr, hlock⟩

/-! ## A lock given up for nothing

One validator: it locks on `lockHash`, its round times out, and the next proposal, for another
hash, says `valid_round = 0`. -/

def lockHash : BlockHash := ⟨Bytes.fill 32 0xAA⟩

def otherHash : BlockHash := ⟨Bytes.fill 32 0xBB⟩

def loneProposal (round : Round) (hash : BlockHash) (validRound : Option Round) : Proposal where
  height := ⟨0⟩
  round := round
  blockHash := hash
  proposer := ⟨Crates.sampleKey 1⟩
  signature := Bytes.fill 64 0
  validRound := validRound

def lockEvents : List BftEvent :=
  [.startRound ⟨0⟩,
   .proposal (loneProposal ⟨0⟩ lockHash none) none,
   .prevote IterOrder.stored
     (Vote.new Crates.sample .prevote ⟨0⟩ ⟨0⟩ (some lockHash) (Crates.sampleKey 1)),
   .timeout ⟨⟨0⟩, ⟨0⟩, .precommit⟩]

def lockStart : BftStateMachine Crates.sample :=
  new Crates.sample ⟨0⟩ [⟨Crates.sampleKey 1⟩] (some 0) TimeoutConfig.default

theorem lock_replays : (Run.replay handle lockStart [] lockEvents).isSome = true := by
  decide +kernel

def lockPast : History Crates.sample × BftStateMachine Crates.sample :=
  (Run.replay handle lockStart [] lockEvents).get lock_replays

theorem lockPast_run : BftRun Crates.sample (fun m e => ∀ t, VotesFromValidators t m e) lockStart
    lockPast.1 lockPast.2 :=
  Run.of_replay_get lock_replays (by decide +kernel)

def proposalTurn (m : BftStateMachine C) (p : Proposal) :
    Turn (BftStateMachine C) BftEvent ConsensusMessage where
  before := m
  event := .proposal p none
  after := (m.onProposal p none).1
  out := (m.onProposal p none).2

theorem proposalTurn_run {m₀ m : BftStateMachine C} {hist : History C}
    {p : Proposal} (hr : BftRun C (fun m e => ∀ t, VotesFromValidators t m e) m₀ hist m) :
    BftRun C (fun m e => ∀ t, VotesFromValidators t m e) m₀ (proposalTurn m p :: hist)
      (proposalTurn m p).after :=
  .turn hr (fun _ _ hv => by cases hv) rfl

def unlockTurn : Turn (BftStateMachine Crates.sample) BftEvent ConsensusMessage :=
  proposalTurn lockPast.2 (loneProposal ⟨1⟩ otherHash (some ⟨0⟩))

def unlockVote : Vote where
  voteType := .prevote
  height := ⟨0⟩
  round := ⟨1⟩
  blockHash := some otherHash
  validator := ⟨Crates.sampleKey 1⟩
  signature := Bytes.fill 64 0

/-- The lock that is given up did rest on a polka. -/
theorem lock_yields_to_valid_round_lone :
    Certificate lockPast.1 [⟨Crates.sampleKey 1⟩] .prevote unlockTurn.before.height ⟨0⟩ lockHash :=
  (lock_yields_to_valid_round (τ := unlockTurn) (m := unlockTurn.after) (B := otherHash)
    ((proposalTurn_run lockPast_run).weaken fun _ _ h => h .prevote) rfl
    (by decide +kernel) (by decide +kernel) (v := unlockVote) (by decide +kernel) rfl
    (by decide +kernel)).2.2

/-- **A lock given up for nothing.** Locked on `lockHash` since round 0, the machine prevotes
`otherHash` in round 1, and no prevote for `otherHash` has been delivered at all. -/
theorem lock_given_up :
    BftRun Crates.sample (fun m e => ∀ t, VotesFromValidators t m e) lockStart
        (unlockTurn :: lockPast.1) unlockTurn.after ∧
      unlockTurn.before.lockedValue = some lockHash ∧
      unlockTurn.before.lockedRound = some ⟨0⟩ ∧
      .castVote unlockVote ∈ unlockTurn.out ∧ unlockVote.blockHash = some otherHash ∧
      otherHash ≠ lockHash ∧
      ∀ vr, ¬ Certificate lockPast.1 [⟨Crates.sampleKey 1⟩] .prevote unlockTurn.before.height vr
        otherHash := by
  refine ⟨proposalTurn_run lockPast_run, by decide +kernel, by decide +kernel, by decide +kernel,
    rfl, by decide +kernel, ?_⟩
  rintro vr ⟨Q, hcard, hQ⟩
  have hnone : ∀ τ ∈ lockPast.1, ∀ x ∈ τ.event.vote?, x.2.blockHash ≠ some otherHash := by
    decide +kernel
  cases Q.eq_empty_or_nonempty with
  | inl hempty => rw [hempty] at hcard; simp at hcard
  | inr hne =>
    obtain ⟨k, hk⟩ := hne
    obtain ⟨-, v, ⟨τ, hτ, hev, -⟩, -, -, -, -, -, hb⟩ := hQ k hk
    exact hnone τ hτ (.prevote, v) hev hb

end BftStateMachine

end Trv1Chain
