import Trv1Chain.Bft.History

/-!
# What a commit rests on

`on_precommit` emits `CommitBlock` when the *number* of stored precommits for one hash exceeds two
thirds of the *length* of the validator list. Nothing on the way from the network to that count
asks whether a signer is on the list, so the count is a certificate exactly as far as the votes
delivered are the validators' own.

`commit_certificate` is that: as long as every correctly signed precommit for the machine's
current height and round is by a validator, each `CommitBlock` rests on signed precommits of more
than two thirds of the list. `outsider_commits` is a run in which one stranger's precommit commits.
-/

set_option autoImplicit false

namespace Trv1Chain

open Lib

namespace BftStateMachine

variable {C : Crates}

/-- Only the commit move emits `CommitBlock`: from `on_precommit`, for the machine's own height,
on a quorum of its precommits. -/
theorem Moves.of_commitBlock {m m' : BftStateMachine C} {e : BftEvent}
    {out : List ConsensusMessage} {h : Height} {b : BlockHash} (hm : Moves m e m' out)
    (hout : .commitBlock h b ∈ out) :
    h = m.height ∧ (∃ it v, e = .precommit it v) ∧ m.step ≠ .commit ∧ m'.step = .commit ∧
      m'.height = m.height ∧ m'.round = m.round ∧
      ∃ it, m'.roundState.precommits.quorumBlock it = some b := by
  cases hm with
  | commit it v b' hh hr ht hs hq =>
    simp only [List.mem_singleton, ConsensusMessage.commitBlock.injEq] at hout
    obtain ⟨rfl, rfl⟩ := hout
    exact ⟨rfl, ⟨it, v, rfl⟩, hs, rfl, rfl, rfl, it, hq⟩
  | startRound r => simp [BftStateMachine.startRound] at hout
  | advance h' => simp [advanceHeight, BftStateMachine.startRound] at hout
  | ignore => simp at hout
  | accept p blk ha => simp [recordProposal] at hout
  | prevote it v out hh hr ht ho => rcases ho with rfl | rfl <;> simp at hout
  | lock it v b' hh hr ht hs hq => simp [precommitFor] at hout
  | precommitNil it v hh hr ht hs hq => simp [precommitFor] at hout
  | latePolka it v b' hh hr ht hs hq => simp at hout
  | precommit it v out hh hr ht ho => rcases ho with rfl | rfl <;> simp at hout
  | proposeTimeout hs => simp at hout
  | prevoteTimeout v hs => simp [precommitFor] at hout
  | precommitTimeout hs => simp [BftStateMachine.startRound] at hout

/-- A commit of a run whose precommits come from validators is certified, at the machine's own
height and round. -/
theorem certificate_of_commit {G : BftStateMachine C → BftEvent → Prop}
    (hG : ∀ m e, G m e → VotesFromValidators .precommit m e) {m₀ m : BftStateMachine C}
    (h₀ : SetsOk [] m₀) {τ : Turn (BftStateMachine C) BftEvent ConsensusMessage} {past : History C}
    (hr : BftRun C G m₀ (τ :: past) m) {h : Height} {b : BlockHash}
    (hout : .commitBlock h b ∈ τ.out) :
    h = τ.before.height ∧ (∃ it v, τ.event = .precommit it v) ∧
      Certificate (τ :: past) m₀.validators .precommit h τ.before.round b := by
  have hsets := setsOk_of_run h₀ hr
  have hvals := validators_of_run hr
  have hmem : ∀ k, SignedVote (τ :: past) .precommit h τ.before.round (some b) k →
      k ∈ m₀.validators := fun k hk => mem_validators_of_signedVote hG hr hk
  cases hr with
  | turn hr' hg hs =>
    obtain ⟨rfl, hev, -, -, hheight, hround, it, hq⟩ := (handle_moves hs).of_commitBlock hout
    refine ⟨rfl, hev, ?_⟩
    have htr := hsets.precommits
    rw [hheight, hround, hvals] at htr
    exact htr.certificate hq hmem

theorem certificate_of_mem_outputs {G : BftStateMachine C → BftEvent → Prop}
    (hG : ∀ m e, G m e → VotesFromValidators .precommit m e) {m₀ m : BftStateMachine C}
    (h₀ : SetsOk [] m₀) {hist : History C} (hr : BftRun C G m₀ hist m) {h : Height}
    {b : BlockHash} (hout : .commitBlock h b ∈ outputs hist) :
    ∃ r, Certificate hist m₀.validators .precommit h r b := by
  obtain ⟨τ, hτ, hmem⟩ := mem_outputs.mp hout
  obtain ⟨past, hsuf, hr', hg, hs⟩ := hr.of_mem hτ
  obtain ⟨-, -, hcert⟩ := certificate_of_commit hG h₀ (hr'.turn hg hs) hmem
  exact ⟨_, hcert.mono hsuf.subset⟩

/-- **Commit certificate.** In a run from `new()` whose correctly signed current precommits are
all by validators, a `CommitBlock` is emitted by `on_precommit` only, for the current height, on
signed precommits for that hash, height and round by more than two thirds of the validators. -/
theorem commit_certificate {height : Height} {validators : List ValidatorId} {idx : Option Nat}
    {tc : TimeoutConfig} {m : BftStateMachine C}
    {τ : Turn (BftStateMachine C) BftEvent ConsensusMessage} {past : History C}
    (hr : BftRun C (VotesFromValidators .precommit) (new C height validators idx tc) (τ :: past) m)
    {h : Height} {b : BlockHash} (hout : .commitBlock h b ∈ τ.out) :
    h = τ.before.height ∧ (∃ it v, τ.event = .precommit it v) ∧
      Certificate (τ :: past) validators .precommit h τ.before.round b :=
  certificate_of_commit (fun _ _ hg => hg) (setsOk_new height validators idx tc) hr hout

/-! ## Four validators -/

def quadKeys : List ValidatorId := [1, 2, 3, 4].map fun b => ⟨Crates.sampleKey b⟩

/-- Height 0 of four validators, before round 0; this is the last of them. -/
def quadMachine : BftStateMachine Crates.sample :=
  new Crates.sample ⟨0⟩ quadKeys (some 3) TimeoutConfig.default

def quadHash : BlockHash := ⟨Bytes.fill 32 7⟩

/-- The first validator's proposal for round 0. -/
def quadProposal : BftEvent :=
  .proposal ⟨⟨0⟩, ⟨0⟩, quadHash, ⟨Crates.sampleKey 1⟩, Bytes.fill 64 0, none⟩ none

def quadPrevote (b : UInt8) : BftEvent :=
  .prevote IterOrder.stored
    (Vote.new Crates.sample .prevote ⟨0⟩ ⟨0⟩ (some quadHash) (Crates.sampleKey b))

def quadPrecommit (b : UInt8) : BftEvent :=
  .precommit IterOrder.stored
    (Vote.new Crates.sample .precommit ⟨0⟩ ⟨0⟩ (some quadHash) (Crates.sampleKey b))

/-- The first three validators decide round 0. -/
def quadRound : List BftEvent :=
  [.startRound ⟨0⟩, quadProposal] ++ [1, 2, 3].map quadPrevote ++ [1, 2, 3].map quadPrecommit

/-- The third precommit commits, and the three are the certificate. -/
theorem commit_certificate_quad :
    ∃ τ past m, BftRun Crates.sample (VotesFromValidators .precommit) quadMachine (τ :: past) m ∧
      (τ :: past).length = 8 ∧ .commitBlock ⟨0⟩ quadHash ∈ τ.out ∧
      (∀ σ ∈ past, .commitBlock ⟨0⟩ quadHash ∉ σ.out) ∧
      Certificate (τ :: past) quadKeys .precommit ⟨0⟩ τ.before.round quadHash := by
  obtain ⟨hist, m, hr, hlen, τ, hτ, hout, hpast⟩ : ∃ hist m,
      BftRun Crates.sample (VotesFromValidators .precommit) quadMachine hist m ∧
        hist.length = 8 ∧ ∃ τ ∈ hist.head?, .commitBlock ⟨0⟩ quadHash ∈ τ.out ∧
          ∀ σ ∈ hist.tail, .commitBlock ⟨0⟩ quadHash ∉ σ.out :=
    Run.exists_of_replay quadRound (by decide +kernel)
  obtain ⟨past, rfl⟩ := List.head?_eq_some_iff.mp hτ
  exact ⟨τ, past, m, hr, hlen, hout, hpast, (commit_certificate hr hout).2.2⟩

/-! ## One validator, one stranger -/

/-- A machine whose only validator has the key `1`. -/
def soloMachine : BftStateMachine Crates.sample :=
  new Crates.sample ⟨0⟩ [⟨Crates.sampleKey 1⟩] none TimeoutConfig.default

def soloHash : BlockHash := ⟨Bytes.fill 32 7⟩

def soloPrecommit (key : UInt8) : Vote :=
  Vote.new Crates.sample .precommit ⟨0⟩ ⟨0⟩ (some soloHash) (Crates.sampleKey key)

def precommitTurn (m : BftStateMachine C) (v : Vote) :
    Turn (BftStateMachine C) BftEvent ConsensusMessage where
  before := m
  event := .precommit IterOrder.stored v
  after := (m.onPrecommit IterOrder.stored v).1
  out := (m.onPrecommit IterOrder.stored v).2

theorem precommitTurn_run {G : BftStateMachine C → BftEvent → Prop} {m : BftStateMachine C}
    {v : Vote} (hg : G m (.precommit IterOrder.stored v)) :
    BftRun C G m [precommitTurn m v] (precommitTurn m v).after := .turn .init hg rfl

def soloTurn (key : UInt8) : Turn (BftStateMachine Crates.sample) BftEvent ConsensusMessage :=
  precommitTurn soloMachine (soloPrecommit key)

/-- **The stranger's precommit commits as well**: the key `2` is not on the list, its one signed
precommit makes the machine commit, and no validator has precommitted. -/
theorem outsider_commits :
    BftRun Crates.sample (fun _ _ => True) soloMachine [soloTurn 2] (soloTurn 2).after ∧
      .commitBlock ⟨0⟩ soloHash ∈ (soloTurn 2).out ∧
      ¬ Certificate [soloTurn 2] [⟨Crates.sampleKey 1⟩] .precommit ⟨0⟩ ⟨0⟩ soloHash := by
  refine ⟨precommitTurn_run trivial, by decide +kernel, ?_⟩
  rintro ⟨Q, hcard, hQ⟩
  cases Q.eq_empty_or_nonempty with
  | inl hempty => rw [hempty] at hcard; simp at hcard
  | inr hne =>
    obtain ⟨k, hk⟩ := hne
    obtain ⟨hmem, v, ⟨τ, hτ, hev, -⟩, rfl, -⟩ := hQ k hk
    rw [List.mem_singleton] at hτ hmem
    subst hτ
    cases hev
    exact absurd hmem (by decide +kernel)

end BftStateMachine

end Trv1Chain
