import Trv1Chain.Bft.StateMachine

/-!
# Everything one call can do

`Moves m e m' out` lists the moves of the state machine, one constructor for each outcome a
handler has, with the guard that leads there. `handle_moves` says the list is complete: a turn of
the machine is one of these moves. Every invariant of the machine is proved over the list and
never by unfolding a handler again.

`Accepts` is `on_proposal`'s own condition, spelled out. It is also exact (`onProposal_eq`): the
handler acts when it holds and does nothing when it does not.
-/

set_option autoImplicit false

namespace Trv1Chain

open Lib

namespace BftStateMachine

variable {C : Crates}

/-- The checks of `on_proposal`: current height and round, the propose step, the designated
proposer's name, and a block (when there is one) that has the proposed hash. -/
def Accepts (m : BftStateMachine C) (p : Proposal) (block : Option Block) : Prop :=
  p.height = m.height ∧ p.round = m.round ∧ m.step = .propose ∧
    m.validators[m.proposerIndex m.height m.round]? = some p.proposer ∧
    ∀ b ∈ block, b.hash C = p.blockHash

instance (m : BftStateMachine C) (p : Proposal) (block : Option Block) :
    Decidable (m.Accepts p block) :=
  inferInstanceAs (Decidable (_ ∧ _ ∧ _ ∧ _ ∧ ∀ b ∈ block, b.hash C = p.blockHash))

/-- The machine with the block that came with a proposal in its cache. -/
def cacheBlock (m : BftStateMachine C) (hash : BlockHash) : Option Block → BftStateMachine C
  | some b => { m with proposedBlocks := m.proposedBlocks.insert hash b }
  | none => m

theorem onProposal_eq (m : BftStateMachine C) (p : Proposal) (block : Option Block) :
    m.onProposal p block =
      if m.Accepts p block then (m.cacheBlock p.blockHash block).recordProposal p
      else (m, []) := by
  unfold onProposal
  -- one check after the other; where one fails both sides leave the machine alone
  by_cases hh : p.height = m.height
  swap
  · rw [if_pos (Or.inl hh), if_neg (fun h : m.Accepts p block => hh h.1)]
  by_cases hr : p.round = m.round
  swap
  · rw [if_pos (Or.inr hr), if_neg (fun h : m.Accepts p block => hr h.2.1)]
  rw [if_neg (fun h => h.elim (fun h => h hh) (fun h => h hr))]
  by_cases hs : m.step = .propose
  swap
  · rw [if_pos hs, if_neg (fun h : m.Accepts p block => hs h.2.2.1)]
  rw [if_neg (fun h => h hs)]
  dsimp only
  by_cases hp : m.validators[m.proposerIndex m.height m.round]? = some p.proposer
  swap
  · rw [if_neg (fun h : m.Accepts p block => hp h.2.2.2.1)]
    split <;> rfl
  -- the bounds check is implied: a name was found at that index
  obtain ⟨hlt, -⟩ := List.getElem?_eq_some_iff.mp hp
  rw [if_neg (Nat.not_le.mpr hlt), if_neg (fun h => h hp)]
  cases block with
  | none =>
    have ha : m.Accepts p none := ⟨hh, hr, hs, hp, fun b hb => absurd hb (by simp)⟩
    rw [if_pos ha]; rfl
  | some b =>
    dsimp only
    by_cases hb : b.hash C = p.blockHash
    · have ha : m.Accepts p (some b) :=
        ⟨hh, hr, hs, hp, fun b' hb' => by rw [← Option.mem_some_iff.mp hb']; exact hb⟩
      rw [if_neg (fun h => h hb), if_pos ha]; rfl
    · rw [if_pos hb, if_neg (fun h : m.Accepts p (some b) => hb (h.2.2.2.2 b rfl))]

theorem handle_accepted {m : BftStateMachine C} {p : Proposal} {block : Option Block}
    (h : m.Accepts p block) :
    m.handle (.proposal p block) = some ((m.cacheBlock p.blockHash block).recordProposal p) := by
  show some (m.onProposal p block) = _
  rw [onProposal_eq, if_pos h]

/-- One move of the machine on a call, with the messages it emits. -/
inductive Moves (m : BftStateMachine C) :
    BftEvent → BftStateMachine C → List ConsensusMessage → Prop
  | startRound (r : Round) : Moves m (.startRound r) (m.startRound r).1 (m.startRound r).2
  | advance (h : Height) : Moves m (.advanceHeight h) (m.advanceHeight h).1 (m.advanceHeight h).2
  /-- The call is ignored. -/
  | ignore (e : BftEvent) : Moves m e m []
  | accept (p : Proposal) (block : Option Block) : m.Accepts p block →
      Moves m (.proposal p block) ((m.cacheBlock p.blockHash block).recordProposal p).1
        ((m.cacheBlock p.blockHash block).recordProposal p).2
  /-- A prevote of the current height and round is handed to its set, and at most a timeout is
      scheduled. -/
  | prevote (it : CountOrder) (v : Vote) (out : List ConsensusMessage) :
      v.height = m.height → v.round = m.round → v.voteType = .prevote →
      (out = [] ∨ out = [.scheduleTimeout ⟨m.height, m.round, .prevote⟩]) →
      Moves m (.prevote it v) (m.addPrevote v) out
  /-- It completes a polka in the prevote step. -/
  | lock (it : CountOrder) (v : Vote) (b : BlockHash) :
      v.height = m.height → v.round = m.round → v.voteType = .prevote → m.step = .prevote →
      (m.addPrevote v).roundState.prevotes.quorumBlock it = some b →
      Moves m (.prevote it v) ((m.addPrevote v).lockOn b)
        [m.precommitFor (some b) v.validator v.signature]
  /-- It completes a quorum for nil. -/
  | precommitNil (it : CountOrder) (v : Vote) :
      v.height = m.height → v.round = m.round → v.voteType = .prevote → m.step = .prevote →
      (m.addPrevote v).roundState.prevotes.hasQuorumForNil = true →
      Moves m (.prevote it v) { m.addPrevote v with step := .precommit }
        [m.precommitFor none v.validator v.signature]
  /-- It completes a polka after the precommit was cast. -/
  | latePolka (it : CountOrder) (v : Vote) (b : BlockHash) :
      v.height = m.height → v.round = m.round → v.voteType = .prevote → m.step = .precommit →
      (m.addPrevote v).roundState.prevotes.quorumBlock it = some b →
      Moves m (.prevote it v)
        { m.addPrevote v with validValue := some b, validRound := some m.round } []
  | precommit (it : CountOrder) (v : Vote) (out : List ConsensusMessage) :
      v.height = m.height → v.round = m.round → v.voteType = .precommit →
      (out = [] ∨ out = [.scheduleTimeout ⟨m.height, m.round, .precommit⟩]) →
      Moves m (.precommit it v) (m.addPrecommit v) out
  | commit (it : CountOrder) (v : Vote) (b : BlockHash) :
      v.height = m.height → v.round = m.round → v.voteType = .precommit → m.step ≠ .commit →
      (m.addPrecommit v).roundState.precommits.quorumBlock it = some b →
      Moves m (.precommit it v) { m.addPrecommit v with step := .commit }
        [.commitBlock m.height b]
  | proposeTimeout : m.step = .propose →
      Moves m (.timeout ⟨m.height, m.round, .propose⟩) { m with step := .prevote }
        [.scheduleTimeout ⟨m.height, m.round, .prevote⟩]
  | prevoteTimeout (v : ValidatorId) : m.step = .prevote →
      Moves m (.timeout ⟨m.height, m.round, .prevote⟩) { m with step := .precommit }
        [m.precommitFor none v (Bytes.fill 64 0)]
  | precommitTimeout : m.step = .precommit →
      Moves m (.timeout ⟨m.height, m.round, .precommit⟩) (m.startRound ⟨m.round.val + 1⟩).1
        (m.startRound ⟨m.round.val + 1⟩).2

theorem onPrevote_moves (m : BftStateMachine C) (it : CountOrder) (v : Vote) :
    Moves m (.prevote it v) (m.onPrevote it v).1 (m.onPrevote it v).2 := by
  unfold onPrevote
  split
  · exact .ignore _
  rename_i hhr
  push Not at hhr
  split
  · exact .ignore _
  rename_i ht
  push Not at ht
  dsimp only
  split
  · rename_i hs
    split
    · rename_i b hq
      exact .lock it v b hhr.1 hhr.2 ht hs hq
    · split
      · rename_i hnil
        exact .precommitNil it v hhr.1 hhr.2 ht hs hnil
      · split
        · exact .prevote it v _ hhr.1 hhr.2 ht (Or.inr rfl)
        · exact .prevote it v _ hhr.1 hhr.2 ht (Or.inl rfl)
  · rename_i hs
    split
    · rename_i b hq
      exact .latePolka it v b hhr.1 hhr.2 ht hs hq
    · exact .prevote it v _ hhr.1 hhr.2 ht (Or.inl rfl)
  · exact .prevote it v _ hhr.1 hhr.2 ht (Or.inl rfl)

theorem onPrecommit_moves (m : BftStateMachine C) (it : CountOrder) (v : Vote) :
    Moves m (.precommit it v) (m.onPrecommit it v).1 (m.onPrecommit it v).2 := by
  unfold onPrecommit
  split
  · exact .ignore _
  rename_i hhr
  push Not at hhr
  split
  · exact .ignore _
  rename_i ht
  push Not at ht
  dsimp only
  split
  · rename_i b hq
    split
    · rename_i hs
      exact .commit it v b hhr.1 hhr.2 ht hs hq
    · exact .precommit it v _ hhr.1 hhr.2 ht (Or.inl rfl)
  · split
    · exact .precommit it v _ hhr.1 hhr.2 ht (Or.inr rfl)
    · exact .precommit it v _ hhr.1 hhr.2 ht (Or.inl rfl)

theorem onTimeout_moves {m m' : BftStateMachine C} {te : TimeoutEvent}
    {out : List ConsensusMessage} (h : m.onTimeout te = some (m', out)) :
    Moves m (.timeout te) m' out := by
  obtain ⟨th, tr, ts⟩ := te
  unfold onTimeout at h
  split at h
  · cases h; exact .ignore _
  rename_i hhr
  push Not at hhr
  obtain ⟨rfl, rfl⟩ : th = m.height ∧ tr = m.round := hhr
  cases ts with
  | propose =>
    dsimp only at h
    split at h
    · rename_i hs
      cases h; exact .proposeTimeout hs
    · cases h; exact .ignore _
  | prevote =>
    dsimp only at h
    split at h
    · rename_i hs
      cases hv : m.validators[0]? with
      | none => rw [hv] at h; cases h
      | some v => rw [hv] at h; cases h; exact .prevoteTimeout v hs
    · cases h; exact .ignore _
  | precommit =>
    dsimp only at h
    split at h
    · rename_i hs
      cases h; exact .precommitTimeout hs
    · cases h; exact .ignore _

/-- **The list of moves is complete.** -/
theorem handle_moves {m m' : BftStateMachine C} {e : BftEvent} {out : List ConsensusMessage}
    (h : m.handle e = some (m', out)) : Moves m e m' out := by
  cases e with
  | startRound r => cases h; exact .startRound r
  | proposal p block =>
    have h' : m.onProposal p block = (m', out) := Option.some.inj h
    rw [onProposal_eq] at h'
    split at h'
    · rename_i ha
      cases h'; exact .accept p block ha
    · cases h'; exact .ignore _
  | prevote it v =>
    have h' : m.onPrevote it v = (m', out) := Option.some.inj h
    have hm := onPrevote_moves m it v
    rwa [h'] at hm
  | precommit it v =>
    have h' : m.onPrecommit it v = (m', out) := Option.some.inj h
    have hm := onPrecommit_moves m it v
    rwa [h'] at hm
  | timeout te => exact onTimeout_moves h
  | advanceHeight h' => cases h; exact .advance h'

/-! ## Projections of the moves' states -/

@[simp] theorem startRound_step (m : BftStateMachine C) (r : Round) :
    (m.startRound r).1.step = .propose := rfl

@[simp] theorem advanceHeight_step (m : BftStateMachine C) (h : Height) :
    (m.advanceHeight h).1.step = .propose := rfl

@[simp] theorem cacheBlock_height (m : BftStateMachine C) (x : BlockHash) (b : Option Block) :
    (m.cacheBlock x b).height = m.height := by cases b <;> rfl

@[simp] theorem cacheBlock_round (m : BftStateMachine C) (x : BlockHash) (b : Option Block) :
    (m.cacheBlock x b).round = m.round := by cases b <;> rfl

@[simp] theorem cacheBlock_validators (m : BftStateMachine C) (x : BlockHash) (b : Option Block) :
    (m.cacheBlock x b).validators = m.validators := by cases b <;> rfl

@[simp] theorem cacheBlock_roundState (m : BftStateMachine C) (x : BlockHash) (b : Option Block) :
    (m.cacheBlock x b).roundState = m.roundState := by cases b <;> rfl

@[simp] theorem cacheBlock_lockedValue (m : BftStateMachine C) (x : BlockHash) (b : Option Block) :
    (m.cacheBlock x b).lockedValue = m.lockedValue := by cases b <;> rfl

@[simp] theorem cacheBlock_lockedRound (m : BftStateMachine C) (x : BlockHash) (b : Option Block) :
    (m.cacheBlock x b).lockedRound = m.lockedRound := by cases b <;> rfl

@[simp] theorem cacheBlock_decidePrevote (m : BftStateMachine C) (x : BlockHash)
    (b : Option Block) (p : Proposal) :
    (m.cacheBlock x b).decidePrevote p = m.decidePrevote p := by cases b <;> rfl

end BftStateMachine

end Trv1Chain
