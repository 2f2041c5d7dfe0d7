import Trv1Chain.Bft.History

/-!
# At most one vote

The machine votes from four handlers, guarded by nothing but its `step`. What rules a second
vote out is a clock: height, then round, then step, with a commit later than every round of its
height. No call turns it back, a vote is cast only by a turn that moves it, and the vote names
the reading it was moved to.

The clock is one number, so that its steps are arithmetic.
-/

set_option autoImplicit false

namespace Trv1Chain

open Lib

namespace BftStateMachine

variable {C : Crates}

/-- Within a round: prevoting is later than proposing, precommitting than prevoting. -/
def stepRank : RoundStep → Nat
  | .newRound => 0
  | .propose => 1
  | .prevote => 2
  | .precommit => 3
  | .commit => 0

/-- The reading for a height, a round (`2 ^ 32` for a committed height) and a step. -/
def reading (height : Height) (round rank : Nat) : Nat :=
  (height.val.toNat * (2 ^ 32 + 1) + round) * 4 + rank

def clock (m : BftStateMachine C) : Nat :=
  match m.step with
  | .commit => reading m.height (2 ^ 32) 0
  | s => reading m.height m.round.val.toNat (stepRank s)

/-- The rank of the step that casting a vote leads to. -/
def voteRank : VoteType → Nat
  | .prevote => stepRank .prevote
  | .precommit => stepRank .precommit

/-- The reading a vote or a commit stands for. -/
def stamp : ConsensusMessage → Option Nat
  | .castVote v => some (reading v.height v.round.val.toNat (voteRank v.voteType))
  | .commitBlock h _ => some (reading h (2 ^ 32) 0)
  | _ => none

/-- Calls that do not turn the clock back: no `start_round` from outside, `advance_height` only
to larger heights, and no timeout that would wrap the round number. -/
def NoRewind (m : BftStateMachine C) : BftEvent → Prop
  | .startRound _ => False
  | .advanceHeight h => m.height.val < h.val
  | .timeout te => te = ⟨m.height, m.round, .precommit⟩ → m.step = .precommit →
      m.round.val.toNat + 1 < 2 ^ 32
  | _ => True

instance (m : BftStateMachine C) : ∀ e : BftEvent, Decidable (m.NoRewind e)
  | .startRound _ => inferInstanceAs (Decidable False)
  | .advanceHeight h => inferInstanceAs (Decidable (m.height.val < h.val))
  | .timeout te => inferInstanceAs (Decidable
      (te = ⟨m.height, m.round, .precommit⟩ → m.step = .precommit →
        m.round.val.toNat + 1 < 2 ^ 32))
  | .proposal .. => inferInstanceAs (Decidable True)
  | .prevote .. => inferInstanceAs (Decidable True)
  | .precommit .. => inferInstanceAs (Decidable True)

theorem clock_le (m : BftStateMachine C) :
    reading m.height m.round.val.toNat 0 ≤ m.clock ∧ m.clock ≤ reading m.height (2 ^ 32) 0 := by
  have := m.round.val.toNat_lt
  unfold clock
  cases m.step <;> simp only [reading, stepRank] <;> omega

theorem clock_of_step {m : BftStateMachine C} {s : RoundStep} (h : m.step = s)
    (hs : s ≠ .commit) : m.clock = reading m.height m.round.val.toNat (stepRank s) := by
  unfold clock
  rw [h]
  cases s <;> first | rfl | exact absurd rfl hs

theorem clock_lt_commit {m : BftStateMachine C} (h : m.step ≠ .commit) :
    m.clock < reading m.height (2 ^ 32) 0 := by
  have := m.round.val.toNat_lt
  rw [clock_of_step rfl h]
  unfold reading
  cases m.step <;> simp only [stepRank] <;> omega

/-- A turn that stays where it was and answers nothing stamped. -/
theorem ticks_stay {m m' : BftStateMachine C} {out : List ConsensusMessage}
    (hh : m'.height = m.height) (hr : m'.round = m.round) (hs : m'.step = m.step)
    (hout : out.filterMap stamp = []) : Run.Ticks clock stamp m m' out := by
  refine ⟨le_of_eq ?_, Or.inl hout⟩
  unfold clock
  rw [hh, hr, hs]

/-- A turn within the round, to a later step, that answers nothing stamped or the reading it
moves to. -/
theorem ticks_step {m m' : BftStateMachine C} {out : List ConsensusMessage} (s s' : RoundStep)
    (hs : m.step = s) (hs' : m'.step = s') (hlt : stepRank s < stepRank s')
    (hc : s ≠ .commit) (hc' : s' ≠ .commit) (hh : m'.height = m.height) (hr : m'.round = m.round)
    (hout : out.filterMap stamp = [] ∨
      out.filterMap stamp = [reading m.height m.round.val.toNat (stepRank s')]) :
    Run.Ticks clock stamp m m' out := by
  have hclock : m'.clock = reading m.height m.round.val.toNat (stepRank s') := by
    rw [clock_of_step hs' hc', hh, hr]
  have hmove : m.clock < m'.clock := by
    rw [hclock, clock_of_step hs hc]
    unfold reading
    omega
  refine ⟨le_of_lt hmove, ?_⟩
  cases hout with
  | inl hnil => exact Or.inl hnil
  | inr hone => exact Or.inr ⟨by rw [hclock, hone], hmove⟩

/-- **The clock ticks.** One case per move. -/
theorem Moves.ticks {m m' : BftStateMachine C} {e : BftEvent} {out : List ConsensusMessage}
    (hg : NoRewind m e) (hm : Moves m e m' out) : Run.Ticks clock stamp m m' out := by
  cases hm with
  | startRound r => exact absurd hg (by simp [NoRewind])
  | advance h =>
    have hlt : m.height.val.toNat < h.val.toNat := hg
    refine ⟨?_, Or.inl rfl⟩
    have hnew : (m.advanceHeight h).1.clock = reading h 0 1 := rfl
    have := m.clock_le.2
    rw [hnew]
    unfold reading at *
    omega
  | ignore => exact ⟨le_refl _, Or.inl rfl⟩
  | accept p block ha =>
    refine ticks_step .propose .prevote ha.2.2.1 rfl (by decide) (by decide) (by decide) ?_ ?_
      (Or.inr ?_)
    · simp [recordProposal]
    · simp [recordProposal]
    · simp [recordProposal, stamp, voteRank]
  | prevote it v out hh hr ht ho =>
    refine ticks_stay rfl rfl rfl ?_
    rcases ho with rfl | rfl <;> rfl
  | lock it v b hh hr ht hs hq =>
    exact ticks_step .prevote .precommit hs rfl (by decide) (by decide) (by decide) rfl rfl
      (Or.inr rfl)
  | precommitNil it v hh hr ht hs hq =>
    exact ticks_step .prevote .precommit hs rfl (by decide) (by decide) (by decide) rfl rfl
      (Or.inr rfl)
  | latePolka it v b hh hr ht hs hq => exact ticks_stay rfl rfl rfl rfl
  | precommit it v out hh hr ht ho =>
    refine ticks_stay rfl rfl rfl ?_
    rcases ho with rfl | rfl <;> rfl
  | commit it v b hh hr ht hs hq =>
    -- a commit may come in any step, a propose or prevote step it skips included
    have hlt := clock_lt_commit hs
    exact ⟨le_of_lt hlt, Or.inr ⟨rfl, hlt⟩⟩
  | proposeTimeout hs =>
    exact ticks_step .propose .prevote hs rfl (by decide) (by decide) (by decide) rfl rfl
      (Or.inl rfl)
  | prevoteTimeout v hs =>
    exact ticks_step .prevote .precommit hs rfl (by decide) (by decide) (by decide) rfl rfl
      (Or.inr rfl)
  | precommitTimeout hs =>
    refine ⟨?_, Or.inl rfl⟩
    have hwrap := hg rfl hs
    have hnext : (m.round.val + 1).toNat = m.round.val.toNat + 1 := by
      rw [UInt32.toNat_add]; exact Nat.mod_eq_of_lt hwrap
    rw [clock_of_step hs (by decide), clock_of_step (s := .propose) rfl (by decide)]
    show reading m.height _ _ ≤ reading m.height (m.round.val + 1).toNat _
    rw [hnext]
    unfold reading
    simp only [stepRank]
    omega

/-! ## Runs -/

/-- Whether a message is a vote of type `t` for `(h, r)`. -/
def isVote (t : VoteType) (h : Height) (r : Round) : ConsensusMessage → Bool
  | .castVote v => v.voteType = t ∧ v.height = h ∧ v.round = r
  | _ => false

def isCommit (h : Height) : ConsensusMessage → Bool
  | .commitBlock h' _ => h' = h
  | _ => false

theorem stamp_of_isVote {t : VoteType} {h : Height} {r : Round} {o : ConsensusMessage}
    (ho : isVote t h r o = true) : stamp o = some (reading h r.val.toNat (voteRank t)) := by
  cases o with
  | castVote v =>
    obtain ⟨rfl, rfl, rfl⟩ : v.voteType = t ∧ v.height = h ∧ v.round = r := by
      simpa [isVote] using ho
    rfl
  | proposeBlock p b => exact absurd ho (by simp [isVote])
  | commitBlock h' b => exact absurd ho (by simp [isVote])
  | scheduleTimeout te => exact absurd ho (by simp [isVote])

theorem stamp_of_isCommit {h : Height} {o : ConsensusMessage} (ho : isCommit h o = true) :
    stamp o = some (reading h (2 ^ 32) 0) := by
  cases o with
  | commitBlock h' b =>
    obtain rfl : h' = h := by simpa [isCommit] using ho
    rfl
  | proposeBlock p b => exact absurd ho (by simp [isCommit])
  | castVote v => exact absurd ho (by simp [isCommit])
  | scheduleTimeout te => exact absurd ho (by simp [isCommit])

variable {G : BftStateMachine C → BftEvent → Prop} {m₀ m : BftStateMachine C} {hist : History C}

theorem countP_le_one_of_stamp (hG : ∀ m e, G m e → NoRewind m e) (hr : BftRun C G m₀ hist m)
    {p : ConsensusMessage → Bool} {t : Nat} (hp : ∀ o, p o = true → stamp o = some t) :
    (outputs hist).countP p ≤ 1 := by
  have hle : (outputs hist).countP p ≤ (outputs hist).countP fun o => stamp o == some t := by
    refine List.countP_mono_left fun o _ ho => ?_
    rw [hp o ho, beq_self_eq_true]
  exact hle.trans (hr.stamp_count (fun _ hg hs => (handle_moves hs).ticks (hG _ _ hg)) t)

theorem countP_isVote (hG : ∀ m e, G m e → NoRewind m e) (hr : BftRun C G m₀ hist m)
    (t : VoteType) (h : Height) (r : Round) : (outputs hist).countP (isVote t h r) ≤ 1 :=
  countP_le_one_of_stamp hG hr fun _ => stamp_of_isVote

theorem castVote_unique (hG : ∀ m e, G m e → NoRewind m e) (hr : BftRun C G m₀ hist m)
    {v w : Vote} (hv : .castVote v ∈ outputs hist) (hw : .castVote w ∈ outputs hist)
    (ht : v.voteType = w.voteType) (hh : v.height = w.height) (hrd : v.round = w.round) :
    v = w := by
  have := eq_of_countP_le_one (countP_isVote hG hr w.voteType w.height w.round) hv hw
    (by simp [isVote, ht, hh, hrd]) (by simp [isVote])
  exact ConsensusMessage.castVote.inj this

/-- **No equivocation.** From `new()` and `start_round(Round(0))`, through any calls that do not
turn the clock back, the machine casts at most one prevote and at most one precommit for each
height and round and commits each height at most once; so what it hands out to be signed never
names two values for one type, height and round. -/
theorem no_equivocation {height : Height} {validators : List ValidatorId} {idx : Option Nat}
    {tc : TimeoutConfig}
    (hr : BftRun C NoRewind ((new C height validators idx tc).startRound ⟨0⟩).1 hist m) :
    (∀ t h r, (outputs hist).countP (isVote t h r) ≤ 1) ∧
      (∀ h, (outputs hist).countP (isCommit h) ≤ 1) ∧
      ∀ v w, .castVote v ∈ outputs hist → .castVote w ∈ outputs hist →
        v.voteType = w.voteType → v.height = w.height → v.round = w.round →
        Vote.signBytes v.voteType v.height v.round v.blockHash =
          Vote.signBytes w.voteType w.height w.round w.blockHash := by
  have hG : ∀ m e, NoRewind m e → NoRewind (C := C) m e := fun _ _ h => h
  refine ⟨countP_isVote hG hr, fun h => ?_, fun v w hv hw ht hh hrd => ?_⟩
  · exact countP_le_one_of_stamp hG hr fun _ => stamp_of_isCommit
  · rw [castVote_unique hG hr hv hw ht hh hrd]

/-- One validator alone takes its own proposal, prevote and precommit, and then a new height. -/
def loneEvents : List BftEvent :=
  let key := Crates.sampleKey 1
  let hash : BlockHash := ⟨Bytes.fill 32 7⟩
  [.proposal ⟨⟨0⟩, ⟨0⟩, hash, ⟨key⟩, Bytes.fill 64 0, none⟩ none,
   .prevote IterOrder.stored (Vote.new Crates.sample .prevote ⟨0⟩ ⟨0⟩ (some hash) key),
   .precommit IterOrder.stored (Vote.new Crates.sample .precommit ⟨0⟩ ⟨0⟩ (some hash) key),
   .advanceHeight ⟨1⟩]

def loneMachine : BftStateMachine Crates.sample :=
  ((new Crates.sample ⟨0⟩ [⟨Crates.sampleKey 1⟩] (some 0) TimeoutConfig.default).startRound ⟨0⟩).1

theorem lone_replays : (Run.replay handle loneMachine [] loneEvents).isSome = true := by
  decide +kernel

theorem no_equivocation_lone :
    (outputs ((Run.replay handle loneMachine [] loneEvents).get lone_replays).1).countP
      (isVote .precommit ⟨0⟩ ⟨0⟩) ≤ 1 :=
  (no_equivocation (Run.of_replay_get lone_replays (by decide +kernel))).1 .precommit ⟨0⟩ ⟨0⟩

end BftStateMachine

end Trv1Chain
