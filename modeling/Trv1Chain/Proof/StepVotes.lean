import Trv1Chain.Proof.CommitCertificate

/-!
# Entering a step

Two laws about the moment the machine enters a step.

A node that enters the prevote or the precommit step should vote on the way in, and does, but for
the propose timeout: there the handler's comment says it prevotes nil, and it prevotes nothing
(`votes_on_entry`).

A quorum should act whenever it is complete. `on_prevote` looks for one after every vote it counts
in the prevote step; but votes are counted before that step too, and neither way into it looks at
them. So the machine can sit in the prevote step on a complete polka, and the outcome depends on
whether the votes or the proposal came first (`polka_never_waits`).
-/

set_option autoImplicit false

namespace Trv1Chain

open Lib

/-- The votes among the messages. -/
def votesIn (out : List ConsensusMessage) : List Vote :=
  out.filterMap fun
    | .castVote v => some v
    | _ => none

@[simp] theorem votesIn_append (out out' : List ConsensusMessage) :
    votesIn (out ++ out') = votesIn out ++ votesIn out' := List.filterMap_append

/-- A prevote of the given height and round: what `on_prevote` counts there. -/
def Vote.PrevoteAt (v : Vote) (h : Height) (r : Round) : Prop :=
  v.height = h ∧ v.round = r ∧ v.voteType = .prevote

instance (v : Vote) (h : Height) (r : Round) : Decidable (v.PrevoteAt h r) :=
  inferInstanceAs (Decidable (_ ∧ _ ∧ _))

namespace BftStateMachine

variable {C : Crates}

/-- The propose timeout of the current height and round fires in the propose step. -/
def ProposeTimesOut (m : BftStateMachine C) (e : BftEvent) : Prop :=
  m.step = .propose ∧
    match e with
    | .timeout te => te = ⟨m.height, m.round, .propose⟩
    | _ => False

instance (m : BftStateMachine C) : ∀ e : BftEvent, Decidable (m.ProposeTimesOut e)
  | .timeout te => inferInstanceAs (Decidable (_ ∧ te = _))
  | .proposal _ _ => inferInstanceAs (Decidable (_ ∧ False))
  | .startRound _ => inferInstanceAs (Decidable (_ ∧ False))
  | .advanceHeight _ => inferInstanceAs (Decidable (_ ∧ False))
  | .prevote _ _ => inferInstanceAs (Decidable (_ ∧ False))
  | .precommit _ _ => inferInstanceAs (Decidable (_ ∧ False))

theorem handle_proposeTimeout {m : BftStateMachine C} (hs : m.step = .propose) :
    m.handle (.timeout ⟨m.height, m.round, .propose⟩) =
      some ({ m with step := .prevote }, [.scheduleTimeout ⟨m.height, m.round, .prevote⟩]) := by
  show m.onTimeout _ = _
  unfold onTimeout
  rw [if_neg (by simp)]
  dsimp only
  rw [if_pos hs]

/-! ## A vote on the way in -/

/-- A vote of the given type for the machine's height and round; for nil if the call was a
timeout. -/
def EntryVote (m : BftStateMachine C) (e : BftEvent) (t : VoteType) (v : Vote) : Prop :=
  v.voteType = t ∧ v.height = m.height ∧ v.round = m.round ∧
    ∀ te, e = .timeout te → v.blockHash = none

/-- A call that leaves the propose step for the prevote step casts a prevote, and one that leaves
the prevote step for the precommit step casts a precommit. -/
def VotesOnEntry (m : BftStateMachine C) (e : BftEvent) (m' : BftStateMachine C)
    (out : List ConsensusMessage) : Prop :=
  (m.step = .propose → m'.step = .prevote → ∃ v ∈ votesIn out, EntryVote m e .prevote v) ∧
    (m.step = .prevote → m'.step = .precommit → ∃ v ∈ votesIn out, EntryVote m e .precommit v)

/-- A call that stays in its step, or enters neither, owes no vote. -/
theorem VotesOnEntry.of_step {m m' : BftStateMachine C} {e : BftEvent}
    {out : List ConsensusMessage}
    (h : m'.step = m.step ∨ m'.step ≠ .prevote ∧ m'.step ≠ .precommit) :
    VotesOnEntry m e m' out := by
  constructor
  · intro hs hs'
    rcases h with h | h
    · rw [hs, hs'] at h
      cases h
    · exact absurd hs' h.1
  · intro hs hs'
    rcases h with h | h
    · rw [hs, hs'] at h
      cases h
    · exact absurd hs' h.2

/-- The precommit cast on the way out of the prevote step. -/
theorem VotesOnEntry.of_precommitFor {m m' : BftStateMachine C} {e : BftEvent}
    {b : Option BlockHash} {k : ValidatorId} {sig : Signature} (hs : m.step = .prevote)
    (hb : ∀ te, e = .timeout te → b = none) :
    VotesOnEntry m e m' [m.precommitFor b k sig] := by
  constructor
  · intro hs'
    rw [hs] at hs'
    cases hs'
  · intro _ _
    exact ⟨_, List.mem_singleton_self _, rfl, rfl, rfl, hb⟩

theorem Moves.votesOnEntry {m m' : BftStateMachine C} {e : BftEvent}
    {out : List ConsensusMessage} (hm : Moves m e m' out) (ht : ¬ m.ProposeTimesOut e) :
    VotesOnEntry m e m' out := by
  cases hm with
  | startRound r => exact .of_step (Or.inr ⟨by simp, by simp⟩)
  | advance h => exact .of_step (Or.inr ⟨by simp, by simp⟩)
  | ignore => exact .of_step (Or.inl rfl)
  | accept p block ha =>
    refine ⟨?_, ?_⟩
    · intro _ _
      refine ⟨_, List.mem_singleton_self _, rfl, cacheBlock_height _ _ _,
        cacheBlock_round _ _ _, ?_⟩
      intro te heq
      cases heq
    · intro hs
      rw [ha.2.2.1] at hs
      cases hs
  | prevote it v out hh hr hty ho => exact .of_step (Or.inl rfl)
  | lock it v b hh hr hty hs hq => exact .of_precommitFor hs fun te heq => by cases heq
  | precommitNil it v hh hr hty hs hq => exact .of_precommitFor hs fun _ _ => rfl
  | latePolka it v b hh hr hty hs hq => exact .of_step (Or.inl rfl)
  | precommit it v out hh hr hty ho => exact .of_step (Or.inl rfl)
  | commit it v b hh hr hty hs hq => exact .of_step (Or.inr ⟨by simp, by simp⟩)
  | proposeTimeout hs => exact absurd ⟨hs, rfl⟩ ht
  | prevoteTimeout v hs => exact .of_precommitFor hs fun _ _ => rfl
  | precommitTimeout hs => exact .of_step (Or.inr ⟨by simp, by simp⟩)

/-- **Every step entered is voted in, but one way.** In every run, from any machine and on any
calls, a call votes for the step it enters exactly when it is not the propose timeout firing in
the propose step. -/
theorem votes_on_entry {m₀ m : BftStateMachine C} {hist : History C}
    (hr : BftRun C (fun _ _ => True) m₀ hist m) :
    ∀ τ ∈ hist, VotesOnEntry τ.before τ.event τ.after τ.out ↔
      ¬ τ.before.ProposeTimesOut τ.event := by
  intro τ hτ
  obtain ⟨past, -, -, -, hs⟩ := hr.of_mem hτ
  constructor
  · intro hv ht
    obtain ⟨before, e, after, out⟩ := τ
    obtain ⟨hstep, hte⟩ := ht
    dsimp only at hstep hte hs hv
    cases e with
    | timeout te =>
      dsimp only at hte
      subst hte
      rw [handle_proposeTimeout hstep] at hs
      cases hs
      obtain ⟨v, hv, -⟩ := hv.1 hstep rfl
      cases hv
    | _ => exact hte
  · exact (handle_moves hs).votesOnEntry

def quadSilent : List BftEvent := [.startRound ⟨0⟩, .timeout ⟨⟨0⟩, ⟨0⟩, .propose⟩]

def quadTimely : List BftEvent :=
  [.startRound ⟨0⟩, quadProposal, quadPrevote 1, quadPrevote 2, quadPrevote 3]

/-- A round with its proposal: both steps are voted in. -/
theorem votes_on_entry_timely :
    ∃ hist m, BftRun Crates.sample (fun _ _ => True) quadMachine hist m ∧
      (votesIn (chronicle hist)).map (fun v => (v.voteType, v.blockHash)) =
        [(.prevote, some quadHash), (.precommit, some quadHash)] ∧
      ∀ τ ∈ hist, VotesOnEntry τ.before τ.event τ.after τ.out := by
  obtain ⟨hist, m, hr, hvotes, htimely⟩ : ∃ hist m,
      BftRun Crates.sample (fun _ _ => True) quadMachine hist m ∧
        (votesIn (chronicle hist)).map (fun v => (v.voteType, v.blockHash)) =
          [(.prevote, some quadHash), (.precommit, some quadHash)] ∧
        ∀ τ ∈ hist, ¬ τ.before.ProposeTimesOut τ.event :=
    Run.exists_of_replay quadTimely (by decide +kernel)
  exact ⟨hist, m, hr, hvotes, fun τ hτ => (votes_on_entry hr τ hτ).mpr (htimely τ hτ)⟩

/-- **A timeout casts no vote.** No proposal comes: the machine enters the prevote step and tells
nobody. -/
theorem timeout_casts_no_vote :
    ∃ hist m, BftRun Crates.sample (fun m e => ∀ t, VotesFromValidators t m e) quadMachine hist m ∧
      ∃ τ ∈ hist, τ.before.step = .propose ∧ τ.after.step = .prevote ∧ votesIn τ.out = [] ∧
        ¬ VotesOnEntry τ.before τ.event τ.after τ.out := by
  obtain ⟨hist, m, hr, τ, hτ, hs, hs', hv⟩ : ∃ hist m,
      BftRun Crates.sample (fun m e => ∀ t, VotesFromValidators t m e) quadMachine hist m ∧
        ∃ τ ∈ hist, τ.before.step = .propose ∧ τ.after.step = .prevote ∧ votesIn τ.out = [] :=
    Run.exists_of_replay quadSilent (by decide +kernel)
  refine ⟨hist, m, hr, τ, hτ, hs, hs', hv, ?_⟩
  intro hvotes
  obtain ⟨v, hmem, -⟩ := hvotes.1 hs hs'
  rw [hv] at hmem
  cases hmem

/-! ## No polka waits -/

/-- In the prevote step no quorum is left unused. -/
def Settled (m : BftStateMachine C) : Prop :=
  m.step = .prevote → m.roundState.prevotes.NoPolka

/-- The two ways into the prevote step: an accepted proposal and the propose timeout. -/
def Enters (m : BftStateMachine C) : BftEvent → Prop
  | .proposal p block => m.Accepts p block
  | .timeout te => m.step = .propose ∧ te = ⟨m.height, m.round, .propose⟩
  | _ => False

instance (m : BftStateMachine C) : ∀ e : BftEvent, Decidable (m.Enters e)
  | .proposal p block => inferInstanceAs (Decidable (m.Accepts p block))
  | .timeout _ => inferInstanceAs (Decidable (_ ∧ _))
  | .startRound _ => inferInstanceAs (Decidable False)
  | .advanceHeight _ => inferInstanceAs (Decidable False)
  | .prevote _ _ => inferInstanceAs (Decidable False)
  | .precommit _ _ => inferInstanceAs (Decidable False)

/-- When the call enters the prevote step, the prevotes counted so far hold no quorum. -/
def EntersEarly (m : BftStateMachine C) (e : BftEvent) : Prop :=
  m.Enters e → m.roundState.prevotes.NoPolka

instance (m : BftStateMachine C) (e : BftEvent) : Decidable (m.EntersEarly e) :=
  inferInstanceAs (Decidable (_ → _))

/-- The machine with other prevotes. -/
def withPrevotes (m : BftStateMachine C) (s : VoteSet C) : BftStateMachine C :=
  { m with roundState := { m.roundState with prevotes := s } }

/-- Entering the prevote step keeps the prevotes, and does not look at them. -/
theorem Enters.handle {m : BftStateMachine C} {e : BftEvent} (he : m.Enters e) :
    ∃ m' out, m.handle e = some (m', out) ∧ m.step = .propose ∧ m'.step = .prevote ∧
      m'.height = m.height ∧ m'.round = m.round ∧
      m'.roundState.prevotes = m.roundState.prevotes ∧
      ∀ s, (m.withPrevotes s).handle e = some (m'.withPrevotes s, out) := by
  cases e with
  | proposal p block =>
    have he : m.Accepts p block := he
    refine ⟨_, _, handle_accepted he, he.2.2.1, rfl, ?_, ?_, ?_, ?_⟩
    · exact cacheBlock_height m _ _
    · exact cacheBlock_round m _ _
    · simp
    · intro s
      have he' : (m.withPrevotes s).Accepts p block := he
      rw [handle_accepted he']
      cases block <;> rfl
  | timeout te =>
    obtain ⟨hs, rfl⟩ : m.step = .propose ∧ te = ⟨m.height, m.round, .propose⟩ := he
    exact ⟨_, _, handle_proposeTimeout hs, hs, rfl, rfl, rfl, rfl,
      fun s => handle_proposeTimeout (m := m.withPrevotes s) hs⟩
  | startRound r => exact he.elim
  | advanceHeight h => exact he.elim
  | prevote it v => exact he.elim
  | precommit it v => exact he.elim

/-- `on_prevote` leaves the prevote step on the vote that completes a quorum. -/
theorem Settled.onPrevote {m : BftStateMachine C} (h : m.Settled) (it : CountOrder) (v : Vote) :
    (m.onPrevote it v).1.Settled := by
  unfold BftStateMachine.onPrevote
  split
  · exact h
  split
  · exact h
  dsimp only
  split
  · split
    · intro hs
      cases hs
    · rename_i hq
      split
      · intro hs
        cases hs
      · rename_i hnil
        have hno : (m.addPrevote v).roundState.prevotes.NoPolka :=
          (VoteSet.noPolka_iff it).mpr ⟨hq, by simpa using hnil⟩
        split <;> exact fun _ => hno
  · rename_i hs
    split
    · intro hs'
      exact absurd (hs.symm.trans hs') (by simp)
    · intro hs'
      exact absurd (hs.symm.trans hs') (by simp)
  · rename_i hs _
    intro hs'
    exact absurd hs' hs

/-- A call that does not enter the prevote step leaves a settled machine settled. -/
theorem Settled.step {m m' : BftStateMachine C} {e : BftEvent} {out : List ConsensusMessage}
    (h : m.Settled) (hs : m.handle e = some (m', out)) (hne : ¬ m.Enters e) : m'.Settled := by
  have hm := handle_moves hs
  cases e with
  | prevote it v =>
    have hout := congrArg Prod.fst (Option.some.inj hs)
    dsimp only at hout
    rw [← hout]
    exact h.onPrevote it v
  | startRound r =>
    cases hs
    intro hst
    cases hst
  | advanceHeight h' =>
    cases hs
    intro hst
    cases hst
  | proposal p block =>
    cases hm with
    | ignore => exact h
    | accept _ _ ha => exact absurd ha hne
  | precommit it v =>
    cases hm with
    | ignore => exact h
    | precommit => exact h
    | commit =>
      intro hst
      cases hst
  | timeout te =>
    cases hm with
    | ignore => exact h
    | proposeTimeout hst => exact absurd ⟨hst, rfl⟩ hne
    | prevoteTimeout v hst =>
      intro hst
      cases hst
    | precommitTimeout hst =>
      intro hst
      cases hst

theorem settled_handle {m m' : BftStateMachine C} {e : BftEvent} {out : List ConsensusMessage}
    (h : m.Settled) (hs : m.handle e = some (m', out)) : m'.Settled ↔ m.EntersEarly e := by
  by_cases he : m.Enters e
  · obtain ⟨m₁, out₁, hs₁, -, hstep, -, -, hprevotes, -⟩ := he.handle
    rw [hs] at hs₁
    cases hs₁
    constructor
    · intro hset _
      rw [← hprevotes]
      exact hset hstep
    · intro hno _
      rw [hprevotes]
      exact hno he
  · exact iff_of_true (h.step hs he) fun h => absurd h he

/-! ### Votes before and after -/

/-- A list of prevotes delivered one after the other, each with the order its count is met in. -/
def deliver (m : BftStateMachine C) :
    List (CountOrder × Vote) → BftStateMachine C × List ConsensusMessage
  | [] => (m, [])
  | (it, v) :: votes =>
    (((m.onPrevote it v).1.deliver votes).1,
      (m.onPrevote it v).2 ++ ((m.onPrevote it v).1.deliver votes).2)

/-- The prevotes of height `h` and round `r` in a list, added to a set. -/
def collect (h : Height) (r : Round) : VoteSet C → List (CountOrder × Vote) → VoteSet C
  | s, [] => s
  | s, (_, v) :: votes => collect h r (if v.PrevoteAt h r then (s.addVote v).1 else s) votes

theorem onPrevote_ignored {m : BftStateMachine C} {it : CountOrder} {v : Vote}
    (h : ¬ v.PrevoteAt m.height m.round) : m.onPrevote it v = (m, []) := by
  unfold onPrevote
  split
  · rfl
  rename_i hhr
  push Not at hhr
  rw [if_pos fun ht => h ⟨hhr.1, hhr.2, ht⟩]

/-- Before the prevote step the vote is counted and nothing else happens. -/
theorem onPrevote_propose {m : BftStateMachine C} (hs : m.step = .propose) {v : Vote}
    (hc : v.PrevoteAt m.height m.round) (it : CountOrder) :
    m.onPrevote it v = (m.addPrevote v, []) := by
  obtain ⟨hh, hr, ht⟩ := hc
  unfold onPrevote
  rw [if_neg (by simp [hh, hr]), if_neg (by simp [ht])]
  dsimp only
  rw [show (m.addPrevote v).step = .propose from hs]

/-- In it, a vote that completes no quorum is counted, and at most a timeout scheduled. -/
theorem onPrevote_prevote {m : BftStateMachine C} (hs : m.step = .prevote) {v : Vote}
    (hc : v.PrevoteAt m.height m.round)
    (hno : (m.addPrevote v).roundState.prevotes.NoPolka) (it : CountOrder) :
    (m.onPrevote it v).1 = m.addPrevote v ∧ votesIn (m.onPrevote it v).2 = [] := by
  obtain ⟨hh, hr, ht⟩ := hc
  obtain ⟨hq, hnil⟩ := (VoteSet.noPolka_iff it).mp hno
  unfold onPrevote
  rw [if_neg (by simp [hh, hr]), if_neg (by simp [ht])]
  dsimp only
  rw [show (m.addPrevote v).step = .prevote from hs]
  dsimp only
  rw [hq]
  dsimp only
  rw [if_neg (by simp [hnil])]
  split <;> exact ⟨rfl, rfl⟩

theorem onPrevote_frame (m : BftStateMachine C) (it : CountOrder) (v : Vote) :
    (m.onPrevote it v).1.height = m.height ∧ (m.onPrevote it v).1.round = m.round ∧
      (m.onPrevote it v).1.roundState.prevotes =
        if v.PrevoteAt m.height m.round then (m.roundState.prevotes.addVote v).1
        else m.roundState.prevotes := by
  by_cases hc : v.PrevoteAt m.height m.round
  · obtain ⟨hh, hr, ht⟩ := id hc
    rw [if_pos hc]
    unfold onPrevote
    rw [if_neg (by simp [hh, hr]), if_neg (by simp [ht])]
    dsimp only
    -- whatever the step, the vote went into the set first
    split
    · split
      · exact ⟨rfl, rfl, rfl⟩
      · split
        · exact ⟨rfl, rfl, rfl⟩
        · split <;> exact ⟨rfl, rfl, rfl⟩
    · split <;> exact ⟨rfl, rfl, rfl⟩
    · exact ⟨rfl, rfl, rfl⟩
  · rw [onPrevote_ignored hc, if_neg hc]
    exact ⟨rfl, rfl, rfl⟩

theorem deliver_prevotes (votes : List (CountOrder × Vote)) (m : BftStateMachine C) :
    (m.deliver votes).1.roundState.prevotes =
      collect m.height m.round m.roundState.prevotes votes := by
  induction votes generalizing m with
  | nil => rfl
  | cons x votes ih =>
    obtain ⟨it, v⟩ := x
    obtain ⟨hh, hr, hp⟩ := m.onPrevote_frame it v
    show ((m.onPrevote it v).1.deliver votes).1.roundState.prevotes = _
    rw [ih, hh, hr, hp]
    rfl

theorem Settled.deliver {m : BftStateMachine C} (h : m.Settled) (votes : List (CountOrder × Vote)) :
    (m.deliver votes).1.Settled := by
  induction votes generalizing m with
  | nil => exact h
  | cons x votes ih => exact ih (h.onPrevote x.1 x.2)

theorem noPolka_of_collect {h : Height} {r : Round} (votes : List (CountOrder × Vote))
    {s : VoteSet C} (hno : (collect h r s votes).NoPolka) : s.NoPolka := by
  induction votes generalizing s with
  | nil => exact hno
  | cons x votes ih =>
    have hhead := ih hno
    split at hhead
    · exact hhead.of_addVote
    · exact hhead

/-- Votes that come before the prevote step are collected, and no more. -/
theorem deliver_propose (votes : List (CountOrder × Vote)) {m : BftStateMachine C}
    (hs : m.step = .propose) :
    m.deliver votes =
      (m.withPrevotes (collect m.height m.round m.roundState.prevotes votes), []) := by
  induction votes generalizing m with
  | nil => rfl
  | cons x votes ih =>
    obtain ⟨it, v⟩ := x
    unfold deliver collect
    by_cases hc : v.PrevoteAt m.height m.round
    · rw [onPrevote_propose hs hc, if_pos hc, ih (m := m.addPrevote v) hs]
      rfl
    · rw [onPrevote_ignored hc, if_neg hc, ih hs]
      rfl

/-- Votes that complete no quorum leave the machine in the prevote step, and draw no vote. -/
theorem deliver_prevote (votes : List (CountOrder × Vote)) {m : BftStateMachine C}
    (hs : m.step = .prevote)
    (hno : (collect m.height m.round m.roundState.prevotes votes).NoPolka) :
    (m.deliver votes).1.step = .prevote ∧ votesIn (m.deliver votes).2 = [] := by
  induction votes generalizing m with
  | nil => exact ⟨hs, rfl⟩
  | cons x votes ih =>
    obtain ⟨it, v⟩ := x
    unfold deliver
    unfold collect at hno
    dsimp only
    rw [votesIn_append]
    by_cases hc : v.PrevoteAt m.height m.round
    · rw [if_pos hc] at hno
      obtain ⟨heq, hquiet⟩ := onPrevote_prevote hs hc (noPolka_of_collect votes hno) it
      rw [heq, hquiet]
      exact ih (m := m.addPrevote v) hs hno
    · rw [if_neg hc] at hno
      rw [onPrevote_ignored hc]
      exact ih hs hno

/-- Whether the prevotes are delivered before the call or after it, the machine comes to the same
step and casts the same votes. -/
def EitherOrder (m : BftStateMachine C) (e : BftEvent) (votes : List (CountOrder × Vote)) : Prop :=
  ∃ m₁ out₁ m₂ out₂, m.handle e = some (m₁, out₁) ∧
    (m.deliver votes).1.handle e = some (m₂, out₂) ∧ m₂.step = (m₁.deliver votes).1.step ∧
    votesIn ((m.deliver votes).2 ++ out₂) = votesIn (out₁ ++ (m₁.deliver votes).2)

/-- From a machine that holds no quorum yet, the order makes no difference exactly when the
prevotes complete none. -/
theorem eitherOrder_iff {m : BftStateMachine C} {e : BftEvent} (he : m.Enters e)
    (h₀ : m.roundState.prevotes.NoPolka) (votes : List (CountOrder × Vote)) :
    m.EitherOrder e votes ↔ (m.deliver votes).1.roundState.prevotes.NoPolka := by
  obtain ⟨m₁, out₁, hs₁, hstep, hstep₁, hh, hr, hp, hwith⟩ := he.handle
  have hset : m₁.Settled := by
    intro _
    rw [hp]
    exact h₀
  have hsame : (m₁.deliver votes).1.roundState.prevotes =
      (m.deliver votes).1.roundState.prevotes := by
    rw [deliver_prevotes, deliver_prevotes, hh, hr, hp]
  have hearly := deliver_propose votes hstep
  have hs₂ : (m.deliver votes).1.handle e =
      some (m₁.withPrevotes (collect m.height m.round m.roundState.prevotes votes), out₁) := by
    rw [hearly]
    exact hwith _
  constructor
  · intro ⟨m₁', out₁', m₂, out₂, hs₁', hs₂', hst, _⟩
    rw [hs₁] at hs₁'
    rw [hs₂] at hs₂'
    cases hs₁'
    cases hs₂'
    -- votes first, the machine is in the prevote step; so is it then, votes last
    rw [← hsame]
    exact hset.deliver votes (hst.symm.trans hstep₁)
  · intro hno
    rw [deliver_prevotes, ← hh, ← hr, ← hp] at hno
    obtain ⟨hst, hquiet⟩ := deliver_prevote votes hstep₁ hno
    refine ⟨m₁, out₁, _, out₁, hs₁, hs₂, hstep₁.trans hst.symm, ?_⟩
    rw [hearly, votesIn_append, votesIn_append, hquiet]
    exact (List.append_nil _).symm

/-- **No polka waits, if none comes early.** A run of the machine, on any calls, keeps the prevote
step free of complete quorums exactly when none is complete by the time the step is entered. And
in the state it reaches, the round's prevotes may come before or after the call that enters the
step exactly when they complete no quorum. -/
theorem polka_never_waits {height : Height} {validators : List ValidatorId} {idx : Option Nat}
    {tc : TimeoutConfig} {hist : History C} {m : BftStateMachine C}
    (hr : BftRun C (fun _ _ => True) (new C height validators idx tc) hist m) :
    ((∀ τ ∈ hist, τ.after.step = .prevote → τ.after.roundState.prevotes.NoPolka) ↔
        ∀ τ ∈ hist, τ.before.EntersEarly τ.event) ∧
      ∀ e votes, m.Enters e → m.roundState.prevotes.NoPolka →
        (m.EitherOrder e votes ↔ (m.deliver votes).1.roundState.prevotes.NoPolka) := by
  refine ⟨hr.always_iff (I := Settled) ?_ settled_handle, ?_⟩
  · intro hs
    cases hs
  · intro e votes he h₀
    exact eitherOrder_iff he h₀ votes

/-- The proposal first, the votes after it. -/
theorem polka_never_waits_timely :
    ∃ hist m, BftRun Crates.sample (fun _ _ => True) quadMachine hist m ∧ m.step = .precommit ∧
      ∀ τ ∈ hist, τ.after.step = .prevote → τ.after.roundState.prevotes.NoPolka := by
  obtain ⟨hist, m, hr, hstep, hearly⟩ : ∃ hist m,
      BftRun Crates.sample (fun _ _ => True) quadMachine hist m ∧ m.step = .precommit ∧
        ∀ τ ∈ hist, τ.before.EntersEarly τ.event :=
    Run.exists_of_replay quadTimely (by decide +kernel)
  exact ⟨hist, m, hr, hstep, (polka_never_waits hr).1.mpr hearly⟩

def quadOvertaken : List BftEvent :=
  [.startRound ⟨0⟩, quadPrevote 1, quadPrevote 2, quadPrevote 3, quadProposal]

/-- **A polka waits.** The votes of the other three overtake the proposal: the machine enters the
prevote step on a complete quorum, and stays there. -/
theorem polka_waits :
    ∃ hist m, BftRun Crates.sample (fun m e => ∀ t, VotesFromValidators t m e) quadMachine hist m ∧
      m.step = .prevote ∧ m.roundState.prevotes.hasQuorumFor quadHash = true := by
  exact Run.exists_of_replay quadOvertaken (by decide +kernel)

end BftStateMachine

end Trv1Chain
