import Trv1Chain.Proof.Proposals
import Trv1Chain.Proof.Replica

/-!
# When consensus halts

A round is left in two ways only: by a commit, or by the timer that `on_precommit` starts once more
than two thirds of the validators have precommitted something. A node does not count its own votes,
for they go to the network and not into its machine. So a node that hears precommits of no more than
two thirds of the validators, itself not among them, decides nothing and stays in its round for good
(`halts_below_two_thirds`). Of `n` validators at most `n / 3 - 1` may be down: with one down,
networks of up to six stand still. A node that the others have left behind hears nothing for its own
round at all: their later votes do not count, and no node sends what it has committed.
-/

set_option autoImplicit false

namespace Trv1Chain

open Lib

/-! ## Counting what was heard -/

namespace VoteSet

variable {C : Crates}

/-- All votes in the set are of these validators. -/
def Within (S : Finset ValidatorId) (s : VoteSet C) : Prop :=
  ∀ e ∈ s.votes.entries, (⟨e.1⟩ : ValidatorId) ∈ S

theorem Within.count_le {S : Finset ValidatorId} {s : VoteSet C} (h : s.Within S) :
    s.count ≤ S.card := by
  have hinj : Function.Injective (fun k : Bytes 32 => (⟨k⟩ : ValidatorId)) :=
    fun a b h => ValidatorId.mk.inj h
  have hnodup : (s.votes.entries.map fun e => (⟨e.1⟩ : ValidatorId)).Nodup := by
    have hkeys := List.Nodup.map hinj s.votes.nodupKeys
    rwa [List.keys, List.map_map] at hkeys
  have hsub : (s.votes.entries.map fun e => (⟨e.1⟩ : ValidatorId)).toFinset ⊆ S := by
    intro k hk
    obtain ⟨e, he, rfl⟩ := List.mem_map.mp (List.mem_toFinset.mp hk)
    exact h e he
  have hcard := Finset.card_le_card hsub
  rwa [List.toFinset_card_of_nodup hnodup, List.length_map] at hcard

theorem countFor_le_count (s : VoteSet C) (b : Option BlockHash) : s.countFor b ≤ s.count :=
  List.length_filter_le _ _

/-- Two thirds are not more than two thirds. -/
theorem Within.not_isQuorum {S : Finset ValidatorId} {s : VoteSet C} (h : s.Within S)
    (hS : 3 * S.card ≤ 2 * s.totalValidators) {count : Nat} (hcount : count ≤ s.count) :
    s.isQuorum count = false := by
  have hle := h.count_le
  unfold isQuorum
  rw [decide_eq_false_iff_not]
  omega

theorem Within.addVote {S : Finset ValidatorId} {s : VoteSet C} (h : s.Within S) {v : Vote}
    (hv : v.verify C = true → v.validator ∈ S) : (s.addVote v).1.Within S := by
  intro e he
  rcases s.addVote_cases v with hsame | ⟨hadm, hentries⟩
  · rw [hsame] at he
    exact h e he
  · rw [hentries] at he
    rcases List.mem_cons.mp he with rfl | he
    · exact hv hadm.2.2.2.1
    · exact h e he

end VoteSet

/-! ## The machine -/

namespace BftStateMachine

variable {C : Crates} {S : Finset ValidatorId}

/-- The machine is at `h` and `r`, and has heard precommits of `S` only, too few for anything. -/
structure Deaf (S : Finset ValidatorId) (h : Height) (r : Round) (m : BftStateMachine C) :
    Prop where
  height : m.height = h
  round : m.round = r
  within : m.roundState.precommits.Within S
  few : 3 * S.card ≤ 2 * m.roundState.precommits.totalValidators

/-- A call that leaves a deaf machine deaf: no new round or height from outside, a precommit of `S`
only, and no timeout of the precommit step. -/
def Faint (S : Finset ValidatorId) (h : Height) (r : Round) : BftEvent → Prop
  | .startRound _ => False
  | .advanceHeight _ => False
  | .precommit _ v => v.height = h → v.round = r → v.verify C = true → v.validator ∈ S
  | .timeout te => te ≠ ⟨h, r, .precommit⟩
  | .proposal .. => True
  | .prevote .. => True

/-- What it answers decides nothing and starts no timer of the precommit step. -/
def Idle (out : List ConsensusMessage) : Prop :=
  (∀ h x, .commitBlock h x ∉ out) ∧ ∀ te, .scheduleTimeout te ∈ out → te.step ≠ .precommit

variable {h : Height} {r : Round} {m m' : BftStateMachine C}

theorem Deaf.onPrecommit (hd : Deaf S h r m) (it : CountOrder) {v : Vote}
    (hv : v.height = h → v.round = r → v.verify C = true → v.validator ∈ S) :
    Deaf S h r (m.onPrecommit it v).1 ∧ (m.onPrecommit it v).2 = [] := by
  unfold BftStateMachine.onPrecommit
  split
  · exact ⟨hd, rfl⟩
  rename_i hhere
  rw [not_or, not_not, not_not, hd.height, hd.round] at hhere
  split
  · exact ⟨hd, rfl⟩
  have hwithin : (m.addPrecommit v).roundState.precommits.Within S :=
    hd.within.addVote (hv hhere.1 hhere.2)
  have hfew : 3 * S.card ≤ 2 * (m.addPrecommit v).roundState.precommits.totalValidators := by
    show 3 * S.card ≤ 2 * (m.roundState.precommits.addVote v).1.totalValidators
    rw [(m.roundState.precommits.addVote_frame v).2.2.2]
    exact hd.few
  have hdeaf : Deaf S h r (m.addPrecommit v) := ⟨hd.height, hd.round, hwithin, hfew⟩
  dsimp only
  cases hq : (m.addPrecommit v).roundState.precommits.quorumBlock it with
  | some b =>
    have hquorum := VoteSet.quorumBlock_some hq
    unfold VoteSet.hasQuorumFor at hquorum
    rw [hwithin.not_isQuorum hfew (VoteSet.countFor_le_count _ _)] at hquorum
    cases hquorum
  | none =>
    have hany : (m.addPrecommit v).roundState.precommits.hasTwoThirdsAny = false :=
      hwithin.not_isQuorum hfew (Nat.le_refl _)
    dsimp only
    rw [hany, if_neg (by simp)]
    exact ⟨hdeaf, rfl⟩

/-- **A faint call changes neither the round nor the height**, and answers with nothing that
could. -/
theorem Deaf.handle (hd : Deaf S h r m) {e : BftEvent} (he : Faint (C := C) S h r e)
    {out : List ConsensusMessage} (hs : m.handle e = some (m', out)) :
    Deaf S h r m' ∧ Idle out := by
  have hnil : Idle [] := ⟨by simp, by simp⟩
  cases e with
  | startRound r' => exact he.elim
  | advanceHeight h' => exact he.elim
  | precommit it v =>
    obtain ⟨hdeaf, hout⟩ := hd.onPrecommit it he
    have hs : m.onPrecommit it v = (m', out) := Option.some.inj hs
    rw [hs] at hdeaf hout
    dsimp only at hdeaf hout
    rw [hout]
    exact ⟨hdeaf, hnil⟩
  | proposal p block =>
    cases handle_moves hs with
    | ignore => exact ⟨hd, hnil⟩
    | accept _ _ _ =>
      refine ⟨⟨?_, ?_, ?_, ?_⟩, by simp [Idle, recordProposal]⟩
      · simpa [recordProposal] using hd.height
      · simpa [recordProposal] using hd.round
      · simpa [recordProposal] using hd.within
      · simpa [recordProposal] using hd.few
  | prevote it v =>
    cases handle_moves hs with
    | ignore => exact ⟨hd, hnil⟩
    | prevote _ _ _ _ _ _ ho =>
      refine ⟨⟨hd.height, hd.round, hd.within, hd.few⟩, ?_⟩
      rcases ho with rfl | rfl
      · exact hnil
      · simp [Idle]
    | lock _ _ b _ _ _ _ _ =>
      exact ⟨⟨hd.height, hd.round, hd.within, hd.few⟩, by simp [Idle, precommitFor]⟩
    | precommitNil _ _ _ _ _ _ _ =>
      exact ⟨⟨hd.height, hd.round, hd.within, hd.few⟩, by simp [Idle, precommitFor]⟩
    | latePolka _ _ b _ _ _ _ _ => exact ⟨⟨hd.height, hd.round, hd.within, hd.few⟩, hnil⟩
  | timeout te =>
    cases handle_moves hs with
    | ignore => exact ⟨hd, hnil⟩
    | proposeTimeout _ => exact ⟨⟨hd.height, hd.round, hd.within, hd.few⟩, by simp [Idle]⟩
    | prevoteTimeout v _ =>
      exact ⟨⟨hd.height, hd.round, hd.within, hd.few⟩, by simp [Idle, precommitFor]⟩
    | precommitTimeout _ =>
      refine absurd ?_ he
      rw [hd.height, hd.round]

end BftStateMachine

/-! ## The loop -/

/-- The timers among a list of actions. -/
def timers (acts : List Action) : List TimeoutEvent := acts.filterMap Action.timer?

@[simp] theorem timers_append (acts acts' : List Action) :
    timers (acts ++ acts') = timers acts ++ timers acts' := List.filterMap_append

theorem timers_broadcast (msgs : List ConsensusMessage) : timers (msgs.map .broadcast) = [] := by
  simp [timers, List.filterMap_map, Action.timer?, Function.comp_def]

/-- A timer the loop starts is one the machine asked for. -/
theorem scheduled_of_timer {C : Crates} {sk : Option (Bytes 32)} {tc : TimeoutConfig}
    {t : TimeoutEvent × UInt64} : ∀ {msgs : List ConsensusMessage},
    t ∈ (processBftOutput C sk tc msgs).2 → .scheduleTimeout t.1 ∈ msgs := by
  intro msgs
  induction msgs with
  | nil => intro h; cases h
  | cons msg msgs ih =>
    intro h
    unfold processBftOutput at h
    dsimp only at h
    cases msg with
    | castVote v =>
      cases sk with
      | none => exact List.mem_cons_of_mem _ (ih h)
      | some k => exact List.mem_cons_of_mem _ (ih h)
    | scheduleTimeout te =>
      rcases List.mem_cons.mp h with rfl | h
      · exact List.mem_cons_self
      · exact List.mem_cons_of_mem _ (ih h)
    | commitBlock x y => exact List.mem_cons_of_mem _ (ih h)
    | proposeBlock p b => exact List.mem_cons_of_mem _ (ih h)

namespace Node

variable {C : Crates} {S : Finset ValidatorId} {h : Height} {r : Round}

theorem scheduled_of_mem_timers {n : Node C} {out : List ConsensusMessage} {te : TimeoutEvent}
    (hte : te ∈ timers (n.processOutput out).2) : .scheduleTimeout te ∈ out := by
  obtain ⟨a, ha, hta⟩ := List.mem_filterMap.mp hte
  obtain ⟨t, ht, rfl⟩ := List.mem_map.mp ha
  cases hta
  exact scheduled_of_timer ht

/-- What reaches the node: for the round it is in, precommits of `S` only, and no announcement of a
commit. -/
def Hears (S : Finset ValidatorId) (n : Node C) (e : Env × NodeEvent) : Prop :=
  match e.2 with
  | .network (.castVote v) => v.voteType = .precommit → v.height = n.bft.height →
      v.round = n.bft.round → v.verify C = true → v.validator ∈ S
  | .network (.commitBlock _ _) => False
  | _ => True

instance (n : Node C) : ∀ e : Env × NodeEvent, Decidable (n.Hears S e)
  | (_, .network (.castVote _)) => inferInstanceAs (Decidable (_ → _))
  | (_, .network (.commitBlock _ _)) => inferInstanceAs (Decidable False)
  | (_, .network (.proposeBlock _ _)) => inferInstanceAs (Decidable True)
  | (_, .network (.scheduleTimeout _)) => inferInstanceAs (Decidable True)
  | (_, .timeout _) => inferInstanceAs (Decidable True)
  | (_, .gossiped _) => inferInstanceAs (Decidable True)
  | (_, .submitted _) => inferInstanceAs (Decidable True)
  | (_, .toGossip _) => inferInstanceAs (Decidable True)

/-- A node that is deaf, and has not started the timer that ends its round. -/
structure Halted (S : Finset ValidatorId) (h : Height) (r : Round) (db : StateDb)
    (hist : NodeHistory C) (n : Node C) : Prop where
  deaf : n.bft.Deaf S h r
  undecided : commits hist = []
  noTimer : ∀ te ∈ timers (outputs hist), te.step ≠ .precommit
  stateDb : n.stateDb = db

theorem Proposes.deaf {n n' : Node C} {env : Env} {acts : List Action}
    (hp : Proposes n env n' acts) (hd : n.bft.Deaf S h r) :
    n'.bft.Deaf S h r ∧ timers acts = [] := by
  cases hp with
  | skip => exact ⟨hd, rfl⟩
  | propose sk height round _ _ =>
    obtain ⟨p, b, hbft, -⟩ := n.proposeBlock_bft env sk height round n.lastBlockHash
    rw [hbft]
    exact ⟨(hd.handle (e := .proposal p (some b)) trivial rfl).1, rfl⟩

/-- **One turn.** -/
theorem Does.halted {n n' : Node C} {env : Env} {e : NodeEvent} {acts : List Action}
    (hdoes : Does n env e n' acts) (hd : n.bft.Deaf S h r) (hg : n.Hears S (env, e))
    (htimeout : ∀ te, e = .timeout te → te ≠ ⟨h, r, .precommit⟩) :
    n'.bft.Deaf S h r ∧ acts.filterMap Action.commit? = [] ∧
      (∀ te ∈ timers acts, te.step ≠ .precommit) ∧ n'.stateDb = n.stateDb := by
  have hfaint : ∀ {be : BftEvent}, Calls env e be → BftStateMachine.Faint (C := C) S h r be := by
    intro be hcall
    cases hcall with
    | proposal p block => trivial
    | prevote v _ => trivial
    | precommit v ht =>
      intro hheight hround
      exact hg ht (hheight.trans hd.height.symm) (hround.trans hd.round.symm)
    | timeout te => exact htimeout te rfl
  cases hdoes with
  | answer hcall _ hs hno =>
    obtain ⟨hdeaf, hidle⟩ := hd.handle (hfaint hcall) hs
    refine ⟨hdeaf, Action.commit?_of_quiet (sent_quiet _ _), fun te hte => ?_, rfl⟩
    unfold sent at hte
    rw [timers_append, timers_broadcast, List.append_nil] at hte
    exact hidle.2 te (scheduled_of_mem_timers hte)
  | @timeout te m' out hs hno =>
    obtain ⟨hdeaf, hidle⟩ := hd.handle (e := .timeout te) (hfaint (.timeout te)) hs
    have hprop := offerAfter_proposes (n.withBft m') env te
    obtain ⟨hdeaf', hnone⟩ := hprop.deaf hdeaf
    refine ⟨hdeaf', Action.commit?_of_quiet (hprop.sent_quiet out), fun te' hte => ?_,
      hprop.stateDb⟩
    rw [timers_append, timers_append, timers_broadcast, hnone, List.append_nil,
      List.append_nil] at hte
    exact hidle.2 te' (scheduled_of_mem_timers hte)
  | @commit _ be m' x y n' acts hcall hs hc =>
    obtain ⟨-, hidle⟩ := hd.handle (hfaint hcall) hs
    exact absurd List.mem_cons_self (hidle.1 x y)
  | announced _ => exact hg.elim
  | pool e tx _ => exact ⟨hd, rfl, by simp [timers], rfl⟩
  | gossip tx => exact ⟨hd, rfl, by simp [timers, Action.timer?], rfl⟩
  | skip te => exact ⟨hd, rfl, by simp [timers], rfl⟩

/-- Timeouts that end the round fire only if the node has started their timer. -/
def OwnTimers (h : Height) (r : Round) (hist : NodeHistory C) : Prop :=
  ∀ τ past, τ :: past <:+ hist → τ.event.2 = .timeout ⟨h, r, .precommit⟩ →
    ⟨h, r, .precommit⟩ ∈ timers (outputs past)

/-- **Consensus halts below two thirds.** A node that enters a round and from then on hears
precommits for it of no more than two thirds of the validators decides nothing, never leaves the
round and executes nothing, whatever proposals, prevotes, votes for other rounds, transactions and
timeouts of its own reach it, in any order. Its own vote is not among those it hears. -/
theorem halts_below_two_thirds {n₀ n : Node C} {hist : NodeHistory C}
    (hfresh : n₀.bft.roundState.precommits.votes.entries = [])
    (hfew : 3 * S.card ≤ 2 * n₀.bft.roundState.precommits.totalValidators)
    (hr : NodeRun C (Hears S) n₀ hist n)
    (htimers : OwnTimers n₀.bft.height n₀.bft.round hist) :
    commits hist = [] ∧ n.bft.height = n₀.bft.height ∧ n.bft.round = n₀.bft.round ∧
      n.stateDb = n₀.stateDb := by
  have hdeaf₀ : n₀.bft.Deaf S n₀.bft.height n₀.bft.round := by
    refine ⟨rfl, rfl, fun e he => ?_, hfew⟩
    rw [hfresh] at he
    cases he
  have hhalted : OwnTimers n₀.bft.height n₀.bft.round hist →
      Halted S n₀.bft.height n₀.bft.round n₀.stateDb hist n := by
    refine hr.invariant (I := fun hist n => OwnTimers n₀.bft.height n₀.bft.round hist →
      Halted S n₀.bft.height n₀.bft.round n₀.stateDb hist n) (fun _ => ⟨hdeaf₀, rfl, ?_, rfl⟩) ?_
    · intro te hte
      cases hte
    · intro hist n e n' acts _ ih hg hs hown
      have hpast := ih fun τ past hsuf => hown τ past (hsuf.trans (List.suffix_cons _ _))
      obtain ⟨hdeaf, hnone, hquiet, hdb⟩ := (handle_does hs).halted hpast.deaf hg (by
        rintro te he rfl
        exact hpast.noTimer _ (hown _ _ List.suffix_rfl he) rfl)
      refine ⟨hdeaf, ?_, ?_, hdb.trans hpast.stateDb⟩
      · rw [commits_cons, hpast.undecided]
        exact hnone
      · intro te hte
        rw [outputs_cons, timers_append] at hte
        rcases List.mem_append.mp hte with hte | hte
        · exact hquiet te hte
        · exact hpast.noTimer te hte
  obtain ⟨hdeaf, hnone, -, hdb⟩ := hhalted htimers
  exact ⟨hnone, hdeaf.height, hdeaf.round, hdb⟩

/-- Of four validators the fourth is down. The second hears the two others precommit nil, once and
once more, and stays in round 0. -/
theorem halts_below_two_thirds_quad :
    ∃ hist n, NodeRun Crates.sample
        (Hears {⟨Crates.sampleKey 1⟩, ⟨Crates.sampleKey 3⟩}) quadLaunch.1 hist n ∧
      hist.length = 6 ∧ commits hist = [] ∧ n.bft.round = ⟨0⟩ := by
  obtain ⟨hist, n, hr, hlen, hnone⟩ : ∃ hist n, NodeRun Crates.sample
      (Hears {⟨Crates.sampleKey 1⟩, ⟨Crates.sampleKey 3⟩}) quadLaunch.1 hist n ∧
      hist.length = 6 ∧
      ∀ τ ∈ hist, τ.event.2.timeout? ≠ some ⟨⟨0⟩, ⟨0⟩, .precommit⟩ :=
    Run.exists_of_replay
      [quadTimeout .propose, quadTimeout .prevote, quadVote .precommit none 1,
        quadVote .precommit none 3, quadVote .precommit none 1, quadVote .precommit none 3]
      (by decide +kernel)
  have htimers : OwnTimers quadLaunch.1.bft.height quadLaunch.1.bft.round hist := by
    intro τ past hsuf he
    refine absurd ?_ (hnone τ (hsuf.subset List.mem_cons_self))
    rw [he]
    decide +kernel
  obtain ⟨hcommits, -, hround, -⟩ :=
    halts_below_two_thirds (by decide +kernel) (by decide +kernel) hr htimers
  exact ⟨hist, n, hr, hlen, hcommits, hround.trans (by decide +kernel)⟩

end Node

end Trv1Chain
