import Trv1Chain.Proof.Equivocation
import Trv1Chain.Proof.Lock

/-!
# What a node's votes commit it to

Facts about one machine's own votes over a whole run, in the form the agreement argument spends
them: a precommit for a hash rests on a delivered polka (`Cast.precommit_polka`), and after a
precommit the machine prevotes only what it has precommitted since (`VoteLock.kept`).

The second holds on runs whose proposals carry no `valid_round`. Every proposal `sign_proposal`
makes is of that kind.
-/

set_option autoImplicit false

namespace Trv1Chain

open Lib

namespace BftStateMachine

variable {C : Crates}

/-- The machine has cast a vote of type `t` for `b` at `(h, r)`. -/
def Cast (hist : History C) (t : VoteType) (h : Height) (r : Round) (b : Option BlockHash) : Prop :=
  ∃ v, .castVote v ∈ outputs hist ∧ v.voteType = t ∧ v.height = h ∧ v.round = r ∧ v.blockHash = b

theorem Cast.cons {hist : History C} {t : VoteType} {h : Height} {r : Round}
    {b : Option BlockHash} (hc : Cast hist t h r b)
    (τ : Turn (BftStateMachine C) BftEvent ConsensusMessage) : Cast (τ :: hist) t h r b := by
  obtain ⟨v, hv, rest⟩ := hc
  refine ⟨v, ?_, rest⟩
  rw [outputs_cons]
  exact List.mem_append_right _ hv

theorem Cast.cases {hist : History C} {t : VoteType} {h : Height} {r : Round}
    {b : Option BlockHash} {τ : Turn (BftStateMachine C) BftEvent ConsensusMessage}
    (hc : Cast (τ :: hist) t h r b) :
    Cast hist t h r b ∨
      ∃ v, .castVote v ∈ τ.out ∧ v.voteType = t ∧ v.height = h ∧ v.round = r ∧ v.blockHash = b := by
  obtain ⟨v, hv, rest⟩ := hc
  rw [outputs_cons, List.mem_append] at hv
  cases hv with
  | inl hnew => exact Or.inr ⟨v, hnew, rest⟩
  | inr hold => exact Or.inl ⟨v, hold, rest⟩

variable {G : BftStateMachine C → BftEvent → Prop} {m₀ : BftStateMachine C}

theorem Cast.le_clock (hG : ∀ m e, G m e → NoRewind m e) {m : BftStateMachine C}
    {hist : History C} (hr : BftRun C G m₀ hist m) {t : VoteType} {h : Height} {r : Round}
    {b : Option BlockHash} (hc : Cast hist t h r b) :
    reading h r.val.toNat (voteRank t) ≤ m.clock := by
  obtain ⟨v, hv, rfl, rfl, rfl, -⟩ := hc
  have hsorted := hr.stamps_sorted fun _ hg hs => (handle_moves hs).ticks (hG _ _ hg)
  exact hsorted.2 _ (List.mem_filterMap.mpr ⟨_, hv, rfl⟩)

/-- **A precommit rests on a polka**, delivered at its own height and round. -/
theorem Cast.precommit_polka (hG : ∀ m e, G m e → VotesFromValidators .prevote m e)
    (h₀ : SetsOk [] m₀) {m : BftStateMachine C} {hist : History C} (hr : BftRun C G m₀ hist m)
    {h : Height} {r : Round} {b : BlockHash} (hc : Cast hist .precommit h r (some b)) :
    Certificate hist m₀.validators .prevote h r b := by
  revert hc
  refine hr.invariant (I := fun hist _ => Cast hist .precommit h r (some b) →
    Certificate hist m₀.validators .prevote h r b) ?_ ?_
  · rintro ⟨v, hv, -⟩
    simp at hv
  · intro hist m e m' out hr ih hg hs hc
    have hr' := hr.turn hg hs
    rcases hc.cases with hold | ⟨v, hv, ht, hvh, hvr, hvb⟩
    · exact (ih hold).mono (List.subset_cons_self _ _)
    · -- a fresh precommit for a hash: the turn took a lock
      cases (handle_moves hs).lockEffect with
      | keep _ _ _ hnil =>
        rw [hnil v hv ht] at hvb
        cases hvb
      | drop _ _ hno => exact absurd hv (hno v)
      | take it w b' _ hout _ hwh hwr hwb hh hrd _ _ hq =>
        dsimp only at hv
        rw [hout, List.mem_singleton, ConsensusMessage.castVote.injEq] at hv
        subst hv
        rw [hwb] at hvb
        cases hvb
        have hsets := (setsOk_of_run h₀ hr').prevotes
        rw [hrd, hh, validators_of_run hr', ← hwh, ← hwr, hvh, hvr] at hsets
        exact hsets.certificate hq fun k hk => mem_validators_of_signedVote hG hr' hk

/-! ## The lock, seen from the votes -/

/-- The lock is the last of the machine's precommits for a hash at its height, and a prevote
after a precommit is for something precommitted in between. -/
structure VoteLock (hist : History C) (m : BftStateMachine C) : Prop where
  own : ∀ L lr, m.lockedValue = some L → m.lockedRound = some lr →
    Cast hist .precommit m.height lr (some L)
  latest : ∀ r A, Cast hist .precommit m.height r (some A) →
    ∃ L lr, m.lockedValue = some L ∧ m.lockedRound = some lr ∧ r.val.toNat ≤ lr.val.toNat
  kept : ∀ h r r' A B, r.val.toNat < r'.val.toNat → Cast hist .precommit h r (some A) →
    Cast hist .prevote h r' (some B) →
    ∃ s, r.val.toNat ≤ s.val.toNat ∧ s.val.toNat < r'.val.toNat ∧
      Cast hist .precommit h s (some B)

/-- Proposals carry no `valid_round`. -/
def PlainProposals (_ : BftStateMachine C) : BftEvent → Prop
  | .proposal p _ => p.validRound = none
  | _ => True

/-- A locked machine prevotes nothing but its lock on a plain proposal. -/
theorem decidePrevote_plain {m : BftStateMachine C} {p : Proposal} {L B : BlockHash} {lr : Round}
    (hL : m.lockedValue = some L) (hlr : m.lockedRound = some lr) (hp : p.validRound = none)
    (hB : m.decidePrevote p = some B) : B = L := by
  by_contra hne
  obtain ⟨-, vr, hvr, -⟩ := decidePrevote_ne_locked hL hlr hB hne
  rw [hp] at hvr
  cases hvr

section Step

variable {hist : History C} {m m' : BftStateMachine C} {e : BftEvent} {out : List ConsensusMessage}

/-- A turn that keeps the lock casts at most a prevote, and only what the lock allows. -/
theorem VoteLock.step_keep (hG : ∀ m e, G m e → NoRewind m e ∧ PlainProposals m e)
    (hr : BftRun C G m₀ hist m) (ih : VoteLock hist m) (hg : G m e)
    (hm : Moves m e m' out) (hh : m'.height = m.height) (hv : m'.lockedValue = m.lockedValue)
    (hrd : m'.lockedRound = m.lockedRound)
    (hnil : ∀ v, .castVote v ∈ out → v.voteType = .precommit → v.blockHash = none) :
    VoteLock (⟨m, e, m', out⟩ :: hist) m' := by
  -- no turn of this kind adds a precommit for a hash
  have hback : ∀ {h r A}, Cast (⟨m, e, m', out⟩ :: hist) .precommit h r (some A) →
      Cast hist .precommit h r (some A) := by
    intro h r A hc
    rcases hc.cases with hold | ⟨v, hvo, ht, -, -, hb⟩
    · exact hold
    · rw [hnil v hvo ht] at hb
      cases hb
  refine ⟨?_, ?_, ?_⟩
  · intro L lr hL hlr
    rw [hv] at hL
    rw [hrd] at hlr
    rw [hh]
    exact (ih.own L lr hL hlr).cons _
  · intro r A hc
    rw [hh] at hc
    rw [hv, hrd]
    exact ih.latest r A (hback hc)
  · intro h r r' A B hlt hA hB
    have hA := hback hA
    rcases hB.cases with hold | ⟨v, hvo, ht, hvh, hvr, hvb⟩
    · obtain ⟨s, hrs, hsr, hs⟩ := ih.kept h r r' A B hlt hA hold
      exact ⟨s, hrs, hsr, hs.cons _⟩
    · obtain ⟨p, block, he, hacc, hmh, hmr, hdec⟩ := hm.of_prevote hvo ht
      rw [hvh] at hmh
      rw [hvr] at hmr
      rw [hvb] at hdec
      subst hmh
      obtain ⟨L, lr, hL, hlr, hle⟩ := ih.latest r A hA
      have hplain : p.validRound = none := by
        have := (hG _ _ hg).2
        rwa [he] at this
      have hBL := decidePrevote_plain hL hlr hplain hdec.symm
      have hown := ih.own L lr hL hlr
      -- the lock is older than the proposal's round, by the clock
      have hclock := hown.le_clock (fun m e h => (hG m e h).1) hr
      rw [clock_of_step hacc.2.2.1 (by decide), ← hmr] at hclock
      have hlt' : lr.val.toNat < r'.val.toNat := by
        simp only [reading, voteRank, stepRank] at hclock
        omega
      exact ⟨lr, hle, hlt', hBL ▸ hown.cons _⟩

/-- A turn that takes the lock casts the precommit the lock is for. -/
theorem VoteLock.step_take (hG : ∀ m e, G m e → NoRewind m e) (hr : BftRun C G m₀ hist m)
    (ih : VoteLock hist m) {w : Vote} {b : BlockHash} (hs : m.step = .prevote)
    (hout : out = [.castVote w]) (hwt : w.voteType = .precommit) (hwh : w.height = m.height)
    (hwr : w.round = m.round) (hwb : w.blockHash = some b) (hh : m'.height = m.height)
    (hv : m'.lockedValue = some b) (hrd : m'.lockedRound = some m.round) :
    VoteLock (⟨m, e, m', out⟩ :: hist) m' := by
  have hnew : Cast (⟨m, e, m', out⟩ :: hist) .precommit m.height m.round (some b) := by
    refine ⟨w, ?_, hwt, hwh, hwr, hwb⟩
    rw [outputs_cons, hout]
    exact List.mem_append_left _ (List.mem_singleton_self _)
  -- the new vote is the only one; older ones are behind the clock
  have honly : ∀ {v t}, .castVote v ∈ out → v.voteType = t →
      t = .precommit ∧ v.height = m.height ∧ v.round = m.round := by
    intro v t hvo ht
    rw [hout, List.mem_singleton, ConsensusMessage.castVote.injEq] at hvo
    subst hvo
    exact ⟨ht.symm.trans hwt, hwh, hwr⟩
  have hbehind : ∀ {t r x}, Cast hist t m.height r x → r.val.toNat ≤ m.round.val.toNat := by
    intro t r x hc
    have hclock := hc.le_clock hG hr
    rw [clock_of_step hs (by decide)] at hclock
    simp only [reading, stepRank] at hclock
    omega
  refine ⟨?_, ?_, ?_⟩
  · intro L lr hL hlr
    rw [hv] at hL
    rw [hrd] at hlr
    cases hL
    cases hlr
    rw [hh]
    exact hnew
  · intro r A hc
    rw [hh] at hc
    refine ⟨b, m.round, hv, hrd, ?_⟩
    rcases hc.cases with hold | ⟨v, hvo, ht, -, hvr, -⟩
    · exact hbehind hold
    · rw [← hvr, (honly hvo ht).2.2]
  · intro h r r' A B hlt hA hB
    rcases hB.cases with hold | ⟨v, hvo, ht, -⟩
    · rcases hA.cases with hAold | ⟨v, hvo, ht, hvh, hvr, -⟩
      · obtain ⟨s, hrs, hsr, hc⟩ := ih.kept h r r' A B hlt hAold hold
        exact ⟨s, hrs, hsr, hc.cons _⟩
      · obtain ⟨-, hmh, hmr⟩ := honly hvo ht
        rw [← hvh, hmh] at hold
        have := hbehind hold
        rw [← hvr, hmr] at hlt
        omega
    · exact absurd (honly hvo ht).1 (by decide)

/-- A turn to a new height casts nothing, and finds nothing cast there. -/
theorem VoteLock.step_drop (hG : ∀ m e, G m e → NoRewind m e)
    (hr' : BftRun C G m₀ (⟨m, e, m', out⟩ :: hist) m') (ih : VoteLock hist m) {h : Height}
    (hm' : m' = (m.advanceHeight h).1) (hno : ∀ v, .castVote v ∉ out) :
    VoteLock (⟨m, e, m', out⟩ :: hist) m' := by
  have hback : ∀ {t h r x}, Cast (⟨m, e, m', out⟩ :: hist) t h r x → Cast hist t h r x := by
    intro t h r x hc
    rcases hc.cases with hold | ⟨v, hvo, -⟩
    · exact hold
    · exact absurd hvo (hno v)
  refine ⟨?_, ?_, ?_⟩
  · intro L lr hL
    rw [hm'] at hL
    cases hL
  · intro r A hc
    have hclock := hc.le_clock hG hr'
    have hfresh : m'.clock = reading m'.height 0 1 := by rw [hm']; rfl
    rw [hfresh] at hclock
    simp only [reading, voteRank, stepRank] at hclock
    omega
  · intro h r r' A B hlt hA hB
    obtain ⟨s, hrs, hsr, hc⟩ := ih.kept h r r' A B hlt (hback hA) (hback hB)
    exact ⟨s, hrs, hsr, hc.cons _⟩

end Step

theorem voteLock_of_run (hG : ∀ m e, G m e → NoRewind m e ∧ PlainProposals m e)
    (hl : m₀.lockedValue = none) {hist : History C} {m : BftStateMachine C}
    (hr : BftRun C G m₀ hist m) : VoteLock hist m := by
  have hnone : ∀ {t h r x}, ¬ Cast (C := C) [] t h r x := by
    rintro t h r x ⟨v, hv, -⟩
    simp at hv
  refine hr.invariant (I := VoteLock) ⟨?_, ?_, ?_⟩ ?_
  · intro L lr hL
    rw [hl] at hL
    cases hL
  · intro r A hc
    exact absurd hc hnone
  · intro h r r' A B _ hc
    exact absurd hc hnone
  · intro hist m e m' out hr ih hg hs
    have hclk : ∀ m e, G m e → NoRewind m e := fun m e h => (hG m e h).1
    cases (handle_moves hs).lockEffect with
    | keep hh hv hrd hnil => exact ih.step_keep hG hr hg (handle_moves hs) hh hv hrd hnil
    | take it w b hst hout hwt hwh hwr hwb hh _ hv hrd _ =>
      exact ih.step_take hclk hr hst hout hwt hwh hwr hwb hh hv hrd
    | drop h hm' hno => exact ih.step_drop hclk (hr.turn hg hs) hm' hno

end BftStateMachine

end Trv1Chain
