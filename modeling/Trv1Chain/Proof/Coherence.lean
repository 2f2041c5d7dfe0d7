import Trv1Chain.Proof.Lock
import Trv1Chain.Proof.StepVotes
import Trv1Chain.Proof.VoteQuorums

/-!
# The lock and the valid value

A polka is remembered twice: as the valid value whenever the machine sees it, and as the lock if it
has not cast its precommit yet. The two are written in different branches, the lock's by one of
them only. They stay in step because one set of prevotes, all of them validators', has a quorum for
one hash at most: a polka of the round the machine is locked in is for the value it is locked on.
-/

set_option autoImplicit false

namespace Trv1Chain

open Lib

/-- The call is one of `advance_height`. -/
def BftEvent.isAdvance : BftEvent → Bool
  | .advanceHeight _ => true
  | _ => false

namespace BftStateMachine

variable {C : Crates}

/-! ## What a turn does to the two values -/

/-- The prevotes of the current round have a quorum for the hash. -/
def HasPolka (m : BftStateMachine C) (b : BlockHash) : Prop :=
  m.roundState.prevotes.hasQuorumFor b = true

def SameLock (m m' : BftStateMachine C) : Prop :=
  m'.lockedValue = m.lockedValue ∧ m'.lockedRound = m.lockedRound

def SameValid (m m' : BftStateMachine C) : Prop :=
  m'.validValue = m.validValue ∧ m'.validRound = m.validRound

/-- `start_round` is left to the machine, and its round counter does not wrap. -/
def RoundsFit (m : BftStateMachine C) : BftEvent → Prop
  | .startRound _ => False
  | .timeout te => te = ⟨m.height, m.round, .precommit⟩ → m.step = .precommit →
      m.round.val.toNat + 1 < 2 ^ 32
  | _ => True

instance (m : BftStateMachine C) : ∀ e : BftEvent, Decidable (m.RoundsFit e)
  | .startRound _ => inferInstanceAs (Decidable False)
  | .timeout te => inferInstanceAs (Decidable
      (te = ⟨m.height, m.round, .precommit⟩ → m.step = .precommit →
        m.round.val.toNat + 1 < 2 ^ 32))
  | .advanceHeight _ => inferInstanceAs (Decidable True)
  | .proposal .. => inferInstanceAs (Decidable True)
  | .prevote .. => inferInstanceAs (Decidable True)
  | .precommit .. => inferInstanceAs (Decidable True)

/-- What one turn can do to the lock and the valid value: keep them within a round, keep them into
the next, take a polka of the round as valid with the lock or without it, or drop all. -/
inductive ValueEffect (m : BftStateMachine C) : BftEvent → BftStateMachine C → Prop
  | keep {e : BftEvent} {m' : BftStateMachine C} : m'.round = m.round → SameLock m m' →
      SameValid m m' → (∀ b, m.HasPolka b → m'.HasPolka b) → ValueEffect m e m'
  | next {e : BftEvent} {m' : BftStateMachine C} :
      m'.round.val.toNat = m.round.val.toNat + 1 → SameLock m m' → SameValid m m' →
      ValueEffect m e m'
  | polka {e : BftEvent} {m' : BftStateMachine C} {b : BlockHash} : m'.round = m.round →
      m'.validValue = some b → m'.validRound = some m.round →
      (m'.lockedValue = some b ∧ m'.lockedRound = some m.round ∨ SameLock m m') →
      m'.HasPolka b → (∀ b, m.HasPolka b → m'.HasPolka b) → ValueEffect m e m'
  | drop (h : Height) : ValueEffect m (.advanceHeight h) (m.advanceHeight h).1

/-- A quorum once there stays. -/
theorem HasPolka.addPrevote {m : BftStateMachine C} {b : BlockHash} (h : m.HasPolka b) (v : Vote) :
    (m.addPrevote v).HasPolka b := by
  unfold HasPolka at h ⊢
  by_contra hno
  have hbefore := VoteSet.isQuorum_addVote (Bool.eq_false_iff.mpr hno)
  exact absurd (h.symm.trans hbefore) (by decide)

theorem Moves.valueEffect {m m' : BftStateMachine C} {e : BftEvent} {out : List ConsensusMessage}
    (hm : Moves m e m' out) (hfit : m.RoundsFit e) : ValueEffect m e m' := by
  cases hm with
  | startRound r => exact hfit.elim
  | advance h => exact .drop h
  | ignore => exact .keep rfl ⟨rfl, rfl⟩ ⟨rfl, rfl⟩ fun _ h => h
  | accept p block _ =>
    cases block with
    | none => exact .keep rfl ⟨rfl, rfl⟩ ⟨rfl, rfl⟩ fun _ h => h
    | some blk => exact .keep rfl ⟨rfl, rfl⟩ ⟨rfl, rfl⟩ fun _ h => h
  | prevote it v out _ _ _ _ =>
    exact .keep rfl ⟨rfl, rfl⟩ ⟨rfl, rfl⟩ fun _ h => h.addPrevote v
  | lock it v b _ _ _ _ hq =>
    exact .polka rfl rfl rfl (Or.inl ⟨rfl, rfl⟩) (VoteSet.quorumBlock_some hq)
      fun _ h => h.addPrevote v
  | precommitNil it v _ _ _ _ _ =>
    exact .keep rfl ⟨rfl, rfl⟩ ⟨rfl, rfl⟩ fun _ h => h.addPrevote v
  | latePolka it v b _ _ _ _ hq =>
    exact .polka rfl rfl rfl (Or.inr ⟨rfl, rfl⟩) (VoteSet.quorumBlock_some hq)
      fun _ h => h.addPrevote v
  | precommit it v out _ _ _ _ => exact .keep rfl ⟨rfl, rfl⟩ ⟨rfl, rfl⟩ fun _ h => h
  | commit it v b _ _ _ _ _ => exact .keep rfl ⟨rfl, rfl⟩ ⟨rfl, rfl⟩ fun _ h => h
  | proposeTimeout _ => exact .keep rfl ⟨rfl, rfl⟩ ⟨rfl, rfl⟩ fun _ h => h
  | prevoteTimeout v _ => exact .keep rfl ⟨rfl, rfl⟩ ⟨rfl, rfl⟩ fun _ h => h
  | precommitTimeout hs =>
    have hlt := hfit rfl hs
    refine .next ?_ ⟨rfl, rfl⟩ ⟨rfl, rfl⟩
    show (m.round.val + 1).toNat = _
    rw [UInt32.toNat_add]
    exact Nat.mod_eq_of_lt hlt

/-! ## Coherence -/

/-- The first round is no later than the second; no round is before any. -/
def RoundLe (a b : Option Round) : Prop :=
  ∀ r, a = some r → ∃ r', b = some r' ∧ r.val ≤ r'.val

theorem RoundLe.refl (a : Option Round) : RoundLe a a := fun r hr => ⟨r, hr, UInt32.le_refl _⟩

theorem RoundLe.none (b : Option Round) : RoundLe none b := by
  intro r hr
  cases hr

theorem RoundLe.trans {a b c : Option Round} (h : RoundLe a b) (h' : RoundLe b c) :
    RoundLe a c := by
  intro r hr
  obtain ⟨r₁, hr₁, hle⟩ := h r hr
  obtain ⟨r₂, hr₂, hle'⟩ := h' r₁ hr₁
  exact ⟨r₂, hr₂, UInt32.le_trans hle hle'⟩

/-- **Coherence** of the lock and the valid value. -/
structure Coherent (m : BftStateMachine C) : Prop where
  locked : m.lockedValue.isSome = m.lockedRound.isSome
  valid : m.validValue.isSome = m.validRound.isSome
  locked_le_valid : RoundLe m.lockedRound m.validRound
  valid_le_round : RoundLe m.validRound (some m.round)
  agree : m.lockedRound = m.validRound → m.lockedValue = m.validValue

/-- A lock of the current round rests on the prevotes the machine holds. -/
def LockBacked (m : BftStateMachine C) : Prop :=
  ∀ b, m.lockedRound = some m.round → m.lockedValue = some b → m.HasPolka b

section Step

variable {m m' : BftStateMachine C} {e : BftEvent}

theorem Coherent.locked_le_round (h : m.Coherent) : RoundLe m.lockedRound (some m.round) :=
  h.locked_le_valid.trans h.valid_le_round

/-- Within a height the two rounds only go up. -/
theorem ValueEffect.rounds_le (he : ValueEffect m e m') (hc : m.Coherent)
    (hstay : ∀ h, e ≠ .advanceHeight h) :
    RoundLe m.lockedRound m'.lockedRound ∧ RoundLe m.validRound m'.validRound := by
  cases he with
  | keep _ hlock hvalid _ =>
    rw [hlock.2, hvalid.2]
    exact ⟨RoundLe.refl _, RoundLe.refl _⟩
  | next _ hlock hvalid =>
    rw [hlock.2, hvalid.2]
    exact ⟨RoundLe.refl _, RoundLe.refl _⟩
  | polka _ _ hvr hlock _ _ =>
    rw [hvr]
    refine ⟨?_, hc.valid_le_round⟩
    rcases hlock with ⟨-, hlr⟩ | hsame
    · rw [hlr]
      exact hc.locked_le_round
    · rw [hsame.2]
      exact RoundLe.refl _
  | drop h => exact absurd rfl (hstay h)

/-- **One turn** keeps the values coherent, as long as the set it leaves has one polka at most. -/
theorem Coherent.step (hc : m.Coherent) (hbacked : m.LockBacked) (he : ValueEffect m e m')
    (hone : ∀ b b', m'.HasPolka b → m'.HasPolka b' → b = b') : m'.Coherent ∧ m'.LockBacked := by
  obtain ⟨hlocked, hvalid, hle, hround, hagree⟩ := hc
  cases he with
  | keep hrd hsl hsv hstays =>
    obtain ⟨hlv, hlr⟩ := hsl
    obtain ⟨hvv, hvr⟩ := hsv
    refine ⟨⟨?_, ?_, ?_, ?_, ?_⟩, ?_⟩
    · rw [hlv, hlr]; exact hlocked
    · rw [hvv, hvr]; exact hvalid
    · rw [hlr, hvr]; exact hle
    · rw [hvr, hrd]; exact hround
    · rw [hlr, hvr, hlv, hvv]; exact hagree
    · intro b
      rw [hlr, hlv, hrd]
      exact fun hr hb => hstays b (hbacked b hr hb)
  | next hrd hsl hsv =>
    obtain ⟨hlv, hlr⟩ := hsl
    obtain ⟨hvv, hvr⟩ := hsv
    have hlater : m.round.val < m'.round.val := by
      apply UInt32.lt_iff_toNat_lt.mpr
      omega
    refine ⟨⟨?_, ?_, ?_, ?_, ?_⟩, ?_⟩
    · rw [hlv, hlr]; exact hlocked
    · rw [hvv, hvr]; exact hvalid
    · rw [hlr, hvr]; exact hle
    · rw [hvr]
      refine hround.trans fun r hr => ?_
      cases hr
      exact ⟨_, rfl, UInt32.le_of_lt hlater⟩
    · rw [hlr, hvr, hlv, hvv]; exact hagree
    · -- no lock is of the round that has just begun
      intro b hr _
      rw [hlr] at hr
      obtain ⟨r, hr', hold⟩ := hle.trans hround _ hr
      cases hr'
      exact absurd hlater (UInt32.not_lt.mpr hold)
  | @polka _ _ b hrd hvv hvr hlock hpolka hstays =>
    rcases hlock with ⟨hlv, hlr⟩ | ⟨hlv, hlr⟩
    · refine ⟨⟨?_, ?_, ?_, ?_, ?_⟩, ?_⟩
      · rw [hlv, hlr]; rfl
      · rw [hvv, hvr]; rfl
      · rw [hlr, hvr]; exact RoundLe.refl _
      · rw [hvr, hrd]; exact RoundLe.refl _
      · rw [hlv, hvv]; exact fun _ => rfl
      · intro b' _ hb'
        rw [hlv] at hb'
        cases hb'
        exact hpolka
    · have hbacked' : m'.LockBacked := by
        intro b'
        rw [hlr, hlv, hrd]
        exact fun hr hb => hstays b' (hbacked b' hr hb)
      refine ⟨⟨?_, ?_, ?_, ?_, ?_⟩, hbacked'⟩
      · rw [hlv, hlr]; exact hlocked
      · rw [hvv, hvr]; rfl
      · rw [hlr, hvr]; exact hle.trans hround
      · rw [hvr, hrd]; exact RoundLe.refl _
      · -- locked in this round: the polka of the lock is in the set, and it is the only one
        intro heq
        rw [hvr, ← hrd] at heq
        have hsome : m'.lockedValue.isSome = true := by
          rw [hlv, hlocked, ← hlr, heq]
          rfl
        obtain ⟨b', hb'⟩ := Option.isSome_iff_exists.mp hsome
        rw [hb', hvv, hone b' b (hbacked' b' heq hb') hpolka]
  | drop h =>
    refine ⟨⟨rfl, rfl, RoundLe.none _, RoundLe.none _, fun _ => rfl⟩, ?_⟩
    intro b hr
    cases hr

theorem ValueEffect.hasPolka (he : ValueEffect m e m') (hround : m'.round = m.round)
    (hstay : ∀ h, e ≠ .advanceHeight h) {b : BlockHash} (h : m.HasPolka b) : m'.HasPolka b := by
  cases he with
  | keep _ _ _ hstays => exact hstays b h
  | next hrd _ _ =>
    rw [hround] at hrd
    omega
  | polka _ _ _ _ _ hstays => exact hstays b h
  | drop h => exact absurd rfl (hstay h)

end Step

/-! ## Precommits since the height was entered -/

/-- The turns since the last call of `advance_height`. -/
def sinceAdvance (hist : History C) : History C := hist.takeWhile fun t => !t.event.isAdvance

/-- A non-nil precommit cast since then is for the value of the lock, if the lock is still of its
round, and else of an earlier one. -/
def PrecommitsLocked (hist : History C) (m : BftStateMachine C) : Prop :=
  ∀ v b, .castVote v ∈ outputs (sinceAdvance hist) → v.voteType = .precommit →
    v.blockHash = some b → RoundLe (some v.round) m.lockedRound ∧
      (m.lockedRound = some v.round → m.lockedValue = some b)

theorem mem_sinceAdvance_cons {t : Turn (BftStateMachine C) BftEvent ConsensusMessage}
    {hist : History C} {o : ConsensusMessage} :
    o ∈ outputs (sinceAdvance (t :: hist)) ↔
      t.event.isAdvance = false ∧ (o ∈ t.out ∨ o ∈ outputs (sinceAdvance hist)) := by
  unfold sinceAdvance
  cases h : t.event.isAdvance with
  | true => simp [h]
  | false => simp [h]

theorem PrecommitsLocked.step {hist : History C} {m m' : BftStateMachine C} {e : BftEvent}
    {out : List ConsensusMessage} (h : PrecommitsLocked hist m) (hc : m.Coherent)
    (hbacked : m.LockBacked) (hm : Moves m e m' out) (he : ValueEffect m e m')
    (hone : ∀ b b', m'.HasPolka b → m'.HasPolka b' → b = b') :
    PrecommitsLocked (⟨m, e, m', out⟩ :: hist) m' := by
  intro v b hv ht hb
  obtain ⟨hadv, hv⟩ := mem_sinceAdvance_cons.mp hv
  have hstay : ∀ h, e ≠ .advanceHeight h := by
    rintro h rfl
    cases hadv
  rcases hv with hnew | hold
  · cases hm.lockEffect with
    | keep _ _ _ hnil =>
      rw [hnil v hnew ht] at hb
      cases hb
    | take it w b' _ hout _ _ hwr hwb _ _ hlv hlr _ =>
      have hnew : ConsensusMessage.castVote v ∈ out := hnew
      rw [hout, List.mem_singleton] at hnew
      cases hnew
      rw [hwb] at hb
      cases hb
      rw [hlr, hlv, hwr]
      exact ⟨RoundLe.refl _, fun _ => rfl⟩
    | drop _ _ hnone => exact absurd hnew (hnone v)
  · obtain ⟨hle, hvalue⟩ := h v b hold ht hb
    refine ⟨hle.trans (he.rounds_le hc hstay).1, fun hr => ?_⟩
    cases hm.lockEffect with
    | keep _ hlv hlr _ =>
      rw [hlr] at hr
      rw [hlv]
      exact hvalue hr
    | take it w b' _ _ _ _ _ _ _ hrd hlv hlr hq =>
      -- a second lock in one round: it rests on the polka of the first
      have hround : v.round = m.round := (Option.some.inj (hlr.symm.trans hr)).symm
      obtain ⟨lr, hlr₀, hle₀⟩ := hle v.round rfl
      obtain ⟨r, hr', hle₁⟩ := hc.locked_le_round lr hlr₀
      cases hr'
      have hsame : m.lockedRound = some m.round := by
        rw [hround] at hle₀
        rw [hlr₀]
        exact congrArg (some ∘ Round.mk) (UInt32.le_antisymm hle₁ hle₀)
      have hfirst := hbacked b hsame (hvalue (hround ▸ hsame))
      rw [hlv, hone b b' (he.hasPolka hrd hstay hfirst) (VoteSet.quorumBlock_some hq)]
    | drop _ hm' _ =>
      rw [hm'] at hr
      cases hr

/-- Every call of `advance_height` went up. -/
def Rising (hist : History C) : Prop :=
  ∀ t ∈ hist, ∀ h, t.event = .advanceHeight h → t.before.height.val < h.val

/-- Then what was precommitted at the height was precommitted since it was entered. -/
theorem precommits_at_height {G : BftStateMachine C → BftEvent → Prop} {m₀ m : BftStateMachine C}
    {hist : History C} (hr : BftRun C G m₀ hist m) (hrise : Rising hist) {v : Vote}
    {b : BlockHash} (hv : .castVote v ∈ outputs hist) (ht : v.voteType = .precommit)
    (hb : v.blockHash = some b) :
    v.height.val ≤ m.height.val ∧
      (v.height = m.height → .castVote v ∈ outputs (sinceAdvance hist)) := by
  induction hr with
  | init => cases hv
  | @turn hist m m' e out hr _ hs ih =>
    obtain ⟨hhere, hpast⟩ := List.forall_mem_cons.mp hrise
    rw [mem_sinceAdvance_cons]
    cases hadv : e.isAdvance with
    | true =>
      cases e with
      | advanceHeight h =>
        cases hs
        have hup := hhere h rfl
        rcases List.mem_append.mp hv with hnew | hold
        · simp at hnew
        · have hle := (ih hpast hold).1
          have hlt : v.height.val < h.val := UInt64.lt_of_le_of_lt hle hup
          refine ⟨UInt64.le_of_lt hlt, fun heq => ?_⟩
          have heq : v.height = h := heq
          rw [heq] at hlt
          exact absurd hlt (UInt64.lt_irrefl _)
      | _ => cases hadv
    | false =>
      have hmoves := handle_moves hs
      have hheight : m'.height = m.height := by
        apply hmoves.height
        rintro h rfl
        cases hadv
      rw [hheight]
      rcases List.mem_append.mp hv with hnew | hold
      · cases hmoves.lockEffect with
        | keep _ _ _ hnil =>
          rw [hnil v hnew ht] at hb
          cases hb
        | take it w b' _ hout _ hwh _ _ _ _ _ _ _ =>
          have hsame : ConsensusMessage.castVote v ∈ out := hnew
          rw [hout, List.mem_singleton] at hsame
          cases hsame
          rw [hwh]
          exact ⟨UInt64.le_refl _, fun _ => ⟨rfl, Or.inl hnew⟩⟩
        | drop _ _ hnone => exact absurd hnew (hnone v)
      · obtain ⟨hle, hin⟩ := ih hpast hold
        exact ⟨hle, fun heq => ⟨rfl, Or.inr (hin heq)⟩⟩

/-! ## Over a run -/

section Run

variable {G : BftStateMachine C → BftEvent → Prop} {m₀ m : BftStateMachine C} {hist : History C}

/-- **One polka in a round.** -/
theorem polka_unique (hG : ∀ m e, G m e → VotesFromValidators .prevote m e) (h₀ : SetsOk [] m₀)
    (hr : BftRun C G m₀ hist m) {b b' : BlockHash} (hb : m.HasPolka b) (hb' : m.HasPolka b') :
    b = b' := by
  have hsets := (setsOk_of_run h₀ hr).prevotes
  have hW : ∀ b, m.roundState.prevotes.voters b ⊆ m.validators.toFinset := by
    intro b k hk
    rw [List.mem_toFinset, validators_of_run hr]
    exact mem_validators_of_signedVote hG hr (hsets.signedVote hk)
  have hcard : m.validators.toFinset.card ≤ m.roundState.prevotes.totalValidators := by
    rw [hsets.total]
    exact List.toFinset_card_le _
  have hsame : some b = some b' := VoteSet.quorum_unique hW hcard hb hb'
  exact Option.some.inj hsame

/-- The values are coherent, the lock is backed and the precommits are locked, all along a run. -/
theorem coherent_of_run
    (hG : ∀ m e, G m e → RoundsFit m e ∧ VotesFromValidators .prevote m e) (h₀ : SetsOk [] m₀)
    (hc₀ : m₀.Coherent) (hb₀ : m₀.LockBacked) (hr : BftRun C G m₀ hist m) :
    m.Coherent ∧ m.LockBacked ∧ PrecommitsLocked hist m := by
  refine hr.invariant (I := fun hist m => m.Coherent ∧ m.LockBacked ∧ PrecommitsLocked hist m)
    ⟨hc₀, hb₀, fun v b hv => by cases hv⟩ ?_
  rintro hist m e m' out hrun ⟨hc, hbacked, hpre⟩ hg hs
  have hmoves := handle_moves hs
  have he := hmoves.valueEffect (hG _ _ hg).1
  have hone : ∀ b b', m'.HasPolka b → m'.HasPolka b' → b = b' := fun _ _ =>
    polka_unique (fun m e h => (hG m e h).2) h₀ (hrun.turn hg hs)
  obtain ⟨hc', hbacked'⟩ := hc.step hbacked he hone
  exact ⟨hc', hbacked', hpre.step hc hbacked hmoves he hone⟩

end Run

/-- **The lock and the valid value stay coherent.** In every state that a machine reaches from round
0 of its first height, through any calls but `start_round`, on prevotes by validators and without a
wrap of the round counter: each value is set exactly when its round is, the lock's round is no later
than the valid value's and that no later than the current one, and at equal rounds the values are
equal. No turn within a height takes either round back. A non-nil precommit cast since
`advance_height` entered the height is for the locked value if the lock is still of its round; and
where `advance_height` only goes up, those are all the precommits that name the height. -/
theorem lock_and_valid_cohere {height : Height} {validators : List ValidatorId} {idx : Option Nat}
    {tc : TimeoutConfig} {m : BftStateMachine C} {hist : History C}
    (hr : BftRun C (fun m e => RoundsFit m e ∧ VotesFromValidators .prevote m e)
      ((new C height validators idx tc).startRound ⟨0⟩).1 hist m) :
    m.Coherent ∧
      (∀ t ∈ hist, (∀ h, t.event ≠ .advanceHeight h) →
        RoundLe t.before.lockedRound t.after.lockedRound ∧
          RoundLe t.before.validRound t.after.validRound) ∧
      (∀ v b, .castVote v ∈ outputs (sinceAdvance hist) → v.voteType = .precommit →
        v.blockHash = some b → m.lockedRound = some v.round → m.lockedValue = some b) ∧
      (Rising hist → ∀ v b, .castVote v ∈ outputs hist → v.voteType = .precommit →
        v.height = m.height → v.blockHash = some b → m.lockedRound = some v.round →
        m.lockedValue = some b) := by
  have h₀ : SetsOk [] ((new C height validators idx tc).startRound ⟨0⟩).1 := SetsOk.fresh _ rfl
  have hc₀ : ((new C height validators idx tc).startRound ⟨0⟩).1.Coherent :=
    ⟨rfl, rfl, RoundLe.none _, RoundLe.none _, fun _ => rfl⟩
  have hb₀ : ((new C height validators idx tc).startRound ⟨0⟩).1.LockBacked :=
    fun b h => by cases h
  obtain ⟨hc, -, hpre⟩ := coherent_of_run (fun _ _ h => h) h₀ hc₀ hb₀ hr
  refine ⟨hc, ?_, fun v b hv ht hb => (hpre v b hv ht hb).2, ?_⟩
  · intro t hmem hstay
    obtain ⟨past, -, hpast, hg, hs⟩ := hr.of_mem hmem
    have hbefore := (coherent_of_run (fun _ _ h => h) h₀ hc₀ hb₀ hpast).1
    exact ((handle_moves hs).valueEffect hg.1).rounds_le hbefore hstay
  · intro hrise v b hv ht hh hb
    exact (hpre v b ((precommits_at_height hr hrise hv ht hb).2 hh) ht hb).2

/-- Four validators, one of which locks on what three of them prevote. -/
def quadLocks : List BftEvent := [quadProposal, quadPrevote 1, quadPrevote 2, quadPrevote 3]

theorem lock_and_valid_cohere_quad :
    ∃ hist m, BftRun Crates.sample (fun m e => RoundsFit m e ∧ VotesFromValidators .prevote m e)
        (quadMachine.startRound ⟨0⟩).1 hist m ∧
      m.lockedRound = some ⟨0⟩ ∧ m.lockedValue = some quadHash ∧ m.Coherent := by
  obtain ⟨hist, m, hr, hround, hvalue⟩ : ∃ hist m, BftRun Crates.sample
      (fun m e => RoundsFit m e ∧ VotesFromValidators .prevote m e)
      (quadMachine.startRound ⟨0⟩).1 hist m ∧
        m.lockedRound = some ⟨0⟩ ∧ m.lockedValue = some quadHash :=
    Run.exists_of_replay quadLocks (by decide +kernel)
  exact ⟨hist, m, hr, hround, hvalue, (lock_and_valid_cohere hr).1⟩

end BftStateMachine

end Trv1Chain
