import Trv1Chain.Proof.GenesisSupply
import Trv1Chain.Proof.StepVotes
import Trv1Chain.Validator.Registry

/-!
# Where the state machine panics

One index of the handlers is not checked: the placeholder `self.validators[0]` of the precommit that
a prevote timeout casts. `proposer_index` and `on_proposal` look at the length first. So a machine
panics exactly if it has no validators and its prevote step times out; and nothing between the
genesis file and the machine asks whether any of the listed keys decodes.
-/

set_option autoImplicit false

namespace Trv1Chain

open Lib

/-- The heights and rounds that a call names are below the largest of their types. -/
def BftEvent.BelowMax : BftEvent → Prop
  | .startRound r => r.val.toNat < 2 ^ 32 - 1
  | .proposal p _ => p.height.val.toNat < 2 ^ 64 - 1 ∧ p.round.val.toNat < 2 ^ 32 - 1
  | .prevote _ v => v.height.val.toNat < 2 ^ 64 - 1 ∧ v.round.val.toNat < 2 ^ 32 - 1
  | .precommit _ v => v.height.val.toNat < 2 ^ 64 - 1 ∧ v.round.val.toNat < 2 ^ 32 - 1
  | .timeout te => te.height.val.toNat < 2 ^ 64 - 1 ∧ te.round.val.toNat < 2 ^ 32 - 1
  | .advanceHeight h => h.val.toNat < 2 ^ 64 - 1

instance : ∀ e : BftEvent, Decidable e.BelowMax
  | .startRound _ => inferInstanceAs (Decidable (_ < _))
  | .proposal .. => inferInstanceAs (Decidable (_ ∧ _))
  | .prevote .. => inferInstanceAs (Decidable (_ ∧ _))
  | .precommit .. => inferInstanceAs (Decidable (_ ∧ _))
  | .timeout _ => inferInstanceAs (Decidable (_ ∧ _))
  | .advanceHeight _ => inferInstanceAs (Decidable (_ < _))

namespace BftStateMachine

variable {C : Crates}

theorem onTimeout_eq_none_iff (m : BftStateMachine C) (te : TimeoutEvent) :
    m.onTimeout te = none ↔
      m.validators = [] ∧ m.step = .prevote ∧ te = ⟨m.height, m.round, .prevote⟩ := by
  obtain ⟨th, tr, ts⟩ := te
  unfold onTimeout
  dsimp only
  split
  · rename_i hother
    refine iff_of_false (by simp) ?_
    rintro ⟨-, -, heq⟩
    cases heq
    exact hother.elim (fun h => h rfl) fun h => h rfl
  · rename_i hhere
    push Not at hhere
    obtain ⟨rfl, rfl⟩ := hhere
    cases ts with
    | propose =>
      refine iff_of_false ?_ (by simp)
      dsimp only
      split <;> simp
    | precommit =>
      refine iff_of_false ?_ (by simp)
      dsimp only
      split <;> simp
    | prevote =>
      dsimp only
      split
      · rename_i hs
        cases hv : m.validators with
        | nil => simp [hs]
        | cons v vs => simp
      · rename_i hs
        simp [hs]

/-- **Where a call panics.** -/
theorem handle_eq_none_iff (m : BftStateMachine C) (e : BftEvent) :
    m.handle e = none ↔ m.validators = [] ∧ m.step = .prevote ∧
      e = .timeout ⟨m.height, m.round, .prevote⟩ := by
  cases e with
  | timeout te =>
    rw [BftEvent.timeout.injEq]
    exact m.onTimeout_eq_none_iff te
  | _ => simp [handle]

/-- **When a machine never panics.** For any validator list, index and timeouts, a machine answers
every call with numbers below their maxima, after all such calls, exactly if the list is not
empty. -/
theorem never_panics_iff {height : Height} (hheight : height.val.toNat < 2 ^ 64 - 1)
    (validators : List ValidatorId) (idx : Option Nat) (tc : TimeoutConfig) :
    (∀ hist m, BftRun C (fun _ e => e.BelowMax) (new C height validators idx tc) hist m →
      ∀ e : BftEvent, e.BelowMax → (m.handle e).isSome = true) ↔ validators ≠ [] := by
  constructor
  · rintro hall rfl
    have hround : BftEvent.BelowMax (.startRound ⟨0⟩) := by decide
    have htimeout : ∀ step, BftEvent.BelowMax (.timeout ⟨height, ⟨0⟩, step⟩) :=
      fun _ => ⟨hheight, hround⟩
    -- nobody proposes, and then nobody prevotes
    have hstart : BftRun C (fun _ e => e.BelowMax) (new C height [] idx tc) _
        ((new C height [] idx tc).startRound ⟨0⟩).1 := Run.turn .init hround rfl
    have hpropose := Run.turn hstart (htimeout .propose) (handle_proposeTimeout rfl)
    have hsome := hall _ _ hpropose _ (htimeout .prevote)
    exact Option.isSome_iff_ne_none.mp hsome ((handle_eq_none_iff _ _).mpr ⟨rfl, rfl, rfl⟩)
  · intro hne hist m hr e _
    apply Option.isSome_iff_ne_none.mpr
    intro hnone
    obtain ⟨hnil, -, -⟩ := (handle_eq_none_iff m e).mp hnone
    rw [validators_of_run hr] at hnil
    exact hne hnil

theorem never_panics_iff_quad :
    (∀ hist m, BftRun Crates.sample (fun _ e => e.BelowMax) quadMachine hist m →
      ∀ e : BftEvent, e.BelowMax → (m.handle e).isSome = true) ∧ quadKeys ≠ [] := by
  have hkeys : quadKeys ≠ [] := by decide
  exact ⟨(never_panics_iff (by decide) quadKeys (some 3) TimeoutConfig.default).mpr hkeys, hkeys⟩

/-- A curve on which no key lies. -/
def pointless : Crates := { Crates.sample with isPoint := fun _ => false }

/-- The machine of a node whose only genesis validator has a key that does not decode. -/
def emptyMachine : BftStateMachine pointless :=
  new pointless ⟨0⟩ ((Genesis.soloGenesis []).bftValidators pointless) none TimeoutConfig.default

/-- **A valid genesis that panics.** The file passes every check, round 0 starts, no proposal comes,
and the prevote timeout that the machine has scheduled itself ends the process. -/
theorem empty_machine_panics :
    (Genesis.soloGenesis []).validate = .ok () ∧
      ∃ hist m, BftRun pointless (fun _ e => e.BelowMax) emptyMachine hist m ∧
        .scheduleTimeout ⟨⟨0⟩, ⟨0⟩, .prevote⟩ ∈ outputs hist ∧
        m.handle (.timeout ⟨⟨0⟩, ⟨0⟩, .prevote⟩) = none := by
  obtain ⟨hist, m, hr, hscheduled, hnone⟩ : ∃ hist m,
      BftRun pointless (fun _ e => e.BelowMax) emptyMachine hist m ∧
        .scheduleTimeout ⟨⟨0⟩, ⟨0⟩, .prevote⟩ ∈ outputs hist ∧
        (m.validators = [] ∧ m.step = .prevote ∧
          (⟨⟨0⟩, ⟨0⟩, .prevote⟩ : TimeoutEvent) = ⟨m.height, m.round, .prevote⟩) :=
    Run.exists_of_replay quadSilent (by decide +kernel)
  exact ⟨rfl, hist, m, hr, hscheduled, (onTimeout_eq_none_iff _ _).mpr hnone⟩

end BftStateMachine

end Trv1Chain
