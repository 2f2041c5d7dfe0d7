import Trv1Chain.Lib.Run
import Trv1Chain.Slashing.Engine

/-!
# Staking, the registry and slashing together

The calls of the three components as the events of one machine. A call of the engine is a series of
slashes, with changes of the evidence pool in between; `slash_invariant` is the rule that carries a
property of one slash over all of them.
-/

set_option autoImplicit false

namespace Trv1Chain

open Lib Staking ValidatorSet

namespace Slashing

namespace Economy

def withEvidence (s : Economy) (pool : EvidencePool) : Economy :=
  { s with engine := { s.engine with evidencePool := pool } }

/-- A direct slash is the processing of its evidence. -/
theorem slashValidator_eq (C : Crates) (s : Economy) (k : PublicKey) (offense : SlashingOffense)
    (height : UInt64) :
    (s.slashValidator C k offense height).1 =
        (s.processSingleEvidence C (directEvidence k offense height)).1 ∧
      (Answer.slashed (s.slashValidator C k offense height).2).events =
        (s.processSingleEvidence C (directEvidence k offense height)).2.toList := by
  unfold slashValidator
  cases s.processSingleEvidence C (directEvidence k offense height) with
  | mk s' event =>
    cases event with
    | none => exact ⟨rfl, rfl⟩
    | some event => exact ⟨rfl, rfl⟩

section Rule

variable {C : Crates} {I : Economy → List SlashEvent → Prop}
  (hslash : ∀ {s e s' event events}, I s events → Slashes C s e s' event →
    I s' (events ++ event.toList))
  (hevidence : ∀ {s events} (pool : EvidencePool), I s events → I (s.withEvidence pool) events)

include hslash hevidence in
theorem processEvidence_invariant : ∀ {pending : List EvidenceRecord} {s : Economy}
    {events : List SlashEvent}, I s events →
    I (s.processEvidence C pending).1 (events ++ (s.processEvidence C pending).2) := by
  intro pending
  induction pending with
  | nil =>
    intro s events h
    rw [processEvidence, List.append_nil]
    exact h
  | cons e pending ih =>
    intro s events h
    have h₁ := hslash h (processSingleEvidence_slashes C s e)
    have h₂ := ih (hevidence (((s.processSingleEvidence C e).1.engine.evidencePool).markProcessed
      (e.hash C)) h₁)
    rw [List.append_assoc] at h₂
    exact h₂

include hslash hevidence in
/-- **The rule for the engine's calls.** What every slash keeps, and what does not depend on the
evidence, every call keeps. The property may speak of the events so far. -/
theorem slash_invariant {s : Economy} {events : List SlashEvent} (h : I s events) (c : Call) :
    I (s.slash C c).1 (events ++ (s.slash C c).2.events) := by
  cases c with
  | submitEvidence e =>
    have h₁ := hevidence (s.engine.evidencePool.submitEvidence C e).1 h
    rw [← List.append_nil events] at h₁
    exact h₁
  | processAllEvidence it => exact processEvidence_invariant hslash hevidence h
  | slashValidator k offense height =>
    have h₁ := hslash h (processSingleEvidence_slashes C s (directEvidence k offense height))
    obtain ⟨hstate, hevents⟩ := slashValidator_eq C s k offense height
    rw [← hstate, ← hevents] at h₁
    exact h₁

end Rule

/-! ## The machines -/

/-- The engine's calls as a machine. -/
def slashStep (C : Crates) (s : Economy) (c : Call) : Option (Economy × List Answer) :=
  some ((s.slash C c).1, [(s.slash C c).2])

/-- The events of a run, in order. -/
def eventsOf (hist : List (Turn Economy Call Answer)) : List SlashEvent :=
  (chronicle hist).flatMap Answer.events

@[simp] theorem eventsOf_nil : eventsOf [] = [] := rfl

@[simp] theorem eventsOf_cons (τ : Turn Economy Call Answer)
    (hist : List (Turn Economy Call Answer)) :
    eventsOf (τ :: hist) = eventsOf hist ++ τ.out.flatMap Answer.events := by
  unfold eventsOf
  rw [chronicle_cons, List.flatMap_append]

/-- The rule, over a run. -/
theorem slashRun_invariant {C : Crates} {I : Economy → List SlashEvent → Prop}
    (hslash : ∀ {s e s' event events}, I s events → Slashes C s e s' event →
      I s' (events ++ event.toList))
    (hevidence : ∀ {s events} (pool : EvidencePool), I s events → I (s.withEvidence pool) events)
    {s₀ : Economy} (h₀ : I s₀ []) {G : Economy → Call → Prop}
    {hist : List (Turn Economy Call Answer)} {s : Economy}
    (hr : Run (slashStep C) G s₀ hist s) : I s (eventsOf hist) := by
  apply hr.invariant (I := fun hist s => I s (eventsOf hist)) h₀
  intro hist s c s' out _ ih _ hs
  cases hs
  rw [eventsOf_cons]
  have h := slash_invariant hslash hevidence ih c
  rw [← List.flatMap_singleton Answer.events] at h
  exact h

/-- A call of any of the three components. A rotation brings its own staking pool. -/
inductive Call where
  | staking (c : Staking.Call)
  | registry (c : ValidatorSet.Call)
  | slashing (c : Slashing.Call)

inductive Answer where
  | staking (result : Except StakingError Unit)
  | registry (answer : ValidatorSet.Answer)
  | slashing (answer : Slashing.Answer)

def step (C : Crates) (s : Economy) : Call → Option (Economy × List Answer)
  | .staking c =>
    some ({ s with stakingPool := (s.stakingPool.call c).1 }, [.staking (s.stakingPool.call c).2])
  | .registry c =>
    (s.validatorSet.call c).map fun r => ({ s with validatorSet := r.1 }, [.registry r.2])
  | .slashing c => some ((s.slash C c).1, [.slashing (s.slash C c).2])

end Economy

end Slashing

end Trv1Chain
