import Trv1Chain.Proof.EvidenceOrder
import Trv1Chain.Proof.Jail

/-!
# Going to jail

Processing a record jails its offender as the last step of a slash, so a record that takes nothing
jails nobody: the percentage is floored, and a stake of which it is less than one is left alone,
with the status as it was. `slash_validator` then answers that the validator was not found.
-/

set_option autoImplicit false

namespace Trv1Chain

open Lib Staking ValidatorSet

namespace Slashing

/-- A slash that takes nothing is no event. -/
theorem Slashes.none_iff {C : Crates} {s s' : Economy} {e : EvidenceRecord}
    {event : Option SlashEvent} (h : Slashes C s e s' event) {v : ValidatorInfo}
    (hv : s.validatorSet.validators.lookup e.offender = some v) :
    event = none ↔ slashAmount v.stake (s.engine.config.slashBps e.offense) = 0 := by
  cases h with
  | unknown hnone => exact absurd (hv.symm.trans hnone) (by simp)
  | nothing hw hzero =>
    cases hv.symm.trans hw
    exact iff_of_true rfl hzero
  | slashed hw hamount hne =>
    cases hv.symm.trans hw
    rw [← hamount] at hne
    exact iff_of_false (by simp) hne

namespace Economy

variable {s : Economy} {k : PublicKey} {v : ValidatorInfo}

theorem stake_account (hv : s.validatorSet.validators.lookup k = some v) :
    (s.account k).stake = v.stake := by
  unfold account
  rw [hv]
  rfl

/-- The stake stays what it is as long as no record takes anything from that stake. -/
theorem stake_accountAfter_eq_iff (s : Economy) (k : PublicKey) (l : List EvidenceRecord) :
    (s.accountAfter k l).stake = (s.account k).stake ↔
      ∀ e ∈ l, e.offender = k → slashAmount (s.account k).stake (s.rate e) = 0 := by
  induction l using List.reverseRecOn with
  | nil => exact ⟨fun _ _ he => absurd he List.not_mem_nil, fun _ => rfl⟩
  | append_singleton l e ih =>
    rw [List.forall_mem_append, List.forall_mem_singleton, ← ih]
    by_cases hk : e.offender = k
    · subst hk
      rw [accountAfter_same]
      constructor
      · intro h
        -- stakes only come down: what is back at the start never left it
        have hbefore := s.stake_accountAfter_le e.offender l
        have hslash := Account.stake_slash_le s.stakingPool.currentEpoch
          (s.accountAfter e.offender l) (s.rate e)
        rw [h] at hslash
        have hsame := UInt64.toNat_inj.mp (Nat.le_antisymm hbefore hslash)
        refine ⟨hsame, fun _ => ?_⟩
        by_contra hne
        rw [← hsame] at h hne
        have hless := saturatingSub_lt rfl hne
        rw [Account.slash_of_ne _ rfl hne] at h
        exact absurd (congrArg UInt64.toNat h) hless.ne
      · rintro ⟨hsame, hzero⟩
        rw [← hsame] at hzero
        rw [Account.slash_of_zero _ (hzero rfl)]
        exact hsame
    · rw [accountAfter_other s l (Ne.symm hk)]
      exact ⟨fun h => ⟨h, fun heq => absurd heq hk⟩, And.left⟩

/-- A key is Jailed after the loop if it was, or if its stake came down. -/
theorem Processed.jailed_iff {s' : Economy} {done : List EvidenceRecord}
    (h : Processed s done s') (hv : s.validatorSet.validators.lookup k = some v) :
    s'.validatorSet.Jailed k ↔ v.status = .jailed ∨ (s.accountAfter k done).stake ≠ v.stake := by
  unfold ValidatorSetManager.Jailed
  rw [h.validators, hv]
  simp only [Option.map_some, Option.some.injEq, exists_eq_left', slashedTo]
  split
  · rename_i hsame
    simp [hsame]
  · rename_i hne
    simp [hne]

theorem slashValidator_notFound_iff (C : Crates)
    (hv : s.validatorSet.validators.lookup k = some v) (offense : SlashingOffense)
    (height : UInt64) :
    (s.slashValidator C k offense height).2 = .error (.validatorNotFound k) ↔
      slashAmount v.stake (s.engine.config.slashBps offense) = 0 := by
  refine Iff.trans ?_
    ((processSingleEvidence_slashes C s (directEvidence k offense height)).none_iff hv)
  unfold slashValidator
  cases s.processSingleEvidence C (directEvidence k offense height) with
  | mk s' event =>
    cases event with
    | none => exact iff_of_true rfl rfl
    | some event => exact iff_of_false (by simp) (by simp)

/-- **Who is jailed.** For any registry, pool, engine and pending records, a registered validator is
Jailed after `process_all_evidence`, whatever the order of the records, exactly if it was before or
some pending record against it takes something from its stake. `slash_validator` reports it as not
found exactly if the percentage of its stake comes to nothing. -/
theorem jailed_iff_slashed (C : Crates) (hv : s.validatorSet.validators.lookup k = some v) :
    (∀ it, (s.processAllEvidence C it).1.validatorSet.Jailed k ↔ v.status = .jailed ∨
      ∃ e ∈ s.pending, e.offender = k ∧ slashAmount v.stake (s.rate e) ≠ 0) ∧
    ∀ offense height,
      (s.slashValidator C k offense height).2 = .error (.validatorNotFound k) ↔
        slashAmount v.stake (s.engine.config.slashBps offense) = 0 := by
  refine ⟨fun it => ?_, slashValidator_notFound_iff C hv⟩
  have hperm : (s.engine.evidencePool.getPendingEvidence it).Perm s.pending :=
    (it.perm _).filter _
  have hloop : Processed s (s.engine.evidencePool.getPendingEvidence it)
      (s.processAllEvidence C it).1 := (processed_nil s).processEvidence
  have hstake := s.stake_accountAfter_eq_iff k (s.engine.evidencePool.getPendingEvidence it)
  rw [stake_account hv] at hstake
  rw [hloop.jailed_iff hv, Ne, hstake]
  push Not
  simp only [hperm.mem_iff]

theorem jailed_iff_slashed_accused : ∃ v,
    twiceAccused.validatorSet.validators.lookup (Bytes.fill 32 1) = some v ∧ v.status ≠ .jailed ∧
      ∀ it, (twiceAccused.processAllEvidence Crates.sample it).1.validatorSet.Jailed
        (Bytes.fill 32 1) := by
  have hv : twiceAccused.validatorSet.validators.lookup (Bytes.fill 32 1) =
      some ⟨Bytes.fill 32 1, 120, 0, .active, 10000, 0⟩ := by decide +kernel
  have htaken : ∃ e ∈ twiceAccused.pending, e.offender = Bytes.fill 32 1 ∧
      slashAmount 120 (twiceAccused.rate e) ≠ 0 := by decide +kernel
  refine ⟨_, hv, by decide, fun it => ?_⟩
  exact ((jailed_iff_slashed Crates.sample hv).1 it).mpr (Or.inr htaken)

/-- The default validator set, with one validator whose stake has come down to 99, and evidence of
its downtime. -/
def barelyStaked : Economy :=
  let s : Economy := ⟨.withConfig .default,
    (((ValidatorSetManager.withConfig .default).registerValidator (Bytes.fill 32 1) 1000000 0
      0).1.updateStake (Bytes.fill 32 1) 99).1,
    (StakingPool.new.stake (Bytes.fill 32 1) 99 .delegator).1⟩
  (s.submitEvidence Crates.sample ⟨.downtime, Bytes.fill 32 1, 7, [1], false⟩).1

/-- **An offender at large.** One percent of 99 is nothing: the evidence is processed and the
validator stays Active; slashing it directly reports a registered key as not found. -/
theorem offender_at_large :
    (∃ e ∈ barelyStaked.pending, e.offender = Bytes.fill 32 1) ∧
      (barelyStaked.validatorSet.getValidator (Bytes.fill 32 1)).isSome = true ∧
      ¬ (barelyStaked.processAllEvidence Crates.sample .stored).1.validatorSet.Jailed
        (Bytes.fill 32 1) ∧
      (barelyStaked.processAllEvidence Crates.sample .stored).1.pending = [] ∧
      (barelyStaked.slashValidator Crates.sample (Bytes.fill 32 1) .downtime 7).2 =
        .error (.validatorNotFound (Bytes.fill 32 1)) :=
  ⟨by decide +kernel, by decide +kernel, by decide +kernel, by decide +kernel, rfl⟩

end Economy

end Slashing

end Trv1Chain
