import Mathlib.Data.List.Nodup
import Trv1Chain.Lib.Bytes

/-!
# The genesis configuration

`genesis/src/{types,config}.rs`: the parameters the validator reads at start-up, and `validate`.
The chain's name and time, the genesis hash and the parameters no start-up code reads are left out.
-/

set_option autoImplicit false

namespace Trv1Chain

open Lib

namespace Genesis

structure GenesisValidator where
  pubkey : Bytes 32
  initialStake : UInt64
  commissionRate : UInt16
  deriving DecidableEq

structure GenesisAccount where
  pubkey : Bytes 32
  balance : UInt64

structure ChainParams where
  epochLength : UInt64
  blockTimeMs : UInt64
  maxValidators : Nat
  baseFeeFloor : UInt64
  feeLaunchBurnBps : UInt64
  feeLaunchValidatorBps : UInt64
  feeLaunchTreasuryBps : UInt64
  feeLaunchDeveloperBps : UInt64
  feeMaturityBurnBps : UInt64
  feeMaturityValidatorBps : UInt64
  feeMaturityTreasuryBps : UInt64
  feeMaturityDeveloperBps : UInt64

def ChainParams.default : ChainParams where
  epochLength := 100
  blockTimeMs := 2000
  maxValidators := 200
  baseFeeFloor := 1
  feeLaunchBurnBps := 1000
  feeLaunchValidatorBps := 0
  feeLaunchTreasuryBps := 4500
  feeLaunchDeveloperBps := 4500
  feeMaturityBurnBps := 2500
  feeMaturityValidatorBps := 2500
  feeMaturityTreasuryBps := 2500
  feeMaturityDeveloperBps := 2500

structure GenesisConfig where
  chainParams : ChainParams
  validators : List GenesisValidator
  accounts : List GenesisAccount

inductive GenesisError where
  | noValidators
  | zeroStake (index : Nat)
  | invalidCommission (index : Nat)
  | invalidFeeSplit (total : UInt64)
  | zeroEpochLength
  | zeroBlockTime
  | zeroMaxValidators
  | duplicateValidator (index : Nat)
  deriving DecidableEq

/-- The loop over the validators, with the keys seen and the index. -/
def checkValidators : List (Bytes 32) → Nat → List GenesisValidator → Except GenesisError Unit
  | _, _, [] => .ok ()
  | seen, i, v :: validators =>
    if v.pubkey ∈ seen then .error (.duplicateValidator i)
    else if v.initialStake = 0 then .error (.zeroStake i)
    else if v.commissionRate > 10000 then .error (.invalidCommission i)
    else checkValidators (v.pubkey :: seen) (i + 1) validators

def ChainParams.check (params : ChainParams) : Except GenesisError Unit :=
  if params.epochLength = 0 then .error .zeroEpochLength
  else if params.blockTimeMs = 0 then .error .zeroBlockTime
  else if params.maxValidators = 0 then .error .zeroMaxValidators
  else
    let launchTotal := params.feeLaunchBurnBps + params.feeLaunchValidatorBps +
      params.feeLaunchTreasuryBps + params.feeLaunchDeveloperBps
    let maturityTotal := params.feeMaturityBurnBps + params.feeMaturityValidatorBps +
      params.feeMaturityTreasuryBps + params.feeMaturityDeveloperBps
    if launchTotal ≠ 10000 then .error (.invalidFeeSplit launchTotal)
    else if maturityTotal ≠ 10000 then .error (.invalidFeeSplit maturityTotal)
    else .ok ()

/-- Validate all invariants of the genesis configuration. -/
def GenesisConfig.validate (genesis : GenesisConfig) : Except GenesisError Unit :=
  if genesis.validators.isEmpty then .error .noValidators
  else match checkValidators [] 0 genesis.validators with
    | .error e => .error e
    | .ok () => genesis.chainParams.check

/-! ## What a valid configuration has -/

theorem checkValidators_ok : ∀ {validators : List GenesisValidator} {seen : List (Bytes 32)}
    {i : Nat}, checkValidators seen i validators = .ok () →
    (validators.map (·.pubkey)).Nodup ∧ ∀ v ∈ validators, v.pubkey ∉ seen := by
  intro validators
  induction validators with
  | nil => intro seen i _; exact ⟨List.nodup_nil, by simp⟩
  | cons v validators ih =>
    intro seen i h
    unfold checkValidators at h
    split at h
    · cases h
    rename_i hseen
    split at h
    · cases h
    split at h
    · cases h
    obtain ⟨hnodup, hnew⟩ := ih h
    rw [List.map_cons, List.nodup_cons, List.forall_mem_cons]
    refine ⟨⟨?_, hnodup⟩, hseen, fun w hw hmem => hnew w hw (List.mem_cons_of_mem _ hmem)⟩
    intro hmem
    obtain ⟨w, hw, heq⟩ := List.mem_map.mp hmem
    exact hnew w hw (heq ▸ List.mem_cons_self)

theorem GenesisConfig.validate_ok {genesis : GenesisConfig} (h : genesis.validate = .ok ()) :
    (genesis.validators.map (·.pubkey)).Nodup ∧ genesis.chainParams.epochLength ≠ 0 := by
  unfold validate at h
  split at h
  · cases h
  cases hv : checkValidators [] 0 genesis.validators with
  | error e =>
    rw [hv] at h
    cases h
  | ok u =>
    rw [hv] at h
    refine ⟨(checkValidators_ok hv).1, ?_⟩
    intro hzero
    have h : genesis.chainParams.check = .ok () := h
    unfold ChainParams.check at h
    rw [if_pos hzero] at h
    cases h

end Genesis

end Trv1Chain
