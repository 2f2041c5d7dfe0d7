import Trv1Chain.ValidatorSet.Rotation

/-!
# The validator set manager

`runtime/validator-set/src/manager.rs`: registration, stake updates, jailing and the epoch
rotation, with the calls that change the registry as a machine, and the lists of validators by
status. Proposer selection by stake is in `ValidatorSet.Proposer`.
-/

set_option autoImplicit false

namespace Trv1Chain

open Lib Staking

namespace ValidatorSet

structure ValidatorSetConfig where
  activeSetCap : Nat
  epochLength : UInt64
  minStake : UInt64

def ValidatorSetConfig.default : ValidatorSetConfig where
  activeSetCap := 200
  epochLength := 100
  minStake := 1000000

structure ValidatorSetManager where
  validators : Validators
  config : ValidatorSetConfig
  currentEpoch : UInt64

namespace ValidatorSetManager

def withConfig (config : ValidatorSetConfig) : ValidatorSetManager := ⟨∅, config, 0⟩

/-- Register a new validator: Active if there is room, otherwise Standby. -/
def registerValidator (vs : ValidatorSetManager) (pubkey : PublicKey) (initialStake : UInt64)
    (commissionRate : UInt16) (currentHeight : UInt64) :
    ValidatorSetManager × Except ValidatorSetError ValidatorStatus :=
  if (vs.validators.lookup pubkey).isSome then (vs, .error (.alreadyRegistered pubkey))
  else if initialStake < vs.config.minStake then
    (vs, .error (.insufficientStake initialStake vs.config.minStake))
  else
    let status : ValidatorStatus :=
      if activeCount vs.validators < vs.config.activeSetCap then .active else .standby
    let info : ValidatorInfo :=
      ⟨pubkey, initialStake, commissionRate, status, 10000, currentHeight⟩
    ({ vs with validators := vs.validators.insert pubkey info }, .ok status)

def deregisterValidator (vs : ValidatorSetManager) (pubkey : PublicKey) :
    ValidatorSetManager × Except ValidatorSetError ValidatorInfo :=
  match vs.validators.lookup pubkey with
  | none => (vs, .error (.notFound pubkey))
  | some info => ({ vs with validators := vs.validators.erase pubkey }, .ok info)

def updateStake (vs : ValidatorSetManager) (pubkey : PublicKey) (newStake : UInt64) :
    ValidatorSetManager × Except ValidatorSetError Unit :=
  match vs.validators.lookup pubkey with
  | none => (vs, .error (.notFound pubkey))
  | some _ =>
    ({ vs with
        validators := HashMap.modify (fun v => { v with stake := newStake }) pubkey
          vs.validators }, .ok ())

/-- Swap standby validators in, and count the epoch. -/
def epochRotation (o : RotationOrder) (vs : ValidatorSetManager) (stakingPool : StakingPool) :
    Option (ValidatorSetManager × List (PublicKey × PublicKey)) :=
  match rotate o vs.validators stakingPool vs.config.activeSetCap with
  | some (validators, swaps) =>
    some ({ vs with validators := validators, currentEpoch := vs.currentEpoch + 1 }, swaps)
  | none => none

def getValidator (vs : ValidatorSetManager) (pubkey : PublicKey) : Option ValidatorInfo :=
  vs.validators.lookup pubkey

def isActive (vs : ValidatorSetManager) (pubkey : PublicKey) : Bool :=
  match vs.validators.lookup pubkey with
  | none => false
  | some v => v.status == .active

/-- The active validators, sorted by stake: ranked first, then looked up again by key. -/
def getActiveSet (it : IterOrder ValidatorInfo) (itd : DelegationOrder) (vs : ValidatorSetManager)
    (stakingPool : StakingPool) : List ValidatorInfo :=
  let active := withStatus it vs.validators .active
  let ranked := sortByStake itd active stakingPool
  ranked.filterMap fun r => vs.validators.lookup r.pubkey

def getStandbySet (it : IterOrder ValidatorInfo) (vs : ValidatorSetManager) : List ValidatorInfo :=
  withStatus it vs.validators .standby

def getJailedSet (it : IterOrder ValidatorInfo) (vs : ValidatorSetManager) : List ValidatorInfo :=
  withStatus it vs.validators .jailed

def totalCount (vs : ValidatorSetManager) : Nat := vs.validators.entries.length

def jail (vs : ValidatorSetManager) (pubkey : PublicKey) :
    ValidatorSetManager × Except ValidatorSetError Unit :=
  let (validators, result) := ValidatorSet.jail vs.validators pubkey
  ({ vs with validators := validators }, result)

def unjail (vs : ValidatorSetManager) (pubkey : PublicKey) :
    ValidatorSetManager × Except ValidatorSetError Unit :=
  let (validators, result) := ValidatorSet.unjail vs.validators pubkey
  ({ vs with validators := validators }, result)

end ValidatorSetManager

/-! ## Calls -/

/-- One call that changes the registry. -/
inductive Call where
  | registerValidator (pubkey : PublicKey) (initialStake : UInt64) (commissionRate : UInt16)
      (currentHeight : UInt64)
  | deregisterValidator (pubkey : PublicKey)
  | updateStake (pubkey : PublicKey) (newStake : UInt64)
  | jail (pubkey : PublicKey)
  | unjail (pubkey : PublicKey)
  | epochRotation (o : RotationOrder) (stakingPool : StakingPool)

inductive Answer where
  | registered (result : Except ValidatorSetError ValidatorStatus)
  | deregistered (result : Except ValidatorSetError ValidatorInfo)
  | updated (result : Except ValidatorSetError Unit)
  | swapped (swaps : List (PublicKey × PublicKey))

/-- A call and its answer; `none` when the call does not return. -/
def ValidatorSetManager.call (vs : ValidatorSetManager) :
    Call → Option (ValidatorSetManager × Answer)
  | .registerValidator pubkey stake commissionRate height =>
    let (vs, r) := vs.registerValidator pubkey stake commissionRate height
    some (vs, .registered r)
  | .deregisterValidator pubkey =>
    let (vs, r) := vs.deregisterValidator pubkey
    some (vs, .deregistered r)
  | .updateStake pubkey newStake =>
    let (vs, r) := vs.updateStake pubkey newStake
    some (vs, .updated r)
  | .jail pubkey =>
    let (vs, r) := vs.jail pubkey
    some (vs, .updated r)
  | .unjail pubkey =>
    let (vs, r) := vs.unjail pubkey
    some (vs, .updated r)
  | .epochRotation o stakingPool =>
    (vs.epochRotation o stakingPool).map fun r => (r.1, .swapped r.2)

end ValidatorSet

end Trv1Chain
