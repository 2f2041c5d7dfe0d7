import Trv1Chain.Genesis.Config
import Trv1Chain.Validator.Node
import Trv1Chain.ValidatorSet.Manager

/-!
# The validator set of the running validator

`validator/src/main.rs`: the start-up from the genesis configuration, and the epoch handling at the
end of `apply_commit`. The loop keeps two sets of validators. The registry is filled from the
genesis with stakes, a minimum and a cap, and rotated at epoch boundaries; the list in the
consensus machine is made of the genesis keys that decode.

The rest of the loop neither reads nor writes the staking pool and the registry, so a turn is the
turn of `Node` with the epoch handling of the commits it applied. The epoch's rewards are computed
for the log alone and left out.
-/

set_option autoImplicit false

namespace Trv1Chain

open Lib Staking ValidatorSet Genesis

/-- The validator process: the loop's state with the two ledgers a commit touches. -/
structure ValidatorNode (C : Crates) where
  genesis : GenesisConfig
  node : Node C
  stakingPool : StakingPool
  validatorSet : ValidatorSetManager

/-! ## Start-up -/

namespace Genesis

/-- The minimum stake of the registry at start-up. -/
def minStake : UInt64 := 1000000

def GenesisConfig.validatorSetConfig (genesis : GenesisConfig) : ValidatorSetConfig where
  activeSetCap := genesis.chainParams.maxValidators
  epochLength := genesis.chainParams.epochLength
  minStake := minStake

/-- One genesis validator is put into the staking pool and the registry; a refusal by either is
only logged. -/
def enrol (s : StakingPool × ValidatorSetManager) (gv : GenesisValidator) :
    StakingPool × ValidatorSetManager :=
  ((s.1.stake gv.pubkey gv.initialStake .delegator).1,
    (s.2.registerValidator gv.pubkey gv.initialStake gv.commissionRate 0).1)

def GenesisConfig.enrolAll (genesis : GenesisConfig) : StakingPool × ValidatorSetManager :=
  genesis.validators.foldl enrol (.new, .withConfig genesis.validatorSetConfig)

/-- The consensus validators: the genesis keys that decode. -/
def GenesisConfig.bftValidators (C : Crates) (genesis : GenesisConfig) : List ValidatorId :=
  genesis.validators.filterMap fun gv =>
    if C.isPoint gv.pubkey then some ⟨gv.pubkey⟩ else none

end Genesis

namespace ValidatorNode

variable {C : Crates}

/-- The process at the start of its loop, over a restored database or the genesis accounts;
`none` when the fee market refuses its configuration. -/
def boot (C : Crates) (env : Env) (genesis : GenesisConfig) (signingKey : Option (Bytes 32))
    (stateDb : StateDb) : Option (ValidatorNode C × List Action) :=
  match FeeMarket.new FeeConfig.default genesis.chainParams.baseFeeFloor with
  | .error _ => none
  | .ok feeMarket =>
    let bftValidators := genesis.bftValidators C
    let validatorIndex := signingKey.bind fun sk =>
      bftValidators.findIdx? fun v => v == ⟨C.verifyingKey sk⟩
    let (node, acts) :=
      (Node.genesis C bftValidators validatorIndex signingKey stateDb feeMarket).start env
    some (⟨genesis, node, genesis.enrolAll.1, genesis.enrolAll.2⟩, acts)

/-! ## A commit -/

/-- The height ends an epoch. -/
def EndsEpoch (genesis : GenesisConfig) (height : Height) : Prop :=
  genesis.chainParams.epochLength > 0 ∧ height.val > 0 ∧
    height.val % genesis.chainParams.epochLength = 0

instance (genesis : GenesisConfig) (height : Height) : Decidable (EndsEpoch genesis height) :=
  inferInstanceAs (Decidable (_ ∧ _ ∧ _))

/-- The epoch handling of `apply_commit`; `none` when the rotation does not return. -/
def handleEpoch (o : RotationOrder) (v : ValidatorNode C) (height : Height) :
    Option (ValidatorNode C) :=
  if EndsEpoch v.genesis height then
    match v.validatorSet.epochRotation o v.stakingPool with
    | some (validatorSet, _swaps) => some { v with validatorSet := validatorSet }
    | none => none
  else some v

theorem handleEpoch_cases {o : RotationOrder} {v v' : ValidatorNode C} {height : Height}
    (h : handleEpoch o v height = some v') :
    (¬ EndsEpoch v.genesis height ∧ v' = v) ∨
      (EndsEpoch v.genesis height ∧ ∃ m swaps, rotate o v.validatorSet.validators v.stakingPool
        v.validatorSet.config.activeSetCap = some (m, swaps) ∧
        v' = { v with
          validatorSet := { v.validatorSet with
            validators := m, currentEpoch := v.validatorSet.currentEpoch + 1 } }) := by
  unfold handleEpoch at h
  split at h
  · rename_i hends
    unfold ValidatorSetManager.epochRotation at h
    cases hrot : rotate o v.validatorSet.validators v.stakingPool
        v.validatorSet.config.activeSetCap with
    | none =>
      rw [hrot] at h
      cases h
    | some r =>
      rw [hrot] at h
      cases h
      exact Or.inr ⟨hends, r.1, r.2, rfl, rfl⟩
  · rename_i hends
    cases h
    exact Or.inl ⟨hends, rfl⟩

/-- What `apply_commit` is called with; the orders are those of its loops. -/
structure CommitCall where
  env : Env
  rotation : RotationOrder
  height : Height
  blockHash : BlockHash
  committedBlock : Option Block

/-- The whole of `apply_commit`, answering with the transactions it executed. -/
def applyCommit (v : ValidatorNode C) (c : CommitCall) :
    Option (ValidatorNode C × List Transaction) :=
  match v.node.applyCommit c.env c.height c.blockHash c.committedBlock with
  | none => none
  | some (node, txs) =>
    (handleEpoch c.rotation { v with node := node } c.height).map fun v => (v, txs)

/-! ## A turn of the loop -/

/-- The epoch handling of all commits among the actions of a turn. -/
def handleEpochs (o : RotationOrder) : ValidatorNode C → List Action → Option (ValidatorNode C)
  | v, [] => some v
  | v, .applyCommit height _ _ :: acts =>
    match handleEpoch o v height with
    | some v => handleEpochs o v acts
    | none => none
  | v, _ :: acts => handleEpochs o v acts

def handle (v : ValidatorNode C) (e : RotationOrder × Env × NodeEvent) :
    Option (ValidatorNode C × List Action) :=
  match v.node.handle e.2 with
  | none => none
  | some (node, acts) =>
    (handleEpochs e.1 { v with node := node } acts).map fun v => (v, acts)

end ValidatorNode

end Trv1Chain
