import Trv1Chain.Lib.Word

/-!
# The fee market

`economics/fees/src/eip1559.rs` with the configuration it reads from `types.rs`. The two products
are taken in 128 bits, where they fit, and so they are natural numbers here; a division by a zero
target is a panic.
-/

set_option autoImplicit false

namespace Trv1Chain

open Lib

structure SplitRatios where
  burnBps : UInt64
  validatorBps : UInt64
  treasuryBps : UInt64
  developerBps : UInt64

def SplitRatios.validate (r : SplitRatios) : Bool :=
  r.burnBps + r.validatorBps + r.treasuryBps + r.developerBps == 10000

/-- Ratios at launch and at maturity. -/
structure SplitConfig where
  launch : SplitRatios
  maturity : SplitRatios
  transitionEpochs : UInt64

def SplitConfig.default : SplitConfig where
  launch := ⟨1000, 0, 4500, 4500⟩
  maturity := ⟨2500, 2500, 2500, 2500⟩
  transitionEpochs := 1825

def SplitConfig.validate (c : SplitConfig) : Bool := c.launch.validate && c.maturity.validate

structure FeeConfig where
  targetGasPerBlock : UInt64
  baseFeeFloor : UInt64
  elasticityMultiplier : UInt64
  split : SplitConfig

def FeeConfig.default : FeeConfig where
  targetGasPerBlock := 15000000
  baseFeeFloor := 1
  elasticityMultiplier := 8
  split := SplitConfig.default

inductive FeeError where
  | zeroElasticity
  | invalidSplitRatios (sum : UInt64)

structure FeeMarket where
  config : FeeConfig
  baseFee : UInt64

namespace FeeMarket

def new (config : FeeConfig) (initialBaseFee : UInt64) : Except FeeError FeeMarket :=
  if config.elasticityMultiplier = 0 then .error .zeroElasticity
  else if config.split.validate = false then .error (.invalidSplitRatios 0)
  else .ok ⟨config, max initialBaseFee config.baseFeeFloor⟩

/-- `base_fee * gas_delta / (gas_target * elasticity)`, in 128 bits; `none` when it divides by
zero. -/
def feeDelta (m : FeeMarket) (gasDelta : UInt64) : Option Nat :=
  let divisor := m.config.targetGasPerBlock.toNat * m.config.elasticityMultiplier.toNat
  if divisor = 0 then none else some (m.baseFee.toNat * gasDelta.toNat / divisor)

def enforceFloor (m : FeeMarket) (baseFee : UInt64) : FeeMarket :=
  { m with baseFee := if baseFee < m.config.baseFeeFloor then m.config.baseFeeFloor else baseFee }

/-- Update the base fee after a block is produced: up above the target by at least one unit, down
below it, never under the floor. -/
def updateBaseFee (m : FeeMarket) (gasUsed : UInt64) : Option FeeMarket :=
  let gasTarget := m.config.targetGasPerBlock
  if gasUsed = gasTarget then some m
  else if gasUsed > gasTarget then
    (m.feeDelta (gasUsed - gasTarget)).map fun d =>
      m.enforceFloor (saturatingAdd m.baseFee (UInt64.ofNat (max d 1)))
  else
    (m.feeDelta (gasTarget - gasUsed)).map fun d =>
      m.enforceFloor (saturatingSub m.baseFee (UInt64.ofNat d))

/-- A market whose update divides by something. -/
def Live (m : FeeMarket) : Prop :=
  m.config.targetGasPerBlock.toNat * m.config.elasticityMultiplier.toNat ≠ 0

/-- The update of a live market does not panic, and leaves it live. -/
theorem Live.updateBaseFee {m : FeeMarket} (h : m.Live) (gasUsed : UInt64) :
    ∃ m', m.updateBaseFee gasUsed = some m' ∧ m'.Live := by
  have hdelta : ∀ g, ∃ d, m.feeDelta g = some d := fun g => ⟨_, if_neg h⟩
  unfold FeeMarket.updateBaseFee
  dsimp only
  split
  · exact ⟨m, rfl, h⟩
  split
  · obtain ⟨d, hd⟩ := hdelta (gasUsed - m.config.targetGasPerBlock)
    rw [hd]
    exact ⟨_, rfl, h⟩
  · obtain ⟨d, hd⟩ := hdelta (m.config.targetGasPerBlock - gasUsed)
    rw [hd]
    exact ⟨_, rfl, h⟩

def currentBaseFee (m : FeeMarket) : UInt64 := m.baseFee

end FeeMarket

end Trv1Chain
