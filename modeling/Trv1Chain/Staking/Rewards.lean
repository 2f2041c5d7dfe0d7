import Trv1Chain.Lib.Word
import Trv1Chain.Staking.Power

/-!
# Staking rewards

`economics/staking/src/rewards.rs`, with the rates of `tiers.rs` and `distribute_epoch_rewards` of
`pool.rs`. The numerator is a product in 128 bits whose every step is checked, and a step that does
not fit is a panic; the quotient is cut to 64 bits by a cast. The sum over the entries of an owner
is a plain one.
-/

set_option autoImplicit false

namespace Trv1Chain

open Lib

namespace Staking

/-- Percentage of the base validator rate earned by a tier. -/
def LockTier.ratePct : LockTier → UInt64
  | .noLock => 5
  | .thirtyDay => 10
  | .ninetyDay => 20
  | .oneEightyDay => 30
  | .threeSixtyDay => 50
  | .delegator => 100
  | .permanent => 120

/-- Number of epochs per year, one a day. -/
def epochsPerYear : UInt64 := 365

/-- Base staking APY: 5%, in basis points. -/
def baseApyBps : UInt64 := 500

/-- The reward for an amount over a number of epochs; `none` when a product does not fit 128
bits. -/
def calculateReward (amount : UInt64) (tier : LockTier) (epochsElapsed : UInt64) :
    Option UInt64 :=
  if amount = 0 ∨ epochsElapsed = 0 then some 0
  else do
    let product ← checkedMul128 amount.toNat baseApyBps.toNat
    let product ← checkedMul128 product tier.ratePct.toNat
    let numerator ← checkedMul128 product epochsElapsed.toNat
    let denominator := 100 * 10000 * epochsPerYear.toNat
    some (UInt64.ofNat (numerator / denominator))

/-- The reward for a single epoch. -/
def calculateEpochReward (amount : UInt64) (tier : LockTier) : Option UInt64 :=
  calculateReward amount tier 1

/-! ## One epoch of the pool -/

section Book

variable {Owner : Type}

/-- What the entries of one owner earn in an epoch. -/
def totalReward (entries : List (Entry Owner)) : Option UInt64 := do
  let rewards ← entries.mapM fun e => calculateEpochReward e.amount e.lockTier
  some rewards.sum

/-- One pass over a book: what each owner earns goes to its `earner`, unless it is nothing. -/
def payRewards (earner : Owner → PublicKey) :
    List (Sigma fun _ : Owner => List (Entry Owner)) → Option (List (PublicKey × UInt64))
  | [] => some []
  | d :: rest => do
    let reward ← totalReward d.2
    let rewards ← payRewards earner rest
    some (if reward > 0 then (earner d.1, reward) :: rewards else rewards)

end Book

abbrev StakeOrder := IterOrder (Sigma fun _ : PublicKey => List (Entry PublicKey))

/-- Rewards for one epoch to all stakers and delegators, as (pubkey, reward) pairs. -/
def StakingPool.distributeEpochRewards (its : StakeOrder) (itd : DelegationOrder)
    (pool : StakingPool) : Option (List (PublicKey × UInt64)) := do
  let staked ← payRewards id (its.enum pool.entries.entries)
  let delegated ← payRewards Prod.fst (itd.enum pool.delegations.entries)
  some (staked ++ delegated)

end Staking

end Trv1Chain
