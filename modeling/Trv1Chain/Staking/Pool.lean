import Trv1Chain.Lib.Bytes
import Trv1Chain.Lib.HashMap
import Mathlib.Data.UInt

/-!
# The staking pool

`economics/staking/src/{tiers,types,pool}.rs`. A stake and a delegation are the same thing held by
different owners: a stake by its staker, a delegation by the pair of delegator and validator. So
`Entry` carries its owner, a `Book` is the map from owners to their entries, and `stake` with
`delegate`, `unstake` with `undelegate`, are one deposit and one withdrawal on two books.

Rates, vote weights and rewards are not part of this module.
-/

set_option autoImplicit false

namespace Trv1Chain

open Lib

namespace Staking

abbrev PublicKey := Bytes 32

/-- Key for looking up delegations: (delegator, validator). -/
abbrev DelegationKey := PublicKey × PublicKey

inductive LockTier where
  | noLock
  | thirtyDay
  | ninetyDay
  | oneEightyDay
  | threeSixtyDay
  | delegator
  | permanent
  deriving DecidableEq

def thirtyDayEpochs : UInt64 := 30
def ninetyDayEpochs : UInt64 := 90
def oneEightyDayEpochs : UInt64 := 180
def threeSixtyDayEpochs : UInt64 := 360

/-- Lock duration in epochs; `none` for a lock that never ends. -/
def LockTier.lockDurationEpochs : LockTier → Option UInt64
  | .noLock => some 0
  | .thirtyDay => some thirtyDayEpochs
  | .ninetyDay => some ninetyDayEpochs
  | .oneEightyDay => some oneEightyDayEpochs
  | .threeSixtyDay => some threeSixtyDayEpochs
  | .delegator => some 0
  | .permanent => none

/-- A locked position of `owner`: a `StakeEntry` for a key, a `DelegationEntry` for a pair. -/
structure Entry (Owner : Type) where
  owner : Owner
  amount : UInt64
  lockTier : LockTier
  startEpoch : UInt64
  unlockEpoch : Option UInt64

abbrev Book (Owner : Type) := HashMap Owner (List (Entry Owner))

inductive StakingError where
  | insufficientBalance (held need : UInt64)
  | noStakeFound
  | noDelegationFound
  | zeroAmount
  | overflow
  deriving DecidableEq

def isUnlocked (unlockEpoch : Option UInt64) (currentEpoch : UInt64) : Bool :=
  match unlockEpoch with
  | none => false
  | some unlock => currentEpoch ≥ unlock

/-- The pool's state. -/
structure StakingPool where
  totalStaked : UInt64
  entries : Book PublicKey
  delegations : Book DelegationKey
  currentEpoch : UInt64

/-! ## One book -/

section Book

variable {Owner : Type} [DecidableEq Owner]

/-- A position opened in `currentEpoch`. -/
def Entry.new (owner : Owner) (amount : UInt64) (tier : LockTier) (currentEpoch : UInt64) :
    Entry Owner where
  owner := owner
  amount := amount
  lockTier := tier
  startEpoch := currentEpoch
  unlockEpoch := tier.lockDurationEpochs.map fun d => currentEpoch + d

/-- Append a position to the owner's entries and raise the total. The entry is in the book by the
time the total is found not to fit. -/
def Book.deposit (book : Book Owner) (totalStaked currentEpoch : UInt64) (owner : Owner)
    (amount : UInt64) (tier : LockTier) : Book Owner × UInt64 × Except StakingError Unit :=
  if amount = 0 then (book, totalStaked, .error .zeroAmount)
  else
    let book : Book Owner := book.insert owner
      ((book.lookup owner).getD [] ++ [Entry.new owner amount tier currentEpoch])
    if totalStaked.toNat + amount.toNat < 2 ^ 64 then (book, totalStaked + amount, .ok ())
    else (book, totalStaked, .error .overflow)

/-- The removal loop: `amount` is still to be taken, `removed` has been. An unlocked entry is
removed whole or, the last one, in part; a locked one is passed over. -/
def takeUnlocked (currentEpoch : UInt64) :
    List (Entry Owner) → UInt64 → UInt64 → List (Entry Owner) × UInt64
  | [], _, removed => ([], removed)
  | e :: rest, amount, removed =>
    if amount > 0 then
      if isUnlocked e.unlockEpoch currentEpoch then
        if e.amount ≤ amount then
          takeUnlocked currentEpoch rest (amount - e.amount) (removed + e.amount)
        else ({ e with amount := e.amount - amount } :: rest, removed + amount)
      else
        let (rest, removed) := takeUnlocked currentEpoch rest amount removed
        (e :: rest, removed)
    else (e :: rest, removed)

/-- Take `amount` out of the owner's unlocked entries, earliest first. -/
def Book.withdraw (book : Book Owner) (totalStaked currentEpoch : UInt64) (owner : Owner)
    (amount : UInt64) (notFound : StakingError) : Book Owner × UInt64 × Except StakingError Unit :=
  if amount = 0 then (book, totalStaked, .error .zeroAmount)
  else match book.lookup owner with
    | none => (book, totalStaked, .error notFound)
    | some entries =>
      let unlockedTotal :=
        ((entries.filter fun e => isUnlocked e.unlockEpoch currentEpoch).map (·.amount)).sum
      if unlockedTotal < amount then
        (book, totalStaked, .error (.insufficientBalance unlockedTotal amount))
      else
        let (entries, removedTotal) := takeUnlocked currentEpoch entries amount 0
        let book : Book Owner := book.insert owner entries
        (if entries.isEmpty then book.erase owner else book, totalStaked - removedTotal, .ok ())

end Book

/-! ## The operations -/

namespace StakingPool

def new : StakingPool := ⟨0, ∅, ∅, 0⟩

def setEpoch (pool : StakingPool) (epoch : UInt64) : StakingPool :=
  { pool with currentEpoch := epoch }

def stake (pool : StakingPool) (staker : PublicKey) (amount : UInt64) (tier : LockTier) :
    StakingPool × Except StakingError Unit :=
  let (entries, totalStaked, result) :=
    pool.entries.deposit pool.totalStaked pool.currentEpoch staker amount tier
  ({ pool with entries := entries, totalStaked := totalStaked }, result)

def unstake (pool : StakingPool) (staker : PublicKey) (amount : UInt64) :
    StakingPool × Except StakingError Unit :=
  let (entries, totalStaked, result) :=
    pool.entries.withdraw pool.totalStaked pool.currentEpoch staker amount .noStakeFound
  ({ pool with entries := entries, totalStaked := totalStaked }, result)

def delegate (pool : StakingPool) (delegator validator : PublicKey) (amount : UInt64)
    (tier : LockTier) : StakingPool × Except StakingError Unit :=
  let (delegations, totalStaked, result) := pool.delegations.deposit pool.totalStaked
    pool.currentEpoch (delegator, validator) amount tier
  ({ pool with delegations := delegations, totalStaked := totalStaked }, result)

def undelegate (pool : StakingPool) (delegator validator : PublicKey) (amount : UInt64) :
    StakingPool × Except StakingError Unit :=
  let (delegations, totalStaked, result) := pool.delegations.withdraw pool.totalStaked
    pool.currentEpoch (delegator, validator) amount .noDelegationFound
  ({ pool with delegations := delegations, totalStaked := totalStaked }, result)

end StakingPool

/-- One call of the pool's operations. -/
inductive Call where
  | stake (staker : PublicKey) (amount : UInt64) (tier : LockTier)
  | unstake (staker : PublicKey) (amount : UInt64)
  | delegate (delegator validator : PublicKey) (amount : UInt64) (tier : LockTier)
  | undelegate (delegator validator : PublicKey) (amount : UInt64)
  | setEpoch (epoch : UInt64)

def StakingPool.call (pool : StakingPool) : Call → StakingPool × Except StakingError Unit
  | .stake staker amount tier => pool.stake staker amount tier
  | .unstake staker amount => pool.unstake staker amount
  | .delegate delegator validator amount tier => pool.delegate delegator validator amount tier
  | .undelegate delegator validator amount => pool.undelegate delegator validator amount
  | .setEpoch epoch => (pool.setEpoch epoch, .ok ())

end Staking

end Trv1Chain
