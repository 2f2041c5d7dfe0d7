import Trv1Chain.Lib.Word
import Trv1Chain.Staking.Pool

/-!
# Voting power

`get_voting_power` in `economics/staking/src/pool.rs`, with the weights of `tiers.rs`. The power of
a key is a saturating sum over its own stakes and over the delegations to it, and the second loop
goes over a hash map. Both loops together are one fold (`getVotingPower_eq`), and its closed form
has no order in it.
-/

set_option autoImplicit false

namespace Trv1Chain

open Lib

namespace Staking

/-- Vote weight multiplier, in thousandths. -/
def LockTier.voteWeightBps : LockTier → UInt64
  | .noLock => 0
  | .thirtyDay => 100
  | .ninetyDay => 200
  | .oneEightyDay => 300
  | .threeSixtyDay => 500
  | .delegator => 1000
  | .permanent => 1500

/-- The product is taken in 128 bits; the quotient is cut to 64. -/
def Entry.power {Owner : Type} (entry : Entry Owner) : UInt64 :=
  UInt64.ofNat (entry.amount.toNat * entry.lockTier.voteWeightBps.toNat / 1000)

def addPower {Owner : Type} (power : UInt64) (entries : List (Entry Owner)) : UInt64 :=
  entries.foldl (fun power entry => saturatingAdd power entry.power) power

abbrev DelegationOrder := IterOrder (Sigma fun _ : DelegationKey => List (Entry DelegationKey))

namespace StakingPool

/-- The power of a key's own stakes, then of the delegations whose validator it is. -/
def getVotingPower (it : DelegationOrder) (pool : StakingPool) (pubkey : PublicKey) : UInt64 :=
  let power := match pool.entries.lookup pubkey with
    | some entries => addPower 0 entries
    | none => 0
  (it.enum pool.delegations.entries).foldl
    (fun power d => if d.1.2 = pubkey then addPower power d.2 else power) power

/-! ## The two loops as one sum -/

/-- The powers of a key's own stakes. -/
def ownPowers (pool : StakingPool) (pubkey : PublicKey) : List UInt64 :=
  ((pool.entries.lookup pubkey).getD []).map Entry.power

/-- The powers of the delegations to a key. -/
def delegatedPowers (pool : StakingPool) (pubkey : PublicKey) : List UInt64 :=
  pool.delegations.entries.flatMap fun d => if d.1.2 = pubkey then d.2.map Entry.power else []

end StakingPool

theorem addPower_eq {Owner : Type} (power : UInt64) (entries : List (Entry Owner)) :
    addPower power entries = (entries.map Entry.power).foldl saturatingAdd power := by
  unfold addPower
  rw [List.foldl_map]

theorem foldl_addPower (pubkey : PublicKey) :
    ∀ (l : List (Sigma fun _ : DelegationKey => List (Entry DelegationKey))) (power : UInt64),
    l.foldl (fun power d => if d.1.2 = pubkey then addPower power d.2 else power) power =
      (l.flatMap fun d => if d.1.2 = pubkey then d.2.map Entry.power else []).foldl
        saturatingAdd power := by
  intro l
  induction l with
  | nil => intro power; rfl
  | cons d l ih =>
    intro power
    rw [List.foldl_cons, ih, List.flatMap_cons, List.foldl_append]
    split
    · rw [addPower_eq]
    · rfl

namespace StakingPool

/-- **Voting power is one saturating sum**, whatever the order of the map. -/
theorem getVotingPower_eq (it : DelegationOrder) (pool : StakingPool) (pubkey : PublicKey) :
    pool.getVotingPower it pubkey =
      (pool.ownPowers pubkey ++ pool.delegatedPowers pubkey).foldl saturatingAdd 0 := by
  unfold getVotingPower
  rw [foldl_addPower, List.foldl_append]
  have hown : (match pool.entries.lookup pubkey with
      | some entries => addPower 0 entries
      | none => 0) = (pool.ownPowers pubkey).foldl saturatingAdd 0 := by
    unfold ownPowers
    cases pool.entries.lookup pubkey with
    | none => rfl
    | some entries => exact addPower_eq 0 entries
  rw [hown]
  exact foldl_saturatingAdd_perm ((it.perm _).flatMap_right _) _

theorem getVotingPower_order (it it' : DelegationOrder) (pool : StakingPool)
    (pubkey : PublicKey) : pool.getVotingPower it pubkey = pool.getVotingPower it' pubkey := by
  rw [getVotingPower_eq, getVotingPower_eq]

end StakingPool

end Staking

end Trv1Chain
