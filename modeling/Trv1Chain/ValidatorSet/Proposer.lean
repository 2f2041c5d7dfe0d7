import Trv1Chain.Lib.Slots
import Trv1Chain.ValidatorSet.Manager

/-!
# The proposer of a height

`get_proposer` in `runtime/validator-set/src/manager.rs`: the active validators stand in the order
of their keys, each with a range as long as its voting power, and the height modulo the total picks
the range. Sums are 64-bit words and wrap.

On exact sums the loop over the cumulative powers is `Lib.slotOwner` (`searchSlot_eq`).
-/

set_option autoImplicit false

namespace Trv1Chain

open Lib Staking

namespace ValidatorSet

/-- `sort_by_key(|(pk, _)| *pk)`. -/
def KeyLe (a b : PublicKey × UInt64) : Prop := a.1.toList ≤ b.1.toList

instance : DecidableRel KeyLe := fun _ _ => inferInstanceAs (Decidable (_ ≤ _))

instance : Std.Total KeyLe := ⟨fun a b => List.le_total a.1.toList b.1.toList⟩

instance : IsTrans (PublicKey × UInt64) KeyLe := ⟨fun _ _ _ => List.le_trans⟩

/-- The loop over the ranges: the first whose end is past the slot. -/
def searchSlot (slot : UInt64) : UInt64 → List (PublicKey × UInt64) → Option PublicKey
  | _, [] => none
  | cumulative, (pubkey, power) :: active =>
    if slot < cumulative + power then some pubkey
    else searchSlot slot (cumulative + power) active

namespace ValidatorSetManager

/-- The active validators with their powers, as the map lists them. -/
def activePowers (it : IterOrder ValidatorInfo) (itd : DelegationOrder) (vs : ValidatorSetManager)
    (stakingPool : StakingPool) : List (PublicKey × UInt64) :=
  (withStatus it vs.validators .active).map fun v =>
    (v.pubkey, stakingPool.getVotingPower itd v.pubkey)

/-- Deterministic proposer selection for a height, by weighted round-robin. -/
def getProposer (it : IterOrder ValidatorInfo) (itd : DelegationOrder) (vs : ValidatorSetManager)
    (height : UInt64) (stakingPool : StakingPool) : Option PublicKey :=
  let active := vs.activePowers it itd stakingPool
  if active.isEmpty then none
  else
    let active := active.insertionSort KeyLe
    let totalPower := (active.map (·.2)).sum
    if totalPower = 0 then none
    else match searchSlot (height % totalPower) 0 active with
      | some pubkey => some pubkey
      -- the fallback: the last validator
      | none => active.getLast?.map (·.1)

end ValidatorSetManager

/-! ## The loop over exact sums -/

/-- The ranges as numbers. -/
def ranges (active : List (PublicKey × UInt64)) : List (PublicKey × Nat) :=
  active.map fun x => (x.1, x.2.toNat)

theorem totalWeight_ranges (active : List (PublicKey × UInt64)) :
    totalWeight (ranges active) = ((active.map (·.2)).map UInt64.toNat).sum := by
  unfold totalWeight ranges
  rw [List.map_map, List.map_map]
  rfl

/-- As long as the sums fit, the loop finds the owner of the slot. -/
theorem searchSlot_eq {slot : UInt64} : ∀ {active : List (PublicKey × UInt64)}
    {cumulative : UInt64}, cumulative.toNat + totalWeight (ranges active) < 2 ^ 64 →
    cumulative ≤ slot →
    searchSlot slot cumulative active =
      slotOwner (ranges active) (slot.toNat - cumulative.toNat) := by
  intro active
  induction active with
  | nil =>
    intro cumulative _ _
    rfl
  | cons x active ih =>
    intro cumulative hfit hle
    obtain ⟨pubkey, power⟩ := x
    have hsum : totalWeight (ranges ((pubkey, power) :: active)) =
      power.toNat + totalWeight (ranges active) := rfl
    have hnext : (cumulative + power).toNat = cumulative.toNat + power.toNat := by
      rw [UInt64.toNat_add]
      exact Nat.mod_eq_of_lt (by omega)
    have hnat := UInt64.le_iff_toNat_le.mp hle
    show (if slot < cumulative + power then some pubkey
      else searchSlot slot (cumulative + power) active) =
        if slot.toNat - cumulative.toNat < power.toNat then some pubkey
        else slotOwner (ranges active) (slot.toNat - cumulative.toNat - power.toNat)
    by_cases hlt : slot < cumulative + power
    · have hnatlt := UInt64.lt_iff_toNat_lt.mp hlt
      rw [if_pos hlt, if_pos (by omega)]
    · have hge := UInt64.not_lt.mp hlt
      have hnatge := UInt64.le_iff_toNat_le.mp hge
      rw [if_neg hlt, if_neg (by omega), ih (by omega) hge, hnext, Nat.sub_sub]

end ValidatorSet

end Trv1Chain
