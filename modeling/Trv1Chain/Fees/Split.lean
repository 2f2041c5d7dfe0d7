import Mathlib.Tactic.Ring
import Trv1Chain.Fees.FeeMarket

/-!
# The fee split

`economics/fees/src/{types,split}.rs`: the ratios of an epoch and the four parts of a fee. Three
ratios are interpolated in `i64` and the burn takes what they leave of 10,000; three parts are
taken of the fee and the burn takes what they leave of it. Both remainders are plain subtractions.

A signed word is an integer here, cut back to its range after every operation.
-/

set_option autoImplicit false

namespace Trv1Chain

open Lib

/-! ## Signed words -/

/-- An integer as 64 bits with a sign. -/
def toI64 (x : Int) : Int := x.bmod (2 ^ 64)

/-- `as u64`. -/
def toU64 (x : Int) : UInt64 := UInt64.ofNat (x % 2 ^ 64).toNat

/-- The quotient of two signed words, rounded towards zero; `none` when it panics, which is on a
zero divisor and on the one quotient that is too large. -/
def divI64 (a b : Int) : Option Int :=
  if b = 0 ∨ a = -2 ^ 63 ∧ b = -1 then none else some (a.tdiv b)

theorem toI64_of_mem {x : Int} (h₁ : -2 ^ 63 ≤ x) (h₂ : x < 2 ^ 63) : toI64 x = x := by
  unfold toI64
  exact Int.bmod_eq_of_le (by omega) (by omega)

theorem toNat_toU64 {x : Int} (h₁ : -2 ^ 63 ≤ x) (h₂ : x < 2 ^ 63) :
    ((toU64 x).toNat : Int) = if 0 ≤ x then x else x + 2 ^ 64 := by
  have hlt : (x % 2 ^ 64).toNat < 2 ^ 64 := by omega
  unfold toU64
  rw [UInt64.toNat_ofNat_of_lt' hlt]
  split <;> omega

theorem toI64_range (x : Int) : -2 ^ 63 ≤ toI64 x ∧ toI64 x < 2 ^ 63 := by
  have h₁ := Int.le_bmod (x := x) (m := 2 ^ 64) (by decide)
  have h₂ := Int.bmod_lt (x := x) (m := 2 ^ 64) (by decide)
  unfold toI64
  omega

/-! ## The split -/

/-- One ratio on the way from launch to maturity; `none` when the division panics. -/
def interp (epoch transitionEpochs launchVal maturityVal : UInt64) : Option UInt64 :=
  let l := toI64 launchVal.toNat
  let m := toI64 maturityVal.toNat
  let product := toI64 (toI64 (m - l) * toI64 epoch.toNat)
  (divI64 product (toI64 transitionEpochs.toNat)).map fun q => toU64 (toI64 (l + q))

/-- The ratios at an epoch; the burn is what the other three leave, in 64 bits. -/
def SplitConfig.splitAtEpoch (c : SplitConfig) (epoch : UInt64) : Option SplitRatios :=
  if epoch ≥ c.transitionEpochs then some c.maturity
  else do
    let validatorBps ←
      interp epoch c.transitionEpochs c.launch.validatorBps c.maturity.validatorBps
    let treasuryBps ← interp epoch c.transitionEpochs c.launch.treasuryBps c.maturity.treasuryBps
    let developerBps ←
      interp epoch c.transitionEpochs c.launch.developerBps c.maturity.developerBps
    some ⟨10000 - validatorBps - treasuryBps - developerBps, validatorBps, treasuryBps,
      developerBps⟩

structure SplitResult where
  burn : UInt64
  validator : UInt64
  treasury : UInt64
  developer : UInt64

structure FeeSplit where
  config : SplitConfig

namespace FeeSplit

def new : FeeSplit := ⟨SplitConfig.default⟩

def withConfig (config : SplitConfig) : Except FeeError FeeSplit :=
  if config.validate = false then .error (.invalidSplitRatios 0) else .ok ⟨config⟩

/-- A part of the fee: multiplied in 128 bits, where it fits, and cut back to 64. -/
def part (totalFee bps : UInt64) : UInt64 := UInt64.ofNat (totalFee.toNat * bps.toNat / 10000)

def splitWith (totalFee : UInt64) (ratios : SplitRatios) : SplitResult :=
  let validator := part totalFee ratios.validatorBps
  let treasury := part totalFee ratios.treasuryBps
  let developer := part totalFee ratios.developerBps
  ⟨totalFee - validator - treasury - developer, validator, treasury, developer⟩

/-- The four parts of a fee at an epoch. -/
def splitFee (s : FeeSplit) (totalFee epoch : UInt64) : Option SplitResult :=
  (s.config.splitAtEpoch epoch).map (splitWith totalFee)

end FeeSplit

/-! ## Remainders -/

/-- Three subtractions in a row take away the sum, if there is that much. -/
theorem toNat_sub_sub_sub {n a b c : UInt64} (h : a.toNat + b.toNat + c.toNat ≤ n.toNat) :
    (n - a - b - c).toNat + a.toNat + b.toNat + c.toNat = n.toNat := by
  have h₁ : (n - a).toNat = n.toNat - a.toNat :=
    UInt64.toNat_sub_of_le _ _ (UInt64.le_iff_toNat_le.mpr (by omega))
  have h₂ : (n - a - b).toNat = n.toNat - a.toNat - b.toNat := by
    rw [UInt64.toNat_sub_of_le _ _ (UInt64.le_iff_toNat_le.mpr (by omega)), h₁]
  have h₃ : (n - a - b - c).toNat = n.toNat - a.toNat - b.toNat - c.toNat := by
    rw [UInt64.toNat_sub_of_le _ _ (UInt64.le_iff_toNat_le.mpr (by omega)), h₂]
  omega

theorem FeeSplit.toNat_part {totalFee bps : UInt64} (h : bps.toNat ≤ 10000) :
    (part totalFee bps).toNat = totalFee.toNat * bps.toNat / 10000 := by
  have hle : totalFee.toNat * bps.toNat / 10000 ≤ totalFee.toNat :=
    Nat.div_le_of_le_mul (by rw [Nat.mul_comm 10000]; exact Nat.mul_le_mul_left _ h)
  exact UInt64.toNat_ofNat_of_lt' (Nat.lt_of_le_of_lt hle totalFee.toNat_lt)

/-- **The parts of a fee** never exceed it when the three ratios leave something to burn. -/
theorem FeeSplit.parts_le {totalFee : UInt64} {r : SplitRatios}
    (h : r.validatorBps.toNat + r.treasuryBps.toNat + r.developerBps.toNat ≤ 10000) :
    (splitWith totalFee r).validator.toNat + (splitWith totalFee r).treasury.toNat +
      (splitWith totalFee r).developer.toNat ≤ totalFee.toNat := by
  show (part totalFee r.validatorBps).toNat + (part totalFee r.treasuryBps).toNat +
    (part totalFee r.developerBps).toNat ≤ totalFee.toNat
  rw [toNat_part (by omega), toNat_part (by omega), toNat_part (by omega)]
  calc totalFee.toNat * r.validatorBps.toNat / 10000 +
        totalFee.toNat * r.treasuryBps.toNat / 10000 +
        totalFee.toNat * r.developerBps.toNat / 10000
      ≤ (totalFee.toNat * r.validatorBps.toNat + totalFee.toNat * r.treasuryBps.toNat) / 10000 +
        totalFee.toNat * r.developerBps.toNat / 10000 :=
        Nat.add_le_add_right Nat.div_add_div_le_add_div _
    _ ≤ (totalFee.toNat * r.validatorBps.toNat + totalFee.toNat * r.treasuryBps.toNat +
        totalFee.toNat * r.developerBps.toNat) / 10000 := Nat.div_add_div_le_add_div
    _ = totalFee.toNat *
        (r.validatorBps.toNat + r.treasuryBps.toNat + r.developerBps.toNat) / 10000 := by ring_nf
    _ ≤ totalFee.toNat * 10000 / 10000 := Nat.div_le_div_right (Nat.mul_le_mul_left _ h)
    _ = totalFee.toNat := Nat.mul_div_cancel _ (by decide)

end Trv1Chain
