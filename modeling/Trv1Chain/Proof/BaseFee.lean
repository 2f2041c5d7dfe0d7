import Trv1Chain.Fees.FeeMarket
import Trv1Chain.Lib.Run

/-!
# The base fee

One update of the base fee, against the rule its comments give, and a run of updates.

Below the target there is nothing to say: the change is at most the fee over the elasticity. Above
it the change grows with the gas, and nothing bounds the gas of a block. The quotient is cut to 64
bits before it is added, so a change past 2 ^ 64 starts anew from zero; and a change of more than
one elasticity step needs only a block of more than twice the target. A target of zero is accepted
by `new` and divides by zero at the first block that uses gas.
-/

set_option autoImplicit false

namespace Trv1Chain

open Lib

namespace FeeMarket

/-- What `new` checks that an update rests on. -/
structure Sound (m : FeeMarket) : Prop where
  elastic : m.config.elasticityMultiplier ≠ 0
  floor : m.config.baseFeeFloor ≤ m.baseFee

theorem new_sound {config : FeeConfig} {initial : UInt64} {m : FeeMarket}
    (h : new config initial = .ok m) : m.config = config ∧ m.Sound := by
  unfold new at h
  split at h
  · cases h
  rename_i helastic
  split at h
  · cases h
  · cases h
    refine ⟨rfl, helastic, ?_⟩
    show config.baseFeeFloor ≤
      if initial ≤ config.baseFeeFloor then config.baseFeeFloor else initial
    split
    · exact UInt64.le_refl _
    · rename_i hlt
      exact UInt64.le_of_lt (UInt64.not_le.mp hlt)

/-! ## One update -/

/-- The change for gas above the target, exact. -/
def rise (m : FeeMarket) (gas : UInt64) : Nat :=
  m.baseFee.toNat * (gas.toNat - m.config.targetGasPerBlock.toNat) /
    (m.config.targetGasPerBlock.toNat * m.config.elasticityMultiplier.toNat)

/-- The change for gas below the target, exact. -/
def fall (m : FeeMarket) (gas : UInt64) : Nat :=
  m.baseFee.toNat * (m.config.targetGasPerBlock.toNat - gas.toNat) /
    (m.config.targetGasPerBlock.toNat * m.config.elasticityMultiplier.toNat)

/-- What an update comes to. -/
inductive Updates (m : FeeMarket) (gas : UInt64) : Option FeeMarket → Prop
  | kept : gas = m.config.targetGasPerBlock → Updates m gas (some m)
  | stuck : gas ≠ m.config.targetGasPerBlock → m.config.targetGasPerBlock = 0 →
      Updates m gas none
  /-- The change is cut to 64 bits, the sum is not. -/
  | raised {fee : UInt64} : m.config.targetGasPerBlock < gas → m.config.targetGasPerBlock ≠ 0 →
      fee.toNat = min (m.baseFee.toNat + max (m.rise gas) 1 % 2 ^ 64) (2 ^ 64 - 1) →
      Updates m gas (some { m with baseFee := fee })
  | lowered {fee : UInt64} : gas < m.config.targetGasPerBlock →
      fee.toNat = max m.config.baseFeeFloor.toNat (m.baseFee.toNat - m.fall gas) →
      Updates m gas (some { m with baseFee := fee })

/-- A change over at most one target's worth of gas is at most one elasticity step. -/
theorem change_le (m : FeeMarket) (htarget : m.config.targetGasPerBlock ≠ 0) {gasDelta : Nat}
    (hle : gasDelta ≤ m.config.targetGasPerBlock.toNat) :
    m.baseFee.toNat * gasDelta /
        (m.config.targetGasPerBlock.toNat * m.config.elasticityMultiplier.toNat) ≤
      m.baseFee.toNat / m.config.elasticityMultiplier.toNat := by
  have hpos : 0 < m.config.targetGasPerBlock.toNat :=
    Nat.pos_of_ne_zero fun h => htarget (UInt64.toNat_inj.mp h)
  calc m.baseFee.toNat * gasDelta /
        (m.config.targetGasPerBlock.toNat * m.config.elasticityMultiplier.toNat)
      ≤ m.config.targetGasPerBlock.toNat * m.baseFee.toNat /
          (m.config.targetGasPerBlock.toNat * m.config.elasticityMultiplier.toNat) := by
        apply Nat.div_le_div_right
        rw [Nat.mul_comm]
        exact Nat.mul_le_mul_right _ hle
    _ = m.baseFee.toNat / m.config.elasticityMultiplier.toNat := Nat.mul_div_mul_left _ _ hpos

/-- Only a positive target has something below it. -/
theorem target_ne_zero {target gas : UInt64} (hlt : gas < target) : target ≠ 0 := by
  rintro rfl
  exact UInt64.not_lt_zero hlt

theorem fall_le (m : FeeMarket) {gas : UInt64} (hlt : gas < m.config.targetGasPerBlock) :
    m.fall gas ≤ m.baseFee.toNat / m.config.elasticityMultiplier.toNat :=
  m.change_le (target_ne_zero hlt) (Nat.sub_le _ _)

theorem toNat_enforceFloor (m : FeeMarket) (fee : UInt64) :
    (m.enforceFloor fee).baseFee.toNat = max m.config.baseFeeFloor.toNat fee.toNat := by
  unfold enforceFloor
  dsimp only
  split
  · rename_i hlt
    have := UInt64.lt_iff_toNat_lt.mp hlt
    omega
  · rename_i hlt
    have := UInt64.le_iff_toNat_le.mp (UInt64.not_lt.mp hlt)
    omega

theorem Sound.updates {m : FeeMarket} (hm : m.Sound) (gas : UInt64) :
    Updates m gas (m.updateBaseFee gas) := by
  have hfloor := UInt64.le_iff_toNat_le.mp hm.floor
  have hfee := m.baseFee.toNat_lt
  have hdelta : ∀ g, m.config.targetGasPerBlock ≠ 0 →
      m.feeDelta g = some (m.baseFee.toNat * g.toNat /
        (m.config.targetGasPerBlock.toNat * m.config.elasticityMultiplier.toNat)) := by
    intro g htarget
    apply if_neg
    intro hzero
    rcases Nat.mul_eq_zero.mp hzero with h | h
    · exact htarget (UInt64.toNat_inj.mp h)
    · exact hm.elastic (UInt64.toNat_inj.mp h)
  unfold updateBaseFee
  dsimp only
  split
  · rename_i hkept
    exact .kept hkept
  rename_i hne
  split
  · rename_i hgt
    by_cases htarget : m.config.targetGasPerBlock = 0
    · have hnone : m.feeDelta (gas - m.config.targetGasPerBlock) = none := by
        unfold feeDelta
        dsimp only
        rw [htarget]
        exact if_pos (Nat.zero_mul _)
      rw [hnone]
      exact .stuck hne htarget
    · have hsub := UInt64.toNat_sub_of_le _ _ (UInt64.le_of_lt hgt)
      rw [hdelta _ htarget, Option.map_some, hsub]
      refine .raised hgt htarget ?_
      -- the floor is below the old fee, and the sum above it
      have hvalue := m.toNat_enforceFloor (saturatingAdd m.baseFee (UInt64.ofNat
        (max (m.rise gas) 1)))
      rw [toNat_saturatingAdd, UInt64.toNat_ofNat'] at hvalue
      exact hvalue.trans (by omega)
  · rename_i hgt
    have hlt : gas < m.config.targetGasPerBlock := by
      have hle := UInt64.le_iff_toNat_le.mp (UInt64.not_lt.mp hgt)
      have hne' : gas.toNat ≠ m.config.targetGasPerBlock.toNat :=
        fun h => hne (UInt64.toNat_inj.mp h)
      exact UInt64.lt_iff_toNat_lt.mpr (by omega)
    have hsub := UInt64.toNat_sub_of_le _ _ (UInt64.le_of_lt hlt)
    rw [hdelta _ (target_ne_zero hlt), Option.map_some, hsub]
    refine .lowered hlt ?_
    -- a part of the fee fits 64 bits
    have hfits : m.fall gas < 2 ^ 64 := by
      have := m.fall_le hlt
      have := Nat.div_le_self m.baseFee.toNat m.config.elasticityMultiplier.toNat
      omega
    have hvalue := m.toNat_enforceFloor (saturatingSub m.baseFee (UInt64.ofNat (m.fall gas)))
    rw [toNat_saturatingSub, UInt64.toNat_ofNat_of_lt' hfits] at hvalue
    exact hvalue

/-- The base fee the rule gives. -/
def referenceFee (m : FeeMarket) (gas : UInt64) : Nat :=
  if gas = m.config.targetGasPerBlock then m.baseFee.toNat
  else if m.config.targetGasPerBlock < gas then
    max m.config.baseFeeFloor.toNat (min (2 ^ 64 - 1) (m.baseFee.toNat + max 1 (m.rise gas)))
  else max m.config.baseFeeFloor.toNat (m.baseFee.toNat - m.fall gas)

/-- The update divides by something, and what it cuts off the change does not show. -/
def Regular (m : FeeMarket) (gas : UInt64) : Prop :=
  gas = m.config.targetGasPerBlock ∨ m.config.targetGasPerBlock ≠ 0 ∧
    (gas < m.config.targetGasPerBlock ∨ m.rise gas < 2 ^ 64 ∨
      2 ^ 64 - 1 ≤ m.baseFee.toNat + m.rise gas % 2 ^ 64)

instance (m : FeeMarket) (gas : UInt64) : Decidable (m.Regular gas) :=
  inferInstanceAs (Decidable (_ ∨ _ ∧ (_ ∨ _ ∨ _)))

theorem Sound.exact_iff {m : FeeMarket} (hm : m.Sound) (gas : UInt64) :
    (∃ m', m.updateBaseFee gas = some m' ∧ m'.config = m.config ∧
        m'.baseFee.toNat = m.referenceFee gas) ↔ m.Regular gas := by
  have hfloor := UInt64.le_iff_toNat_le.mp hm.floor
  have hfee := m.baseFee.toNat_lt
  have hu := hm.updates gas
  unfold referenceFee Regular
  generalize m.updateBaseFee gas = r at hu ⊢
  cases hu with
  | kept heq =>
    refine iff_of_true ⟨m, rfl, rfl, ?_⟩ (Or.inl heq)
    rw [if_pos heq]
  | stuck hne hzero =>
    refine iff_of_false ?_ ?_
    · rintro ⟨m', h, -⟩
      cases h
    · rintro (h | ⟨h, -⟩)
      · exact hne h
      · exact h hzero
  | raised hgt htarget hvalue =>
    have hlt := UInt64.lt_iff_toNat_lt.mp hgt
    have hne : gas ≠ m.config.targetGasPerBlock := fun h => by subst h; omega
    rw [if_neg hne, if_pos hgt]
    constructor
    · rintro ⟨m', h, -, hfee'⟩
      cases h
      dsimp only at hfee'
      refine Or.inr ⟨htarget, Or.inr ?_⟩
      by_cases hfit : m.rise gas < 2 ^ 64
      · exact Or.inl hfit
      · exact Or.inr (by omega)
    · rintro (h | ⟨-, h | h⟩)
      · exact absurd h hne
      · exact absurd (UInt64.lt_iff_toNat_lt.mp h) (by omega)
      · refine ⟨_, rfl, rfl, ?_⟩
        dsimp only
        omega
  | lowered hlt hvalue =>
    have hlt' := UInt64.lt_iff_toNat_lt.mp hlt
    have hne : gas ≠ m.config.targetGasPerBlock := fun h => by subst h; omega
    have hgt : ¬ m.config.targetGasPerBlock < gas := fun h => by
      have := UInt64.lt_iff_toNat_lt.mp h
      omega
    rw [if_neg hne, if_neg hgt]
    exact iff_of_true ⟨_, rfl, rfl, hvalue⟩ (Or.inr ⟨target_ne_zero hlt, Or.inl hlt⟩)

/-- The rule does not fall with the gas. -/
theorem Sound.referenceFee_mono {m : FeeMarket} (hm : m.Sound) {gas gas' : UInt64}
    (hle : gas ≤ gas') : m.referenceFee gas ≤ m.referenceFee gas' := by
  have hfloor := UInt64.le_iff_toNat_le.mp hm.floor
  have hfee := m.baseFee.toNat_lt
  have hle := UInt64.le_iff_toNat_le.mp hle
  have hrise : m.rise gas ≤ m.rise gas' := by
    apply Nat.div_le_div_right
    exact Nat.mul_le_mul_left _ (Nat.sub_le_sub_right hle _)
  have hfall : m.fall gas' ≤ m.fall gas := by
    apply Nat.div_le_div_right
    exact Nat.mul_le_mul_left _ (Nat.sub_le_sub_left hle _)
  unfold referenceFee
  simp only [UInt64.lt_iff_toNat_lt, ← UInt64.toNat_inj]
  split
  · split
    · exact Nat.le_refl _
    · split
      · omega
      · omega
  · split
    · split
      · omega
      · split
        · omega
        · omega
    · split
      · omega
      · split
        · omega
        · omega

/-- **The base fee follows the rule** exactly for the regular inputs, and does not fall with the gas
among them. -/
theorem base_fee_exact_iff {m opened : FeeMarket} {initial : UInt64}
    (hnew : new m.config initial = .ok opened) (hfloor : m.config.baseFeeFloor ≤ m.baseFee)
    (gas : UInt64) :
    ((∃ m', m.updateBaseFee gas = some m' ∧ m'.config = m.config ∧
        m'.baseFee.toNat = m.referenceFee gas) ↔ m.Regular gas) ∧
      ∀ gas', gas ≤ gas' → m.Regular gas → m.Regular gas' →
        ∃ m₁ m₂, m.updateBaseFee gas = some m₁ ∧ m.updateBaseFee gas' = some m₂ ∧
          m₁.baseFee ≤ m₂.baseFee := by
  obtain ⟨hconfig, hopened⟩ := new_sound hnew
  have hm : m.Sound := ⟨hconfig ▸ hopened.elastic, hfloor⟩
  refine ⟨hm.exact_iff gas, ?_⟩
  intro gas' hle hregular hregular'
  obtain ⟨m₁, hm₁, -, hvalue⟩ := (hm.exact_iff gas).mpr hregular
  obtain ⟨m₂, hm₂, -, hvalue'⟩ := (hm.exact_iff gas').mpr hregular'
  refine ⟨m₁, m₂, hm₁, hm₂, ?_⟩
  rw [UInt64.le_iff_toNat_le, hvalue, hvalue']
  exact hm.referenceFee_mono hle

/-- The default market at a fee of a hundred, below and above its target. -/
theorem base_fee_exact_iff_default :
    ∃ m₁ m₂, updateBaseFee ⟨FeeConfig.default, 100⟩ 7500000 = some m₁ ∧
      updateBaseFee ⟨FeeConfig.default, 100⟩ 30000000 = some m₂ ∧ m₁.baseFee ≤ m₂.baseFee :=
  (base_fee_exact_iff (m := ⟨FeeConfig.default, 100⟩) (rfl : new FeeConfig.default 1 = .ok _)
    (by decide) 7500000).2 30000000 (by decide) (by decide) (by decide)

/-- **Two ways off the rule.** A target of zero is accepted, and the first gas used divides by it.
And a change of exactly 2 ^ 64 is cut to nothing: the rule gives the largest fee, the code leaves
the fee as it was. -/
theorem base_fee_off_rule :
    (∃ m, new { FeeConfig.default with targetGasPerBlock := 0 } 100 = .ok m ∧
        (m.updateBaseFee 1).isNone = true) ∧
      ∃ m, new { FeeConfig.default with targetGasPerBlock := 1, elasticityMultiplier := 1 }
            (2 ^ 63) = .ok m ∧
        (m.updateBaseFee 2).map baseFee = some 18446744073709551615 ∧
        (m.updateBaseFee 3).map baseFee = some (2 ^ 63) ∧ m.referenceFee 3 = 2 ^ 64 - 1 :=
  ⟨⟨_, rfl, by decide⟩, _, rfl, by decide +kernel, by decide +kernel, by decide +kernel⟩

/-! ## A run of updates -/

/-- The market as a machine that takes the gas of one block after another. -/
def step (m : FeeMarket) (gas : UInt64) : Option (FeeMarket × List Unit) :=
  (m.updateBaseFee gas).map fun m' => (m', [])

theorem updateBaseFee_of_step {m m' : FeeMarket} {gas : UInt64} {out : List Unit}
    (hs : step m gas = some (m', out)) : m.updateBaseFee gas = some m' := by
  obtain ⟨m'', hupdate, heq⟩ := Option.map_eq_some_iff.mp hs
  cases heq
  exact hupdate

/-- The most one block should change the fee by. -/
def elasticityStep (m : FeeMarket) : Nat :=
  max 1 (m.baseFee.toNat / m.config.elasticityMultiplier.toNat)

/-- The gas is not above the target, or what it adds is within one step, or there is no more than
one step to the largest fee. -/
def Gentle (m : FeeMarket) (gas : UInt64) : Prop :=
  gas ≤ m.config.targetGasPerBlock ∨ m.rise gas % 2 ^ 64 ≤ m.elasticityStep ∨
    2 ^ 64 - 1 ≤ m.baseFee.toNat + m.elasticityStep

instance (m : FeeMarket) (gas : UInt64) : Decidable (m.Gentle gas) :=
  inferInstanceAs (Decidable (_ ∨ _ ∨ _))

/-- The two fees are within one step of the first market. -/
def Near (m m' : FeeMarket) : Prop :=
  m'.baseFee.toNat ≤ m.baseFee.toNat + m.elasticityStep ∧
    m.baseFee.toNat ≤ m'.baseFee.toNat + m.elasticityStep

instance (m m' : FeeMarket) : Decidable (m.Near m') := inferInstanceAs (Decidable (_ ∧ _))

theorem Sound.near_iff {m m' : FeeMarket} (hm : m.Sound) {gas : UInt64}
    (h : m.updateBaseFee gas = some m') : m.Near m' ↔ m.Gentle gas := by
  have hfee := m.baseFee.toNat_lt
  have hone : 1 ≤ m.elasticityStep := le_max_left _ _
  have hu := hm.updates gas
  rw [h] at hu
  unfold Near Gentle
  cases hu with
  | kept heq =>
    refine iff_of_true ?_ (Or.inl (UInt64.le_of_eq heq))
    omega
  | raised hgt _ hvalue =>
    have hgt' : ¬ gas ≤ m.config.targetGasPerBlock := UInt64.not_le.mpr hgt
    simp only [hgt', false_or]
    omega
  | lowered hlt hvalue =>
    have hfall : m.fall gas ≤ m.elasticityStep := (m.fall_le hlt).trans (le_max_right _ _)
    have hfloor := UInt64.le_iff_toNat_le.mp hm.floor
    refine iff_of_true ?_ (Or.inl (UInt64.le_of_lt hlt))
    dsimp only
    omega

/-- A block of at most twice the target is gentle. -/
theorem gentle_of_le {m : FeeMarket} (htarget : m.config.targetGasPerBlock ≠ 0) {gas : UInt64}
    (hle : gas.toNat ≤ 2 * m.config.targetGasPerBlock.toNat) : m.Gentle gas := by
  refine Or.inr (Or.inl ?_)
  calc m.rise gas % 2 ^ 64 ≤ m.rise gas := Nat.mod_le _ _
    _ ≤ m.baseFee.toNat / m.config.elasticityMultiplier.toNat :=
      m.change_le htarget (by omega)
    _ ≤ m.elasticityStep := le_max_right _ _

theorem Sound.step {m m' : FeeMarket} (hm : m.Sound) {gas : UInt64}
    (h : m.updateBaseFee gas = some m') : m'.config = m.config ∧ m'.Sound := by
  have hu := hm.updates gas
  have hfloor := UInt64.le_iff_toNat_le.mp hm.floor
  have hfee := m.baseFee.toNat_lt
  rw [h] at hu
  cases hu with
  | kept _ => exact ⟨rfl, hm⟩
  | raised _ _ hvalue =>
    refine ⟨rfl, hm.elastic, UInt64.le_iff_toNat_le.mpr ?_⟩
    dsimp only
    omega
  | lowered _ hvalue =>
    refine ⟨rfl, hm.elastic, UInt64.le_iff_toNat_le.mpr ?_⟩
    dsimp only
    omega

theorem sound_of_run {G : FeeMarket → UInt64 → Prop} {opened : FeeMarket} (ho : opened.Sound)
    {hist : List (Turn FeeMarket UInt64 Unit)} {m : FeeMarket}
    (hr : Run FeeMarket.step G opened hist m) : m.config = opened.config ∧ m.Sound := by
  refine hr.invariant (I := fun _ m => m.config = opened.config ∧ m.Sound) ⟨rfl, ho⟩ ?_
  rintro _ m gas m' out _ ⟨hconfig, hm⟩ _ hs
  obtain ⟨hconfig', hm'⟩ := hm.step (updateBaseFee_of_step hs)
  exact ⟨hconfig'.trans hconfig, hm'⟩

/-- **Steps of the base fee.** A market with a positive target takes any gas, and its fee never goes
below the floor. A block changes the fee by at most one elasticity step exactly if it is gentle, as
each block of at most twice the target is. -/
theorem base_fee_steps {config : FeeConfig} {initial : UInt64} {opened : FeeMarket}
    (hnew : new config initial = .ok opened) (htarget : 0 < config.targetGasPerBlock)
    {hist : List (Turn FeeMarket UInt64 Unit)} {m : FeeMarket}
    (hr : Run FeeMarket.step (fun _ _ => True) opened hist m) :
    config.baseFeeFloor ≤ m.baseFee ∧ (∀ gas, (m.updateBaseFee gas).isSome = true) ∧
      ∀ τ ∈ hist, (τ.before.Near τ.after ↔ τ.before.Gentle τ.event) ∧
        (τ.event.toNat ≤ 2 * config.targetGasPerBlock.toNat → τ.before.Gentle τ.event) := by
  obtain ⟨rfl, ho⟩ := new_sound hnew
  have htarget : opened.config.targetGasPerBlock ≠ 0 := target_ne_zero htarget
  refine ⟨?_, ?_, ?_⟩
  · obtain ⟨hconfig, hm⟩ := sound_of_run ho hr
    rw [← hconfig]
    exact hm.floor
  · intro gas
    obtain ⟨hconfig, hm⟩ := sound_of_run ho hr
    have hu := hm.updates gas
    generalize m.updateBaseFee gas = r at hu ⊢
    cases hu with
    | stuck _ hzero =>
      rw [hconfig] at hzero
      exact absurd hzero htarget
    | kept _ => rfl
    | raised _ _ _ => rfl
    | lowered _ _ => rfl
  · intro τ hτ
    obtain ⟨past, -, hpast, -, hs⟩ := hr.of_mem hτ
    obtain ⟨hconfig, hm⟩ := sound_of_run ho hpast
    refine ⟨hm.near_iff (updateBaseFee_of_step hs), fun hle => ?_⟩
    rw [← hconfig] at htarget hle
    exact gentle_of_le htarget hle

def defaultMarket : FeeMarket := ⟨FeeConfig.default, 100⟩

/-- A full block, an empty one, one on target. -/
def gentleGas : List UInt64 := [30000000, 0, 15000000]

theorem base_fee_steps_gentle :
    ∃ hist m, Run FeeMarket.step (fun _ _ => True) defaultMarket hist m ∧ m.baseFee = 98 ∧
      FeeConfig.default.baseFeeFloor ≤ m.baseFee ∧ ∀ τ ∈ hist, τ.before.Near τ.after := by
  obtain ⟨hist, m, hr, hfee, hgas⟩ : ∃ hist m,
      Run FeeMarket.step (fun _ _ => True) defaultMarket hist m ∧ m.baseFee = 98 ∧
        ∀ τ ∈ hist, τ.event.toNat ≤ 2 * FeeConfig.default.targetGasPerBlock.toNat :=
    Run.exists_of_replay gentleGas (by decide +kernel)
  obtain ⟨hfloor, -, hnear⟩ :=
    base_fee_steps (rfl : new FeeConfig.default 100 = .ok defaultMarket) (by decide) hr
  refine ⟨hist, m, hr, hfee, hfloor, fun τ hτ => ?_⟩
  exact (hnear τ hτ).1.mpr ((hnear τ hτ).2 (hgas τ hτ))

def crowdedGas : List UInt64 := [3000 * 21000]

/-- **One block, forty percent.** A committed block of three thousand transactions uses more than
four times the target, and more than twice the maximum nothing enforces. -/
theorem base_fee_leap :
    new FeeConfig.default 100 = .ok defaultMarket ∧
      ∃ hist m, Run FeeMarket.step (fun _ _ => True) defaultMarket hist m ∧
        defaultMarket.elasticityStep = 12 ∧ m.baseFee = 140 ∧
        ¬ ∀ τ ∈ hist, τ.before.Near τ.after := by
  exact ⟨rfl, Run.exists_of_replay crowdedGas (by decide +kernel)⟩

end FeeMarket

end Trv1Chain
