import Trv1Chain.Fees.Split

/-!
# When a fee split conserves the fee

The burn takes what the other three ratios leave of 10,000. Each of the three is rounded towards its
launch value: down when it rises and up when it falls. So the three together can exceed 10,000
while the exact ones do not, and then the burn wraps around.

`Glides` is the exact condition. Where the signed arithmetic has room it says that what the rising
ratios have gained is covered by the burn at launch and by what the falling ones have given up
(`glides_iff_covered`).
-/

set_option autoImplicit false

namespace Trv1Chain

open Lib

/-- The ratios sum to 10,000, without a carry. -/
def SplitRatios.Exact (r : SplitRatios) : Prop :=
  r.burnBps.toNat + r.validatorBps.toNat + r.treasuryBps.toNat + r.developerBps.toNat = 10000

instance (r : SplitRatios) : Decidable r.Exact := inferInstanceAs (Decidable (_ = _))

theorem SplitRatios.Exact.le {r : SplitRatios} (h : r.Exact) :
    r.validatorBps.toNat ≤ 10000 ∧ r.treasuryBps.toNat ≤ 10000 ∧ r.developerBps.toNat ≤ 10000 := by
  unfold SplitRatios.Exact at h
  omega

/-- The fee is split without underflow: at this epoch three ratios leave something of 10,000 and
three parts something of the fee, and in both cases the four make up the whole. -/
def FeeSplit.Conserves (s : FeeSplit) (totalFee epoch : UInt64) : Prop :=
  ∃ ratios result, s.config.splitAtEpoch epoch = some ratios ∧
    s.splitFee totalFee epoch = some result ∧
    ratios.validatorBps.toNat + ratios.treasuryBps.toNat + ratios.developerBps.toNat ≤ 10000 ∧
    result.validator.toNat + result.treasury.toNat + result.developer.toNat ≤ totalFee.toNat ∧
    ratios.Exact ∧
    result.burn.toNat + result.validator.toNat + result.treasury.toNat + result.developer.toNat =
      totalFee.toNat

/-! ## A fee and its ratios -/

/-- A split conserves the fee as soon as its ratios sum to 10,000. -/
theorem FeeSplit.conserves_iff (s : FeeSplit) (totalFee epoch : UInt64) :
    s.Conserves totalFee epoch ↔
      ∃ ratios, s.config.splitAtEpoch epoch = some ratios ∧ ratios.Exact := by
  constructor
  · rintro ⟨ratios, -, hratios, -, -, -, hexact, -⟩
    exact ⟨ratios, hratios, hexact⟩
  · rintro ⟨ratios, hratios, hexact⟩
    have hleave : ratios.validatorBps.toNat + ratios.treasuryBps.toNat +
        ratios.developerBps.toNat ≤ 10000 := by
      unfold SplitRatios.Exact at hexact
      omega
    have hparts : (splitWith totalFee ratios).validator.toNat +
        (splitWith totalFee ratios).treasury.toNat + (splitWith totalFee ratios).developer.toNat ≤
        totalFee.toNat := parts_le hleave
    refine ⟨ratios, splitWith totalFee ratios, hratios, ?_, hleave, hparts, hexact, ?_⟩
    · unfold splitFee
      rw [hratios]
      rfl
    · exact toNat_sub_sub_sub hparts

/-- The burn makes up the 10,000 exactly if the others leave something of it. -/
theorem remainder_exact_iff (v t d : UInt64) :
    (SplitRatios.mk (10000 - v - t - d) v t d).Exact ↔ v.toNat + t.toNat + d.toNat ≤ 10000 := by
  unfold SplitRatios.Exact
  constructor
  · intro h
    dsimp only at h
    omega
  · intro h
    exact toNat_sub_sub_sub (n := 10000) h

/-- Three words leave something of 10,000 exactly if none of them is negative as a signed one. -/
theorem sum_toU64_le_iff {v t d : Int} (hv : -2 ^ 63 ≤ v ∧ v < 2 ^ 63)
    (ht : -2 ^ 63 ≤ t ∧ t < 2 ^ 63) (hd : -2 ^ 63 ≤ d ∧ d < 2 ^ 63) :
    (toU64 v).toNat + (toU64 t).toNat + (toU64 d).toNat ≤ 10000 ↔
      0 ≤ v ∧ 0 ≤ t ∧ 0 ≤ d ∧ v + t + d ≤ 10000 := by
  have h₁ := toNat_toU64 hv.1 hv.2
  have h₂ := toNat_toU64 ht.1 ht.2
  have h₃ := toNat_toU64 hd.1 hd.2
  split at h₁ <;> split at h₂ <;> split at h₃ <;> omega

/-! ## The line from launch to maturity -/

namespace SplitConfig

variable (c : SplitConfig) (epoch : UInt64) (ratio : SplitRatios → UInt64)

/-- What one ratio changes by in all, times the epochs passed, in signed 64 bits. -/
def drift : Int :=
  toI64 (toI64 (toI64 (ratio c.maturity).toNat - toI64 (ratio c.launch).toNat) *
    toI64 epoch.toNat)

/-- The division by the length of the transition does not panic. -/
def Divides : Prop :=
  ¬ (toI64 c.transitionEpochs.toNat = 0 ∨
    c.drift epoch ratio = -2 ^ 63 ∧ toI64 c.transitionEpochs.toNat = -1)

instance : Decidable (c.Divides epoch ratio) := inferInstanceAs (Decidable (¬ _))

/-- Where one ratio stands: on the line from launch to maturity, rounded towards launch. -/
def glide : Int :=
  toI64 (toI64 (ratio c.launch).toNat +
    (c.drift epoch ratio).tdiv (toI64 c.transitionEpochs.toNat))

/-- The three ratios that are interpolated have not gone below zero and leave something of
10,000. -/
def LeavesBurn : Prop :=
  (c.Divides epoch (·.validatorBps) ∧ c.Divides epoch (·.treasuryBps) ∧
    c.Divides epoch (·.developerBps)) ∧
  0 ≤ c.glide epoch (·.validatorBps) ∧ 0 ≤ c.glide epoch (·.treasuryBps) ∧
  0 ≤ c.glide epoch (·.developerBps) ∧
  c.glide epoch (·.validatorBps) + c.glide epoch (·.treasuryBps) +
    c.glide epoch (·.developerBps) ≤ 10000

instance : Decidable (c.LeavesBurn epoch) := inferInstanceAs (Decidable (_ ∧ _))

/-- Once the transition is over the ratios of maturity count, before that the interpolated ones. -/
def Glides : Prop :=
  if c.transitionEpochs ≤ epoch then c.maturity.Exact else c.LeavesBurn epoch

instance : Decidable (c.Glides epoch) :=
  inferInstanceAs (Decidable (if c.transitionEpochs ≤ epoch then _ else _))

theorem interp_eq : interp epoch c.transitionEpochs (ratio c.launch) (ratio c.maturity) =
    if c.Divides epoch ratio then some (toU64 (c.glide epoch ratio)) else none := by
  unfold interp divI64 glide
  dsimp only
  rw [show toI64 (toI64 (toI64 (ratio c.maturity).toNat - toI64 (ratio c.launch).toNat) *
    toI64 epoch.toNat) = c.drift epoch ratio from rfl]
  by_cases hdiv : c.Divides epoch ratio
  · rw [if_pos hdiv]
    unfold Divides at hdiv
    rw [if_neg hdiv]
    rfl
  · rw [if_neg hdiv]
    unfold Divides at hdiv
    rw [if_pos (not_not.mp hdiv)]
    rfl

theorem glide_range : -2 ^ 63 ≤ c.glide epoch ratio ∧ c.glide epoch ratio < 2 ^ 63 :=
  toI64_range _

theorem splitAtEpoch_exact_iff :
    (∃ ratios, c.splitAtEpoch epoch = some ratios ∧ ratios.Exact) ↔ c.Glides epoch := by
  unfold splitAtEpoch Glides LeavesBurn
  by_cases hmature : c.transitionEpochs ≤ epoch
  · rw [if_pos hmature, if_pos hmature]
    simp
  rw [if_neg hmature, if_neg hmature, c.interp_eq epoch (·.validatorBps),
    c.interp_eq epoch (·.treasuryBps), c.interp_eq epoch (·.developerBps)]
  by_cases hv : c.Divides epoch (·.validatorBps)
  swap
  · simp [hv]
  by_cases ht : c.Divides epoch (·.treasuryBps)
  swap
  · simp [hv, ht]
  by_cases hd : c.Divides epoch (·.developerBps)
  swap
  · simp [hv, ht, hd]
  have hsum := sum_toU64_le_iff (c.glide_range epoch (·.validatorBps))
    (c.glide_range epoch (·.treasuryBps)) (c.glide_range epoch (·.developerBps))
  rw [if_pos hv, if_pos ht, if_pos hd, ← hsum, ← remainder_exact_iff]
  simp only [Option.bind_eq_bind, Option.bind_some, Option.some.injEq, exists_eq_left']
  exact (and_iff_right ⟨hv, ht, hd⟩).symm

/-! ## With room in the signed words -/

/-- What a ratio has gained at an epoch, rounded down; `0` if it falls. -/
def risen : Nat :=
  ((ratio c.maturity).toNat - (ratio c.launch).toNat) * epoch.toNat / c.transitionEpochs.toNat

/-- What a ratio has given up at an epoch, rounded down; `0` if it rises. -/
def fallen : Nat :=
  ((ratio c.launch).toNat - (ratio c.maturity).toNat) * epoch.toNat / c.transitionEpochs.toNat

/-- What the rising ratios have gained is covered by the burn at launch and by what the falling ones
have given up. -/
def Covered : Prop :=
  c.risen epoch (·.validatorBps) + c.risen epoch (·.treasuryBps) +
      c.risen epoch (·.developerBps) ≤
    c.launch.burnBps.toNat + (c.fallen epoch (·.validatorBps) + c.fallen epoch (·.treasuryBps) +
      c.fallen epoch (·.developerBps))

instance : Decidable (c.Covered epoch) := inferInstanceAs (Decidable (_ ≤ _))

variable {c epoch ratio}

/-- Ten thousand times the transition fits a signed word. -/
def Roomy (c : SplitConfig) : Prop := 10000 * c.transitionEpochs.toNat < 2 ^ 63

instance : Decidable c.Roomy := inferInstanceAs (Decidable (_ < _))

/-- A part of the way covers a part of the distance. -/
theorem mul_div_le_of_lt (hepoch : epoch < c.transitionEpochs) (distance : Nat) :
    distance * epoch.toNat / c.transitionEpochs.toNat ≤ distance := by
  have hlt := UInt64.lt_iff_toNat_lt.mp hepoch
  refine Nat.div_le_of_le_mul ?_
  rw [Nat.mul_comm c.transitionEpochs.toNat]
  exact Nat.mul_le_mul_left _ (Nat.le_of_lt hlt)

theorem risen_le (hepoch : epoch < c.transitionEpochs) :
    c.risen epoch ratio ≤ (ratio c.maturity).toNat - (ratio c.launch).toNat :=
  mul_div_le_of_lt hepoch _

theorem fallen_le (hepoch : epoch < c.transitionEpochs) :
    c.fallen epoch ratio ≤ (ratio c.launch).toNat - (ratio c.maturity).toNat :=
  mul_div_le_of_lt hepoch _

/-- Division towards zero rounds down what is gained and what is given up alike. -/
theorem tdiv_eq_risen_sub_fallen :
    (((ratio c.maturity).toNat - (ratio c.launch).toNat : Int) * epoch.toNat).tdiv
        c.transitionEpochs.toNat = c.risen epoch ratio - c.fallen epoch ratio := by
  unfold risen fallen
  rcases Nat.le_total (ratio c.launch).toNat (ratio c.maturity).toNat with hrises | hfalls
  · rw [← Int.natCast_sub hrises, ← Int.natCast_mul, ← Int.ofNat_tdiv, Nat.sub_eq_zero_of_le hrises]
    simp
  · rw [← Int.neg_sub, ← Int.natCast_sub hfalls, Int.neg_mul, Int.neg_tdiv, ← Int.natCast_mul,
      ← Int.ofNat_tdiv, Nat.sub_eq_zero_of_le hfalls]
    simp

/-- Nothing overflows on the way when the transition leaves room. -/
theorem drift_eq (hroom : c.Roomy) (hepoch : epoch < c.transitionEpochs)
    (hl : (ratio c.launch).toNat ≤ 10000) (hm : (ratio c.maturity).toNat ≤ 10000) :
    c.drift epoch ratio =
      ((ratio c.maturity).toNat - (ratio c.launch).toNat : Int) * epoch.toNat := by
  have hlt := UInt64.lt_iff_toNat_lt.mp hepoch
  unfold Roomy at hroom
  unfold drift
  have hhigh : ((ratio c.maturity).toNat - (ratio c.launch).toNat : Int) * epoch.toNat ≤
      10000 * epoch.toNat := Int.mul_le_mul_of_nonneg_right (by omega) (by omega)
  have hlow : -10000 * (epoch.toNat : Int) ≤
      ((ratio c.maturity).toNat - (ratio c.launch).toNat : Int) * epoch.toNat :=
    Int.mul_le_mul_of_nonneg_right (by omega) (by omega)
  rw [toI64_of_mem (x := (ratio c.maturity).toNat) (by omega) (by omega),
    toI64_of_mem (x := (ratio c.launch).toNat) (by omega) (by omega),
    toI64_of_mem (x := _ - _) (by omega) (by omega),
    toI64_of_mem (x := epoch.toNat) (by omega) (by omega),
    toI64_of_mem (by omega) (by omega)]

theorem glide_eq (hroom : c.Roomy) (hepoch : epoch < c.transitionEpochs)
    (hl : (ratio c.launch).toNat ≤ 10000) (hm : (ratio c.maturity).toNat ≤ 10000) :
    c.Divides epoch ratio ∧ c.glide epoch ratio =
      (ratio c.launch).toNat + (c.risen epoch ratio : Int) - c.fallen epoch ratio := by
  have hlt := UInt64.lt_iff_toNat_lt.mp hepoch
  have hrisen : c.risen epoch ratio ≤ _ := risen_le hepoch
  have hfallen : c.fallen epoch ratio ≤ _ := fallen_le hepoch
  have hlength : toI64 c.transitionEpochs.toNat = c.transitionEpochs.toNat := by
    unfold Roomy at hroom
    exact toI64_of_mem (by omega) (by omega)
  constructor
  · unfold Divides
    rw [hlength]
    omega
  · unfold glide
    rw [hlength, drift_eq hroom hepoch hl hm, tdiv_eq_risen_sub_fallen,
      toI64_of_mem (x := (ratio c.launch).toNat) (by omega) (by omega),
      toI64_of_mem (by omega) (by omega)]
    omega

/-- With room and exact ratios at both ends, no ratio leaves the range between them, and what the
burn is left with is what it had and what was given up, less what was gained. -/
theorem glides_iff_covered (hlaunch : c.launch.Exact) (hmaturity : c.maturity.Exact)
    (hroom : c.Roomy) (hepoch : epoch < c.transitionEpochs) :
    c.Glides epoch ↔ c.Covered epoch := by
  obtain ⟨hlv, hlt, hld⟩ := hlaunch.le
  obtain ⟨hmv, hmt, hmd⟩ := hmaturity.le
  obtain ⟨hdv, hv⟩ : c.Divides epoch (·.validatorBps) ∧ _ := glide_eq hroom hepoch hlv hmv
  obtain ⟨hdt, ht⟩ : c.Divides epoch (·.treasuryBps) ∧ _ := glide_eq hroom hepoch hlt hmt
  obtain ⟨hdd, hd⟩ : c.Divides epoch (·.developerBps) ∧ _ := glide_eq hroom hepoch hld hmd
  have hfv : c.fallen epoch (·.validatorBps) ≤ _ := fallen_le hepoch
  have hft : c.fallen epoch (·.treasuryBps) ≤ _ := fallen_le hepoch
  have hfd : c.fallen epoch (·.developerBps) ≤ _ := fallen_le hepoch
  unfold SplitRatios.Exact at hlaunch
  unfold Glides LeavesBurn Covered
  rw [if_neg (UInt64.not_le.mpr hepoch), and_iff_right ⟨hdv, hdt, hdd⟩, hv, ht, hd]
  clear hv ht hd
  omega

end SplitConfig

/-! ## The result -/

/-- **Fee conservation**, for every accepted configuration, fee and epoch: the split underflows
nowhere and its parts make up the fee exactly when the ratios glide; with exact ratios at both ends
and room in the signed words, exactly when the gains are covered. -/
theorem FeeSplit.split_conserves_iff {c : SplitConfig} {s : FeeSplit}
    (haccepted : FeeSplit.withConfig c = .ok s) (totalFee epoch : UInt64) :
    (s.Conserves totalFee epoch ↔ c.Glides epoch) ∧
    (c.launch.Exact → c.maturity.Exact → c.Roomy → epoch < c.transitionEpochs →
      (s.Conserves totalFee epoch ↔ c.Covered epoch)) := by
  have hconfig : s.config = c := by
    unfold withConfig at haccepted
    split at haccepted
    · cases haccepted
    · cases haccepted
      rfl
  have hglides : s.Conserves totalFee epoch ↔ c.Glides epoch := by
    rw [conserves_iff, hconfig, SplitConfig.splitAtEpoch_exact_iff]
  refine ⟨hglides, fun hlaunch hmaturity hroom hepoch => ?_⟩
  rw [hglides, SplitConfig.glides_iff_covered hlaunch hmaturity hroom hepoch]

/-- The default ratios, half way. -/
theorem FeeSplit.split_conserves_iff_default :
    FeeSplit.new.Conserves 1000003 912 ∧ SplitConfig.default.Glides 912 := by
  have haccepted : FeeSplit.withConfig SplitConfig.default = .ok FeeSplit.new := rfl
  obtain ⟨hglides, hcovered⟩ := split_conserves_iff haccepted 1000003 912
  have hconserves :=
    (hcovered (by decide) (by decide) (by decide) (by decide)).mpr (by decide)
  exact ⟨hconserves, hglides.mp hconserves⟩

/-- Two ratios of one basis point that fall and round up to it, while the third rises. -/
def crowdedConfig : SplitConfig := ⟨⟨0, 1, 1, 9998⟩, ⟨0, 0, 0, 10000⟩, 2⟩

/-- The configuration is accepted, yet half way its ratios are 1, 1 and 9,999: the burn wraps, and
so does that of a fee of 20,000, of which the three parts take 20,002. -/
theorem FeeSplit.split_conserves_crowded :
    ∃ s, FeeSplit.withConfig crowdedConfig = .ok s ∧
      crowdedConfig.launch.Exact ∧ crowdedConfig.maturity.Exact ∧
      (crowdedConfig.splitAtEpoch 1).map (fun r => (r.burnBps, r.developerBps)) =
        some (18446744073709551615, 9999) ∧
      (s.splitFee 20000 1).map (fun r => (r.burn, r.validator, r.treasury, r.developer)) =
        some (18446744073709551614, 2, 2, 19998) ∧
      ¬ s.Conserves 20000 1 :=
  ⟨⟨crowdedConfig⟩, rfl, by decide, by decide, by decide, by decide, by
    rw [conserves_iff, SplitConfig.splitAtEpoch_exact_iff,
      SplitConfig.glides_iff_covered (by decide) (by decide) (by decide) (by decide)]
    decide⟩

end Trv1Chain
