import Trv1Chain.Proof.FeeSplit

/-!
# The way of a ratio

Between launch and maturity each interpolated ratio goes one way, however its line is rounded: what
it has gained or given up is a floor of something that grows with the epoch. The step at the end of
the transition goes the same way, since the floor never exceeds the whole distance.

The burn is left out. It takes what the others leave, and need not go one way.
-/

set_option autoImplicit false

namespace Trv1Chain

open Lib

/-- `x` lies between the other two, whichever of them is larger. -/
def Between (a x b : UInt64) : Prop := a ≤ x ∧ x ≤ b ∨ b ≤ x ∧ x ≤ a

instance (a x b : UInt64) : Decidable (Between a x b) :=
  inferInstanceAs (Decidable (_ ∧ _ ∨ _ ∧ _))

/-- The ratios that are interpolated. -/
def SplitRatios.interpolated : List (SplitRatios → UInt64) :=
  [SplitRatios.validatorBps, SplitRatios.treasuryBps, SplitRatios.developerBps]

theorem SplitRatios.Exact.interpolated_le {r : SplitRatios} (h : r.Exact) :
    ∀ ratio ∈ SplitRatios.interpolated, (ratio r).toNat ≤ 10000 := by
  obtain ⟨hv, ht, hd⟩ := h.le
  unfold SplitRatios.interpolated
  simp only [List.forall_mem_cons]
  exact ⟨hv, ht, hd, by simp⟩

namespace SplitConfig

variable {c : SplitConfig} {epoch epoch' : UInt64} {ratio : SplitRatios → UInt64}

/-- Where a ratio stands at an epoch. -/
def place (c : SplitConfig) (epoch : UInt64) (ratio : SplitRatios → UInt64) : Nat :=
  if c.transitionEpochs ≤ epoch then (ratio c.maturity).toNat
  else (ratio c.launch).toNat + c.risen epoch ratio - c.fallen epoch ratio

/-- On the way one interpolated ratio is where it should be, in 64 bits. -/
theorem interp_place (hroom : c.Roomy) (hepoch : epoch < c.transitionEpochs)
    (hl : (ratio c.launch).toNat ≤ 10000) (hm : (ratio c.maturity).toNat ≤ 10000) :
    ∃ x, interp epoch c.transitionEpochs (ratio c.launch) (ratio c.maturity) = some x ∧
      x.toNat = c.place epoch ratio := by
  obtain ⟨hdiv, hglide⟩ := glide_eq hroom hepoch hl hm
  have hrisen : c.risen epoch ratio ≤ _ := risen_le hepoch
  have hfallen : c.fallen epoch ratio ≤ _ := fallen_le hepoch
  refine ⟨_, by rw [c.interp_eq epoch ratio, if_pos hdiv], ?_⟩
  have hword := toNat_toU64 (x := c.glide epoch ratio) (by omega) (by omega)
  rw [if_pos (by omega)] at hword
  unfold place
  rw [if_neg (UInt64.not_le.mpr hepoch)]
  omega

/-- **Every epoch has its ratios**, and each interpolated one is in its place. -/
theorem splitAtEpoch_place (hlaunch : c.launch.Exact) (hmaturity : c.maturity.Exact)
    (hroom : c.Roomy) (epoch : UInt64) :
    ∃ r, c.splitAtEpoch epoch = some r ∧
      ∀ ratio ∈ SplitRatios.interpolated, (ratio r).toNat = c.place epoch ratio := by
  unfold splitAtEpoch
  by_cases hmature : c.transitionEpochs ≤ epoch
  · refine ⟨c.maturity, if_pos hmature, fun ratio _ => ?_⟩
    unfold place
    rw [if_pos hmature]
  have hepoch := UInt64.not_le.mp hmature
  have hinterp : ∀ ratio ∈ SplitRatios.interpolated, ∃ x,
      interp epoch c.transitionEpochs (ratio c.launch) (ratio c.maturity) = some x ∧
        x.toNat = c.place epoch ratio := fun ratio hratio =>
    interp_place hroom hepoch (hlaunch.interpolated_le ratio hratio)
      (hmaturity.interpolated_le ratio hratio)
  unfold SplitRatios.interpolated at hinterp ⊢
  simp only [List.forall_mem_cons] at hinterp ⊢
  obtain ⟨⟨v, hv, hvplace⟩, ⟨t, ht, htplace⟩, ⟨d, hd, hdplace⟩, -⟩ := hinterp
  rw [if_neg hmature, hv, ht, hd]
  exact ⟨_, rfl, hvplace, htplace, hdplace, by simp⟩

theorem risen_mono (hle : epoch ≤ epoch') : c.risen epoch ratio ≤ c.risen epoch' ratio := by
  apply Nat.div_le_div_right
  exact Nat.mul_le_mul_left _ (UInt64.le_iff_toNat_le.mp hle)

theorem fallen_mono (hle : epoch ≤ epoch') : c.fallen epoch ratio ≤ c.fallen epoch' ratio := by
  apply Nat.div_le_div_right
  exact Nat.mul_le_mul_left _ (UInt64.le_iff_toNat_le.mp hle)

/-- A ratio that does not fall has given up nothing. -/
theorem fallen_of_le (h : (ratio c.launch).toNat ≤ (ratio c.maturity).toNat) :
    c.fallen epoch ratio = 0 := by
  unfold fallen
  rw [Nat.sub_eq_zero_of_le h, Nat.zero_mul, Nat.zero_div]

theorem risen_of_le (h : (ratio c.maturity).toNat ≤ (ratio c.launch).toNat) :
    c.risen epoch ratio = 0 := by
  unfold risen
  rw [Nat.sub_eq_zero_of_le h, Nat.zero_mul, Nat.zero_div]

/-- A rising ratio never comes down again, and stays below its end. -/
theorem place_rises (h : (ratio c.launch).toNat ≤ (ratio c.maturity).toNat)
    (hle : epoch ≤ epoch') :
    (ratio c.launch).toNat ≤ c.place epoch ratio ∧
      c.place epoch ratio ≤ c.place epoch' ratio ∧
      c.place epoch' ratio ≤ (ratio c.maturity).toNat := by
  unfold place
  rw [fallen_of_le h, fallen_of_le h]
  have hmono : c.risen epoch ratio ≤ c.risen epoch' ratio := risen_mono hle
  by_cases hmature' : c.transitionEpochs ≤ epoch'
  · rw [if_pos hmature']
    split
    · exact ⟨h, Nat.le_refl _, Nat.le_refl _⟩
    · rename_i hmature
      have hrisen : c.risen epoch ratio ≤ _ := risen_le (UInt64.not_le.mp hmature)
      omega
  · have hmature : ¬ c.transitionEpochs ≤ epoch := fun hm => hmature' (UInt64.le_trans hm hle)
    have hrisen : c.risen epoch' ratio ≤ _ := risen_le (UInt64.not_le.mp hmature')
    rw [if_neg hmature', if_neg hmature]
    omega

/-- A falling ratio never goes up again, and stays above its end. -/
theorem place_falls (h : (ratio c.maturity).toNat ≤ (ratio c.launch).toNat)
    (hle : epoch ≤ epoch') :
    (ratio c.maturity).toNat ≤ c.place epoch' ratio ∧
      c.place epoch' ratio ≤ c.place epoch ratio ∧
      c.place epoch ratio ≤ (ratio c.launch).toNat := by
  unfold place
  rw [risen_of_le h, risen_of_le h]
  have hmono : c.fallen epoch ratio ≤ c.fallen epoch' ratio := fallen_mono hle
  by_cases hmature' : c.transitionEpochs ≤ epoch'
  · rw [if_pos hmature']
    split
    · exact ⟨Nat.le_refl _, Nat.le_refl _, h⟩
    · rename_i hmature
      have hfallen : c.fallen epoch ratio ≤ _ := fallen_le (UInt64.not_le.mp hmature)
      omega
  · have hmature : ¬ c.transitionEpochs ≤ epoch := fun hm => hmature' (UInt64.le_trans hm hle)
    have hfallen : c.fallen epoch' ratio ≤ _ := fallen_le (UInt64.not_le.mp hmature')
    rw [if_neg hmature', if_neg hmature]
    omega

theorem place_zero (h : 0 < c.transitionEpochs) : c.place 0 ratio = (ratio c.launch).toNat := by
  unfold place risen fallen
  rw [if_neg (UInt64.not_le.mpr h)]
  simp

/-- **Ratios move monotonically.** Whatever the two ends, at any two epochs each interpolated ratio
lies between launch and maturity, and the later one between the earlier one and maturity. At epoch
zero it is the launch value, unless there is no transition, and from the end of the transition on
the maturity value. -/
theorem ratios_move_one_way {c : SplitConfig} (hlaunch : c.launch.Exact)
    (hmaturity : c.maturity.Exact) (htransition : c.transitionEpochs.toNat ≤ 2 ^ 49)
    {e₁ e₂ : UInt64} (hle : e₁ ≤ e₂) :
    ∃ r₁ r₂, c.splitAtEpoch e₁ = some r₁ ∧ c.splitAtEpoch e₂ = some r₂ ∧
      ∀ ratio ∈ SplitRatios.interpolated,
        Between (ratio c.launch) (ratio r₁) (ratio c.maturity) ∧
        Between (ratio c.launch) (ratio r₂) (ratio c.maturity) ∧
        Between (ratio r₁) (ratio r₂) (ratio c.maturity) ∧
        (e₁ = 0 → 0 < c.transitionEpochs → ratio r₁ = ratio c.launch) ∧
        (c.transitionEpochs ≤ e₂ → ratio r₂ = ratio c.maturity) := by
  have hroom : c.Roomy := by
    unfold Roomy
    omega
  obtain ⟨r₁, hr₁, hplace₁⟩ := splitAtEpoch_place hlaunch hmaturity hroom e₁
  obtain ⟨r₂, hr₂, hplace₂⟩ := splitAtEpoch_place hlaunch hmaturity hroom e₂
  refine ⟨r₁, r₂, hr₁, hr₂, fun ratio hratio => ?_⟩
  have h₁ := hplace₁ ratio hratio
  have h₂ := hplace₂ ratio hratio
  unfold Between
  simp only [UInt64.le_iff_toNat_le, ← UInt64.toNat_inj (a := ratio _), h₁, h₂]
  have hway : (ratio c.launch).toNat ≤ c.place e₁ ratio ∧ c.place e₁ ratio ≤ c.place e₂ ratio ∧
      c.place e₂ ratio ≤ (ratio c.maturity).toNat ∨
      (ratio c.maturity).toNat ≤ c.place e₂ ratio ∧ c.place e₂ ratio ≤ c.place e₁ ratio ∧
        c.place e₁ ratio ≤ (ratio c.launch).toNat :=
    (Nat.le_total _ _).imp (place_rises · hle) (place_falls · hle)
  refine ⟨by omega, by omega, by omega, ?_, ?_⟩
  · rintro rfl hpos
    exact place_zero hpos
  · intro hmature
    unfold place
    rw [if_pos (UInt64.le_iff_toNat_le.mpr hmature)]

/-- The default ratios, half way and at the end. -/
theorem ratios_move_one_way_default :
    ∃ r₁ r₂, SplitConfig.default.splitAtEpoch 912 = some r₁ ∧
      SplitConfig.default.splitAtEpoch 1825 = some r₂ ∧
      Between r₁.treasuryBps r₂.treasuryBps 2500 ∧ r₁.treasuryBps = 3501 ∧
      r₂.treasuryBps = 2500 := by
  have hle : (912 : UInt64) ≤ 1825 := by decide
  obtain ⟨r₁, r₂, hr₁, hr₂, hall⟩ :=
    ratios_move_one_way (c := SplitConfig.default) (by decide) (by decide) (by decide) hle
  obtain ⟨-, -, hmoves, -, hend⟩ :=
    hall SplitRatios.treasuryBps (by simp [SplitRatios.interpolated])
  refine ⟨r₁, r₂, hr₁, hr₂, hmoves, ?_, hend (by decide)⟩
  have hvalue : (SplitConfig.default.splitAtEpoch 912).map SplitRatios.treasuryBps = some 3501 := by
    decide
  rw [hr₁] at hvalue
  exact Option.some.inj hvalue

end SplitConfig

end Trv1Chain
