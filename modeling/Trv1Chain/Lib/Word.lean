import Mathlib.Data.List.Perm.Basic
import Mathlib.Data.UInt

/-!
# Saturating and checked words

Addition and subtraction of 64-bit words that stop at the ends of the range, as numbers: a
saturating sum is the exact sum cut off at the largest word (a signed one, at both ends). A whole
fold of unsigned additions cuts off once, at its end, so the order of the summands does not matter.
A checked sum or product is the exact one or none.
-/

set_option autoImplicit false

namespace Trv1Chain.Lib

def saturatingAdd (a b : UInt64) : UInt64 :=
  if a.toNat + b.toNat < 2 ^ 64 then a + b else UInt64.ofNat (2 ^ 64 - 1)

def checkedAdd (a b : UInt64) : Option UInt64 :=
  if a.toNat + b.toNat < 2 ^ 64 then some (a + b) else none

def saturatingSub (a b : UInt64) : UInt64 := if b ≤ a then a - b else 0

/-- The product of two 128-bit words, if it is one. -/
def checkedMul128 (a b : Nat) : Option Nat := if a * b < 2 ^ 128 then some (a * b) else none

/-- The saturating sum of two signed words. -/
def saturatingAddI64 (a b : Int64) : Int64 := Int64.ofIntClamp (a.toInt + b.toInt)

/-- A product of words that fits in one is exact. -/
theorem toNat_ofNat_mul_ofNat {a b : Nat} (h : a * b < 2 ^ 64) :
    (UInt64.ofNat a * UInt64.ofNat b).toNat = a * b := by
  rw [← UInt64.ofNat_mul, UInt64.toNat_ofNat', Nat.mod_eq_of_lt h]

theorem toNat_saturatingAdd (a b : UInt64) :
    (saturatingAdd a b).toNat = min (a.toNat + b.toNat) (2 ^ 64 - 1) := by
  unfold saturatingAdd
  split
  · rename_i h
    rw [UInt64.toNat_add, Nat.mod_eq_of_lt h]
    omega
  · have hmax : (UInt64.ofNat (2 ^ 64 - 1)).toNat = 2 ^ 64 - 1 := rfl
    omega

theorem checkedAdd_eq_some {a b c : UInt64} :
    checkedAdd a b = some c ↔ a.toNat + b.toNat = c.toNat := by
  unfold checkedAdd
  have hc := c.toNat_lt
  split
  · rename_i h
    rw [Option.some.injEq, ← UInt64.toNat_inj, UInt64.toNat_add, Nat.mod_eq_of_lt h]
  · rename_i h
    exact iff_of_false (by simp) (by omega)

theorem checkedAdd_eq_none {a b : UInt64} :
    checkedAdd a b = none ↔ 2 ^ 64 ≤ a.toNat + b.toNat := by
  unfold checkedAdd
  split
  · rename_i h
    exact iff_of_false (by simp) (by omega)
  · rename_i h
    exact iff_of_true rfl (by omega)

theorem toNat_saturatingSub (a b : UInt64) :
    (saturatingSub a b).toNat = a.toNat - b.toNat := by
  unfold saturatingSub
  split
  · rename_i h
    exact UInt64.toNat_sub_of_le _ _ h
  · rename_i h
    have hlt := UInt64.lt_iff_toNat_lt.mp (UInt64.not_le.mp h)
    have hzero : (0 : UInt64).toNat = 0 := rfl
    omega

theorem toNat_foldl_saturatingAdd : ∀ (l : List UInt64) (a : UInt64),
    (l.foldl saturatingAdd a).toNat = min (a.toNat + (l.map UInt64.toNat).sum) (2 ^ 64 - 1) := by
  intro l
  induction l with
  | nil =>
    intro a
    have := a.toNat_lt
    simp only [List.foldl_nil, List.map_nil, List.sum_nil]
    omega
  | cons b l ih =>
    intro a
    rw [List.foldl_cons, ih, toNat_saturatingAdd, List.map_cons, List.sum_cons]
    omega

theorem foldl_saturatingAdd_perm {l l' : List UInt64} (h : l.Perm l') (a : UInt64) :
    l.foldl saturatingAdd a = l'.foldl saturatingAdd a := by
  apply UInt64.toNat_inj.mp
  rw [toNat_foldl_saturatingAdd, toNat_foldl_saturatingAdd, (h.map UInt64.toNat).sum_nat]

/-- A wrapping sum is the exact one, wrapped once. -/
theorem toNat_sum : ∀ l : List UInt64, l.sum.toNat = (l.map UInt64.toNat).sum % 2 ^ 64 := by
  intro l
  induction l with
  | nil => rfl
  | cons a l ih => rw [List.sum_cons, List.map_cons, List.sum_cons, UInt64.toNat_add, ih,
      Nat.add_mod_mod]

/-- Cutting the terms of a sum back below `m` takes `m` off it for each term that reached `m`. -/
theorem sum_mod_add_le {m : Nat} {l : List Nat} (h : ∃ t ∈ l, m ≤ t) :
    (l.map (· % m)).sum + m ≤ l.sum := by
  have hle : ∀ l : List Nat, (l.map (· % m)).sum ≤ l.sum := by
    intro l
    induction l with
    | nil => exact Nat.le_refl _
    | cons t l ih =>
      have := Nat.mod_le t m
      rw [List.map_cons, List.sum_cons, List.sum_cons]
      omega
  induction l with
  | nil =>
    obtain ⟨t, ht, -⟩ := h
    cases ht
  | cons t l ih =>
    rw [List.map_cons, List.sum_cons, List.sum_cons]
    by_cases ht : m ≤ t
    · -- a term that reached `m` is at most what is left of it
      have hmod : t % m ≤ t - m := by
        rw [Nat.mod_eq_sub_mod ht]
        exact Nat.mod_le _ _
      have := hle l
      omega
    · obtain ⟨t', ht', hge⟩ := h
      rcases List.mem_cons.mp ht' with rfl | hmem
      · exact absurd hge ht
      · have := ih ⟨t', hmem, hge⟩
        have := Nat.mod_le t m
        omega

theorem toInt_saturatingAddI64 (a b : Int64) :
    (saturatingAddI64 a b).toInt = max (-2 ^ 63) (min (a.toInt + b.toInt) (2 ^ 63 - 1)) := by
  unfold saturatingAddI64
  by_cases hlow : Int64.minValue.toInt ≤ a.toInt + b.toInt
  · by_cases hhigh : a.toInt + b.toInt ≤ Int64.maxValue.toInt
    · rw [Int64.toInt_ofIntClamp hlow hhigh]
      rw [Int64.toInt_minValue] at hlow
      rw [Int64.toInt_maxValue] at hhigh
      omega
    · unfold Int64.ofIntClamp
      rw [dif_pos hlow, dif_neg hhigh, Int64.toInt_maxValue]
      rw [Int64.toInt_maxValue] at hhigh
      omega
  · unfold Int64.ofIntClamp
    rw [dif_neg hlow, Int64.toInt_minValue]
    rw [Int64.toInt_minValue] at hlow
    omega

/-- Two wrapping subtractions are one. -/
theorem sub_sub_comm_add (a b c : UInt64) : a - b - c = a - (c + b) := by
  rw [UInt64.sub_eq_add_neg (a - b), UInt64.sub_eq_add_neg a b, UInt64.sub_eq_add_neg a (c + b),
    UInt64.neg_add, UInt64.sub_eq_add_neg (-c), UInt64.add_assoc, UInt64.add_comm (-b)]

end Trv1Chain.Lib
