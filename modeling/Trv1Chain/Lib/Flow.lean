import Mathlib.Algebra.BigOperators.Group.Finset.Piecewise
import Mathlib.Algebra.GroupWithZero.Nat
import Trv1Chain.Lib.Run

/-!
# Flow through places

Parties stand at places and each turn of a machine moves one of them. If a turn that brings a party
to a place is counted once on the way in, and one that takes it away once on the way out, then over
a whole run, whatever the order of the turns, what came in is what went out and who is there.
-/

set_option autoImplicit false

namespace Trv1Chain.Lib

variable {σ ε ω : Type}

/-- What the turns of a history add up to. -/
def total (f : Turn σ ε ω → ℕ) (h : List (Turn σ ε ω)) : ℕ := (h.map f).sum

@[simp] theorem total_nil (f : Turn σ ε ω → ℕ) : total f [] = 0 := rfl

@[simp] theorem total_cons (f : Turn σ ε ω → ℕ) (t : Turn σ ε ω) (h : List (Turn σ ε ω)) :
    total f (t :: h) = f t + total f h := List.sum_cons

theorem total_add (f g : Turn σ ε ω → ℕ) (h : List (Turn σ ε ω)) :
    total (fun t => f t + g t) h = total f h + total g h := List.sum_map_add

section Census

variable {ι P : Type} [Fintype ι] (p : P → Prop) [DecidablePred p]

/-- How many parties are at a place with `p`. -/
def census (place : ι → P) : ℕ := ∑ i, if p (place i) then 1 else 0

theorem census_update [DecidableEq ι] (place : ι → P) (i : ι) (x : P) :
    census p (Function.update place i x) + (if p (place i) then 1 else 0) =
      census p place + if p x then 1 else 0 := by
  have hcomp : (fun j => if p (Function.update place i x j) then 1 else 0) =
      Function.update (fun j => if p (place j) then 1 else 0) i (if p x then 1 else 0) :=
    funext fun j => Function.apply_update (fun _ y => if p y then 1 else 0) place i x j
  unfold census
  rw [hcomp, Finset.sum_update_of_mem (Finset.mem_univ i), Finset.sdiff_singleton_eq_erase,
    ← Finset.add_sum_erase _ (fun j => if p (place j) then 1 else 0) (Finset.mem_univ i)]
  omega

end Census

namespace Run

variable {step : σ → ε → Option (σ × List ω)} {G : σ → ε → Prop} {s₀ s : σ}
  {h : List (Turn σ ε ω)}

/-- What two counts make of every turn alike, they make of a run alike. -/
theorem total_congr {f g : Turn σ ε ω → ℕ} (hr : Run step G s₀ h s)
    (turn : ∀ {s e s' out}, step s e = some (s', out) → f ⟨s, e, s', out⟩ = g ⟨s, e, s', out⟩) :
    total f h = total g h := by
  refine congrArg List.sum (List.map_congr_left fun t ht => ?_)
  obtain ⟨-, -, -, -, hs⟩ := hr.of_mem ht
  exact turn hs

theorem countP_outputs {p : ω → Bool} {f : Turn σ ε ω → ℕ} (hr : Run step G s₀ h s)
    (turn : ∀ {s e s' out}, step s e = some (s', out) → out.countP p = f ⟨s, e, s', out⟩) :
    (outputs h).countP p = total f h := by
  refine Eq.trans ?_ (hr.total_congr (f := fun t => t.out.countP p) turn)
  exact List.countP_flatMap

/-- **What came in is what went out and who is there.** -/
theorem flow {ι P : Type} [Fintype ι] [DecidableEq ι] (p : P → Prop) [DecidablePred p]
    (place : σ → ι → P) {came left : Turn σ ε ω → ℕ}
    (turn : ∀ {s e s' out}, step s e = some (s', out) →
      ∃ i x, place s' = Function.update (place s) i x ∧
        came ⟨s, e, s', out⟩ + (if p (place s i) then 1 else 0) =
          left ⟨s, e, s', out⟩ + if p x then 1 else 0)
    (hr : Run step G s₀ h s) :
    census p (place s₀) + total came h = total left h + census p (place s) := by
  refine hr.invariant (I := fun h s =>
    census p (place s₀) + total came h = total left h + census p (place s)) (by simp) ?_
  intro h s e s' out _ ih _ hs
  obtain ⟨i, x, hplace, hturn⟩ := turn hs
  have hcensus := census_update p (place s) i x
  rw [total_cons, total_cons, hplace]
  omega

end Run

end Trv1Chain.Lib
