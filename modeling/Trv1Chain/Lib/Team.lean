import Mathlib.Logic.Function.Basic
import Trv1Chain.Lib.Run

/-!
# Several machines of one kind

A team is a family of machines that take turns, one at a time and in any order. What one of them has
gone through is its share of the team's history, and is a run of that machine alone (`Run.share`):
what is known of every run of the machine is known of each member of every team.
-/

set_option autoImplicit false

namespace Trv1Chain.Lib

variable {ι σ ε ω : Type} [DecidableEq ι] {step : σ → ε → Option (σ × List ω)}

/-- One member takes a turn. -/
def teamStep (step : σ → ε → Option (σ × List ω)) (w : ι → σ) (e : ι × ε) :
    Option ((ι → σ) × List (ι × ω)) :=
  (step (w e.1) e.2).map fun r => (Function.update w e.1 r.1, r.2.map (Prod.mk e.1))

theorem teamStep_some {w w' : ι → σ} {i : ι} {e : ε} {out : List (ι × ω)}
    (h : teamStep step w (i, e) = some (w', out)) :
    ∃ s out', step (w i) e = some (s, out') ∧ w' = Function.update w i s ∧
      out = out'.map (Prod.mk i) := by
  obtain ⟨⟨s, out'⟩, hs, heq⟩ := Option.map_eq_some_iff.mp h
  obtain ⟨rfl, rfl⟩ := Prod.mk.inj heq
  exact ⟨s, out', hs, rfl, rfl⟩

/-- A turn of the team, as its member sees it. -/
def Turn.own (t : Turn (ι → σ) (ι × ε) (ι × ω)) : Turn σ ε ω where
  before := t.before t.event.1
  event := t.event.2
  after := t.after t.event.1
  out := t.out.map Prod.snd

/-- The turns of one member. -/
def share (i : ι) (h : List (Turn (ι → σ) (ι × ε) (ι × ω))) : List (Turn σ ε ω) :=
  (h.filter (·.event.1 = i)).map Turn.own

theorem mem_share {i : ι} {h : List (Turn (ι → σ) (ι × ε) (ι × ω))} {t : Turn σ ε ω} :
    t ∈ share i h ↔ ∃ τ ∈ h, τ.event.1 = i ∧ τ.own = t := by
  simp [share, and_assoc]

theorem share_cons_of_ne {i : ι} {τ : Turn (ι → σ) (ι × ε) (ι × ω)} (hne : τ.event.1 ≠ i)
    (h : List (Turn (ι → σ) (ι × ε) (ι × ω))) : share i (τ :: h) = share i h := by
  simp [share, hne]

variable {G : (ι → σ) → ι × ε → Prop} {w₀ w : ι → σ}
  {h : List (Turn (ι → σ) (ι × ε) (ι × ω))}

/-- **A member's share is a run of its own.** -/
theorem Run.share (hr : Run (teamStep step) G w₀ h w) (i : ι) :
    Run step (fun _ _ => True) (w₀ i) (share i h) (w i) := by
  induction hr with
  | init => exact .init
  | @turn h w w' e out hr _ hs ih =>
    obtain ⟨j, e⟩ := e
    obtain ⟨s, out', hstep, rfl, rfl⟩ := teamStep_some hs
    by_cases hji : j = i
    · subst hji
      have hown : Lib.share j (⟨w, (j, e), Function.update w j s, out'.map (Prod.mk j)⟩ :: h) =
          ⟨w j, e, s, out'⟩ :: Lib.share j h := by
        simp [Lib.share, Turn.own, Function.comp_def]
      rw [hown, Function.update_self]
      exact .turn ih trivial hstep
    · rw [share_cons_of_ne (by exact hji), Function.update_of_ne (Ne.symm hji)]
      exact ih

/-- What a member has answered is in its share. -/
theorem Run.mem_share_out (hr : Run (teamStep step) G w₀ h w) {i : ι} {o : ω}
    (ho : (i, o) ∈ outputs h) : ∃ t ∈ Lib.share i h, o ∈ t.out := by
  obtain ⟨τ, hτ, ho⟩ := mem_outputs.mp ho
  obtain ⟨past, -, -, -, hs⟩ := hr.of_mem hτ
  obtain ⟨s, out', -, -, hout⟩ := teamStep_some (i := τ.event.1) (e := τ.event.2) hs
  have hi : τ.event.1 = i := by
    rw [hout] at ho
    obtain ⟨o', -, heq⟩ := List.mem_map.mp ho
    exact congrArg Prod.fst heq
  refine ⟨τ.own, mem_share.mpr ⟨τ, hτ, hi, rfl⟩, ?_⟩
  exact List.mem_map.mpr ⟨(i, o), ho, rfl⟩

end Trv1Chain.Lib
