import Trv1Chain.Lib.Run

/-!
# What goes in comes out

A machine often holds a line of things between a way in and a way out: a channel, or several in a
row. If every turn takes from the front of the line and puts at its end, then over a whole run what
came out and what is still there are, in this order, what was there and what came in. Nothing is
lost, doubled or overtaken.
-/

set_option autoImplicit false

namespace Trv1Chain.Lib

variable {σ ε ω α : Type}

/-- What the turns of a history contribute, oldest turn first. -/
def gathered (f : Turn σ ε ω → List α) (h : List (Turn σ ε ω)) : List α := h.reverse.flatMap f

@[simp] theorem gathered_nil (f : Turn σ ε ω → List α) : gathered f [] = [] := rfl

@[simp] theorem gathered_cons (f : Turn σ ε ω → List α) (t : Turn σ ε ω) (h : List (Turn σ ε ω)) :
    gathered f (t :: h) = gathered f h ++ f t := by
  simp [gathered]

theorem mem_gathered {f : Turn σ ε ω → List α} {h : List (Turn σ ε ω)} {a : α} :
    a ∈ gathered f h ↔ ∃ t ∈ h, a ∈ f t := by
  simp [gathered]

theorem filterMap_gathered {β : Type} (g : α → Option β) (f : Turn σ ε ω → List α)
    (h : List (Turn σ ε ω)) :
    (gathered f h).filterMap g = gathered (fun t => (f t).filterMap g) h := List.filterMap_flatMap

theorem filterMap_cons_toList {β : Type} (g : α → Option β) (a : α) (l : List α) :
    (a :: l).filterMap g = (g a).toList ++ l.filterMap g := by
  cases h : g a <;> simp [h]

variable {step : σ → ε → Option (σ × List ω)} {G : σ → ε → Prop} {s₀ : σ}

/-- **Conservation.** -/
theorem Run.conserved (held : σ → List α) {put take : Turn σ ε ω → List α}
    (turn : ∀ {h s e s' out}, Run step G s₀ h s → step s e = some (s', out) →
      held s ++ put ⟨s, e, s', out⟩ = take ⟨s, e, s', out⟩ ++ held s')
    {h : List (Turn σ ε ω)} {s : σ} (hr : Run step G s₀ h s) :
    held s₀ ++ gathered put h = gathered take h ++ held s := by
  refine hr.invariant (I := fun h s => held s₀ ++ gathered put h = gathered take h ++ held s)
    (by simp) ?_
  intro h s e s' out hr ih _ hs
  rw [gathered_cons, gathered_cons, ← List.append_assoc, ih, List.append_assoc, turn hr hs,
    List.append_assoc]

end Trv1Chain.Lib
