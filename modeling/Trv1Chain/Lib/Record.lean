import Mathlib.Order.RelClasses
import Trv1Chain.Lib.Quorum

/-!
# What a record of votes proves against its voters

`Lib.Quorum` bounds the faulty voters and concludes that there is no fork. Here nothing is assumed
about anybody. A `Record` is what can be shown: who is known to have prevoted and precommitted
what. Two quorums of precommits for different values then convict more than a third of the voters,
each on votes of its own that stand in the record (`Record.accountable`).

The three ways to be convicted are the three rules of the locking discipline, broken: two votes of
one kind in one round, a precommit without a polka, and a prevote against an earlier precommit with
no polka in between to justify it.
-/

set_option autoImplicit false

namespace Trv1Chain.Lib

variable {V R A : Type} [DecidableEq V] [LinearOrder R]

/-- Votes on record, by voters counted against a total. -/
structure Record (V R A : Type) [DecidableEq V] where
  members : Finset V
  total : Nat
  card_le : members.card ≤ total
  prevoted : V → R → A → Prop
  precommitted : V → R → A → Prop

namespace Record

/-- More than two thirds of the total are on record with `act`. -/
def Shown (ρ : Record V R A) (act : V → Prop) : Prop :=
  ∃ Q, Q ⊆ ρ.members ∧ 2 * ρ.total < 3 * Q.card ∧ ∀ v ∈ Q, act v

/-- A polka on record. -/
def Polka (ρ : Record V R A) (r : R) (a : A) : Prop := ρ.Shown fun v => ρ.prevoted v r a

/-- What a voter is convicted of. -/
inductive Guilty (ρ : Record V R A) (v : V) : Prop
  | twoPrevotes (r : R) (a b : A) : a ≠ b → ρ.prevoted v r a → ρ.prevoted v r b → Guilty ρ v
  | twoPrecommits (r : R) (a b : A) : a ≠ b → ρ.precommitted v r a → ρ.precommitted v r b →
      Guilty ρ v
  /-- A precommit for which no polka is on record. -/
  | unfounded (r : R) (a : A) : ρ.precommitted v r a → ¬ ρ.Polka r a → Guilty ρ v
  /-- A prevote against an earlier precommit, with no polka for it on record since. -/
  | unlocked (r s : R) (a b : A) : a ≠ b → r < s → ρ.precommitted v r a → ρ.prevoted v s b →
      (∀ t, r ≤ t → t < s → ¬ ρ.Polka t b) → Guilty ρ v

/-- More than a third of the total stand convicted. -/
def Convicts (ρ : Record V R A) : Prop :=
  ∃ Q, Q ⊆ ρ.members ∧ ρ.total < 3 * Q.card ∧ ∀ v ∈ Q, ρ.Guilty v

/-- Two acts that no voter may both do, each shown, convict those that did both. -/
theorem Shown.convicts {ρ : Record V R A} {act act' : V → Prop} (h : ρ.Shown act)
    (h' : ρ.Shown act') (hguilty : ∀ v, act v → act' v → ρ.Guilty v) : ρ.Convicts := by
  obtain ⟨Q, hsub, hcard, hact⟩ := h
  obtain ⟨Q', hsub', hcard', hact'⟩ := h'
  refine ⟨Q ∩ Q', fun v hv => hsub (Finset.mem_inter.mp hv).1,
    lt_three_mul_card_inter ρ.card_le hsub hsub' hcard hcard', fun v hv => ?_⟩
  obtain ⟨hv, hv'⟩ := Finset.mem_inter.mp hv
  exact hguilty v (hact v hv) (hact' v hv')

/-- A quorum of precommits rests on a polka, or is unfounded. -/
theorem polka_or_convicts {ρ : Record V R A} {r : R} {a : A}
    (h : ρ.Shown fun v => ρ.precommitted v r a) : ρ.Polka r a ∨ ρ.Convicts := by
  by_cases hp : ρ.Polka r a
  · exact Or.inl hp
  · exact Or.inr (h.convicts h fun v hv _ => .unfounded r a hv hp)

variable [WellFoundedLT R]

/-- **After a quorum of precommits, a polka for anything else convicts.** The first round with such
a polka is looked at: nothing before it justifies leaving the lock. -/
theorem convicts_of_polka {ρ : Record V R A} {r : R} {a : A}
    (hc : ρ.Shown fun v => ρ.precommitted v r a) :
    ∀ {s : R} {b : A}, r ≤ s → a ≠ b → ρ.Polka s b → ρ.Convicts := by
  intro s
  induction s using WellFoundedLT.induction with
  | ind s ih =>
    intro b hle hne hp
    rcases eq_or_lt_of_le hle with rfl | hlt
    · -- the round of the precommits: they have a polka of their own there
      rcases polka_or_convicts hc with hpa | hconv
      · exact hpa.convicts hp fun v ha hb => .twoPrevotes r a b hne ha hb
      · exact hconv
    · by_cases hsince : ∃ t, r ≤ t ∧ t < s ∧ ρ.Polka t b
      · obtain ⟨t, hrt, hts, hpt⟩ := hsince
        exact ih t hts hrt hne hpt
      · refine hc.convicts hp fun v ha hb => .unlocked r s a b hne hlt ha hb ?_
        intro t hrt hts hpt
        exact hsince ⟨t, hrt, hts, hpt⟩

/-- **Accountability.** Two quorums of precommits on record for different values, in whatever
rounds, convict more than a third of the voters. -/
theorem accountable {ρ : Record V R A} {r₁ r₂ : R} {a b : A} (hne : a ≠ b)
    (h₁ : ρ.Shown fun v => ρ.precommitted v r₁ a) (h₂ : ρ.Shown fun v => ρ.precommitted v r₂ b) :
    ρ.Convicts := by
  rcases polka_or_convicts h₁ with hp₁ | hconv
  swap
  · exact hconv
  rcases polka_or_convicts h₂ with hp₂ | hconv
  swap
  · exact hconv
  rcases le_total r₁ r₂ with hle | hle
  · exact convicts_of_polka h₁ hle hne hp₂
  · exact convicts_of_polka h₂ hle hne.symm hp₁

end Record

end Trv1Chain.Lib
