import Mathlib.Data.Finset.Card
import Mathlib.Order.WellFounded
import Mathlib.Order.RelClasses

/-!
# Two-thirds quorums, and agreement from locks

The counting that a Byzantine fault tolerant vote rests on, over an arbitrary type of voters.
Nothing here knows what a vote is on the wire or how a node decides to cast one.

An `Electorate` is a set of voters counted against a total, with fewer than a third of that
total faulty. The total is a number of its own and not the size of the set: a list of voters may
name one voter twice, and then the total is the length of the list and the set is smaller.

`Locking` is the abstract voting discipline. A correct voter prevotes at most once in a round,
precommits only on a quorum of prevotes (a *polka*), and after a precommit prevotes again only
what it precommitted since. `Locking.agreement` is what those three buy: two quorums of
precommits, in whatever rounds, are for one value.
-/

set_option autoImplicit false

namespace Trv1Chain.Lib

variable {V : Type} [DecidableEq V]

/-- **Two sets of more than two thirds share more than a third.** Both lie in one set of at most
`n`, so their union is no larger and the overlap makes up for it. -/
theorem lt_three_mul_card_inter {W A B : Finset V} {n : Nat} (hW : W.card ≤ n) (hA : A ⊆ W)
    (hB : B ⊆ W) (hcardA : 2 * n < 3 * A.card) (hcardB : 2 * n < 3 * B.card) :
    n < 3 * (A ∩ B).card := by
  have hunion : (A ∪ B).card ≤ n :=
    Nat.le_trans (Finset.card_le_card (Finset.union_subset hA hB)) hW
  have hsum := Finset.card_union_add_card_inter A B
  omega

/-- Voters counted against `total`, fewer than a third of it faulty. -/
structure Electorate (V : Type) [DecidableEq V] where
  members : Finset V
  total : Nat
  faulty : Finset V
  card_le : members.card ≤ total
  faulty_lt : 3 * faulty.card < total

namespace Electorate

/-- More than two thirds of the total, all of them members. -/
def Quorum (E : Electorate V) (Q : Finset V) : Prop :=
  Q ⊆ E.members ∧ 2 * E.total < 3 * Q.card

/-- **Two quorums share a correct voter**: they share more than a third of the total, and that is
more than the faulty voters are. -/
theorem Quorum.exists_correct_inter {E : Electorate V} {Q₁ Q₂ : Finset V}
    (h₁ : E.Quorum Q₁) (h₂ : E.Quorum Q₂) : ∃ v, v ∈ Q₁ ∧ v ∈ Q₂ ∧ v ∉ E.faulty := by
  have hshared := lt_three_mul_card_inter E.card_le h₁.1 h₂.1 h₁.2 h₂.2
  have hbig : E.faulty.card < (Q₁ ∩ Q₂).card := by
    have := E.faulty_lt
    omega
  obtain ⟨v, hv, hnf⟩ := Finset.exists_mem_notMem_of_card_lt_card hbig
  exact ⟨v, (Finset.mem_inter.mp hv).1, (Finset.mem_inter.mp hv).2, hnf⟩

/-- A quorum of voters each of whom, when correct, did `act`. What the faulty ones did is not
constrained, so this is what a node that counted a quorum of messages can conclude. -/
def VotedBy (E : Electorate V) (act : V → Prop) : Prop :=
  ∃ Q, E.Quorum Q ∧ ∀ v ∈ Q, v ∉ E.faulty → act v

theorem VotedBy.both {E : Electorate V} {act₁ act₂ : V → Prop}
    (h₁ : E.VotedBy act₁) (h₂ : E.VotedBy act₂) : ∃ v, v ∉ E.faulty ∧ act₁ v ∧ act₂ v := by
  obtain ⟨Q₁, hq₁, ha₁⟩ := h₁
  obtain ⟨Q₂, hq₂, ha₂⟩ := h₂
  obtain ⟨v, hv₁, hv₂, hnf⟩ := hq₁.exists_correct_inter hq₂
  exact ⟨v, hnf, ha₁ v hv₁ hnf, ha₂ v hv₂ hnf⟩

theorem VotedBy.exists_correct {E : Electorate V} {act : V → Prop}
    (h : E.VotedBy act) : ∃ v, v ∉ E.faulty ∧ act v :=
  let ⟨v, hnf, ha, _⟩ := h.both h
  ⟨v, hnf, ha⟩

end Electorate

/-! ## The locking discipline -/

/-- Who prevoted and who precommitted what, in which round, with the three rules a correct voter
keeps. `prevote_lock` is the lock in the form the agreement proof spends it: a correct voter that
precommitted `a` in round `r` and prevotes `b` in a later round `r'` precommitted `b` in between. -/
structure Locking (E : Electorate V) (R A : Type) [LinearOrder R] where
  prevoted : V → R → A → Prop
  precommitted : V → R → A → Prop
  prevote_unique : ∀ v, v ∉ E.faulty → ∀ r a b, prevoted v r a → prevoted v r b → a = b
  precommit_polka : ∀ v, v ∉ E.faulty → ∀ r a, precommitted v r a →
    E.VotedBy fun u => prevoted u r a
  prevote_lock : ∀ v, v ∉ E.faulty → ∀ r r' a b, r < r' → precommitted v r a →
    prevoted v r' b → ∃ s, r ≤ s ∧ s < r' ∧ precommitted v s b

namespace Locking

variable {E : Electorate V} {R A : Type} [LinearOrder R] [WellFoundedLT R]

/-- **After a quorum of precommits for `a`, every polka is for `a`.** Strong induction on the
round of the polka: the voter the two quorums share precommitted `b` in an earlier round, and the
polka that precommit needed is the induction hypothesis' case. -/
theorem polka_eq (L : Locking E R A) {r : R} {a : A}
    (hc : E.VotedBy fun v => L.precommitted v r a) :
    ∀ {r' : R} {b : A}, r ≤ r' → (E.VotedBy fun v => L.prevoted v r' b) → a = b := by
  intro r'
  induction r' using WellFoundedLT.induction with
  | ind r' ih =>
    intro b hle hp
    rcases eq_or_lt_of_le hle with rfl | hlt
    · -- the same round: the precommits rest on a polka of their own
      obtain ⟨v, hnf, hpre⟩ := hc.exists_correct
      obtain ⟨u, hnf', hua, hub⟩ := (L.precommit_polka v hnf r a hpre).both hp
      exact L.prevote_unique u hnf' r a b hua hub
    · obtain ⟨v, hnf, hpre, hprev⟩ := hc.both hp
      obtain ⟨s, hrs, hsr', hs⟩ := L.prevote_lock v hnf r r' a b hlt hpre hprev
      exact ih s hsr' hrs (L.precommit_polka v hnf s b hs)

/-- **Agreement.** Two quorums of precommits are for the same value, in whatever rounds. -/
theorem agreement (L : Locking E R A) {r₁ r₂ : R} {a b : A}
    (h₁ : E.VotedBy fun v => L.precommitted v r₁ a)
    (h₂ : E.VotedBy fun v => L.precommitted v r₂ b) : a = b := by
  have polka : ∀ {r : R} {x : A}, (E.VotedBy fun v => L.precommitted v r x) →
      E.VotedBy fun v => L.prevoted v r x := by
    intro r x h
    obtain ⟨v, hnf, hpre⟩ := h.exists_correct
    exact L.precommit_polka v hnf r x hpre
  rcases le_total r₁ r₂ with hle | hle
  · exact L.polka_eq h₁ hle (polka h₂)
  · exact (L.polka_eq h₂ hle (polka h₁)).symm

end Locking

end Trv1Chain.Lib
