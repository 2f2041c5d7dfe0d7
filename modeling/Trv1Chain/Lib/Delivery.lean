import Mathlib.Algebra.BigOperators.Group.Multiset.Basic
import Mathlib.Algebra.Group.Action.Defs
import Mathlib.Algebra.GroupWithZero.Nat
import Mathlib.Data.Fintype.Basic
import Mathlib.Data.Fintype.Card
import Mathlib.Data.Multiset.Bind
import Mathlib.Logic.Relation

/-!
# A network without faults

`n` nodes that answer messages. What a node sends is put in flight once for every other node, and
a step of the network delivers one message that is in flight. So a run of the network is an order
of deliveries.

The guard `G` says which deliveries are considered, so a result may be about all orders or about
some. What every admitted delivery keeps holds in every order (`Reaches.invariant`). To show that
*some* order leads where we want, it is enough to find, short of it, one delivery that keeps an
invariant and makes what is in flight lighter (`exists_done`).
-/

set_option autoImplicit false

namespace Trv1Chain.Lib

variable {n : Nat} {σ μ ω α β : Type}

/-- The nodes, what is in flight and to whom, and what each node has answered so far. -/
structure Net (n : Nat) (σ μ ω : Type) where
  nodes : Fin n → σ
  inFlight : Multiset (Fin n × μ)
  log : Fin n → List ω

/-- One copy of each message for every node but `i`. -/
def spread (i : Fin n) (ms : List α) : Multiset (Fin n × α) :=
  (Finset.univ.erase i).val.bind fun k => (ms : Multiset α).map fun m => (k, m)

theorem mem_spread {i k : Fin n} {ms : List α} {m : α} :
    (k, m) ∈ spread i ms ↔ k ≠ i ∧ m ∈ ms := by
  simp only [spread, Multiset.mem_bind, Multiset.mem_map, Multiset.mem_coe, Finset.mem_val,
    Finset.mem_erase, Finset.mem_univ, and_true, Prod.mk.injEq]
  constructor
  · rintro ⟨k', hk, m', hm, rfl, rfl⟩
    exact ⟨hk, hm⟩
  · rintro ⟨hk, hm⟩
    exact ⟨k, hk, m, hm, rfl, rfl⟩

@[simp] theorem spread_nil (i : Fin n) : spread i ([] : List α) = 0 := by
  simp [spread]

theorem spread_alone (i : Fin 1) (ms : List α) : spread i ms = 0 := by
  rw [Multiset.eq_zero_iff_forall_notMem]
  rintro ⟨k, m⟩ hmem
  exact (mem_spread.mp hmem).1 (Subsingleton.elim k i)

theorem spread_map (f : α → β) (i : Fin n) (ms : List α) :
    spread i (ms.map f) = (spread i ms).map (Prod.map id f) := by
  simp [spread, Multiset.map_bind, Function.comp_def]

theorem spread_append (i : Fin n) (ms ms' : List α) :
    spread i (ms ++ ms') = spread i ms + spread i ms' := by
  simp only [spread, ← Multiset.coe_add, Multiset.map_add]
  exact Multiset.bind_add _ _ _

/-- How much is in flight, each message by its weight. -/
def load (weight : α → Nat) (s : Multiset (Fin n × α)) : Nat := (s.map fun p => weight p.2).sum

@[simp] theorem load_cons (weight : α → Nat) (p : Fin n × α) (s : Multiset (Fin n × α)) :
    load weight (p ::ₘ s) = weight p.2 + load weight s := by
  simp [load]

theorem load_add (weight : α → Nat) (s t : Multiset (Fin n × α)) :
    load weight (s + t) = load weight s + load weight t := by
  simp [load]

theorem load_spread_le (weight : α → Nat) (i : Fin n) (ms : List α) :
    load weight (spread i ms) ≤ n * (ms.map weight).sum := by
  have heach : ∀ k : Fin n,
      (((ms : Multiset α).map fun m => (k, m)).map fun p => weight p.2).sum =
        (ms.map weight).sum := by
    intro k
    simp [Function.comp_def]
  unfold load spread
  -- every receiver gets the same weight, and there are fewer than `n` of them
  rw [Multiset.map_bind, Multiset.sum_bind]
  simp only [heach, Multiset.map_const', Multiset.sum_replicate, smul_eq_mul]
  apply Nat.mul_le_mul_right
  have := Finset.card_le_univ (Finset.univ.erase i)
  rwa [Fintype.card_fin] at this

/-! ## Answers -/

/-- Node `i` has answered, with `rest` left in flight besides what it sends. -/
def Net.answer (sent : List ω → List μ) (w : Net n σ μ ω) (i : Fin n)
    (rest : Multiset (Fin n × μ)) (s : σ) (out : List ω) : Net n σ μ ω where
  nodes := Function.update w.nodes i s
  inFlight := rest + spread i (sent out)
  log := Function.update w.log i (w.log i ++ out)

section Answer

variable {sent : List ω → List μ} {w : Net n σ μ ω} {i : Fin n} {rest : Multiset (Fin n × μ)}
  {s : σ} {out : List ω}

@[simp] theorem Net.answer_self : (w.answer sent i rest s out).nodes i = s :=
  Function.update_self _ _ _

theorem Net.answer_of_ne {k : Fin n} (hk : k ≠ i) :
    (w.answer sent i rest s out).nodes k = w.nodes k := Function.update_of_ne hk _ _

/-- What the node keeps, every node keeps. -/
theorem Net.answer_keeps {p : σ → Prop} (h : p (w.nodes i) → p s) {k : Fin n}
    (hk : p (w.nodes k)) : p ((w.answer sent i rest s out).nodes k) := by
  by_cases hki : k = i
  · subst hki
    rw [Net.answer_self]
    exact h hk
  · rw [Net.answer_of_ne hki]
    exact hk

/-- What holds of a node held before, or comes from the answer. -/
theorem Net.answer_cases {p : σ → Prop} {k : Fin n}
    (hk : p ((w.answer sent i rest s out).nodes k)) : p (w.nodes k) ∨ k = i ∧ p s := by
  by_cases hki : k = i
  · subst hki
    rw [Net.answer_self] at hk
    exact Or.inr ⟨rfl, hk⟩
  · rw [Net.answer_of_ne hki] at hk
    exact Or.inl hk

theorem Net.mem_answer_log {k : Fin n} {a : ω} :
    a ∈ (w.answer sent i rest s out).log k ↔ a ∈ w.log k ∨ k = i ∧ a ∈ out := by
  by_cases hki : k = i
  · subst hki
    simp [Net.answer]
  · simp [Net.answer, hki]

end Answer

section Deliveries

variable (recv : σ → μ → σ → List ω → Prop) (sent : List ω → List μ)
  (G : Net n σ μ ω → Fin n → μ → Prop)

/-- One delivery the guard admits: a message in flight reaches its node, which answers; what it
sends is spread. -/
inductive Delivers (w : Net n σ μ ω) : Net n σ μ ω → Prop
  | mk (i : Fin n) (m : μ) (rest : Multiset (Fin n × μ)) (s : σ) (out : List ω) :
      w.inFlight = (i, m) ::ₘ rest → G w i m → recv (w.nodes i) m s out →
      Delivers w (w.answer sent i rest s out)

/-- Some order of admitted deliveries leads from one network to the other. -/
def Reaches : Net n σ μ ω → Net n σ μ ω → Prop := Relation.ReflTransGen (Delivers recv sent G)

end Deliveries

variable {recv : σ → μ → σ → List ω → Prop} {sent : List ω → List μ}
  {G : Net n σ μ ω → Fin n → μ → Prop}

theorem Reaches.weaken {w w' : Net n σ μ ω} {G' : Net n σ μ ω → Fin n → μ → Prop}
    (h : Reaches recv sent G w w') (hw : ∀ w i m, G w i m → G' w i m) :
    Reaches recv sent G' w w' := by
  refine Relation.ReflTransGen.mono ?_ w w' h
  intro w w' hd
  cases hd with
  | mk i m rest s out hfly hg hrecv => exact .mk i m rest s out hfly (hw w i m hg) hrecv

theorem Delivers.log_subset {w w' : Net n σ μ ω} (h : Delivers recv sent G w w') (k : Fin n) :
    w.log k ⊆ w'.log k := by
  cases h with
  | mk i m rest s out _ _ _ =>
    intro a ha
    exact Net.mem_answer_log.mpr (Or.inl ha)

/-- **The invariant rule** for orders of deliveries. -/
theorem Reaches.invariant {I : Net n σ μ ω → Prop} {w w' : Net n σ μ ω}
    (h : Reaches recv sent G w w') (base : I w)
    (ind : ∀ {w w'}, I w → Delivers recv sent G w w' → I w') : I w' := by
  induction h with
  | refl => exact base
  | tail _ hstep ih => exact ind ih hstep

/-- **The rule of the lightest load.** Where every network with the invariant is done or has a
delivery that keeps the invariant and lightens the load, a network with the invariant that is done
can be reached. -/
theorem exists_done {I : Net n σ μ ω → Nat → Prop} {done : Net n σ μ ω → Prop}
    (progress : ∀ w l, I w l → done w ∨
      ∃ w' l', Delivers recv sent G w w' ∧ I w' l' ∧ l' < l) :
    ∀ l (w : Net n σ μ ω), I w l →
      ∃ w' l', Reaches recv sent G w w' ∧ done w' ∧ I w' l' := by
  intro l
  induction l using Nat.strong_induction_on with
  | _ l ih =>
    intro w hw
    rcases progress w l hw with hdone | ⟨w', l', hstep, hw', hlt⟩
    · exact ⟨w, l, .refl, hdone, hw⟩
    · obtain ⟨w'', l'', hreach, hrest⟩ := ih l' hlt w' hw'
      exact ⟨w'', l'', .head hstep hreach, hrest⟩

end Trv1Chain.Lib
