import Mathlib.Data.Finset.Card
import Mathlib.Data.List.Nodup

/-!
# Seats given by rank

Candidates are seated or waiting. A `Swap` exchanges the first of the waiting for the last of the
seated, when it is strictly more powerful; the free seats then go to the first of the waiting
(`Filled`).

A ranking refines the powers: it is a strict linear order in which the more powerful comes first,
and what it does among equals is only a tie-break. The two disagree on ties, and this is where the
seated have an advantage: a swap needs more power, a free seat only a better rank.

`Swapped` is what any number of swaps from `A₀` and `S₀` amounts to. Nobody moves twice, and who
loses a seat is decided by two counts over the sets at the start (`mem_demoted_iff`).
-/

set_option autoImplicit false

namespace Trv1Chain.Lib

structure Ranking (α : Type) where
  power : α → Nat
  Ahead : α → α → Prop
  decAhead : DecidableRel Ahead
  irrefl : ∀ a, ¬ Ahead a a
  trans : ∀ {a b c}, Ahead a b → Ahead b c → Ahead a c
  total : ∀ {a b}, a ≠ b → Ahead a b ∨ Ahead b a
  of_power : ∀ {a b}, power b < power a → Ahead a b

namespace Ranking

variable {α : Type} (R : Ranking α)

instance : DecidableRel R.Ahead := R.decAhead

variable {R}

theorem asymm {a b : α} (h : R.Ahead a b) : ¬ R.Ahead b a := fun h' => R.irrefl a (R.trans h h')

theorem power_le {a b : α} (h : R.Ahead a b) : R.power b ≤ R.power a :=
  Nat.not_lt.mp fun hlt => R.asymm h (R.of_power hlt)

/-! ## Swaps -/

def promoted (swaps : List (α × α)) : List α := swaps.map Prod.fst

def demoted (swaps : List (α × α)) : List α := swaps.map Prod.snd

theorem promoted_concat (swaps : List (α × α)) (p d : α) :
    promoted (swaps ++ [(p, d)]) = (promoted swaps).concat p := by
  simp [promoted]

theorem demoted_concat (swaps : List (α × α)) (p d : α) :
    demoted (swaps ++ [(p, d)]) = (demoted swaps).concat d := by
  simp [demoted]

theorem mem_promoted_concat {swaps : List (α × α)} {p d x : α} :
    x ∈ promoted (swaps ++ [(p, d)]) ↔ x ∈ promoted swaps ∨ x = p := by
  simp [promoted]

theorem mem_demoted_concat {swaps : List (α × α)} {p d x : α} :
    x ∈ demoted (swaps ++ [(p, d)]) ↔ x ∈ demoted swaps ∨ x = d := by
  simp [demoted]

variable (R) in
/-- The first of the waiting has more power than the last of the seated. -/
structure Swap (A S : Finset α) (p d : α) : Prop where
  waiting : p ∈ S
  seated : d ∈ A
  first : ∀ x ∈ S, x ≠ p → R.Ahead p x
  last : ∀ x ∈ A, x ≠ d → R.Ahead x d
  stronger : R.power d < R.power p

variable (R) in
/-- The seats `A` and the waiting `S` after `swaps` from `A₀` and `S₀`. -/
structure Swapped (A₀ S₀ A S : Finset α) (swaps : List (α × α)) : Prop where
  promoted_mem : ∀ p ∈ promoted swaps, p ∈ S₀
  demoted_mem : ∀ d ∈ demoted swaps, d ∈ A₀
  promoted_nodup : (promoted swaps).Nodup
  demoted_nodup : (demoted swaps).Nodup
  seated : ∀ x, x ∈ A ↔ (x ∈ A₀ ∧ x ∉ demoted swaps) ∨ x ∈ promoted swaps
  waiting : ∀ x, x ∈ S ↔ (x ∈ S₀ ∧ x ∉ promoted swaps) ∨ x ∈ demoted swaps
  card : A.card = A₀.card
  -- who has a seat is ahead of whoever lost one, who won one ahead of whoever has none
  behind : ∀ a ∈ A, ∀ d ∈ demoted swaps, R.Ahead a d
  ahead : ∀ p ∈ promoted swaps, ∀ s ∈ S, R.Ahead p s
  stronger : ∀ p ∈ promoted swaps, ∀ d ∈ demoted swaps, R.power d < R.power p

theorem Swapped.refl (A₀ S₀ : Finset α) : Swapped R A₀ S₀ A₀ S₀ [] where
  promoted_mem _ h := absurd h List.not_mem_nil
  demoted_mem _ h := absurd h List.not_mem_nil
  promoted_nodup := List.nodup_nil
  demoted_nodup := List.nodup_nil
  seated x := by simp [promoted, demoted]
  waiting x := by simp [promoted, demoted]
  card := rfl
  behind _ _ _ h := absurd h List.not_mem_nil
  ahead _ h := absurd h List.not_mem_nil
  stronger _ h := absurd h List.not_mem_nil

section

variable {A₀ S₀ A S : Finset α} {swaps : List (α × α)} {p d : α}

/-- The next to win a seat has not moved yet. -/
theorem Swapped.fresh_promoted (h : Swapped R A₀ S₀ A S swaps) (hs : Swap R A S p d) :
    p ∈ S₀ ∧ p ∉ promoted swaps := by
  rcases (h.waiting p).mp hs.waiting with hfresh | hback
  · exact hfresh
  · exact absurd hs.stronger (Nat.not_lt.mpr (R.power_le (h.behind d hs.seated p hback)))

/-- The next to lose a seat has not moved yet. -/
theorem Swapped.fresh_demoted (h : Swapped R A₀ S₀ A S swaps) (hs : Swap R A S p d) :
    d ∈ A₀ ∧ d ∉ demoted swaps := by
  rcases (h.seated d).mp hs.seated with hfresh | hwon
  · exact hfresh
  · exact absurd hs.stronger (Nat.not_lt.mpr (R.power_le (h.ahead d hwon p hs.waiting)))

/-- Nobody is named twice. -/
theorem Swapped.nodup (h : Swapped R A₀ S₀ A S swaps) (hdisj : ∀ x ∈ A₀, x ∉ S₀) :
    (swaps.flatMap fun s => [s.1, s.2]).Nodup := by
  have hperm : (swaps.flatMap fun s => [s.1, s.2]).Perm (promoted swaps ++ demoted swaps) := by
    clear h
    induction swaps with
    | nil => exact List.Perm.refl _
    | cons s swaps ih =>
      show (s.1 :: s.2 :: swaps.flatMap fun s => [s.1, s.2]).Perm
        (s.1 :: (promoted swaps ++ s.2 :: demoted swaps))
      exact ((ih.cons s.2).trans List.perm_middle.symm).cons s.1
  rw [hperm.nodup_iff, List.nodup_append]
  refine ⟨h.promoted_nodup, h.demoted_nodup, ?_⟩
  rintro x hp y hd rfl
  exact hdisj x (h.demoted_mem x hd) (h.promoted_mem x hp)

variable [DecidableEq α]

theorem Swapped.swap (h : Swapped R A₀ S₀ A S swaps) (hdisj : ∀ x ∈ A₀, x ∉ S₀)
    (hs : Swap R A S p d) :
    Swapped R A₀ S₀ (insert p (A.erase d)) (insert d (S.erase p)) (swaps ++ [(p, d)]) := by
  obtain ⟨hpS, hpnew⟩ := h.fresh_promoted hs
  obtain ⟨hdA, hdnew⟩ := h.fresh_demoted hs
  have hpd : R.Ahead p d := R.of_power hs.stronger
  have hpA : p ∉ A.erase d := by
    intro hmem
    rcases (h.seated p).mp (Finset.mem_of_mem_erase hmem) with ⟨hA₀, -⟩ | hwon
    · exact hdisj p hA₀ hpS
    · exact hpnew hwon
  refine ⟨?_, ?_, ?_, ?_, ?_, ?_, ?_, ?_, ?_, ?_⟩
  · intro x hx
    rcases mem_promoted_concat.mp hx with hold | rfl
    · exact h.promoted_mem x hold
    · exact hpS
  · intro x hx
    rcases mem_demoted_concat.mp hx with hold | rfl
    · exact h.demoted_mem x hold
    · exact hdA
  · rw [promoted_concat]
    exact h.promoted_nodup.concat hpnew
  · rw [demoted_concat]
    exact h.demoted_nodup.concat hdnew
  · intro x
    rw [Finset.mem_insert, Finset.mem_erase, mem_promoted_concat, mem_demoted_concat, h.seated x]
    -- who won a seat was waiting, so it is not the one that loses its seat now
    have hwon : x ∈ promoted swaps → x ≠ d := fun hx hxd =>
      hdisj d hdA (hxd ▸ h.promoted_mem x hx)
    tauto
  · intro x
    rw [Finset.mem_insert, Finset.mem_erase, mem_promoted_concat, mem_demoted_concat, h.waiting x]
    have hlost : x ∈ demoted swaps → x ≠ p := fun hx hxp =>
      hdisj x (h.demoted_mem x hx) (hxp ▸ hpS)
    tauto
  · rw [Finset.card_insert_of_notMem hpA, Finset.card_erase_add_one hs.seated, h.card]
  · intro a ha e he
    rcases Finset.mem_insert.mp ha with rfl | ha
    · rcases mem_demoted_concat.mp he with hold | rfl
      · exact R.trans hpd (h.behind d hs.seated e hold)
      · exact hpd
    · obtain ⟨had, haA⟩ := Finset.mem_erase.mp ha
      rcases mem_demoted_concat.mp he with hold | rfl
      · exact h.behind a haA e hold
      · exact hs.last a haA had
  · intro q hq s hs'
    rcases Finset.mem_insert.mp hs' with rfl | hs'
    · rcases mem_promoted_concat.mp hq with hold | rfl
      · exact R.trans (h.ahead q hold p hs.waiting) hpd
      · exact hpd
    · obtain ⟨hsp, hsS⟩ := Finset.mem_erase.mp hs'
      rcases mem_promoted_concat.mp hq with hold | rfl
      · exact h.ahead q hold s hsS
      · exact hs.first s hsS hsp
  · intro q hq e he
    have hqp : R.power p ≤ R.power q := by
      rcases mem_promoted_concat.mp hq with hold | rfl
      · exact R.power_le (h.ahead q hold p hs.waiting)
      · exact Nat.le_refl _
    have hde : R.power e ≤ R.power d := by
      rcases mem_demoted_concat.mp he with hold | rfl
      · exact R.power_le (h.behind d hs.seated e hold)
      · exact Nat.le_refl _
    exact Nat.lt_of_le_of_lt hde (Nat.lt_of_lt_of_le hs.stronger hqp)

/-- Swaps only move candidates between the two sets. -/
theorem Swapped.mem_union (h : Swapped R A₀ S₀ A S swaps) (x : α) :
    x ∈ A ∪ S ↔ x ∈ A₀ ∪ S₀ := by
  rw [Finset.mem_union, Finset.mem_union, h.seated, h.waiting]
  have hp := h.promoted_mem x
  have hd := h.demoted_mem x
  tauto

theorem Swapped.disjoint (h : Swapped R A₀ S₀ A S swaps) (hdisj : ∀ x ∈ A₀, x ∉ S₀) {x : α}
    (hA : x ∈ A) : x ∉ S := by
  rw [h.waiting]
  rw [h.seated] at hA
  have hp := h.promoted_mem x
  have hd := h.demoted_mem x
  have := hdisj x
  tauto

/-! ## Who loses a seat -/

theorem card_promoted (h : (promoted swaps).Nodup) :
    (promoted swaps).toFinset.card = swaps.length := by
  rw [List.toFinset_card_of_nodup h]
  exact List.length_map _

theorem card_demoted (h : (demoted swaps).Nodup) :
    (demoted swaps).toFinset.card = swaps.length := by
  rw [List.toFinset_card_of_nodup h]
  exact List.length_map _

/-- **Who loses a seat.** When no swap is left, a candidate has lost its seat exactly if at least as
many of the waiting had more power as there were seated from it downwards. -/
theorem Swapped.mem_demoted_iff (h : Swapped R A₀ S₀ A S swaps)
    (hdone : ∀ a ∈ A, ∀ s ∈ S, R.power s ≤ R.power a) (hd : d ∈ A₀) :
    d ∈ demoted swaps ↔ (A₀.filter fun a => a = d ∨ R.Ahead d a).card ≤
      (S₀.filter fun s => R.power d < R.power s).card := by
  have hP := card_promoted h.promoted_nodup
  have hD := card_demoted h.demoted_nodup
  constructor
  · intro hlost
    -- everybody from `d` downwards lost a seat, and to somebody with more power than `d`
    have hsub : (A₀.filter fun a => a = d ∨ R.Ahead d a) ⊆ (demoted swaps).toFinset := by
      intro a ha
      obtain ⟨haA₀, hda⟩ := Finset.mem_filter.mp ha
      rw [List.mem_toFinset]
      by_contra hkept
      have hahead := h.behind a ((h.seated a).mpr (Or.inl ⟨haA₀, hkept⟩)) d hlost
      rcases hda with rfl | hda
      · exact R.irrefl a hahead
      · exact R.asymm hda hahead
    have hsup : (promoted swaps).toFinset ⊆ S₀.filter fun s => R.power d < R.power s := by
      intro p hp
      rw [List.mem_toFinset] at hp
      exact Finset.mem_filter.mpr ⟨h.promoted_mem p hp, h.stronger p hp d hlost⟩
    have h₁ := Finset.card_le_card hsub
    have h₂ := Finset.card_le_card hsup
    omega
  · intro hcount
    by_contra hkept
    have hdA : d ∈ A := (h.seated d).mpr (Or.inl ⟨hd, hkept⟩)
    -- all who are stronger won a seat, and all who lost one are behind `d`
    have hsub : (S₀.filter fun s => R.power d < R.power s) ⊆ (promoted swaps).toFinset := by
      intro s hs
      obtain ⟨hsS₀, hlt⟩ := Finset.mem_filter.mp hs
      rw [List.mem_toFinset]
      by_contra hnot
      exact Nat.not_lt.mpr (hdone d hdA s ((h.waiting s).mpr (Or.inl ⟨hsS₀, hnot⟩))) hlt
    have hsup : (demoted swaps).toFinset ⊆
        (A₀.filter fun a => a = d ∨ R.Ahead d a).erase d := by
      intro e he
      rw [List.mem_toFinset] at he
      have hahead := h.behind d hdA e he
      refine Finset.mem_erase.mpr ⟨?_, Finset.mem_filter.mpr ⟨h.demoted_mem e he, Or.inr hahead⟩⟩
      rintro rfl
      exact R.irrefl _ hahead
    have hmem : d ∈ A₀.filter fun a => a = d ∨ R.Ahead d a :=
      Finset.mem_filter.mpr ⟨hd, Or.inl rfl⟩
    have h₁ := Finset.card_le_card hsub
    have h₂ := Finset.card_le_card hsup
    have h₃ := Finset.card_erase_add_one hmem
    omega

/-! ## Free seats -/

variable (R) in
/-- `T` are the first `n` of the waiting. -/
structure Filled (S T : Finset α) (n : Nat) : Prop where
  subset : T ⊆ S
  card : T.card = min n S.card
  first : ∀ t ∈ T, ∀ s ∈ S, s ∉ T → R.Ahead t s

theorem Filled.notMem_iff {T : Finset α} {n : Nat} (h : Filled R S T n) {x : α} (hx : x ∈ S) :
    x ∉ T ↔ n ≤ (S.filter fun s => R.Ahead s x).card := by
  constructor
  · intro hout
    have hsub : T ⊆ S.filter fun s => R.Ahead s x := fun t ht =>
      Finset.mem_filter.mpr ⟨h.subset ht, h.first t ht x hx hout⟩
    have hle := Finset.card_le_card hsub
    have hlt : T.card < S.card :=
      Finset.card_lt_card ((Finset.ssubset_iff_of_subset h.subset).mpr ⟨x, hx, hout⟩)
    have hcard := h.card
    omega
  · intro hcount hin
    have hsub : (S.filter fun s => R.Ahead s x) ⊆ T.erase x := by
      intro s hs
      obtain ⟨hsS, hahead⟩ := Finset.mem_filter.mp hs
      refine Finset.mem_erase.mpr ⟨?_, ?_⟩
      · rintro rfl
        exact R.irrefl _ hahead
      · by_contra hout
        exact R.asymm hahead (h.first x hin s hsS hout)
    have h₁ := Finset.card_le_card hsub
    have h₂ := Finset.card_erase_add_one hin
    have hcard := h.card
    omega

/-- **Who gets the seat back.** One who lost a seat stays without exactly if there are candidates
for all `cap` seats ahead of it. -/
theorem Swapped.notMem_filled_iff (h : Swapped R A₀ S₀ A S swaps) (hdisj : ∀ x ∈ A₀, x ∉ S₀)
    {T : Finset α} {cap : Nat} (hT : Filled R S T (cap - A₀.card)) (hd : d ∈ demoted swaps) :
    d ∉ T ↔ cap ≤ ((A₀ ∪ S₀).filter fun x => R.Ahead x d).card := by
  have hdS : d ∈ S := (h.waiting d).mpr (Or.inr hd)
  have hunion : (A₀ ∪ S₀).filter (fun x => R.Ahead x d) =
      A ∪ S.filter fun x => R.Ahead x d := by
    ext x
    rw [Finset.mem_filter, ← h.mem_union x, Finset.mem_union, Finset.mem_union, Finset.mem_filter]
    constructor
    · rintro ⟨hA | hS, hahead⟩
      · exact Or.inl hA
      · exact Or.inr ⟨hS, hahead⟩
    · rintro (hA | ⟨hS, hahead⟩)
      · exact ⟨Or.inl hA, h.behind x hA d hd⟩
      · exact ⟨Or.inr hS, hahead⟩
  have hdis : Disjoint A (S.filter fun x => R.Ahead x d) :=
    Finset.disjoint_left.mpr fun x hA hS => h.disjoint hdisj hA (Finset.mem_filter.mp hS).1
  rw [hT.notMem_iff hdS, hunion, Finset.card_union_of_disjoint hdis, h.card]
  omega

end

end Ranking

end Trv1Chain.Lib
