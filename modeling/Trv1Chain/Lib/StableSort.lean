import Mathlib.Data.List.Sort
import Mathlib.Data.List.Nodup

/-!
# What a stable sort does to two elements

In a list without repetition, `[a, b].Sublist l` says that `a` stands somewhere before `b`. Two such
lists with the same elements are equal as soon as they agree on all pairs (`eq_of_pairs`), and a
stable sort is described by what it does to a pair: the smaller element goes first, and of two that
tie the one that stood first (`pair_insertionSort_iff`).
-/

set_option autoImplicit false

namespace Trv1Chain.Lib

variable {α : Type}

/-- Of two elements of a list, one stands before the other. -/
theorem pair_or_pair {l : List α} {a b : α} (ha : a ∈ l) (hb : b ∈ l) (hne : a ≠ b) :
    [a, b].Sublist l ∨ [b, a].Sublist l := by
  obtain ⟨pre, post, rfl⟩ := List.append_of_mem ha
  rcases List.mem_append.mp hb with hpre | hpost
  · refine Or.inr ?_
    exact (List.singleton_sublist.mpr hpre).append
      (List.singleton_sublist.mpr List.mem_cons_self)
  · have hpost : b ∈ post := (List.mem_cons.mp hpost).resolve_left (Ne.symm hne)
    refine Or.inl (List.Sublist.trans ?_ (List.sublist_append_right pre _))
    exact (List.singleton_sublist.mpr hpost).cons_cons a

/-- Without repetition, not both. -/
theorem not_pair_swap {l : List α} (hl : l.Nodup) {a b : α} (h : [a, b].Sublist l) :
    ¬ [b, a].Sublist l := by
  induction l with
  | nil => exact fun h => by cases h
  | cons x l ih =>
    intro h'
    obtain ⟨hx, hl⟩ := List.nodup_cons.mp hl
    cases h with
    | cons _ h =>
      cases h' with
      | cons _ h' => exact ih hl h h'
      | cons_cons _ h' => exact hx (h.subset (by simp))
    | cons_cons _ h =>
      cases h' with
      | cons _ h' => exact hx (h'.subset (by simp))
      | cons_cons _ h' => exact hx (List.singleton_sublist.mp h)

theorem ne_of_pair {l : List α} (hl : l.Nodup) {a b : α} (h : [a, b].Sublist l) : a ≠ b := by
  rintro rfl
  exact List.nodup_iff_sublist.mp hl a h

/-- Two lists with the same elements, in the same order pair by pair. -/
theorem eq_of_pairs {l l' : List α} (hperm : l.Perm l') (hl : l.Nodup)
    (h : ∀ {a b}, [a, b].Sublist l → [a, b].Sublist l') : l = l' := by
  have hl' : l'.Nodup := hperm.nodup_iff.mp hl
  refine @List.Perm.eq_of_pairwise α (fun a b => [a, b].Sublist l') l l' ?_ ?_ ?_ hperm
  · intro a b _ _ hab hba
    exact absurd hba (not_pair_swap hl' hab)
  · exact List.pairwise_iff_forall_sublist.mpr h
  · exact List.pairwise_iff_forall_sublist.mpr fun hab => hab

section Sorting

variable (le : α → α → Prop) [DecidableRel le] [Std.Total le] [IsTrans α le]

/-- **A stable sort, pair by pair.** -/
theorem pair_insertionSort_iff {l : List α} (hl : l.Nodup) {a b : α} (ha : a ∈ l) (hb : b ∈ l)
    (hne : a ≠ b) :
    [a, b].Sublist (l.insertionSort le) ↔ ¬ le b a ∨ le a b ∧ [a, b].Sublist l := by
  have hsorted : ∀ {x y}, [x, y].Sublist (l.insertionSort le) → le x y :=
    List.pairwise_iff_forall_sublist.mp (List.pairwise_insertionSort le l)
  have hnodup : (l.insertionSort le).Nodup := (List.perm_insertionSort le l).nodup_iff.mpr hl
  constructor
  · intro hab
    by_cases hba : le b a
    · refine Or.inr ⟨hsorted hab, (pair_or_pair ha hb hne).resolve_right ?_⟩
      -- a tie keeps its order, so the other one would be kept as well
      intro hswap
      exact not_pair_swap hnodup hab (List.pair_sublist_insertionSort hba hswap)
    · exact Or.inl hba
  · rintro (hba | ⟨hab, hpair⟩)
    · refine (pair_or_pair ?_ ?_ hne).resolve_right fun hswap => hba (hsorted hswap)
      · exact (List.mem_insertionSort le).mpr ha
      · exact (List.mem_insertionSort le).mpr hb
    · exact List.pair_sublist_insertionSort hab hpair

end Sorting

end Trv1Chain.Lib
