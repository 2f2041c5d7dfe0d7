import Mathlib.Data.Nat.Periodic

/-!
# Weighted slots

A list of owners with weights cuts the numbers below their total into consecutive ranges, one of
each owner's weight. `slotOwner` walks the ranges; every slot below the total has an owner, and an
owner has as many slots as it has weight. Reduced modulo the total the slots repeat, so the same
holds of any window of that length.
-/

set_option autoImplicit false

namespace Trv1Chain.Lib

variable {α : Type}

/-- The owner whose range a slot falls into. -/
def slotOwner : List (α × Nat) → Nat → Option α
  | [], _ => none
  | (a, w) :: l, slot => if slot < w then some a else slotOwner l (slot - w)

def totalWeight (l : List (α × Nat)) : Nat := (l.map (·.2)).sum

/-- What one owner has in the list, over all its places. -/
def weightOf [DecidableEq α] (a : α) (l : List (α × Nat)) : Nat :=
  totalWeight (l.filter fun x => x.1 = a)

theorem exists_slotOwner {l : List (α × Nat)} : ∀ {slot : Nat}, slot < totalWeight l →
    ∃ a ∈ l.map (·.1), slotOwner l slot = some a := by
  induction l with
  | nil =>
    intro slot h
    exact absurd h (Nat.not_lt_zero _)
  | cons x l ih =>
    intro slot h
    obtain ⟨a, w⟩ := x
    unfold slotOwner
    split
    · exact ⟨a, List.mem_cons_self, rfl⟩
    · rename_i hw
      have hrest : slot - w < totalWeight l := by
        have hsum : totalWeight ((a, w) :: l) = w + totalWeight l := rfl
        omega
      obtain ⟨b, hb, howner⟩ := ih hrest
      exact ⟨b, List.mem_cons_of_mem _ hb, howner⟩

variable [DecidableEq α]

theorem weightOf_cons (a b : α) (w : Nat) (l : List (α × Nat)) :
    weightOf a ((b, w) :: l) = (if b = a then w else 0) + weightOf a l := by
  unfold weightOf
  by_cases h : b = a
  · rw [List.filter_cons_of_pos (by simpa using h), if_pos h]
    rfl
  · rw [List.filter_cons_of_neg (by simpa using h), if_neg h, Nat.zero_add]

theorem weightOf_of_notMem {l : List (α × Nat)} {a : α} (h : a ∉ l.map (·.1)) :
    weightOf a l = 0 := by
  unfold weightOf
  rw [List.filter_eq_nil_iff.mpr]
  · rfl
  intro y hy heq
  exact h (List.mem_map.mpr ⟨y, hy, by simpa using heq⟩)

/-- An owner that stands once has the weight it stands with. -/
theorem weightOf_of_mem {l : List (α × Nat)} (hnd : (l.map (·.1)).Nodup) {a : α} {w : Nat}
    (h : (a, w) ∈ l) : weightOf a l = w := by
  induction l with
  | nil => cases h
  | cons x l ih =>
    obtain ⟨b, v⟩ := x
    rw [List.map_cons, List.nodup_cons] at hnd
    rw [weightOf_cons]
    rcases List.mem_cons.mp h with heq | hmem
    · obtain ⟨rfl, rfl⟩ := Prod.mk.inj heq
      rw [if_pos rfl, weightOf_of_notMem hnd.1, Nat.add_zero]
    · have hne : b ≠ a := by
        rintro rfl
        exact hnd.1 (List.mem_map.mpr ⟨_, hmem, rfl⟩)
      rw [if_neg hne, Nat.zero_add]
      exact ih hnd.2 hmem

/-- **An owner has as many slots as weight.** -/
theorem count_slotOwner (a : α) (l : List (α × Nat)) :
    Nat.count (fun slot => slotOwner l slot = some a) (totalWeight l) = weightOf a l := by
  induction l with
  | nil => rfl
  | cons x l ih =>
    obtain ⟨b, w⟩ := x
    have hsum : totalWeight ((b, w) :: l) = w + totalWeight l := rfl
    -- the first range is the head's, and what follows it is the tail's, moved by `w`
    have hhead : Nat.count (fun slot => slotOwner ((b, w) :: l) slot = some a) w =
        if b = a then w else 0 := by
      split
      · rename_i h
        apply Nat.count_iff_forall.mpr
        intro slot hslot
        unfold slotOwner
        rw [if_pos hslot, h]
      · rename_i h
        apply Nat.count_iff_forall_not.mpr
        intro slot hslot
        unfold slotOwner
        rw [if_pos hslot, Option.some.injEq]
        exact h
    have htail : ∀ slot, slotOwner ((b, w) :: l) (w + slot) = slotOwner l slot := by
      intro slot
      rw [slotOwner, if_neg (by omega), Nat.add_sub_cancel_left]
    rw [hsum, Nat.count_add, hhead, weightOf_cons, ← ih]
    simp only [htail]

/-- The same in any window as long as the total. -/
theorem card_window (a : α) (l : List (α × Nat)) (start : Nat) :
    ((Finset.Ico start (start + totalWeight l)).filter fun n =>
      slotOwner l (n % totalWeight l) = some a).card = weightOf a l := by
  rw [Nat.filter_Ico_card_eq_of_periodic, ← count_slotOwner, Nat.count_eq_card_filter_range,
    Nat.count_eq_card_filter_range]
  · refine congrArg Finset.card (Finset.filter_congr ?_)
    intro n hn
    rw [Nat.mod_eq_of_lt (Finset.mem_range.mp hn)]
  · intro n
    dsimp only
    rw [Nat.add_mod_right]

end Trv1Chain.Lib
