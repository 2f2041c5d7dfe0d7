import Trv1Chain.Lib.Word
import Trv1Chain.Staking.Pool

/-!
# What a withdrawal takes

A withdrawal from a book is refused and changes nothing, or takes exactly the requested amount out
of the unlocked entries of one owner. This holds of any book: the sum of the unlocked entries is
taken in 64 bits and may wrap, but it is never more than what is there.
-/

set_option autoImplicit false

namespace Trv1Chain

open Lib

namespace Staking

/-! ## The entries of one owner -/

section Book

variable {Owner : Type}

/-- The exact sum of a list of entries. -/
def sumOf (entries : List (Entry Owner)) : Nat := (entries.map fun e => e.amount.toNat).sum

@[simp] theorem sumOf_nil : sumOf ([] : List (Entry Owner)) = 0 := rfl

@[simp] theorem sumOf_cons (e : Entry Owner) (entries : List (Entry Owner)) :
    sumOf (e :: entries) = e.amount.toNat + sumOf entries := rfl

@[simp] theorem sumOf_append (entries entries' : List (Entry Owner)) :
    sumOf (entries ++ entries') = sumOf entries + sumOf entries' := by
  simp [sumOf]

/-- The exact sum of a book. -/
def Book.held (book : Book Owner) : Nat := HashMap.total sumOf book

/-- The sum of the unlocked entries, as a withdrawal takes it. -/
def unlockedTotal (epoch : UInt64) (entries : List (Entry Owner)) : UInt64 :=
  ((entries.filter fun e => isUnlocked e.unlockEpoch epoch).map (·.amount)).sum

/-- The removal loop takes exactly the amount, if the unlocked entries hold it. -/
theorem takeUnlocked_exact (epoch : UInt64) : ∀ (entries : List (Entry Owner))
    (amount removed : UInt64),
    amount.toNat ≤ sumOf (entries.filter fun e => isUnlocked e.unlockEpoch epoch) →
    (takeUnlocked epoch entries amount removed).2 = removed + amount ∧
      sumOf (takeUnlocked epoch entries amount removed).1 + amount.toNat = sumOf entries := by
  intro entries
  induction entries with
  | nil =>
    intro amount removed hle
    have hzero : amount = 0 := UInt64.toNat_inj.mp (Nat.le_zero.mp hle)
    subst hzero
    exact ⟨(UInt64.add_zero removed).symm, rfl⟩
  | cons e rest ih =>
    intro amount removed hle
    unfold takeUnlocked
    by_cases hpos : amount > 0
    · rw [if_pos hpos]
      by_cases hun : isUnlocked e.unlockEpoch epoch = true
      · rw [List.filter_cons, if_pos hun, sumOf_cons] at hle
        rw [if_pos hun]
        by_cases hwhole : e.amount ≤ amount
        · -- the whole entry
          have hsub := UInt64.toNat_sub_of_le _ _ hwhole
          have hle' := UInt64.le_iff_toNat_le.mp hwhole
          obtain ⟨hremoved, hsum⟩ := ih (amount - e.amount) (removed + e.amount) (by omega)
          rw [if_pos hwhole, hremoved, sumOf_cons]
          refine ⟨?_, by omega⟩
          rw [UInt64.add_assoc, UInt64.add_comm e.amount, UInt64.sub_add_cancel]
        · -- a part of it, and the loop ends
          have hle' := UInt64.le_of_lt (UInt64.not_le.mp hwhole)
          have hsub := UInt64.toNat_sub_of_le _ _ hle'
          have hnat := UInt64.le_iff_toNat_le.mp hle'
          rw [if_neg hwhole]
          refine ⟨rfl, ?_⟩
          simp only [sumOf_cons]
          omega
      · rw [List.filter_cons, if_neg hun] at hle
        rw [if_neg hun]
        obtain ⟨hremoved, hsum⟩ := ih amount removed hle
        refine ⟨hremoved, ?_⟩
        simp only [sumOf_cons]
        omega
    · have hzero : amount = 0 := UInt64.le_zero_iff.mp (UInt64.not_lt.mp hpos)
      subst hzero
      rw [if_neg hpos]
      exact ⟨(UInt64.add_zero removed).symm, rfl⟩

theorem takeUnlocked_covered {epoch : UInt64} {entries : List (Entry Owner)} {amount : UInt64}
    (h : amount ≤ unlockedTotal epoch entries) :
    (takeUnlocked epoch entries amount 0).2 = amount ∧
      sumOf (takeUnlocked epoch entries amount 0).1 + amount.toNat = sumOf entries := by
  have hle : amount.toNat ≤ sumOf (entries.filter fun e => isUnlocked e.unlockEpoch epoch) := by
    have hle := UInt64.le_iff_toNat_le.mp h
    unfold unlockedTotal at hle
    rw [toNat_sum, List.map_map] at hle
    exact Nat.le_trans hle (Nat.mod_le _ _)
  have hexact := takeUnlocked_exact epoch entries amount 0 hle
  rw [UInt64.zero_add] at hexact
  exact hexact

variable [DecidableEq Owner]

/-- The entries of an owner, none when it has no list. -/
def Book.entriesOf (book : Book Owner) (owner : Owner) : List (Entry Owner) :=
  (book.lookup owner).getD []

/-- Write back an owner's entries; a list without entries is dropped. -/
def Book.put (book : Book Owner) (owner : Owner) (entries : List (Entry Owner)) : Book Owner :=
  if entries.isEmpty then (book.insert owner entries).erase owner else book.insert owner entries

theorem Book.lookup_put_ne (book : Book Owner) {owner k : Owner} (entries : List (Entry Owner))
    (h : k ≠ owner) : (Book.put book owner entries).lookup k = book.lookup k := by
  unfold Book.put
  split
  · rw [AList.lookup_erase_ne h, AList.lookup_insert_ne h]
  · rw [AList.lookup_insert_ne h]

theorem Book.lookup_put (book : Book Owner) (owner : Owner) (entries : List (Entry Owner)) :
    (Book.put book owner entries).lookup owner =
      if entries.isEmpty then none else some entries := by
  unfold Book.put
  split
  · rw [AList.lookup_erase]
  · rw [AList.lookup_insert]

theorem Book.entriesOf_put (book : Book Owner) (owner : Owner) (entries : List (Entry Owner)) :
    Book.entriesOf (Book.put book owner entries) owner = entries := by
  unfold Book.entriesOf
  rw [Book.lookup_put]
  split
  · rename_i hempty
    rw [Option.getD_none, List.isEmpty_iff.mp hempty]
  · rfl

theorem Book.entriesOf_put_ne (book : Book Owner) {owner k : Owner}
    (entries : List (Entry Owner)) (h : k ≠ owner) :
    Book.entriesOf (Book.put book owner entries) k = Book.entriesOf book k := by
  unfold Book.entriesOf
  rw [Book.lookup_put_ne book entries h]

theorem Book.held_insert (book : Book Owner) (owner : Owner) (entries : List (Entry Owner)) :
    Book.held (book.insert owner entries) + sumOf ((book.lookup owner).getD []) =
      Book.held book + sumOf entries := by
  have h := HashMap.total_erase sumOf book owner
  have hl : (book.lookup owner).elim 0 sumOf = sumOf ((book.lookup owner).getD []) := by
    cases book.lookup owner with
    | none => rfl
    | some es => rfl
  rw [hl] at h
  unfold Book.held
  rw [HashMap.total_insert]
  omega

/-- A list without entries holds nothing, so dropping it changes nothing. -/
theorem Book.held_put (book : Book Owner) (owner : Owner) (entries : List (Entry Owner)) :
    Book.held (Book.put book owner entries) + sumOf (Book.entriesOf book owner) =
      Book.held book + sumOf entries := by
  have hins := Book.held_insert book owner entries
  unfold Book.put Book.entriesOf
  split
  · rename_i hempty
    have h := HashMap.total_erase sumOf (book.insert owner entries) owner
    rw [AList.lookup_insert, Option.elim_some, List.isEmpty_iff.mp hempty, sumOf_nil] at h
    rw [List.isEmpty_iff.mp hempty] at hins ⊢
    unfold Book.held at hins ⊢
    omega
  · exact hins

/-- A withdrawal takes its amount out of the book. -/
theorem Book.held_taken {book : Book Owner} {epoch : UInt64} {owner : Owner} {amount : UInt64}
    (hcov : amount ≤ unlockedTotal epoch (Book.entriesOf book owner)) :
    Book.held (Book.put book owner
      (takeUnlocked epoch (Book.entriesOf book owner) amount 0).1) + amount.toNat =
        Book.held book := by
  have hput := Book.held_put book owner
    (takeUnlocked epoch (Book.entriesOf book owner) amount 0).1
  have hsum := (takeUnlocked_covered hcov).2
  omega

/-- Everything a withdrawal can come to. -/
inductive Takes (book : Book Owner) (total epoch : UInt64) (owner : Owner) (amount : UInt64) :
    Book Owner × UInt64 × Except StakingError Unit → Prop
  | refused {e : StakingError} :
      amount = 0 ∨ book.lookup owner = none ∨
        unlockedTotal epoch (Book.entriesOf book owner) < amount →
      Takes book total epoch owner amount (book, total, .error e)
  | taken : amount ≠ 0 → amount ≤ unlockedTotal epoch (Book.entriesOf book owner) →
      Takes book total epoch owner amount
        (Book.put book owner (takeUnlocked epoch (Book.entriesOf book owner) amount 0).1,
          total - amount, .ok ())

theorem Book.withdraw_takes (book : Book Owner) (total epoch : UInt64) (owner : Owner)
    (amount : UInt64) (notFound : StakingError) :
    Takes book total epoch owner amount (book.withdraw total epoch owner amount notFound) := by
  unfold Book.withdraw
  split
  · rename_i hzero
    exact .refused (Or.inl hzero)
  rename_i hne
  cases hl : book.lookup owner with
  | none => exact .refused (Or.inr (Or.inl hl))
  | some entries =>
    have hentries : Book.entriesOf book owner = entries := by
      unfold Book.entriesOf
      rw [hl]
      rfl
    dsimp only
    split
    · rename_i hlt
      refine .refused (Or.inr (Or.inr ?_))
      rw [hentries]
      exact hlt
    · rename_i hge
      have hcov : amount ≤ unlockedTotal epoch entries := UInt64.not_lt.mp hge
      rw [(takeUnlocked_covered hcov).1]
      rw [← hentries] at hcov ⊢
      exact .taken hne hcov

end Book

/-! ## Unstaking -/

theorem unstake_takes (pool : StakingPool) (k : PublicKey) (amount : UInt64) :
    Takes pool.entries pool.totalStaked pool.currentEpoch k amount
      ((pool.unstake k amount).1.entries, (pool.unstake k amount).1.totalStaked,
        (pool.unstake k amount).2) :=
  Book.withdraw_takes pool.entries pool.totalStaked pool.currentEpoch k amount .noStakeFound

/-- Unstaking leaves the pool alone, or takes the amount from the unlocked entries of the key and
from the total. -/
theorem unstake_cases (pool : StakingPool) (k : PublicKey) {amount : UInt64} (hne : amount ≠ 0) :
    (unlockedTotal pool.currentEpoch (Book.entriesOf pool.entries k) < amount ∧
      (pool.unstake k amount).1 = pool) ∨
    (amount ≤ unlockedTotal pool.currentEpoch (Book.entriesOf pool.entries k) ∧
      (pool.unstake k amount).1 =
        { pool with
          entries := Book.put pool.entries k
            (takeUnlocked pool.currentEpoch (Book.entriesOf pool.entries k) amount 0).1
          totalStaked := pool.totalStaked - amount }) := by
  have ht := Book.withdraw_takes pool.entries pool.totalStaked pool.currentEpoch k amount
    .noStakeFound
  unfold StakingPool.unstake
  generalize pool.entries.withdraw pool.totalStaked pool.currentEpoch k amount .noStakeFound = r
    at ht ⊢
  cases ht with
  | refused hwhy =>
    refine Or.inl ⟨?_, rfl⟩
    rcases hwhy with hzero | hnone | hlt
    · exact absurd hzero hne
    · -- no list holds no amount
      unfold Book.entriesOf
      rw [hnone]
      exact UInt64.pos_iff_ne_zero.mpr hne
    · exact hlt
  | taken _ hcov => exact Or.inr ⟨hcov, rfl⟩

theorem unstake_lookup_ne (pool : StakingPool) {k k' : PublicKey} (amount : UInt64)
    (h : k' ≠ k) : (pool.unstake k amount).1.entries.lookup k' = pool.entries.lookup k' := by
  by_cases hne : amount = 0
  · subst hne
    rfl
  · rcases unstake_cases pool k hne with ⟨-, hsame⟩ | ⟨-, htaken⟩
    · rw [hsame]
    · rw [htaken]
      exact Book.lookup_put_ne _ _ h

end Staking

end Trv1Chain
