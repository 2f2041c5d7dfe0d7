import Trv1Chain.Proof.Withdrawal

/-!
# Earliest unlocked entries first

`unstake` and `undelegate` walk one vector with an index, delete at the index while they hold on to
it, and step over what is locked. `removalLoop` is that loop; it ends, because a turn brings the
index and the end of the vector closer or empties the amount, and it leaves what the recursion over
the list leaves (`removalLoop_eq`).

What it leaves: the locked entries as they were, and the unlocked ones without a first part that
adds up to the amount, the last of which may be kept in part.
-/

set_option autoImplicit false

namespace Trv1Chain

open Lib

namespace Staking

section Book

variable {Owner : Type}

/-! ## The loop -/

/-- The removal loop on the vector, at index `i`. -/
def removalLoop (epoch : UInt64) (entries : List (Entry Owner)) (i : Nat)
    (amount removed : UInt64) : List (Entry Owner) × UInt64 :=
  if h : amount > 0 ∧ i < entries.length then
    if isUnlocked (entries[i]).unlockEpoch epoch then
      if (entries[i]).amount ≤ amount then
        removalLoop epoch (entries.eraseIdx i) i (amount - (entries[i]).amount)
          (removed + (entries[i]).amount)
      else
        removalLoop epoch
          (entries.set i { entries[i] with amount := (entries[i]).amount - amount }) i 0
          (removed + amount)
    else removalLoop epoch entries (i + 1) amount removed
  else (entries, removed)
termination_by (entries.length - i, amount.toNat)
decreasing_by
  · rw [List.length_eraseIdx_of_lt h.2]
    exact Prod.Lex.left _ _ (by omega)
  · rw [List.length_set]
    exact Prod.Lex.right _ (UInt64.lt_iff_toNat_lt.mp h.1)
  · exact Prod.Lex.left _ _ (by omega)

/-- With nothing left to take the loop is over. -/
theorem removalLoop_zero (epoch : UInt64) (entries : List (Entry Owner)) (i : Nat)
    (removed : UInt64) : removalLoop epoch entries i 0 removed = (entries, removed) := by
  rw [removalLoop, dif_neg]
  rintro ⟨hpos, -⟩
  exact UInt64.lt_irrefl _ hpos

/-- The entries before the index are done with; on the rest the loop is the recursion. -/
theorem removalLoop_append (epoch : UInt64) : ∀ (rest done : List (Entry Owner))
    (amount removed : UInt64),
    removalLoop epoch (done ++ rest) done.length amount removed =
      (done ++ (takeUnlocked epoch rest amount removed).1,
        (takeUnlocked epoch rest amount removed).2) := by
  intro rest
  induction rest with
  | nil =>
    intro done amount removed
    rw [removalLoop, dif_neg (by simp)]
    rfl
  | cons e rest ih =>
    intro done amount removed
    have hin : done.length < (done ++ e :: rest).length := by simp
    have hget : (done ++ e :: rest)[done.length] = e := by simp
    unfold takeUnlocked
    by_cases hpos : amount > 0
    · rw [removalLoop, dif_pos ⟨hpos, hin⟩, if_pos hpos, hget]
      split
      · split
        · have herase : (done ++ e :: rest).eraseIdx done.length = done ++ rest := by
            rw [List.eraseIdx_append_of_length_le (Nat.le_refl _), Nat.sub_self]
            rfl
          rw [herase]
          exact ih done _ _
        · have hset : ∀ e' : Entry Owner,
              (done ++ e :: rest).set done.length e' = done ++ e' :: rest := by
            intro e'
            rw [List.set_append_right _ _ (Nat.le_refl _), Nat.sub_self]
            rfl
          rw [hset, removalLoop_zero]
      · -- a locked entry joins those the loop is done with
        have hnext := ih (done ++ [e]) amount removed
        rw [List.append_assoc, List.append_assoc, List.length_append] at hnext
        exact hnext
    · have hzero : amount = 0 := UInt64.le_zero_iff.mp (UInt64.not_lt.mp hpos)
      subst hzero
      rw [removalLoop_zero, if_neg hpos]

theorem removalLoop_eq (epoch : UInt64) (entries : List (Entry Owner)) (amount : UInt64) :
    removalLoop epoch entries 0 amount 0 = takeUnlocked epoch entries amount 0 :=
  removalLoop_append epoch entries [] amount 0

/-! ## What it leaves -/

def unlockedOf (epoch : UInt64) (entries : List (Entry Owner)) : List (Entry Owner) :=
  entries.filter fun e => isUnlocked e.unlockEpoch epoch

def lockedOf (epoch : UInt64) (entries : List (Entry Owner)) : List (Entry Owner) :=
  entries.filter fun e => !isUnlocked e.unlockEpoch epoch

theorem unlockedOf_cons (epoch : UInt64) (e : Entry Owner) (entries : List (Entry Owner)) :
    unlockedOf epoch (e :: entries) =
      if isUnlocked e.unlockEpoch epoch then e :: unlockedOf epoch entries
      else unlockedOf epoch entries := List.filter_cons

theorem lockedOf_cons (epoch : UInt64) (e : Entry Owner) (entries : List (Entry Owner)) :
    lockedOf epoch (e :: entries) =
      if isUnlocked e.unlockEpoch epoch then lockedOf epoch entries
      else e :: lockedOf epoch entries := by
  unfold lockedOf
  rw [List.filter_cons]
  cases isUnlocked e.unlockEpoch epoch <;> rfl

/-- The unlocked entries lose `amount`: a first part of them goes, and the next one may be kept
with a positive remainder. -/
inductive LosesFirst (amount : Nat) : List (Entry Owner) → List (Entry Owner) → Prop
  | whole {gone left : List (Entry Owner)} : sumOf gone = amount →
      LosesFirst amount (gone ++ left) left
  | part {gone left : List (Entry Owner)} {e : Entry Owner} {remainder : UInt64} :
      0 < remainder → sumOf gone + e.amount.toNat = amount + remainder.toNat →
      LosesFirst amount (gone ++ e :: left) ({ e with amount := remainder } :: left)

theorem LosesFirst.cons {amount amount' : Nat} {entries entries' : List (Entry Owner)}
    {e : Entry Owner} (h : LosesFirst amount' entries entries')
    (heq : e.amount.toNat + amount' = amount) : LosesFirst amount (e :: entries) entries' := by
  cases h with
  | @whole gone left hsum =>
    apply @LosesFirst.whole _ _ (e :: gone)
    rw [sumOf_cons]
    omega
  | @part gone left e' remainder hpos hsum =>
    apply @LosesFirst.part _ _ (e :: gone) _ _ _ hpos
    rw [sumOf_cons]
    omega

/-- The entries of an owner after a withdrawal of `amount`. -/
structure TakesFirst (epoch : UInt64) (amount : Nat) (entries entries' : List (Entry Owner)) :
    Prop where
  locked : lockedOf epoch entries' = lockedOf epoch entries
  unlocked : LosesFirst amount (unlockedOf epoch entries) (unlockedOf epoch entries')

theorem takesFirst_zero (epoch : UInt64) (entries : List (Entry Owner)) :
    TakesFirst epoch 0 entries entries :=
  ⟨rfl, @LosesFirst.whole _ _ [] _ rfl⟩

/-- A locked entry in front stays there. -/
theorem TakesFirst.skip {epoch : UInt64} {amount : Nat} {entries entries' : List (Entry Owner)}
    {e : Entry Owner} (h : TakesFirst epoch amount entries entries')
    (he : ¬ isUnlocked e.unlockEpoch epoch = true) :
    TakesFirst epoch amount (e :: entries) (e :: entries') := by
  refine ⟨?_, ?_⟩
  · rw [lockedOf_cons, lockedOf_cons, if_neg he, if_neg he, h.locked]
  · rw [unlockedOf_cons, unlockedOf_cons, if_neg he, if_neg he]
    exact h.unlocked

/-- An unlocked entry in front goes. -/
theorem TakesFirst.drop {epoch : UInt64} {amount amount' : Nat}
    {entries entries' : List (Entry Owner)} {e : Entry Owner}
    (h : TakesFirst epoch amount' entries entries')
    (he : isUnlocked e.unlockEpoch epoch = true) (heq : e.amount.toNat + amount' = amount) :
    TakesFirst epoch amount (e :: entries) entries' := by
  refine ⟨?_, ?_⟩
  · rw [lockedOf_cons, if_pos he, h.locked]
  · rw [unlockedOf_cons, if_pos he]
    exact h.unlocked.cons heq

/-- An unlocked entry in front is kept in part, and the rest is left alone. -/
theorem takesFirst_part {epoch : UInt64} {amount : Nat} {e : Entry Owner} {remainder : UInt64}
    (entries : List (Entry Owner)) (he : isUnlocked e.unlockEpoch epoch = true)
    (hpos : 0 < remainder) (hsum : e.amount.toNat = amount + remainder.toNat) :
    TakesFirst epoch amount (e :: entries) ({ e with amount := remainder } :: entries) := by
  refine ⟨?_, ?_⟩
  · rw [lockedOf_cons, lockedOf_cons, if_pos he, if_pos he]
  · rw [unlockedOf_cons, unlockedOf_cons, if_pos he, if_pos he]
    apply @LosesFirst.part _ _ [] _ _ _ hpos
    rw [sumOf_nil, Nat.zero_add, hsum]

/-- **The removal takes the amount from the earliest unlocked entries.** -/
theorem takeUnlocked_takesFirst (epoch : UInt64) : ∀ (entries : List (Entry Owner))
    (amount removed : UInt64), amount.toNat ≤ sumOf (unlockedOf epoch entries) →
    TakesFirst epoch amount.toNat entries (takeUnlocked epoch entries amount removed).1 := by
  intro entries
  induction entries with
  | nil =>
    intro amount removed hle
    have hzero : amount.toNat = 0 := Nat.le_zero.mp hle
    rw [hzero]
    exact takesFirst_zero epoch []
  | cons e rest ih =>
    intro amount removed hle
    unfold takeUnlocked
    by_cases hpos : amount > 0
    · rw [if_pos hpos]
      by_cases hun : isUnlocked e.unlockEpoch epoch = true
      · rw [unlockedOf_cons, if_pos hun, sumOf_cons] at hle
        rw [if_pos hun]
        by_cases hwhole : e.amount ≤ amount
        · have hsub := UInt64.toNat_sub_of_le _ _ hwhole
          have hnat := UInt64.le_iff_toNat_le.mp hwhole
          rw [if_pos hwhole]
          exact (ih (amount - e.amount) (removed + e.amount) (by omega)).drop hun (by omega)
        · have hlt := UInt64.not_le.mp hwhole
          have hle' := UInt64.le_of_lt hlt
          have hsub := UInt64.toNat_sub_of_le _ _ hle'
          have hnat := UInt64.lt_iff_toNat_lt.mp hlt
          rw [if_neg hwhole]
          refine takesFirst_part rest hun ?_ (by omega)
          rw [UInt64.lt_iff_toNat_lt, hsub]
          show 0 < _
          omega
      · rw [unlockedOf_cons, if_neg hun] at hle
        rw [if_neg hun]
        exact (ih amount removed hle).skip hun
    · have hzero : amount = 0 := UInt64.le_zero_iff.mp (UInt64.not_lt.mp hpos)
      subst hzero
      rw [if_neg hpos]
      exact takesFirst_zero epoch (e :: rest)

/-! ## One book -/

/-- Below 64 bits the sum the code takes of the unlocked entries is exact. -/
theorem toNat_unlockedTotal (epoch : UInt64) {entries : List (Entry Owner)}
    (hfit : sumOf entries < 2 ^ 64) :
    (unlockedTotal epoch entries).toNat = sumOf (unlockedOf epoch entries) := by
  have hle : sumOf (unlockedOf epoch entries) ≤ sumOf entries := by
    induction entries with
    | nil => exact Nat.le_refl _
    | cons e rest ih =>
      rw [sumOf_cons] at hfit ⊢
      have := ih (by omega)
      rw [unlockedOf_cons]
      split
      · rw [sumOf_cons]
        omega
      · omega
  unfold unlockedTotal
  rw [toNat_sum, List.map_map]
  exact Nat.mod_eq_of_lt (Nat.lt_of_le_of_lt hle hfit)

variable [DecidableEq Owner]

/-- What a withdrawal of `amount` from the entries of `owner` comes to. -/
structure Withdrawal (book : Book Owner) (epoch : UInt64) (owner : Owner) (amount : UInt64)
    (book' : Book Owner) (result : Except StakingError Unit) : Prop where
  succeeds : result = .ok () ↔ 0 < amount ∧ (book.lookup owner).isSome = true ∧
    amount.toNat ≤ sumOf (unlockedOf epoch (Book.entriesOf book owner))
  taken : result = .ok () → TakesFirst epoch amount.toNat (Book.entriesOf book owner)
    (Book.entriesOf book' owner)
  emptied : result = .ok () → book'.lookup owner ≠ some []
  others : ∀ k, k ≠ owner → book'.lookup k = book.lookup k
  refused : result ≠ .ok () → book' = book

theorem Book.withdraw_withdrawal {book : Book Owner} {owner : Owner}
    (hfit : sumOf (Book.entriesOf book owner) < 2 ^ 64) (total epoch amount : UInt64)
    (notFound : StakingError) :
    Withdrawal book epoch owner amount (book.withdraw total epoch owner amount notFound).1
      (book.withdraw total epoch owner amount notFound).2.2 := by
  have htotal := toNat_unlockedTotal epoch hfit
  have ht := book.withdraw_takes total epoch owner amount notFound
  generalize book.withdraw total epoch owner amount notFound = r at ht ⊢
  cases ht with
  | refused hwhy =>
    refine ⟨iff_of_false (by simp) ?_, by simp, by simp, fun _ _ => rfl, fun _ => rfl⟩
    rintro ⟨hpos, hsome, hle⟩
    rcases hwhy with rfl | hnone | hlt
    · exact UInt64.lt_irrefl _ hpos
    · rw [hnone] at hsome
      cases hsome
    · rw [UInt64.lt_iff_toNat_lt, htotal] at hlt
      omega
  | taken hne hcov =>
    rw [UInt64.le_iff_toNat_le, htotal] at hcov
    have hsome : (book.lookup owner).isSome = true := by
      -- an owner without a list has nothing to cover the amount with
      cases hl : book.lookup owner with
      | some _ => rfl
      | none =>
        unfold Book.entriesOf at hcov
        rw [hl] at hcov
        exact absurd (UInt64.toNat_inj.mp (Nat.le_zero.mp hcov)) hne
    have hpos : 0 < amount := UInt64.pos_iff_ne_zero.mpr hne
    refine ⟨iff_of_true rfl ⟨hpos, hsome, hcov⟩, fun _ => ?_, fun _ => ?_, ?_, by simp⟩
    · rw [Book.entriesOf_put]
      exact takeUnlocked_takesFirst epoch _ amount 0 hcov
    · dsimp only
      rw [Book.lookup_put]
      split
      · exact nofun
      · rename_i hempty
        intro heq
        rw [Option.some.inj heq] at hempty
        exact hempty rfl
    · intro k hk
      exact Book.lookup_put_ne book _ hk

theorem Book.withdraw_refused {book : Book Owner} {total epoch amount : UInt64} {owner : Owner}
    {notFound : StakingError} (h : (book.withdraw total epoch owner amount notFound).2.2 ≠ .ok ()) :
    (book.withdraw total epoch owner amount notFound).1 = book ∧
      (book.withdraw total epoch owner amount notFound).2.1 = total := by
  have ht := book.withdraw_takes total epoch owner amount notFound
  generalize book.withdraw total epoch owner amount notFound = r at ht h ⊢
  cases ht with
  | refused _ => exact ⟨rfl, rfl⟩
  | taken _ _ => exact absurd rfl h

end Book

/-! ## The pool -/

namespace StakingPool

/-- **A withdrawal takes exactly the requested amount, earliest unlocked entries first.** From a
list that sums below 64 bits, `unstake` and `undelegate` succeed exactly if something is asked for
and the unlocked entries of the list hold it. Then the locked entries are as they were, the unlocked
ones lose the amount from the front, a list that comes out empty is dropped, and no other owner
notices; otherwise nothing changes. The loop on the vector does what the list recursion does. -/
theorem withdraws_earliest_first (pool : StakingPool) :
    (∀ (staker : PublicKey) (amount : UInt64),
      sumOf (Book.entriesOf pool.entries staker) < 2 ^ 64 →
      Withdrawal pool.entries pool.currentEpoch staker amount
        (pool.unstake staker amount).1.entries (pool.unstake staker amount).2 ∧
      (pool.unstake staker amount).1.delegations = pool.delegations ∧
      ((pool.unstake staker amount).2 ≠ .ok () → (pool.unstake staker amount).1 = pool)) ∧
    (∀ (delegator validator : PublicKey) (amount : UInt64),
      sumOf (Book.entriesOf pool.delegations (delegator, validator)) < 2 ^ 64 →
      Withdrawal pool.delegations pool.currentEpoch (delegator, validator) amount
        (pool.undelegate delegator validator amount).1.delegations
        (pool.undelegate delegator validator amount).2 ∧
      (pool.undelegate delegator validator amount).1.entries = pool.entries ∧
      ((pool.undelegate delegator validator amount).2 ≠ .ok () →
        (pool.undelegate delegator validator amount).1 = pool)) ∧
    ∀ {Owner : Type} (epoch : UInt64) (entries : List (Entry Owner)) (amount : UInt64),
      removalLoop epoch entries 0 amount 0 = takeUnlocked epoch entries amount 0 := by
  refine ⟨?_, ?_, fun epoch entries amount => removalLoop_eq epoch entries amount⟩
  · intro staker amount hfit
    refine ⟨Book.withdraw_withdrawal hfit pool.totalStaked pool.currentEpoch amount .noStakeFound,
      rfl, ?_⟩
    intro hrefused
    obtain ⟨hbook, htotal⟩ := Book.withdraw_refused hrefused
    unfold unstake
    dsimp only
    rw [hbook, htotal]
  · intro delegator validator amount hfit
    refine ⟨Book.withdraw_withdrawal hfit pool.totalStaked pool.currentEpoch amount
      .noDelegationFound, rfl, ?_⟩
    intro hrefused
    obtain ⟨hbook, htotal⟩ := Book.withdraw_refused hrefused
    unfold undelegate
    dsimp only
    rw [hbook, htotal]

/-- Two unlocked stakes with a locked one between them. -/
def mixedPool : StakingPool :=
  ((((new.stake (Bytes.fill 32 1) 500 .noLock).1.stake (Bytes.fill 32 1) 30 .thirtyDay).1.stake
    (Bytes.fill 32 1) 70 .delegator).1)

/-- The first goes, the second is kept in part. -/
theorem withdraws_earliest_first_mixed :
    (mixedPool.unstake (Bytes.fill 32 1) 510).2 = .ok () ∧
      (Book.entriesOf (mixedPool.unstake (Bytes.fill 32 1) 510).1.entries
        (Bytes.fill 32 1)).map (fun e => e.amount) = [30, 60] ∧
      TakesFirst 0 510 (Book.entriesOf mixedPool.entries (Bytes.fill 32 1))
        (Book.entriesOf (mixedPool.unstake (Bytes.fill 32 1) 510).1.entries
          (Bytes.fill 32 1)) := by
  have h := ((withdraws_earliest_first mixedPool).1 (Bytes.fill 32 1) 510 (by decide +kernel)).1
  have hok := h.succeeds.mpr (by decide +kernel)
  exact ⟨hok, by decide +kernel, h.taken hok⟩

end StakingPool

end Staking

end Trv1Chain
