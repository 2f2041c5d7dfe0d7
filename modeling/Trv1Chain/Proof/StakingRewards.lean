import Trv1Chain.Proof.StakingTotal
import Trv1Chain.Staking.Rewards

/-!
# What a stake earns

The formula of `calculate_reward` is exact on natural numbers. The code is exact as long as the
numerator is below 2 ^ 128, where the last product panics, and the quotient below 2 ^ 64, where the
cast starts anew from zero.

Over a single epoch neither end is near, whatever the stake: a reward is a small part of it. So the
rewards of an epoch are exact, and all of them together are at most the permanent tier's rate on the
staking total.
-/

set_option autoImplicit false

namespace Trv1Chain

open Lib

namespace Staking

/-- The numerator of the formula, exact. -/
def rewardNumerator (amount : UInt64) (tier : LockTier) (epochs : UInt64) : Nat :=
  amount.toNat * 500 * tier.ratePct.toNat * epochs.toNat

/-- The formula, exact. -/
def exactReward (amount : UInt64) (tier : LockTier) (epochs : UInt64) : Nat :=
  rewardNumerator amount tier epochs / 365000000

theorem LockTier.ratePct_le (tier : LockTier) : tier.ratePct.toNat ≤ 120 := by
  cases tier <;> decide

/-- **What `calculate_reward` computes**, on any input. -/
theorem calculateReward_eq (amount : UInt64) (tier : LockTier) (epochs : UInt64) :
    calculateReward amount tier epochs =
      if rewardNumerator amount tier epochs < 2 ^ 128 then
        some (UInt64.ofNat (exactReward amount tier epochs))
      else none := by
  have hamount := amount.toNat_lt
  have hrate := tier.ratePct_le
  have hbase : baseApyBps.toNat = 500 := rfl
  have hyear : 100 * 10000 * epochsPerYear.toNat = 365000000 := rfl
  -- the first two products are far from the end of the range
  have hfirst : amount.toNat * 500 < 2 ^ 128 := by omega
  have hsecond : amount.toNat * 500 * tier.ratePct.toNat < 2 ^ 128 := by
    have := Nat.mul_le_mul_left (amount.toNat * 500) hrate
    omega
  unfold calculateReward checkedMul128
  split
  · rename_i hzero
    have hnone : rewardNumerator amount tier epochs = 0 := by
      unfold rewardNumerator
      rcases hzero with rfl | rfl
      · simp
      · simp
    unfold exactReward
    rw [hnone, if_pos (by decide)]
    rfl
  · rw [hbase, if_pos hfirst, Option.bind_eq_bind, Option.bind_some, if_pos hsecond,
      Option.bind_some, hyear]
    show (if rewardNumerator amount tier epochs < 2 ^ 128 then
      some (rewardNumerator amount tier epochs) else none).bind _ = _
    split
    · rfl
    · rfl

/-- The numerator fits 128 bits and the reward 64; or the cast happens to leave the largest word. -/
def RewardFits (amount : UInt64) (tier : LockTier) (epochs : UInt64) : Prop :=
  rewardNumerator amount tier epochs < 2 ^ 128 ∧
    (exactReward amount tier epochs < 2 ^ 64 ∨
      exactReward amount tier epochs % 2 ^ 64 = 2 ^ 64 - 1)

instance (amount : UInt64) (tier : LockTier) (epochs : UInt64) :
    Decidable (RewardFits amount tier epochs) := inferInstanceAs (Decidable (_ ∧ (_ ∨ _)))

theorem exactReward_mono {amount amount' epochs epochs' : UInt64} {tier tier' : LockTier}
    (hamount : amount ≤ amount') (htier : tier.ratePct ≤ tier'.ratePct)
    (hepochs : epochs ≤ epochs') :
    exactReward amount tier epochs ≤ exactReward amount' tier' epochs' := by
  have hamount := UInt64.le_iff_toNat_le.mp hamount
  have htier := UInt64.le_iff_toNat_le.mp htier
  have hepochs := UInt64.le_iff_toNat_le.mp hepochs
  apply Nat.div_le_div_right
  exact Nat.mul_le_mul (Nat.mul_le_mul (Nat.mul_le_mul_right 500 hamount) htier) hepochs

/-- The code answers the formula, capped, exactly on the inputs that fit. -/
theorem calculateReward_iff (amount : UInt64) (tier : LockTier) (epochs : UInt64) :
    (∃ reward, calculateReward amount tier epochs = some reward ∧
        reward.toNat = min (exactReward amount tier epochs) (2 ^ 64 - 1)) ↔
      RewardFits amount tier epochs := by
  rw [calculateReward_eq]
  unfold RewardFits
  constructor
  · rintro ⟨reward, hreward, hvalue⟩
    split at hreward
    · rename_i hnum
      cases hreward
      rw [UInt64.toNat_ofNat'] at hvalue
      refine ⟨hnum, ?_⟩
      by_cases hfit : exactReward amount tier epochs < 2 ^ 64
      · exact Or.inl hfit
      · exact Or.inr (by omega)
    · cases hreward
  · rintro ⟨hnum, hcase⟩
    refine ⟨_, if_pos hnum, ?_⟩
    rw [UInt64.toNat_ofNat']
    omega

/-- **Rewards are exact** on an input exactly if it fits, and where they are they do not fall with
the amount, the rate or the time. -/
theorem rewards_exact_iff (amount : UInt64) (tier : LockTier) (epochs : UInt64) :
    ((∃ reward, calculateReward amount tier epochs = some reward ∧
        reward.toNat = min (exactReward amount tier epochs) (2 ^ 64 - 1)) ↔
      RewardFits amount tier epochs) ∧
    ∀ (amount' : UInt64) (tier' : LockTier) (epochs' : UInt64), amount ≤ amount' →
      tier.ratePct ≤ tier'.ratePct → epochs ≤ epochs' → RewardFits amount tier epochs →
      RewardFits amount' tier' epochs' →
      ∃ reward reward', calculateReward amount tier epochs = some reward ∧
        calculateReward amount' tier' epochs' = some reward' ∧ reward ≤ reward' := by
  refine ⟨calculateReward_iff amount tier epochs, ?_⟩
  intro amount' tier' epochs' hamount htier hepochs hfits hfits'
  obtain ⟨reward, hreward, hvalue⟩ := (calculateReward_iff amount tier epochs).mpr hfits
  obtain ⟨reward', hreward', hvalue'⟩ := (calculateReward_iff amount' tier' epochs').mpr hfits'
  refine ⟨reward, reward', hreward, hreward', ?_⟩
  have hmono := exactReward_mono hamount htier hepochs
  rw [UInt64.le_iff_toNat_le, hvalue, hvalue']
  omega

/-- A year of ten million at the top rate, and a day less of a lower one. -/
theorem rewards_exact_iff_year :
    ∃ reward reward', calculateReward 9000000 .delegator 364 = some reward ∧
      calculateReward 10000000 .permanent 365 = some reward' ∧ reward ≤ reward' :=
  (rewards_exact_iff 9000000 .delegator 364).2 10000000 .permanent 365 (by decide) (by decide)
    (by decide) (by decide) (by decide)

/-- **A reward that panics, and one that shrinks with time.** The largest amount in the permanent
tier earns nearly 2 ^ 64 in 6083 epochs and next to nothing in 6084, where the quotient passes 64
bits; over the largest number of epochs the numerator passes 128. -/
theorem rewards_wrap :
    calculateReward 18446744073709551615 .permanent 18446744073709551615 = none ∧
      calculateReward 18446744073709551615 .permanent 6083 = some 18445733293212362050 ∧
      calculateReward 18446744073709551615 .permanent 6084 = some 2021560994379127 ∧
      exactReward 18446744073709551615 .permanent 6084 = 2 ^ 64 + 2021560994379127 := by
  decide +kernel

/-! ## One epoch -/

section Book

variable {Owner : Type}

/-- The exact reward of some entries for one epoch, each rounded down by itself. -/
def earned (entries : List (Entry Owner)) : Nat :=
  (entries.map fun e => exactReward e.amount e.lockTier 1).sum

theorem rewardNumerator_one_le (amount : UInt64) (tier : LockTier) :
    rewardNumerator amount tier 1 ≤ 60000 * amount.toNat := by
  have hrate := Nat.mul_le_mul_left (amount.toNat * 500) tier.ratePct_le
  have hnum : rewardNumerator amount tier 1 = amount.toNat * 500 * tier.ratePct.toNat :=
    Nat.mul_one _
  omega

theorem exactReward_one_le (amount : UInt64) (tier : LockTier) :
    365000000 * exactReward amount tier 1 ≤ 60000 * amount.toNat :=
  (Nat.mul_div_le _ _).trans (rewardNumerator_one_le amount tier)

/-- What some entries earn is a small part of what they hold. -/
theorem earned_le (entries : List (Entry Owner)) :
    365000000 * earned entries ≤ 60000 * sumOf entries := by
  induction entries with
  | nil => exact Nat.le_refl _
  | cons e entries ih =>
    have hhead := exactReward_one_le e.amount e.lockTier
    have hcons : earned (e :: entries) = exactReward e.amount e.lockTier 1 + earned entries := rfl
    rw [hcons, sumOf_cons]
    omega

theorem earned_lt {entries : List (Entry Owner)} (hfit : sumOf entries < 2 ^ 64) :
    earned entries < 2 ^ 64 := by
  have hle := earned_le entries
  omega

/-- Over one epoch the formula never leaves its range. -/
theorem calculateEpochReward_eq (amount : UInt64) (tier : LockTier) :
    calculateEpochReward amount tier = some (UInt64.ofNat (exactReward amount tier 1)) := by
  have hamount := amount.toNat_lt
  have hnum := rewardNumerator_one_le amount tier
  unfold calculateEpochReward
  rw [calculateReward_eq, if_pos (by omega)]

theorem totalReward_eq {entries : List (Entry Owner)} (hfit : sumOf entries < 2 ^ 64) :
    ∃ reward, totalReward entries = some reward ∧ reward.toNat = earned entries := by
  have hmap : (entries.mapM fun e => calculateEpochReward e.amount e.lockTier) =
      some (entries.map fun e => UInt64.ofNat (exactReward e.amount e.lockTier 1)) := by
    simp only [calculateEpochReward_eq]
    exact List.mapM_pure
  refine ⟨_, by rw [totalReward, hmap]; rfl, ?_⟩
  have heach : ∀ e ∈ entries, (UInt64.ofNat (exactReward e.amount e.lockTier 1)).toNat =
      exactReward e.amount e.lockTier 1 := by
    intro e _
    have hle := exactReward_one_le e.amount e.lockTier
    have hlt := e.amount.toNat_lt
    exact UInt64.toNat_ofNat_of_lt' (show _ < 2 ^ 64 by omega)
  have hexact : (entries.map fun e => UInt64.ofNat (exactReward e.amount e.lockTier 1)).map
      UInt64.toNat = entries.map fun e => exactReward e.amount e.lockTier 1 := by
    rw [List.map_map]
    exact List.map_congr_left heach
  rw [toNat_sum, hexact]
  exact Nat.mod_eq_of_lt (earned_lt hfit)

/-- What a list of rewards pays to the keys in `who`. -/
def paid (who : PublicKey → Bool) (rewards : List (PublicKey × UInt64)) : Nat :=
  ((rewards.filter fun r => who r.1).map fun r => r.2.toNat).sum

/-- What the owners earn whose `earner` is in `who`. -/
def earnedBy (earner : Owner → PublicKey) (who : PublicKey → Bool)
    (l : List (Sigma fun _ : Owner => List (Entry Owner))) : Nat :=
  ((l.filter fun d => who (earner d.1)).map fun d => earned d.2).sum

/-- One pass pays exactly what is earned: what is left out is zero. -/
theorem payRewards_eq (earner : Owner → PublicKey) :
    ∀ {l : List (Sigma fun _ : Owner => List (Entry Owner))}, (∀ d ∈ l, sumOf d.2 < 2 ^ 64) →
      ∃ rewards, payRewards earner l = some rewards ∧
        ∀ who, paid who rewards = earnedBy earner who l := by
  intro l
  induction l with
  | nil => exact fun _ => ⟨[], rfl, fun _ => rfl⟩
  | cons d l ih =>
    intro hfit
    obtain ⟨reward, hreward, hvalue⟩ := totalReward_eq (hfit d List.mem_cons_self)
    obtain ⟨rewards, hrewards, hpaid⟩ := ih fun d hd => hfit d (List.mem_cons_of_mem _ hd)
    refine ⟨_, by rw [payRewards, hreward, hrewards]; rfl, fun who => ?_⟩
    have hhead : earnedBy earner who (d :: l) =
        (if who (earner d.1) then earned d.2 else 0) + earnedBy earner who l := by
      unfold earnedBy
      rw [List.filter_cons]
      split
      · rfl
      · exact (Nat.zero_add _).symm
    rw [hhead, ← hpaid who, ← hvalue]
    by_cases hpos : reward > 0
    · rw [if_pos hpos]
      unfold paid
      rw [List.filter_cons]
      split
      · rfl
      · exact (Nat.zero_add _).symm
    · have hzero : reward = 0 := UInt64.le_zero_iff.mp (UInt64.not_lt.mp hpos)
      rw [if_neg hpos, hzero]
      simp

theorem earnedBy_perm (earner : Owner → PublicKey) (who : PublicKey → Bool)
    {l l' : List (Sigma fun _ : Owner => List (Entry Owner))} (h : l.Perm l') :
    earnedBy earner who l = earnedBy earner who l' :=
  ((h.filter _).map _).sum_nat

/-- All owners of a book together. -/
theorem earnedBy_all_le (earner : Owner → PublicKey) [DecidableEq Owner] (book : Book Owner) :
    365000000 * earnedBy earner (fun _ => true) book.entries ≤ 60000 * Book.held book := by
  have hheld : Book.held book = (book.entries.map fun d => sumOf d.2).sum := by
    show ((book.entries.map (·.2)).map sumOf).sum = _
    rw [List.map_map]
    rfl
  rw [hheld]
  unfold earnedBy
  rw [List.filter_true]
  induction book.entries with
  | nil => exact Nat.le_refl _
  | cons d l ih =>
    have hhead := earned_le d.2
    rw [List.map_cons, List.map_cons, List.sum_cons, List.sum_cons]
    omega

theorem Book.sumOf_le_held [DecidableEq Owner] {book : Book Owner}
    {d : Sigma fun _ : Owner => List (Entry Owner)} (hd : d ∈ book.entries) :
    sumOf d.2 ≤ Book.held book := by
  have hlookup : book.lookup d.1 = some d.2 := AList.mem_lookup_iff.mpr hd
  have herase := HashMap.total_erase sumOf book d.1
  rw [hlookup, Option.elim_some] at herase
  unfold Book.held
  omega

end Book

namespace StakingPool

/-- **Inflation.** After calls none of which answered `Overflow`, no sum of an epoch's rewards
leaves 64 bits; each key is paid the exact rewards of its own stakes and of the delegations it made,
each once; and all of them together are at most the top rate on the staking total. -/
theorem inflation_bound {hist : List (Turn StakingPool Call (Except StakingError Unit))}
    {pool : StakingPool}
    (hr : Run step (fun pool c => (pool.call c).2 ≠ .error .overflow) new hist pool)
    (its : StakeOrder) (itd : DelegationOrder) :
    (∀ d ∈ pool.entries.entries, earned d.2 < 2 ^ 64) ∧
      (∀ d ∈ pool.delegations.entries, earned d.2 < 2 ^ 64) ∧
      ∃ rewards, pool.distributeEpochRewards its itd = some rewards ∧
        (∀ key, ((rewards.filter fun r => r.1 = key).map fun r => r.2.toNat).sum =
          (pool.entries.lookup key).elim 0 earned +
            ((pool.delegations.entries.filter fun d => d.1.1 = key).map fun d =>
              earned d.2).sum) ∧
        (rewards.map fun r => r.2.toNat).sum ≤ pool.totalStaked.toNat * 60000 / 365000000 := by
  have hbalanced : pool.totalStaked.toNat = Book.held pool.entries + Book.held pool.delegations :=
    balanced_of_run (fun hne => hne) hr
  have htotal := pool.totalStaked.toNat_lt
  -- the counter covers every list of either book
  have hstakes : ∀ d ∈ pool.entries.entries, sumOf d.2 < 2 ^ 64 := by
    intro d hd
    have := Book.sumOf_le_held hd
    omega
  have hdelegations : ∀ d ∈ pool.delegations.entries, sumOf d.2 < 2 ^ 64 := by
    intro d hd
    have := Book.sumOf_le_held hd
    omega
  obtain ⟨staked, hstaked, hpaid⟩ := payRewards_eq id fun d hd =>
    hstakes d (its.mem_enum.mp hd)
  obtain ⟨delegated, hdelegated, hpaid'⟩ := payRewards_eq Prod.fst fun d hd =>
    hdelegations d (itd.mem_enum.mp hd)
  have hsplit : ∀ who, paid who (staked ++ delegated) =
      earnedBy id who pool.entries.entries + earnedBy Prod.fst who pool.delegations.entries := by
    intro who
    rw [← earnedBy_perm id who (its.perm _), ← hpaid who,
      ← earnedBy_perm Prod.fst who (itd.perm _), ← hpaid' who]
    unfold paid
    rw [List.filter_append, List.map_append, List.sum_append]
  refine ⟨?_, ?_, staked ++ delegated, ?_, ?_, ?_⟩
  · intro d hd
    exact earned_lt (hstakes d hd)
  · intro d hd
    exact earned_lt (hdelegations d hd)
  · unfold distributeEpochRewards
    rw [hstaked, hdelegated]
    rfl
  · intro key
    rw [← HashMap.sum_filter_key]
    exact hsplit fun k => k = key
  · have hall := hsplit fun _ => true
    have hle := earnedBy_all_le id pool.entries
    have hle' := earnedBy_all_le Prod.fst pool.delegations
    unfold paid at hall
    rw [List.filter_true] at hall
    rw [hall, Nat.le_div_iff_mul_le (by decide)]
    omega

/-- Two stakes of one key, which also delegates; and a stake of the key it delegates to. -/
def earningCalls : List Call :=
  [.stake (Bytes.fill 32 1) 1000000 .noLock, .stake (Bytes.fill 32 1) 2000000 .permanent,
    .delegate (Bytes.fill 32 1) (Bytes.fill 32 2) 3000000 .delegator,
    .stake (Bytes.fill 32 2) 1000000 .permanent]

theorem inflation_bound_earning :
    ∃ hist pool, Run step (fun pool c => (pool.call c).2 ≠ .error .overflow) new hist pool ∧
      pool.distributeEpochRewards (IterOrder.stored) (IterOrder.stored) =
        some [(Bytes.fill 32 2, 164), (Bytes.fill 32 1, 334), (Bytes.fill 32 1, 410)] ∧
      ∃ rewards, pool.distributeEpochRewards (IterOrder.stored) (IterOrder.stored) =
          some rewards ∧
        (rewards.map fun r => r.2.toNat).sum ≤ pool.totalStaked.toNat * 60000 / 365000000 := by
  obtain ⟨hist, pool, hr, hpaid⟩ : ∃ hist pool,
      Run step (fun pool c => (pool.call c).2 ≠ .error .overflow) new hist pool ∧
        pool.distributeEpochRewards (IterOrder.stored) (IterOrder.stored) =
          some [(Bytes.fill 32 2, 164), (Bytes.fill 32 1, 334), (Bytes.fill 32 1, 410)] :=
    Run.exists_of_replay earningCalls (by decide +kernel)
  obtain ⟨-, -, rewards, hrewards, -, hbound⟩ :=
    inflation_bound hr (IterOrder.stored) (IterOrder.stored)
  exact ⟨hist, pool, hr, hpaid, rewards, hrewards, hbound⟩

end StakingPool

end Staking

end Trv1Chain
