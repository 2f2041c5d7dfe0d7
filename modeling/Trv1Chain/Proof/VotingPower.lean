import Trv1Chain.Proof.StakingTotal
import Trv1Chain.Staking.Power

/-!
# Voting power as the weighted stake

The power of a key is meant to be the sum of its positions, each times its weight, cut off at the
largest word. The sum does saturate; a single term does not: it is taken in 128 bits and cut to 64
by a cast. Only the permanent tier weighs more than one, so only a permanent position of more than
two thirds of the range is cut, and then the power is short of what it should be by a whole range:
a pool of 64 bits has no room for enough other stake to make up for it.
-/

set_option autoImplicit false

namespace Trv1Chain

open Lib

namespace Staking

/-- What an entry counts for. -/
def Entry.position {Owner : Type} (e : Entry Owner) : UInt64 × LockTier := (e.amount, e.lockTier)

/-- The exact power of a position. -/
def weighted (p : UInt64 × LockTier) : Nat := p.1.toNat * p.2.voteWeightBps.toNat / 1000

/-- A permanent position is at most two thirds of the range of a word. -/
def Modest (p : UInt64 × LockTier) : Prop :=
  p.2 = .permanent → p.1.toNat ≤ 12297829382473034410

instance (p : UInt64 × LockTier) : Decidable (Modest p) :=
  inferInstanceAs (Decidable (_ → _))

theorem LockTier.voteWeightBps_le (tier : LockTier) :
    tier.voteWeightBps.toNat ≤ if tier = .permanent then 1500 else 1000 := by
  cases tier <;> decide

theorem two_mul_weighted_le (p : UInt64 × LockTier) : 2 * weighted p ≤ 3 * p.1.toNat := by
  have hw : p.2.voteWeightBps.toNat ≤ 1500 := by
    have := p.2.voteWeightBps_le
    split at this <;> omega
  have hmul := Nat.mul_le_mul_left p.1.toNat hw
  unfold weighted
  omega

theorem weighted_lt_iff (p : UInt64 × LockTier) : weighted p < 2 ^ 64 ↔ Modest p := by
  have hlt := p.1.toNat_lt
  unfold weighted Modest
  by_cases htier : p.2 = .permanent
  · have hw : p.2.voteWeightBps.toNat = 1500 := by rw [htier]; rfl
    rw [hw]
    constructor
    · intro h _
      omega
    · intro h
      have := h htier
      omega
  · have hw := p.2.voteWeightBps_le
    rw [if_neg htier] at hw
    have hmul := Nat.mul_le_mul_left p.1.toNat hw
    exact iff_of_true (by omega) fun h => absurd h htier

/-- The cast cuts the exact power to a word. -/
theorem Entry.toNat_power {Owner : Type} (e : Entry Owner) :
    e.power.toNat = weighted e.position % 2 ^ 64 := UInt64.toNat_ofNat'

theorem weighted_mono {a a' : UInt64} (h : a ≤ a') (tier : LockTier) :
    weighted (a, tier) ≤ weighted (a', tier) :=
  Nat.div_le_div_right (Nat.mul_le_mul_right _ (UInt64.le_iff_toNat_le.mp h))

namespace StakingPool

/-- What counts for a key: its own stakes and the delegations to it. -/
def positions (pool : StakingPool) (pubkey : PublicKey) : List (UInt64 × LockTier) :=
  (Book.entriesOf pool.entries pubkey).map Entry.position ++
    pool.delegations.entries.flatMap fun d =>
      if d.1.2 = pubkey then d.2.map Entry.position else []

/-- The exact weighted stake of a key. -/
def weightedStake (pool : StakingPool) (pubkey : PublicKey) : Nat :=
  ((pool.positions pubkey).map weighted).sum

/-! ## The sum the code takes -/

/-- **The power of a key**, on any pool: each term cut to a word, the sum cut off at the end. -/
theorem toNat_getVotingPower (it : DelegationOrder) (pool : StakingPool) (pubkey : PublicKey) :
    (pool.getVotingPower it pubkey).toNat =
      min (((pool.positions pubkey).map weighted).map (· % 2 ^ 64)).sum (2 ^ 64 - 1) := by
  have hterms : (pool.ownPowers pubkey ++ pool.delegatedPowers pubkey).map UInt64.toNat =
      ((pool.positions pubkey).map weighted).map (· % 2 ^ 64) := by
    unfold ownPowers delegatedPowers positions
    rw [List.map_append, List.map_append, List.map_append, List.map_map, List.map_map,
      List.map_map, List.map_flatMap, List.map_flatMap, List.map_flatMap]
    refine congr (congrArg _ ?_) ?_
    · apply List.map_congr_left
      intro e _
      exact e.toNat_power
    · apply List.flatMap_congr
      intro d _
      split
      · rw [List.map_map, List.map_map, List.map_map]
        apply List.map_congr_left
        intro e _
        exact e.toNat_power
      · rfl
  rw [getVotingPower_eq, toNat_foldl_saturatingAdd, hterms]
  have hzero : (0 : UInt64).toNat = 0 := rfl
  rw [hzero, Nat.zero_add]

/-! ## The positions of a key are in the books -/

theorem sum_positions_le (pool : StakingPool) (pubkey : PublicKey) :
    ((pool.positions pubkey).map fun p => p.1.toNat).sum ≤ pool.staked := by
  have hown : (((Book.entriesOf pool.entries pubkey).map Entry.position).map
      fun p => p.1.toNat).sum ≤ Book.held pool.entries := by
    have h := HashMap.total_erase sumOf pool.entries pubkey
    rw [List.map_map]
    unfold Book.entriesOf Book.held
    cases hl : pool.entries.lookup pubkey with
    | none => exact Nat.zero_le _
    | some entries =>
      rw [hl, Option.elim_some] at h
      show sumOf entries ≤ _
      omega
  have hdelegated : ((pool.delegations.entries.flatMap fun d =>
      if d.1.2 = pubkey then d.2.map Entry.position else []).map fun p => p.1.toNat).sum ≤
        Book.held pool.delegations := by
    show _ ≤ ((pool.delegations.entries.map (·.2)).map sumOf).sum
    induction pool.delegations.entries with
    | nil => exact Nat.le_refl _
    | cons d l ih =>
      rw [List.flatMap_cons, List.map_append, List.sum_append, List.map_cons, List.map_cons,
        List.sum_cons]
      refine Nat.add_le_add ?_ ih
      split
      · rw [List.map_map]
        exact Nat.le_refl _
      · exact Nat.zero_le _
  unfold positions staked
  rw [List.map_append, List.sum_append]
  exact Nat.add_le_add hown hdelegated

/-- All the power there is to have is half as much again as the stake. -/
theorem two_mul_weightedStake_le (pool : StakingPool) (pubkey : PublicKey) :
    2 * pool.weightedStake pubkey ≤ 3 * pool.staked := by
  have hsum : ∀ l : List (UInt64 × LockTier),
      2 * (l.map weighted).sum ≤ 3 * (l.map fun p => p.1.toNat).sum := by
    intro l
    induction l with
    | nil => exact Nat.le_refl _
    | cons p l ih =>
      have := two_mul_weighted_le p
      rw [List.map_cons, List.map_cons, List.sum_cons, List.sum_cons]
      omega
  exact (hsum _).trans (Nat.mul_le_mul_left 3 (sum_positions_le pool pubkey))

/-- On a pool whose stake fits a word the power is exact exactly if no term was cut. -/
theorem getVotingPower_exact_iff {pool : StakingPool} (hfit : pool.staked < 2 ^ 64)
    (it : DelegationOrder) (pubkey : PublicKey) :
    (pool.getVotingPower it pubkey).toNat = min (2 ^ 64 - 1) (pool.weightedStake pubkey) ↔
      ∀ p ∈ pool.positions pubkey, Modest p := by
  rw [toNat_getVotingPower, Nat.min_comm]
  constructor
  · intro heq p hp
    rw [← weighted_lt_iff]
    by_contra hcut
    -- one term is short by a range, and the rest cannot reach the cap without it
    have hshort := sum_mod_add_le (m := 2 ^ 64) (l := (pool.positions pubkey).map weighted)
      ⟨weighted p, List.mem_map_of_mem hp, Nat.not_lt.mp hcut⟩
    have hbound := two_mul_weightedStake_le pool pubkey
    unfold weightedStake at heq hbound
    omega
  · intro hmodest
    have hsame : ((pool.positions pubkey).map weighted).map (· % 2 ^ 64) =
        (pool.positions pubkey).map weighted := by
      rw [List.map_map]
      apply List.map_congr_left
      intro p hp
      exact Nat.mod_eq_of_lt ((weighted_lt_iff p).mpr (hmodest p hp))
    rw [hsame]
    rfl

end StakingPool

/-! ## Deposits -/

/-- What a deposit adds to the positions of a key. -/
def Call.adds (pubkey : PublicKey) : Call → List (UInt64 × LockTier)
  | .stake staker amount tier => if staker = pubkey then [(amount, tier)] else []
  | .delegate _ validator amount tier => if validator = pubkey then [(amount, tier)] else []
  | _ => []

/-- The call puts stake in. -/
def Call.Deposits : Call → Prop
  | .stake _ _ _ => True
  | .delegate _ _ _ _ => True
  | _ => False

/-- The second call is the same deposit of at least as much. -/
inductive Call.Raised : Call → Call → Prop
  | stake {staker : PublicKey} {amount amount' : UInt64} {tier : LockTier} : amount ≤ amount' →
      Raised (.stake staker amount tier) (.stake staker amount' tier)
  | delegate {delegator validator : PublicKey} {amount amount' : UInt64} {tier : LockTier} :
      amount ≤ amount' → Raised (.delegate delegator validator amount tier)
        (.delegate delegator validator amount' tier)

section Book

variable {Owner : Type} [DecidableEq Owner]

/-- A deposit that is accepted appends its entry. -/
theorem Book.deposit_ok {book : Book Owner} {total epoch : UInt64} {owner : Owner}
    {amount : UInt64} {tier : LockTier}
    (h : (book.deposit total epoch owner amount tier).2.2 = .ok ()) :
    (book.deposit total epoch owner amount tier).1 =
      book.insert owner (Book.entriesOf book owner ++ [Entry.new owner amount tier epoch]) := by
  unfold Book.deposit at h ⊢
  split at h
  · cases h
  · rename_i hne
    rw [if_neg hne]
    dsimp only at h ⊢
    split at h
    · rename_i hfit
      rw [if_pos hfit]
      rfl
    · cases h

theorem Book.entriesOf_insert (book : Book Owner) (owner k : Owner) (entries : List (Entry Owner)) :
    Book.entriesOf (book.insert owner entries) k =
      if k = owner then entries else Book.entriesOf book k := by
  unfold Book.entriesOf
  split
  · rename_i heq
    rw [heq, AList.lookup_insert]
    rfl
  · rename_i hne
    rw [AList.lookup_insert_ne hne]

/-- The positions of some owners in a book. -/
def Book.listing (book : Book Owner) (sel : Owner → Bool) : List (UInt64 × LockTier) :=
  book.entries.flatMap fun d => if sel d.1 then d.2.map Entry.position else []

/-- An appended entry is listed if its owner is. -/
theorem Book.listing_insert (book : Book Owner) (sel : Owner → Bool) (owner : Owner)
    (e : Entry Owner) :
    (Book.listing (book.insert owner (Book.entriesOf book owner ++ [e])) sel).Perm
      ((if sel owner then [e.position] else []) ++ Book.listing book sel) := by
  have hsplit := HashMap.flatMap_erase (fun k (l : List (Entry Owner)) =>
    if sel k then l.map Entry.position else []) book owner
  have hold : (book.lookup owner).elim [] (fun l => if sel owner then l.map Entry.position else [])
      = if sel owner then (Book.entriesOf book owner).map Entry.position else [] := by
    unfold Book.entriesOf
    cases book.lookup owner with
    | none => simp
    | some l => rfl
  rw [hold] at hsplit
  unfold Book.listing
  show ((if sel owner then (Book.entriesOf book owner ++ [e]).map Entry.position else []) ++
    (book.erase owner).entries.flatMap fun d =>
      if sel d.1 then d.2.map Entry.position else []).Perm _
  split
  · rename_i hsel
    rw [if_pos hsel] at hsplit
    rw [List.map_append]
    refine (List.perm_append_comm.append_right _).trans ?_
    rw [List.append_assoc]
    exact hsplit.symm.append_left _
  · rename_i hsel
    rw [if_neg hsel] at hsplit
    exact hsplit.symm

end Book

namespace StakingPool

/-- **An accepted deposit adds its position and changes no other.** -/
theorem positions_call {pool : StakingPool} {c : Call} (hc : c.Deposits)
    (hok : (pool.call c).2 = .ok ()) (pubkey : PublicKey) :
    ((pool.call c).1.positions pubkey).Perm (c.adds pubkey ++ pool.positions pubkey) := by
  cases c with
  | unstake _ _ => exact hc.elim
  | undelegate _ _ _ => exact hc.elim
  | setEpoch _ => exact hc.elim
  | stake staker amount tier =>
    have hbook : (pool.call (.stake staker amount tier)).1.entries = _ := Book.deposit_ok hok
    show ((Book.entriesOf (pool.call (.stake staker amount tier)).1.entries pubkey).map
      Entry.position ++ _).Perm ((if staker = pubkey then [(amount, tier)] else []) ++ _)
    rw [hbook, Book.entriesOf_insert]
    by_cases heq : pubkey = staker
    · subst heq
      rw [if_pos rfl, if_pos rfl, List.map_append]
      unfold positions
      rw [← List.append_assoc]
      exact List.perm_append_comm.append_right _
    · rw [if_neg heq, if_neg (Ne.symm heq)]
      exact List.Perm.refl _
  | delegate delegator validator amount tier =>
    have hbook : (pool.call (.delegate delegator validator amount tier)).1.delegations = _ :=
      Book.deposit_ok hok
    have hlist := Book.listing_insert pool.delegations (fun k => decide (k.2 = pubkey))
      (delegator, validator) (Entry.new (delegator, validator) amount tier pool.currentEpoch)
    unfold Book.listing at hlist
    simp only [decide_eq_true_eq] at hlist
    show (_ ++ (pool.call (.delegate delegator validator amount tier)).1.delegations.entries.flatMap
      _).Perm ((if validator = pubkey then [(amount, tier)] else []) ++ _)
    rw [hbook]
    refine (hlist.append_left _).trans ?_
    unfold positions
    rw [← List.append_assoc, ← List.append_assoc]
    exact List.perm_append_comm.append_right _

/-- A deposit more is no power less. -/
theorem getVotingPower_call_ge {pool : StakingPool} {c : Call} (hc : c.Deposits)
    (hok : (pool.call c).2 = .ok ()) (it it' : DelegationOrder) (pubkey : PublicKey) :
    pool.getVotingPower it pubkey ≤ (pool.call c).1.getVotingPower it' pubkey := by
  have hperm := ((positions_call hc hok pubkey).map weighted).map (· % 2 ^ 64)
  rw [UInt64.le_iff_toNat_le, toNat_getVotingPower, toNat_getVotingPower, hperm.sum_nat,
    List.map_append, List.map_append, List.sum_append]
  omega

theorem weightedStake_call {pool : StakingPool} {c : Call} (hc : c.Deposits)
    (hok : (pool.call c).2 = .ok ()) (pubkey : PublicKey) :
    (pool.call c).1.weightedStake pubkey =
      ((c.adds pubkey).map weighted).sum + pool.weightedStake pubkey := by
  unfold weightedStake
  rw [((positions_call hc hok pubkey).map weighted).sum_nat, List.map_append, List.sum_append]

end StakingPool

/-- The larger deposit adds positions of at least the weight, and modest ones only if the smaller
one does. -/
theorem Call.Raised.adds {c c' : Call} (h : c.Raised c') (pubkey : PublicKey) :
    ((c.adds pubkey).map weighted).sum ≤ ((c'.adds pubkey).map weighted).sum ∧
      ((∀ p ∈ c'.adds pubkey, Modest p) → ∀ p ∈ c.adds pubkey, Modest p) := by
  have hone : ∀ {a a' : UInt64} (tier : LockTier), a ≤ a' → Modest (a', tier) →
      Modest (a, tier) := by
    intro a a' tier hle hmodest htier
    exact (UInt64.le_iff_toNat_le.mp hle).trans (hmodest htier)
  cases h with
  | stake hle =>
    unfold Call.adds
    dsimp only
    split
    · simpa using ⟨weighted_mono hle _, hone _ hle⟩
    · simp
  | delegate hle =>
    unfold Call.adds
    dsimp only
    split
    · simpa using ⟨weighted_mono hle _, hone _ hle⟩
    · simp

theorem Call.Raised.deposits {c c' : Call} (h : c.Raised c') : c.Deposits ∧ c'.Deposits := by
  cases h with
  | stake _ => exact ⟨trivial, trivial⟩
  | delegate _ => exact ⟨trivial, trivial⟩

namespace StakingPool

/-- **Voting power is the exact weighted stake, saturated**, of every key of a pool that successful
calls reach, exactly if no permanent position of the key is more than two thirds of the range. One
deposit more never lowers a power; the same deposit of a larger amount never does as long as the
positions it leads to are such. -/
theorem voting_power_exact_iff
    {hist : List (Turn StakingPool Call (Except StakingError Unit))} {pool : StakingPool}
    (hr : Run step (fun pool c => (pool.call c).2 = .ok ()) new hist pool)
    (it : DelegationOrder) (pubkey : PublicKey) :
    ((pool.getVotingPower it pubkey).toNat = min (2 ^ 64 - 1) (pool.weightedStake pubkey) ↔
        ∀ p ∈ pool.positions pubkey, Modest p) ∧
      ∀ c, (pool.call c).2 = .ok () →
        (c.Deposits →
          pool.getVotingPower it pubkey ≤ (pool.call c).1.getVotingPower it pubkey) ∧
        ∀ c', c.Raised c' → (pool.call c').2 = .ok () →
          (∀ p ∈ (pool.call c').1.positions pubkey, Modest p) →
          (pool.call c).1.getVotingPower it pubkey ≤
            (pool.call c').1.getVotingPower it pubkey := by
  have hfits : ∀ {hist pool}, Run step (fun pool c => (pool.call c).2 = .ok ()) new hist pool →
      pool.staked < 2 ^ 64 := by
    intro hist pool hr
    have hb : pool.totalStaked.toNat = pool.staked := balanced_of_run (fun hok hover => by
      rw [hok] at hover; cases hover) hr
    rw [← hb]
    exact pool.totalStaked.toNat_lt
  refine ⟨getVotingPower_exact_iff (hfits hr) it pubkey, ?_⟩
  intro c hok
  refine ⟨fun hc => getVotingPower_call_ge hc hok it it pubkey, ?_⟩
  intro c' hraised hok' hmodest'
  obtain ⟨hweight, hsmaller⟩ := hraised.adds pubkey
  have hpositions := positions_call hraised.deposits.1 hok pubkey
  have hpositions' := positions_call hraised.deposits.2 hok' pubkey
  -- the positions after the smaller deposit are modest too, so both powers are exact
  have hmodest : ∀ p ∈ (pool.call c).1.positions pubkey, Modest p := by
    intro p hp
    rcases List.mem_append.mp (hpositions.mem_iff.mp hp) with hnew | hold
    · refine hsmaller (fun q hq => hmodest' q ?_) p hnew
      exact hpositions'.mem_iff.mpr (List.mem_append_left _ hq)
    · exact hmodest' p (hpositions'.mem_iff.mpr (List.mem_append_right _ hold))
  have hexact := (getVotingPower_exact_iff (hfits (hr.turn hok rfl)) it pubkey).mpr hmodest
  have hexact' := (getVotingPower_exact_iff (hfits (hr.turn hok' rfl)) it pubkey).mpr hmodest'
  rw [UInt64.le_iff_toNat_le, hexact, hexact', weightedStake_call hraised.deposits.1 hok,
    weightedStake_call hraised.deposits.2 hok']
  omega

/-- A permanent stake of two thirds of the range, and a delegation. -/
def modestCalls : List Call :=
  [.stake (Bytes.fill 32 1) 12297829382473034410 .permanent,
    .delegate (Bytes.fill 32 2) (Bytes.fill 32 1) 999 .ninetyDay]

theorem voting_power_exact_iff_modest :
    ∃ hist pool, Run step (fun pool c => (pool.call c).2 = .ok ()) new hist pool ∧
      pool.weightedStake (Bytes.fill 32 1) = 2 ^ 64 - 1 + 199 ∧
      (pool.getVotingPower .stored (Bytes.fill 32 1)).toNat = 2 ^ 64 - 1 := by
  obtain ⟨hist, pool, hr, hweight, hmodest⟩ : ∃ hist pool,
      Run step (fun pool c => (pool.call c).2 = .ok ()) new hist pool ∧
        pool.weightedStake (Bytes.fill 32 1) = 2 ^ 64 - 1 + 199 ∧
        ∀ p ∈ pool.positions (Bytes.fill 32 1), Modest p :=
    Run.exists_of_replay modestCalls (by decide +kernel)
  refine ⟨hist, pool, hr, hweight, ?_⟩
  rw [((voting_power_exact_iff hr .stored (Bytes.fill 32 1)).1.mpr hmodest), hweight]
  decide

def largeCalls : List Call := [.stake (Bytes.fill 32 1) 13835058055282163712 .permanent]

/-- **A larger stake, a smaller power.** A permanent stake of three quarters of the range weighs
nine eighths of it and counts for one eighth, less than a stake of two thirds does. -/
theorem voting_power_cut :
    ∃ hist pool, Run step (fun pool c => (pool.call c).2 = .ok ()) new hist pool ∧
      pool.weightedStake (Bytes.fill 32 1) = 9 * 2 ^ 61 ∧
      (pool.getVotingPower .stored (Bytes.fill 32 1)).toNat = 2 ^ 61 ∧
      ¬ (pool.getVotingPower .stored (Bytes.fill 32 1)).toNat =
        min (2 ^ 64 - 1) (pool.weightedStake (Bytes.fill 32 1)) ∧
      pool.getVotingPower .stored (Bytes.fill 32 1) <
        (new.stake (Bytes.fill 32 1) 12297829382473034410 .permanent).1.getVotingPower .stored
          (Bytes.fill 32 1) := by
  exact Run.exists_of_replay largeCalls (by decide +kernel)

end StakingPool

end Staking

end Trv1Chain
