import Trv1Chain.Proof.Strongest
import Trv1Chain.ValidatorSet.Proposer

/-!
# Who proposes how often

The ranges of the active validators cover the numbers below the total of their powers, so the loop
of `get_proposer` always finds one and the fallback behind it is dead code. Over any run of as many
heights as there is power, every active validator proposes as often as it has power. The order of
the maps does not come in: the ranges stand in the order of the keys.
-/

set_option autoImplicit false

namespace Trv1Chain

open Lib Staking

namespace ValidatorSet

/-- What an active validator adds to the total. -/
def powerShare (pool : StakingPool) (v : ValidatorInfo) : Nat :=
  if v.status = .active then (pool.getVotingPower .stored v.pubkey).toNat else 0

namespace ValidatorSetManager

variable {vs vs' : ValidatorSetManager} {pool : StakingPool}

/-- The exact sum of the powers of the active validators. -/
def totalPower (vs : ValidatorSetManager) (pool : StakingPool) : Nat :=
  HashMap.total (powerShare pool) vs.validators

/-- The ranges in the order of the keys. -/
def slots (it : IterOrder ValidatorInfo) (itd : DelegationOrder) (vs : ValidatorSetManager)
    (pool : StakingPool) : List (PublicKey × UInt64) :=
  (vs.activePowers it itd pool).insertionSort KeyLe

/-! ## The list of ranges -/

theorem slots_perm (it : IterOrder ValidatorInfo) (itd : DelegationOrder)
    (vs : ValidatorSetManager) (pool : StakingPool) :
    (vs.slots it itd pool).Perm (vs.activePowers it itd pool) :=
  List.perm_insertionSort _ _

theorem mem_activePowers (hk : Keyed vs.validators) {it : IterOrder ValidatorInfo}
    {itd : DelegationOrder} {k : PublicKey} {power : UInt64} :
    (k, power) ∈ vs.activePowers it itd pool ↔
      vs.isActive k = true ∧ power = pool.getVotingPower itd k := by
  unfold activePowers isActive
  rw [List.mem_map]
  constructor
  · rintro ⟨v, hv, heq⟩
    obtain ⟨rfl, rfl⟩ := Prod.mk.inj heq
    obtain ⟨hl, hs⟩ := (mem_withStatus hk).mp hv
    rw [hl]
    exact ⟨by simpa using hs, rfl⟩
  · rintro ⟨hactive, rfl⟩
    cases hl : vs.validators.lookup k with
    | none =>
      rw [hl] at hactive
      cases hactive
    | some v =>
      rw [hl] at hactive
      obtain rfl := hk k v hl
      exact ⟨v, (mem_withStatus hk).mpr ⟨hl, by simpa using hactive⟩, rfl⟩

theorem nodup_activePowers (hk : Keyed vs.validators) (it : IterOrder ValidatorInfo)
    (itd : DelegationOrder) (pool : StakingPool) :
    ((vs.activePowers it itd pool).map (·.1)).Nodup := by
  unfold activePowers
  rw [List.map_map]
  exact nodup_withStatus hk it .active

/-- The ranges cover what the active validators weigh. -/
theorem totalWeight_slots (it : IterOrder ValidatorInfo) (itd : DelegationOrder)
    (vs : ValidatorSetManager) (pool : StakingPool) :
    totalWeight (ranges (vs.slots it itd pool)) = vs.totalPower pool := by
  have hperm : (ranges (vs.slots it itd pool)).Perm
      ((withStatus it vs.validators .active).map fun v =>
        (v.pubkey, (pool.getVotingPower itd v.pubkey).toNat)) := by
    refine ((slots_perm it itd vs pool).map _).trans ?_
    unfold activePowers
    rw [List.map_map]
    exact List.Perm.refl _
  unfold totalWeight totalPower HashMap.total
  rw [(hperm.map _).sum_nat, List.map_map]
  unfold withStatus
  rw [((it.perm vs.validators.values).filter _ |>.map _).sum_nat]
  induction vs.validators.values with
  | nil => rfl
  | cons v l ih =>
    rw [List.map_cons, List.sum_cons, ← ih, List.filter_cons]
    unfold powerShare
    by_cases hs : v.status = .active
    · rw [if_pos (by simpa using hs), if_pos hs, List.map_cons, List.sum_cons,
        StakingPool.getVotingPower_order .stored itd]
      rfl
    · rw [if_neg (by simpa using hs), if_neg hs, Nat.zero_add]

/-- **The ranges do not depend on the order of a map**, since no two stand under one key. -/
theorem slots_order (hk : Keyed vs.validators)
    (h : ∀ k, vs.validators.lookup k = vs'.validators.lookup k)
    (it it' : IterOrder ValidatorInfo) (itd itd' : DelegationOrder) :
    vs.slots it itd pool = vs'.slots it' itd' pool := by
  have hstatus : (withStatus it vs.validators .active).Perm
      (withStatus it' vs'.validators .active) :=
    SameBindings.withStatus h it it' .active
  have hactive : (vs.activePowers it itd pool).Perm (vs'.activePowers it' itd' pool) := by
    unfold activePowers
    have hpower : (fun v : ValidatorInfo => (v.pubkey, pool.getVotingPower itd v.pubkey)) =
        fun v => (v.pubkey, pool.getVotingPower itd' v.pubkey) := by
      funext v
      rw [StakingPool.getVotingPower_order itd itd' pool v.pubkey]
    rw [hpower]
    exact hstatus.map _
  unfold slots
  refine List.Perm.eq_of_pairwise ?_ (List.pairwise_insertionSort KeyLe _)
    (List.pairwise_insertionSort KeyLe _)
    ((List.perm_insertionSort _ _).trans (hactive.trans (List.perm_insertionSort _ _).symm))
  -- two ranges that sort both ways have one key, and a key has one range
  intro a b ha hb hab hba
  have hkey : a.1 = b.1 := Bytes.toList_inj (List.le_antisymm hab hba)
  have ha : a ∈ vs.activePowers it itd pool := (List.mem_insertionSort _).mp ha
  have hb : b ∈ vs.activePowers it itd pool :=
    hactive.mem_iff.mpr ((List.mem_insertionSort _).mp hb)
  exact List.inj_on_of_nodup_map (nodup_activePowers hk it itd pool) ha hb hkey

/-! ## One height -/

/-- With power to share and a total that fits, a height goes to the owner of its slot. -/
theorem getProposer_eq (it : IterOrder ValidatorInfo) (itd : DelegationOrder)
    (hpos : 0 < vs.totalPower pool) (hfit : vs.totalPower pool < 2 ^ 64) (height : UInt64) :
    ∃ k ∈ (vs.slots it itd pool).map (·.1),
      slotOwner (ranges (vs.slots it itd pool)) (height.toNat % vs.totalPower pool) = some k ∧
      searchSlot (height % ((vs.slots it itd pool).map (·.2)).sum) 0 (vs.slots it itd pool) =
        some k ∧
      vs.getProposer it itd height pool = some k := by
  have hweight := totalWeight_slots it itd vs pool
  have htotal : (((vs.slots it itd pool).map (·.2)).sum : UInt64).toNat =
      vs.totalPower pool := by
    rw [toNat_sum, ← totalWeight_ranges, hweight]
    exact Nat.mod_eq_of_lt hfit
  have hslot : (height % ((vs.slots it itd pool).map (·.2)).sum).toNat =
      height.toNat % vs.totalPower pool := by
    rw [UInt64.toNat_mod, htotal]
  have hbelow : height.toNat % vs.totalPower pool <
      totalWeight (ranges (vs.slots it itd pool)) := by
    rw [hweight]
    exact Nat.mod_lt _ hpos
  obtain ⟨k, hk, howner⟩ := exists_slotOwner hbelow
  have hsearch : searchSlot (height % ((vs.slots it itd pool).map (·.2)).sum) 0
      (vs.slots it itd pool) = some k := by
    have hzero : (0 : UInt64).toNat = 0 := rfl
    rw [searchSlot_eq (by omega) UInt64.zero_le, hslot, hzero, Nat.sub_zero]
    exact howner
  have hmem : k ∈ (vs.slots it itd pool).map (·.1) := by
    unfold ranges at hk
    rw [List.map_map] at hk
    exact hk
  refine ⟨k, hmem, howner, hsearch, ?_⟩
  have hne : vs.activePowers it itd pool ≠ [] := by
    intro hnil
    obtain ⟨x, hx, -⟩ := List.mem_map.mp hmem
    rw [(slots_perm it itd vs pool).mem_iff, hnil] at hx
    cases hx
  have hsum : ((vs.slots it itd pool).map (·.2)).sum ≠ 0 := by
    intro heq
    rw [heq] at htotal
    have hzero : (0 : UInt64).toNat = 0 := rfl
    omega
  unfold slots at hsearch hsum
  unfold getProposer
  dsimp only
  rw [if_neg (by simpa using hne), if_neg hsum, hsearch]

theorem mem_slots_keys (hk : Keyed vs.validators) {it : IterOrder ValidatorInfo}
    {itd : DelegationOrder} {k : PublicKey} :
    k ∈ (vs.slots it itd pool).map (·.1) ↔ vs.isActive k = true := by
  rw [((slots_perm it itd vs pool).map _).mem_iff, List.mem_map]
  constructor
  · rintro ⟨⟨k', power⟩, hx, rfl⟩
    exact ((mem_activePowers hk).mp hx).1
  · intro hactive
    exact ⟨(k, pool.getVotingPower itd k), (mem_activePowers hk).mpr ⟨hactive, rfl⟩, rfl⟩

/-- An active validator has its power in ranges, and nobody else has any. -/
theorem weightOf_slots (hk : Keyed vs.validators) (it : IterOrder ValidatorInfo)
    (itd : DelegationOrder) (pool : StakingPool) (k : PublicKey) :
    weightOf k (ranges (vs.slots it itd pool)) =
      if vs.isActive k = true then (pool.getVotingPower itd k).toNat else 0 := by
  have hkeys : (ranges (vs.slots it itd pool)).map (·.1) = (vs.slots it itd pool).map (·.1) := by
    unfold ranges
    rw [List.map_map]
    rfl
  split
  · rename_i hactive
    apply weightOf_of_mem
    · rw [hkeys, ((slots_perm it itd vs pool).map _).nodup_iff]
      exact nodup_activePowers hk it itd pool
    · refine List.mem_map.mpr ⟨(k, pool.getVotingPower itd k), ?_, rfl⟩
      rw [(slots_perm it itd vs pool).mem_iff, mem_activePowers hk]
      exact ⟨hactive, rfl⟩
  · rename_i hactive
    apply weightOf_of_notMem
    rw [hkeys, mem_slots_keys hk]
    exact hactive

/-! ## A window of heights -/

/-- **Proposer slots are proportional to voting power.** The powers of the active validators sum
to some `T` that is neither zero nor past 64 bits. In any window of `T` heights each of them
proposes as often as it has power and nobody else does; the loop always finds a range, so the
fallback is never reached; and neither the order of the maps nor how they store their entries
makes a difference. -/
theorem proposer_slots (hk : Keyed vs.validators) {T : Nat} (hT : vs.totalPower pool = T)
    (hpos : 0 < T) (hfit : T < 2 ^ 64) {start : Nat} (hend : start + T ≤ 2 ^ 64)
    (it : IterOrder ValidatorInfo) (itd : DelegationOrder) :
    (∀ k, ((Finset.Ico start (start + T)).filter fun height =>
        vs.getProposer it itd (UInt64.ofNat height) pool = some k).card =
      if vs.isActive k = true then (pool.getVotingPower itd k).toNat else 0) ∧
    (∀ height : UInt64,
      (∃ k, vs.isActive k = true ∧ vs.getProposer it itd height pool = some k) ∧
      searchSlot (height % ((vs.slots it itd pool).map (·.2)).sum) 0 (vs.slots it itd pool) ≠
        none) ∧
    ∀ (vs' : ValidatorSetManager) (it' : IterOrder ValidatorInfo) (itd' : DelegationOrder)
      (height : UInt64), (∀ k, vs'.validators.lookup k = vs.validators.lookup k) →
      vs'.getProposer it' itd' height pool = vs.getProposer it itd height pool := by
  subst hT
  refine ⟨?_, ?_, ?_⟩
  · intro k
    -- in the window the height is its own number, and its proposer the owner of its slot
    have howner : ∀ n ∈ Finset.Ico start (start + vs.totalPower pool),
        (vs.getProposer it itd (UInt64.ofNat n) pool = some k ↔
          slotOwner (ranges (vs.slots it itd pool))
            (n % totalWeight (ranges (vs.slots it itd pool))) = some k) := by
      intro n hn
      have hlt : n < 2 ^ 64 := Nat.lt_of_lt_of_le (Finset.mem_Ico.mp hn).2 hend
      obtain ⟨k', -, howner, -, hprop⟩ := getProposer_eq it itd hpos hfit (UInt64.ofNat n)
      rw [UInt64.toNat_ofNat_of_lt' hlt] at howner
      rw [totalWeight_slots, howner, hprop]
    rw [Finset.filter_congr howner, ← totalWeight_slots it itd vs pool, card_window]
    exact weightOf_slots hk it itd pool k
  · intro height
    obtain ⟨k, hmem, -, hsearch, hprop⟩ := getProposer_eq it itd hpos hfit height
    refine ⟨⟨k, (mem_slots_keys hk).mp hmem, hprop⟩, ?_⟩
    rw [hsearch]
    exact Option.some_ne_none k
  · intro vs' it' itd' height hsame
    have hslots : vs'.slots it' itd' pool = vs.slots it itd pool :=
      (slots_order hk (fun k => (hsame k).symm) it it' itd itd').symm
    have htotal : vs'.totalPower pool = vs.totalPower pool := HashMap.total_congr _ hsame
    obtain ⟨k, -, howner, -, hprop⟩ := getProposer_eq it itd hpos hfit height
    obtain ⟨k', -, howner', -, hprop'⟩ := getProposer_eq it' itd'
      (htotal ▸ hpos) (htotal ▸ hfit) height
    rw [hslots, htotal, howner] at howner'
    rw [hprop, hprop', howner']

/-- Two active validators with power, one without, and one in Standby. -/
def shares : ValidatorSetManager where
  validators := AList.insert (Bytes.fill 32 4) (validatorOf 4 .standby)
    (AList.insert (Bytes.fill 32 3) (validatorOf 3 .active)
      (AList.insert (Bytes.fill 32 2) (validatorOf 2 .active)
        (AList.insert (Bytes.fill 32 1) (validatorOf 1 .active) ∅)))
  config := .default
  currentEpoch := 0

def sharesPool : StakingPool :=
  ((StakingPool.new.stake (Bytes.fill 32 1) 3000 .delegator).1.delegate (Bytes.fill 32 4)
    (Bytes.fill 32 2) 1000 .delegator).1

theorem keyed_shares : Keyed shares.validators :=
  (((keyed_empty.insert (validatorOf 1 .active)).insert (validatorOf 2 .active)).insert
    (validatorOf 3 .active)).insert (validatorOf 4 .standby)

theorem totalPower_shares : shares.totalPower sharesPool = 4000 := by decide +kernel

/-- The last four thousand heights but seven. -/
theorem proposer_slots_shares :
    ((Finset.Ico (2 ^ 64 - 4007) (2 ^ 64 - 7)).filter fun height =>
      shares.getProposer .stored .stored (UInt64.ofNat height) sharesPool =
        some (Bytes.fill 32 1)).card = 3000 := by
  have hend : (2 ^ 64 - 4007) + 4000 ≤ 2 ^ 64 := by decide
  have h := (proposer_slots keyed_shares totalPower_shares (by decide) (by decide) hend .stored
    .stored).1 (Bytes.fill 32 1)
  have hpower : (if shares.isActive (Bytes.fill 32 1) = true then
      (sharesPool.getVotingPower .stored (Bytes.fill 32 1)).toNat else 0) = 3000 := by
    decide +kernel
  exact h.trans hpower

end ValidatorSetManager

end ValidatorSet

end Trv1Chain
