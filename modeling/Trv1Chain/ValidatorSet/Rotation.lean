import Mathlib.Data.List.Sort
import Trv1Chain.Staking.Power

/-!
# Rotation of the validator set

`runtime/validator-set/src/{types,rotation}.rs`. A rotation swaps the strongest standby validator
for the weakest active one as long as it is strictly stronger, and then fills the free places.

Every pass over the map takes its order as an argument, one for each turn of the swap loop. The
loop runs on fuel: what the active validators lack to the largest possible power, which every swap
lowers. That it never runs out is proved where the registry is.
-/

set_option autoImplicit false

namespace Trv1Chain

open Lib Staking

namespace ValidatorSet

inductive ValidatorStatus where
  | active
  | standby
  /-- Penalized and excluded from consensus and rotation. -/
  | jailed
  deriving DecidableEq

structure ValidatorInfo where
  pubkey : PublicKey
  stake : UInt64
  commissionRate : UInt16
  status : ValidatorStatus
  performanceScore : UInt16
  joinHeight : UInt64
  deriving DecidableEq

abbrev Validators := HashMap PublicKey ValidatorInfo

inductive ValidatorSetError where
  | alreadyRegistered (pubkey : PublicKey)
  | notFound (pubkey : PublicKey)
  | insufficientStake (held need : UInt64)
  | notJailed
  deriving DecidableEq

/-! ## Ranking -/

structure RankedValidator where
  pubkey : PublicKey
  effectiveStake : UInt64

/-- Descending by effective stake; ties broken by pubkey. -/
def RankedValidator.Precedes (a b : RankedValidator) : Prop :=
  b.effectiveStake < a.effectiveStake ∨
    b.effectiveStake = a.effectiveStake ∧ a.pubkey.toList ≤ b.pubkey.toList

instance : DecidableRel RankedValidator.Precedes :=
  fun _ _ => inferInstanceAs (Decidable (_ ∨ _ ∧ _))

def rank (it : DelegationOrder) (stakingPool : StakingPool) (v : ValidatorInfo) :
    RankedValidator :=
  ⟨v.pubkey, stakingPool.getVotingPower it v.pubkey⟩

def sortByStake (it : DelegationOrder) (validators : List ValidatorInfo)
    (stakingPool : StakingPool) : List RankedValidator :=
  (validators.map (rank it stakingPool)).insertionSort RankedValidator.Precedes

/-! ## Rotation -/

/-- The orders in which one rotation meets its maps: the validators, once for each turn of the
swap loop and once for the free places, and the delegations. -/
structure RotationOrder where
  validators : Nat → IterOrder ValidatorInfo
  delegations : DelegationOrder

def RotationOrder.stored : RotationOrder := ⟨fun _ => .stored, .stored⟩

/-- The validators with a status, as `values().filter(..)` meets them. -/
def withStatus (it : IterOrder ValidatorInfo) (validators : Validators)
    (status : ValidatorStatus) : List ValidatorInfo :=
  (it.enum validators.values).filter fun v => v.status == status

def setStatus (status : ValidatorStatus) (pubkey : PublicKey) (validators : Validators) :
    Validators :=
  HashMap.modify (fun v => { v with status := status }) pubkey validators

def activeCount (validators : Validators) : Nat :=
  (withStatus .stored validators .active).length

/-- One turn of the swap loop: the map after it and the pair (promoted, demoted); `none` when the
loop breaks. -/
def swapOnce (o : RotationOrder) (turn : Nat) (validators : Validators)
    (stakingPool : StakingPool) : Option (Validators × (PublicKey × PublicKey)) :=
  let active := withStatus (o.validators turn) validators .active
  let standby := withStatus (o.validators turn) validators .standby
  let activeRanked := sortByStake o.delegations active stakingPool
  let standbyRanked := sortByStake o.delegations standby stakingPool
  match activeRanked.getLast?, standbyRanked.head? with
  | some weakestActive, some strongestStandby =>
    if strongestStandby.effectiveStake > weakestActive.effectiveStake then
      some (setStatus .active strongestStandby.pubkey
          (setStatus .standby weakestActive.pubkey validators),
        (strongestStandby.pubkey, weakestActive.pubkey))
    else none
  | _, _ => none

/-- The swap loop; `none` when it is still going as the fuel ends. -/
def swapLoop (o : RotationOrder) (stakingPool : StakingPool) :
    Nat → Validators → List (PublicKey × PublicKey) →
      Option (Validators × List (PublicKey × PublicKey))
  | 0, _, _ => none
  | fuel + 1, validators, swaps =>
    match swapOnce o swaps.length validators stakingPool with
    | some (validators, swap) => swapLoop o stakingPool fuel validators (swaps ++ [swap])
    | none => some (validators, swaps)

/-- If the active count is below the cap, promote standby validators by stake order. -/
def fillSlots (o : RotationOrder) (turn : Nat) (validators : Validators)
    (stakingPool : StakingPool) (activeCap : Nat) : Validators :=
  let activeCount := activeCount validators
  if activeCount < activeCap then
    let standby := withStatus (o.validators turn) validators .standby
    let standbyRanked := sortByStake o.delegations standby stakingPool
    let slotsAvailable := activeCap - activeCount
    (standbyRanked.take slotsAvailable).foldl
      (fun validators ranked => setStatus .active ranked.pubkey validators) validators
  else validators

/-- What an active validator lacks to the largest power. -/
def slack (stakingPool : StakingPool) (v : ValidatorInfo) : Nat :=
  if v.status = .active then 2 ^ 64 - (stakingPool.getVotingPower .stored v.pubkey).toNat else 0

/-- Perform epoch rotation: the map after it and the list of (promoted, demoted) pairs. -/
def rotate (o : RotationOrder) (validators : Validators) (stakingPool : StakingPool)
    (activeCap : Nat) : Option (Validators × List (PublicKey × PublicKey)) :=
  let fuel := HashMap.total (slack stakingPool) validators + 1
  match swapLoop o stakingPool fuel validators [] with
  | some (validators, swaps) =>
    some (fillSlots o (swaps.length + 1) validators stakingPool activeCap, swaps)
  | none => none

/-- Move to Jailed regardless of current status. -/
def jail (validators : Validators) (pubkey : PublicKey) :
    Validators × Except ValidatorSetError Unit :=
  match validators.lookup pubkey with
  | none => (validators, .error (.notFound pubkey))
  | some _ => (setStatus .jailed pubkey validators, .ok ())

/-- Move from Jailed back to Standby. -/
def unjail (validators : Validators) (pubkey : PublicKey) :
    Validators × Except ValidatorSetError Unit :=
  match validators.lookup pubkey with
  | none => (validators, .error (.notFound pubkey))
  | some validator =>
    if validator.status ≠ .jailed then (validators, .error .notJailed)
    else (setStatus .standby pubkey validators, .ok ())

/-! ## A registry under its own keys

The passes of a rotation find validators by value and write them back by `pubkey`. That these are
the same entries is an invariant of the map, and without it a swap need not change anything. -/

/-- Every entry is stored under its own pubkey. -/
def Keyed (validators : Validators) : Prop :=
  ∀ k v, validators.lookup k = some v → v.pubkey = k

theorem keyed_empty : Keyed ∅ := by
  intro k v h
  cases h

theorem Keyed.insert {m : Validators} (h : Keyed m) (v : ValidatorInfo) :
    Keyed (m.insert v.pubkey v) := by
  intro k w hw
  by_cases hk : k = v.pubkey
  · subst hk
    rw [AList.lookup_insert] at hw
    rw [Option.some.inj hw]
  · rw [AList.lookup_insert_ne hk] at hw
    exact h k w hw

theorem Keyed.erase {m : Validators} (h : Keyed m) (k : PublicKey) : Keyed (m.erase k) := by
  intro k' v hv
  by_cases hk : k' = k
  · subst hk
    rw [AList.lookup_erase] at hv
    cases hv
  · rw [AList.lookup_erase_ne hk] at hv
    exact h k' v hv

theorem Keyed.modify {m : Validators} (h : Keyed m) {f : ValidatorInfo → ValidatorInfo}
    (hf : ∀ v, (f v).pubkey = v.pubkey) (k : PublicKey) : Keyed (HashMap.modify f k m) := by
  intro k' v hv
  rw [HashMap.lookup_modify] at hv
  split at hv
  · rename_i heq
    obtain ⟨w, hw, rfl⟩ := Option.map_eq_some_iff.mp hv
    rw [hf, h k w hw, heq]
  · exact h k' v hv

theorem Keyed.setStatus {m : Validators} (h : Keyed m) (s : ValidatorStatus) (k : PublicKey) :
    Keyed (setStatus s k m) :=
  h.modify (f := fun v => { v with status := s }) (fun _ => rfl) k

theorem mem_withStatus {it : IterOrder ValidatorInfo} {m : Validators} (h : Keyed m)
    {s : ValidatorStatus} {v : ValidatorInfo} :
    v ∈ withStatus it m s ↔ m.lookup v.pubkey = some v ∧ v.status = s := by
  unfold withStatus
  rw [List.mem_filter, IterOrder.mem_enum, HashMap.mem_values, beq_iff_eq]
  constructor
  · rintro ⟨⟨k, hk⟩, hs⟩
    rw [h k v hk]
    exact ⟨hk, hs⟩
  · rintro ⟨hk, hs⟩
    exact ⟨⟨_, hk⟩, hs⟩

theorem mem_sortByStake {it : DelegationOrder} {l : List ValidatorInfo} {pool : StakingPool}
    {r : RankedValidator} : r ∈ sortByStake it l pool ↔ ∃ v ∈ l, rank it pool v = r := by
  unfold sortByStake
  rw [List.mem_insertionSort, List.mem_map]

/-- Every ranked validator of a status is in the map with it, and ranked by its power. -/
theorem of_mem_ranked {it : IterOrder ValidatorInfo} {itd : DelegationOrder} {m : Validators}
    (h : Keyed m) {s : ValidatorStatus} {pool : StakingPool} {r : RankedValidator}
    (hr : r ∈ sortByStake itd (withStatus it m s) pool) :
    (∃ v, m.lookup r.pubkey = some v ∧ v.status = s) ∧
      r.effectiveStake = pool.getVotingPower .stored r.pubkey := by
  obtain ⟨v, hv, rfl⟩ := mem_sortByStake.mp hr
  obtain ⟨hl, hs⟩ := (mem_withStatus h).mp hv
  exact ⟨⟨v, hl, hs⟩, StakingPool.getVotingPower_order _ _ _ _⟩

/-! ### The ends of a ranking -/

theorem RankedValidator.Precedes.effectiveStake_le {a b : RankedValidator} (h : a.Precedes b) :
    b.effectiveStake ≤ a.effectiveStake := by
  rcases h with hlt | ⟨heq, -⟩
  · exact UInt64.le_of_lt hlt
  · exact heq ▸ UInt64.le_refl _

instance : Std.Total RankedValidator.Precedes where
  total a b := by
    by_cases heq : a.effectiveStake = b.effectiveStake
    · rcases List.le_total a.pubkey.toList b.pubkey.toList with hle | hle
      · exact Or.inl (Or.inr ⟨heq.symm, hle⟩)
      · exact Or.inr (Or.inr ⟨heq, hle⟩)
    · rcases UInt64.lt_or_lt_of_ne heq with hlt | hgt
      · exact Or.inr (Or.inl hlt)
      · exact Or.inl (Or.inl hgt)

instance : IsTrans RankedValidator RankedValidator.Precedes where
  trans a b c hab hbc := by
    rcases hab with hab | ⟨hab, hab'⟩
    · exact Or.inl (UInt64.lt_of_le_of_lt hbc.effectiveStake_le hab)
    · rcases hbc with hbc | ⟨hbc, hbc'⟩
      · exact Or.inl (hab ▸ hbc)
      · exact Or.inr ⟨hbc.trans hab, List.le_trans hab' hbc'⟩

instance : Std.Antisymm RankedValidator.Precedes where
  antisymm a b hab hba := by
    have heq : a.effectiveStake = b.effectiveStake :=
      UInt64.le_antisymm hba.effectiveStake_le hab.effectiveStake_le
    rcases hab with hlt | ⟨-, hab⟩
    · exact absurd (heq ▸ hlt) (UInt64.lt_irrefl _)
    rcases hba with hlt | ⟨-, hba⟩
    · exact absurd (heq ▸ hlt) (UInt64.lt_irrefl _)
    have hkey : a.pubkey = b.pubkey := Bytes.toList_inj (List.le_antisymm hab hba)
    cases a
    cases b
    cases hkey
    cases heq
    rfl

theorem sortByStake_sorted (it : DelegationOrder) (l : List ValidatorInfo) (pool : StakingPool) :
    (sortByStake it l pool).Pairwise RankedValidator.Precedes :=
  List.pairwise_insertionSort _ _

/-- **A ranking is one of the validators, not of the order they come in**: no two places are
equal, because ties are broken by key. -/
theorem sortByStake_perm (it it' : DelegationOrder) {l l' : List ValidatorInfo} (h : l.Perm l')
    (pool : StakingPool) : sortByStake it l pool = sortByStake it' l' pool := by
  have hrank : rank it pool = rank it' pool := by
    funext v
    unfold rank
    rw [StakingPool.getVotingPower_order it' it pool v.pubkey]
  refine List.Perm.eq_of_pairwise' (sortByStake_sorted it l pool)
    (sortByStake_sorted it' l' pool) ?_
  unfold sortByStake
  rw [hrank]
  exact ((List.perm_insertionSort _ _).trans (h.map _)).trans (List.perm_insertionSort _ _).symm

/-- The first of a ranking precedes the others. -/
theorem precedes_of_head {it : DelegationOrder} {l : List ValidatorInfo} {pool : StakingPool}
    {r r' : RankedValidator} (hr : (sortByStake it l pool).head? = some r)
    (hr' : r' ∈ sortByStake it l pool) (hne : r' ≠ r) : r.Precedes r' := by
  have hsorted := sortByStake_sorted it l pool
  cases hl : sortByStake it l pool with
  | nil =>
    rw [hl] at hr
    cases hr
  | cons a rest =>
    rw [hl] at hr hr' hsorted
    cases hr
    exact (List.pairwise_cons.mp hsorted).1 r' ((List.mem_cons.mp hr').resolve_left hne)

/-- The others precede the last of a ranking. -/
theorem precedes_of_getLast {it : DelegationOrder} {l : List ValidatorInfo} {pool : StakingPool}
    {r r' : RankedValidator} (hr : (sortByStake it l pool).getLast? = some r)
    (hr' : r' ∈ sortByStake it l pool) (hne : r' ≠ r) : r'.Precedes r := by
  have hsorted := sortByStake_sorted it l pool
  obtain ⟨front, hfront⟩ := List.getLast?_eq_some_iff.mp hr
  rw [hfront] at hr' hsorted
  have hmem : r' ∈ front :=
    (List.mem_append.mp hr').resolve_right fun h => hne (List.mem_singleton.mp h)
  exact (List.pairwise_append.mp hsorted).2.2 r' hmem r (List.mem_singleton_self r)

/-- The first of a ranking is the strongest. -/
theorem le_of_head {it : DelegationOrder} {l : List ValidatorInfo} {pool : StakingPool}
    {r r' : RankedValidator} (hr : (sortByStake it l pool).head? = some r)
    (hr' : r' ∈ sortByStake it l pool) : r'.effectiveStake ≤ r.effectiveStake := by
  by_cases hne : r' = r
  · rw [hne]
    exact UInt64.le_refl _
  · exact (precedes_of_head hr hr' hne).effectiveStake_le

/-- The last of a ranking is the weakest. -/
theorem ge_of_getLast {it : DelegationOrder} {l : List ValidatorInfo} {pool : StakingPool}
    {r r' : RankedValidator} (hr : (sortByStake it l pool).getLast? = some r)
    (hr' : r' ∈ sortByStake it l pool) : r.effectiveStake ≤ r'.effectiveStake := by
  by_cases hne : r' = r
  · rw [hne]
    exact UInt64.le_refl _
  · exact (precedes_of_getLast hr hr' hne).effectiveStake_le

/-- What makes a pair (promoted, demoted) a swap. -/
structure Swappable (pool : StakingPool) (m : Validators) (promoted demoted : PublicKey) :
    Prop where
  standby : ∃ v, m.lookup promoted = some v ∧ v.status = .standby
  active : ∃ v, m.lookup demoted = some v ∧ v.status = .active
  stronger : pool.getVotingPower .stored demoted < pool.getVotingPower .stored promoted

theorem Swappable.ne {pool : StakingPool} {m : Validators} {p d : PublicKey}
    (h : Swappable pool m p d) : p ≠ d := by
  rintro rfl
  exact UInt64.lt_irrefl _ h.stronger

theorem swapOnce_some {o : RotationOrder} {turn : Nat} {m m' : Validators} {pool : StakingPool}
    {swap : PublicKey × PublicKey} (hk : Keyed m)
    (h : swapOnce o turn m pool = some (m', swap)) :
    Swappable pool m swap.1 swap.2 ∧
      m' = setStatus .active swap.1 (setStatus .standby swap.2 m) := by
  unfold swapOnce at h
  dsimp only at h
  split at h
  · rename_i weakest strongest hlast hhead
    split at h
    · rename_i hgt
      obtain ⟨hm, hswap⟩ := Prod.mk.inj (Option.some.inj h)
      subst hswap
      obtain ⟨hactive, hpowerA⟩ := of_mem_ranked hk (List.mem_of_getLast? hlast)
      obtain ⟨hstandby, hpowerS⟩ := of_mem_ranked hk (List.mem_of_mem_head? hhead)
      refine ⟨⟨hstandby, hactive, ?_⟩, hm.symm⟩
      rw [← hpowerA, ← hpowerS]
      exact hgt
    · cases h
  · cases h

/-- A validator of a status is in the ranking of that status. -/
theorem mem_ranked (it : IterOrder ValidatorInfo) (itd : DelegationOrder) {m : Validators}
    (h : Keyed m) {k : PublicKey} {v : ValidatorInfo} (hv : m.lookup k = some v)
    (pool : StakingPool) :
    (⟨k, pool.getVotingPower itd k⟩ : RankedValidator) ∈
      sortByStake itd (withStatus it m v.status) pool := by
  have hkey := h k v hv
  refine mem_sortByStake.mpr ⟨v, (mem_withStatus h).mpr ⟨?_, rfl⟩, ?_⟩
  · rw [hkey]
    exact hv
  · unfold rank
    rw [hkey]

/-- The demoted validator is the weakest of the active. -/
theorem swapOnce_weakest {o : RotationOrder} {turn : Nat} {m m' : Validators}
    {pool : StakingPool} {swap : PublicKey × PublicKey} (hk : Keyed m)
    (h : swapOnce o turn m pool = some (m', swap)) {k : PublicKey} {v : ValidatorInfo}
    (hv : m.lookup k = some v) (hactive : v.status = .active) :
    pool.getVotingPower .stored swap.2 ≤ pool.getVotingPower .stored k := by
  unfold swapOnce at h
  dsimp only at h
  split at h
  · rename_i weakest strongest hlast hhead
    split at h
    · obtain ⟨-, hswap⟩ := Prod.mk.inj (Option.some.inj h)
      subst hswap
      have hmem := mem_ranked (o.validators turn) o.delegations hk hv pool
      rw [hactive] at hmem
      have hle := ge_of_getLast hlast hmem
      rw [(of_mem_ranked hk (List.mem_of_getLast? hlast)).2] at hle
      rw [StakingPool.getVotingPower_order .stored o.delegations pool k]
      exact hle
    · cases h
  · cases h

/-- The loop breaks exactly when no standby validator is stronger than an active one. -/
theorem swapOnce_none_iff {o : RotationOrder} {turn : Nat} {m : Validators} {pool : StakingPool}
    (hk : Keyed m) : swapOnce o turn m pool = none ↔ ∀ p d, ¬ Swappable pool m p d := by
  constructor
  · intro hnone p d hswap
    obtain ⟨vp, hp, hps⟩ := hswap.standby
    obtain ⟨vd, hd, hds⟩ := hswap.active
    have hmemP := mem_ranked (o.validators turn) o.delegations hk hp pool
    have hmemD := mem_ranked (o.validators turn) o.delegations hk hd pool
    rw [hps] at hmemP
    rw [hds] at hmemD
    -- both rankings have an end
    obtain ⟨strongest, hhead⟩ := Option.isSome_iff_exists.mp
      (List.isSome_head?.mpr (List.ne_nil_of_mem hmemP))
    obtain ⟨weakest, hlast⟩ := Option.isSome_iff_exists.mp
      (List.getLast?_isSome.mpr (List.ne_nil_of_mem hmemD))
    have hle := le_of_head hhead hmemP
    have hge := ge_of_getLast hlast hmemD
    have hstronger := hswap.stronger
    rw [StakingPool.getVotingPower_order .stored o.delegations pool p,
      StakingPool.getVotingPower_order .stored o.delegations pool d] at hstronger
    unfold swapOnce at hnone
    dsimp only at hnone
    rw [hhead, hlast] at hnone
    dsimp only at hnone
    rw [if_pos (UInt64.lt_of_lt_of_le (UInt64.lt_of_le_of_lt hge hstronger) hle)] at hnone
    cases hnone
  · intro hnone
    cases hs : swapOnce o turn m pool with
    | none => rfl
    | some r => exact absurd (swapOnce_some hk hs).1 (hnone _ _)

/-- What holds before the swap loop and survives every swap holds after it. -/
theorem swapLoop_invariant {o : RotationOrder} {pool : StakingPool}
    {I : Validators → List (PublicKey × PublicKey) → Prop}
    (ind : ∀ {m swaps m' swap}, I m swaps → swapOnce o swaps.length m pool = some (m', swap) →
      I m' (swaps ++ [swap])) :
    ∀ {fuel : Nat} {m m' : Validators} {swaps swaps' : List (PublicKey × PublicKey)}, I m swaps →
      swapLoop o pool fuel m swaps = some (m', swaps') →
        I m' swaps' ∧ swapOnce o swaps'.length m' pool = none := by
  intro fuel
  induction fuel with
  | zero => intro m m' swaps swaps' _ h; cases h
  | succ fuel ih =>
    intro m m' swaps swaps' hI h
    unfold swapLoop at h
    cases hs : swapOnce o swaps.length m pool with
    | none =>
      rw [hs] at h
      cases h
      exact ⟨hI, hs⟩
    | some r =>
      rw [hs] at h
      exact ih (ind hI hs) h

/-- A registry with other statuses: nothing else changes, and Jailed is neither left nor
entered. -/
def Reranked (m m' : Validators) : Prop :=
  ∀ k, match m.lookup k with
    | none => m'.lookup k = none
    | some v => ∃ s, m'.lookup k = some { v with status := s } ∧
        (s = .jailed ↔ v.status = .jailed)

theorem Reranked.refl (m : Validators) : Reranked m m := by
  intro k
  cases hl : m.lookup k with
  | none => rfl
  | some v => exact ⟨v.status, rfl, Iff.rfl⟩

theorem Reranked.setStatus {m m' : Validators} (h : Reranked m m') {k : PublicKey}
    {v : ValidatorInfo} (hv : m.lookup k = some v) (hfree : v.status ≠ .jailed)
    {s : ValidatorStatus} (hs : s ≠ .jailed) : Reranked m (setStatus s k m') := by
  intro k'
  have hk' := h k'
  unfold ValidatorSet.setStatus
  rw [HashMap.lookup_modify]
  by_cases heq : k' = k
  · subst heq
    rw [hv] at hk' ⊢
    obtain ⟨s', hl, -⟩ := hk'
    rw [if_pos rfl, hl]
    exact ⟨s, rfl, iff_of_false hs hfree⟩
  · rw [if_neg heq]
    exact hk'

/-- Who is not Jailed was not before. -/
theorem Reranked.free {m m' : Validators} (h : Reranked m m') {k : PublicKey} {w : ValidatorInfo}
    (hw : m'.lookup k = some w) (hfree : w.status ≠ .jailed) :
    ∃ v, m.lookup k = some v ∧ v.status ≠ .jailed := by
  have hk := h k
  cases hl : m.lookup k with
  | none =>
    rw [hl] at hk
    rw [hk] at hw
    cases hw
  | some v =>
    rw [hl] at hk
    obtain ⟨s, hs, hiff⟩ := hk
    rw [hs] at hw
    cases hw
    exact ⟨v, rfl, fun hj => hfree (hiff.mpr hj)⟩

end ValidatorSet

end Trv1Chain
