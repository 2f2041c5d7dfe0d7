import Trv1Chain.Proof.ActiveSet
import Trv1Chain.Validator.Registry

/-!
# The seats of the registry

The start-up seats the first `max_validators` of the genesis validators with the minimum stake and
puts the others with it on standby; the power of each is its initial stake. A rotation then either
has nothing to swap, and so has every later one, or it puts someone on standby who never gets back:
nobody seated after it is weaker.
-/

set_option autoImplicit false

namespace Trv1Chain

open Lib Staking ValidatorSet Genesis

/-! ## The seats at start-up -/

namespace ValidatorSet.ValidatorSetManager

/-- The status of a key, if it is registered. -/
def statusOf (vs : ValidatorSetManager) (k : PublicKey) : Option ValidatorStatus :=
  (vs.validators.lookup k).map (·.status)

theorem statusOf_eq_some {vs : ValidatorSetManager} {k : PublicKey} {s : ValidatorStatus} :
    vs.statusOf k = some s ↔ ∃ v, vs.validators.lookup k = some v ∧ v.status = s := by
  unfold statusOf
  rw [Option.map_eq_some_iff]

theorem isActive_iff (vs : ValidatorSetManager) (k : PublicKey) :
    vs.isActive k = true ↔ vs.statusOf k = some .active := by
  unfold isActive statusOf
  cases vs.validators.lookup k with
  | none => simp
  | some v => simp

end ValidatorSet.ValidatorSetManager

namespace Genesis

/-- The genesis validators with the minimum stake. -/
def staked (validators : List GenesisValidator) : List GenesisValidator :=
  validators.filter fun gv => decide (minStake ≤ gv.initialStake)

/-- Those the registry makes Active, and those it puts on standby. -/
def GenesisConfig.seated (genesis : GenesisConfig) : List GenesisValidator :=
  (staked genesis.validators).take genesis.chainParams.maxValidators

def GenesisConfig.waiting (genesis : GenesisConfig) : List GenesisValidator :=
  (staked genesis.validators).drop genesis.chainParams.maxValidators

theorem mem_staked {l : List GenesisValidator} {gv : GenesisValidator} :
    gv ∈ staked l ↔ gv ∈ l ∧ minStake ≤ gv.initialStake := by
  unfold staked
  rw [List.mem_filter, decide_eq_true_eq]

theorem activeCount_insert {m : Validators} {k : PublicKey} (hnew : m.lookup k = none)
    (v : ValidatorInfo) : activeCount (m.insert k v) = activeCount m + activeShare v := by
  have h := HashMap.total_erase activeShare m k
  rw [hnew] at h
  rw [activeCount_eq, activeCount_eq, HashMap.total_insert, ← h]
  exact Nat.add_comm _ _

/-- One more at the end is taken if the others leave room, and dropped if not. -/
theorem mem_take_snoc (seats : List GenesisValidator) (gv : GenesisValidator) (cap : Nat)
    (k : PublicKey) : k ∈ ((seats ++ [gv]).take cap).map (·.pubkey) ↔
      k ∈ (seats.take cap).map (·.pubkey) ∨ (seats.length < cap ∧ k = gv.pubkey) := by
  rw [List.take_append, List.map_append, List.mem_append]
  by_cases hroom : seats.length < cap
  · rw [List.take_of_length_le (l := [gv]) (by rw [List.length_singleton]; omega)]
    simp [hroom]
  · rw [Nat.sub_eq_zero_of_le (Nat.not_lt.mp hroom)]
    simp [hroom]

theorem mem_drop_snoc (seats : List GenesisValidator) (gv : GenesisValidator) (cap : Nat)
    (k : PublicKey) : k ∈ ((seats ++ [gv]).drop cap).map (·.pubkey) ↔
      k ∈ (seats.drop cap).map (·.pubkey) ∨ (cap ≤ seats.length ∧ k = gv.pubkey) := by
  rw [List.drop_append, List.map_append, List.mem_append]
  by_cases hroom : seats.length < cap
  · rw [List.drop_of_length_le (l := [gv]) (by rw [List.length_singleton]; omega)]
    simp [Nat.not_le.mpr hroom]
  · rw [Nat.sub_eq_zero_of_le (Nat.not_lt.mp hroom)]
    simp [Nat.not_lt.mp hroom]

/-- The registry after the genesis validators of a list, in its order. -/
structure Enrolled (cap : Nat) (l : List GenesisValidator) (vs : ValidatorSetManager) :
    Prop where
  keyed : Keyed vs.validators
  activeSetCap : vs.config.activeSetCap = cap
  minStake : vs.config.minStake = Genesis.minStake
  known : ∀ k, k ∉ l.map (·.pubkey) → vs.validators.lookup k = none
  active : ∀ k, vs.statusOf k = some .active ↔ k ∈ ((staked l).take cap).map (·.pubkey)
  standby : ∀ k, vs.statusOf k = some .standby ↔ k ∈ ((staked l).drop cap).map (·.pubkey)
  count : activeCount vs.validators = min cap (staked l).length

theorem enrolled_nil (config : ValidatorSetConfig) (hmin : config.minStake = minStake) :
    Enrolled config.activeSetCap [] (.withConfig config) where
  keyed := keyed_empty
  activeSetCap := rfl
  minStake := hmin
  known _ _ := rfl
  active k := by simp [staked, ValidatorSetManager.statusOf_eq_some, ValidatorSetManager.withConfig]
  standby k := by
    simp [staked, ValidatorSetManager.statusOf_eq_some, ValidatorSetManager.withConfig]
  count := (Nat.min_eq_right (Nat.zero_le _)).symm

variable {cap : Nat} {l : List GenesisValidator} {s : StakingPool × ValidatorSetManager}
  {gv : GenesisValidator}

/-- Too little stake: nothing is registered. -/
theorem Enrolled.enrol_short (h : Enrolled cap l s.2) (hnew : gv.pubkey ∉ l.map (·.pubkey))
    (hstake : ¬ Genesis.minStake ≤ gv.initialStake) :
    Enrolled cap (l ++ [gv]) (enrol s gv).2 := by
  have henrol : (enrol s gv).2 = s.2 := by
    show (s.2.registerValidator gv.pubkey gv.initialStake gv.commissionRate 0).1 = _
    unfold ValidatorSetManager.registerValidator
    rw [h.known _ hnew, if_neg (by simp), h.minStake, if_pos (UInt64.not_le.mp hstake)]
  have hlist : staked (l ++ [gv]) = staked l := by
    unfold staked
    rw [List.filter_append, List.filter_singleton, decide_eq_false hstake]
    exact List.append_nil _
  rw [henrol]
  refine ⟨h.keyed, h.activeSetCap, h.minStake, ?_, hlist ▸ h.active, hlist ▸ h.standby,
    hlist ▸ h.count⟩
  intro k hk
  rw [List.map_append, List.mem_append, not_or] at hk
  exact h.known k hk.1

/-- Enough stake: a new entry, Active as long as there is room. -/
theorem Enrolled.enrol_staked (h : Enrolled cap l s.2) (hnew : gv.pubkey ∉ l.map (·.pubkey))
    (hstake : Genesis.minStake ≤ gv.initialStake) :
    Enrolled cap (l ++ [gv]) (enrol s gv).2 := by
  let status : ValidatorStatus := if (staked l).length < cap then .active else .standby
  let info : ValidatorInfo := ⟨gv.pubkey, gv.initialStake, gv.commissionRate, status, 10000, 0⟩
  have hroom : activeCount s.2.validators < cap ↔ (staked l).length < cap := by
    rw [h.count]
    omega
  have henrol : (enrol s gv).2 =
      { s.2 with validators := s.2.validators.insert gv.pubkey info } := by
    show (s.2.registerValidator gv.pubkey gv.initialStake gv.commissionRate 0).1 = _
    unfold ValidatorSetManager.registerValidator
    rw [h.known _ hnew, if_neg (by simp), h.minStake, if_neg (UInt64.not_lt.mpr hstake),
      h.activeSetCap]
    simp only [hroom]
    rfl
  have hlist : staked (l ++ [gv]) = staked l ++ [gv] := by
    unfold staked
    rw [List.filter_append, List.filter_singleton, decide_eq_true hstake]
    rfl
  have hstatus : ∀ k, (enrol s gv).2.statusOf k =
      if k = gv.pubkey then some status else s.2.statusOf k := by
    intro k
    rw [henrol]
    unfold ValidatorSetManager.statusOf
    by_cases hk : k = gv.pubkey
    · subst hk
      rw [if_pos rfl, AList.lookup_insert]
      rfl
    · rw [if_neg hk, AList.lookup_insert_ne hk]
  have hcount : activeCount (enrol s gv).2.validators =
      activeCount s.2.validators + activeShare info := by
    rw [henrol]
    exact activeCount_insert (h.known _ hnew) info
  have hnone : s.2.statusOf gv.pubkey = none := by
    unfold ValidatorSetManager.statusOf
    rw [h.known _ hnew]
    rfl
  refine ⟨henrol ▸ h.keyed.insert info, henrol ▸ h.activeSetCap, henrol ▸ h.minStake, ?_, ?_, ?_,
    ?_⟩
  · intro k hk
    rw [List.map_append, List.mem_append, not_or] at hk
    have hne : k ≠ gv.pubkey := by simpa using hk.2
    rw [henrol]
    exact (AList.lookup_insert_ne hne).trans (h.known k hk.1)
  · intro k
    rw [hstatus, hlist, mem_take_snoc, ← h.active k]
    by_cases hk : k = gv.pubkey
    · subst hk
      simp [status, hnone]
    · simp [hk]
  · intro k
    rw [hstatus, hlist, mem_drop_snoc, ← h.standby k]
    by_cases hk : k = gv.pubkey
    · subst hk
      simp [status, hnone]
    · simp [hk]
  · rw [hcount, h.count, hlist, List.length_append, List.length_singleton]
    show _ + (if status = .active then 1 else 0) = _
    by_cases hfree : (staked l).length < cap
    · have hst : status = .active := if_pos hfree
      rw [if_pos hst]
      omega
    · have hst : status = .standby := if_neg hfree
      rw [hst, if_neg (by simp)]
      omega

/-- The staking pool after the genesis validators of a list: one stake each, as delegators. -/
structure Deposited (l : List GenesisValidator) (pool : StakingPool) : Prop where
  currentEpoch : pool.currentEpoch = 0
  delegations : pool.delegations = ∅
  known : ∀ k, k ∉ l.map (·.pubkey) → pool.entries.lookup k = none
  deposit : ∀ gv ∈ l, gv.initialStake ≠ 0 →
    pool.entries.lookup gv.pubkey = some [Entry.new gv.pubkey gv.initialStake .delegator 0]

/-- The entry is there even when the total no longer fits. -/
theorem stake_entries (pool : StakingPool) (k : PublicKey) {amount : UInt64} (tier : LockTier)
    (hpos : amount ≠ 0) : (pool.stake k amount tier).1.entries =
      pool.entries.insert k
        ((pool.entries.lookup k).getD [] ++ [Entry.new k amount tier pool.currentEpoch]) := by
  unfold StakingPool.stake Book.deposit
  rw [if_neg hpos]
  dsimp only
  split
  · rfl
  · rfl

theorem stake_zero (pool : StakingPool) (k : PublicKey) (tier : LockTier) :
    (pool.stake k 0 tier).1 = pool := rfl

theorem Deposited.enrol (h : Deposited l s.1) (hnew : gv.pubkey ∉ l.map (·.pubkey)) :
    Deposited (l ++ [gv]) (enrol s gv).1 := by
  show Deposited _ (s.1.stake gv.pubkey gv.initialStake .delegator).1
  by_cases hpos : gv.initialStake = 0
  · rw [hpos, stake_zero]
    refine ⟨h.currentEpoch, h.delegations, ?_, ?_⟩
    · intro k hk
      rw [List.map_append, List.mem_append, not_or] at hk
      exact h.known k hk.1
    · intro gv' hgv' hpos'
      rcases List.mem_append.mp hgv' with hold | hlast
      · exact h.deposit gv' hold hpos'
      · rw [List.mem_singleton.mp hlast] at hpos'
        exact absurd hpos hpos'
  · refine ⟨h.currentEpoch, h.delegations, ?_, ?_⟩
    · intro k hk
      rw [List.map_append, List.mem_append, not_or] at hk
      have hne : k ≠ gv.pubkey := by simpa using hk.2
      rw [stake_entries _ _ _ hpos, AList.lookup_insert_ne hne]
      exact h.known k hk.1
    · intro gv' hgv' hpos'
      rw [stake_entries _ _ _ hpos, h.currentEpoch]
      rcases List.mem_append.mp hgv' with hold | hlast
      · have hne : gv'.pubkey ≠ gv.pubkey := fun heq => hnew (heq ▸ List.mem_map_of_mem hold)
        rw [AList.lookup_insert_ne hne]
        exact h.deposit gv' hold hpos'
      · rw [List.mem_singleton.mp hlast, AList.lookup_insert, h.known _ hnew]
        rfl

/-- A delegator's stake weighs its amount. -/
theorem Deposited.power {pool : StakingPool} (h : Deposited l pool) (hgv : gv ∈ l)
    (hpos : gv.initialStake ≠ 0) : pool.getVotingPower .stored gv.pubkey = gv.initialStake := by
  have hown : pool.ownPowers gv.pubkey = [gv.initialStake] := by
    unfold StakingPool.ownPowers
    rw [h.deposit gv hgv hpos]
    show [UInt64.ofNat (gv.initialStake.toNat * 1000 / 1000)] = _
    rw [Nat.mul_div_cancel _ (by decide), UInt64.ofNat_toNat]
  have hdel : pool.delegatedPowers gv.pubkey = [] := by
    unfold StakingPool.delegatedPowers
    rw [h.delegations]
    rfl
  rw [StakingPool.getVotingPower_eq, hown, hdel]
  apply UInt64.toNat_inj.mp
  show (saturatingAdd 0 gv.initialStake).toNat = _
  rw [toNat_saturatingAdd]
  have hlt := gv.initialStake.toNat_lt
  have hzero : (0 : UInt64).toNat = 0 := rfl
  omega

/-- **The two ledgers at start-up.** -/
theorem enrolled_of_nodup {genesis : GenesisConfig}
    (hnodup : (genesis.validators.map (·.pubkey)).Nodup) :
    Enrolled genesis.chainParams.maxValidators genesis.validators genesis.enrolAll.2 ∧
      Deposited genesis.validators genesis.enrolAll.1 := by
  unfold GenesisConfig.enrolAll
  revert hnodup
  -- the induction adds the validators at the end, as the loop does
  induction genesis.validators using List.reverseRecOn with
  | nil =>
    intro _
    exact ⟨enrolled_nil genesis.validatorSetConfig rfl, rfl, rfl, fun _ _ => rfl, by simp⟩
  | append_singleton l gv ih =>
    intro hnodup
    rw [List.map_append, List.nodup_append] at hnodup
    obtain ⟨hl, -, hdisj⟩ := hnodup
    have hnew : gv.pubkey ∉ l.map (·.pubkey) :=
      fun hmem => hdisj _ hmem _ (List.mem_singleton_self _) rfl
    obtain ⟨hset, hpool⟩ := ih hl
    rw [List.foldl_append]
    refine ⟨?_, hpool.enrol hnew⟩
    by_cases hstake : minStake ≤ gv.initialStake
    · exact hset.enrol_staked hnew hstake
    · exact hset.enrol_short hnew hstake

end Genesis

/-! ## What rotations do to the seats -/

namespace ValidatorSet

variable {o : RotationOrder} {pool : StakingPool} {cap : Nat} {m m' : Validators}

theorem rotate_some {swaps : List (PublicKey × PublicKey)}
    (h : rotate o m pool cap = some (m', swaps)) :
    ∃ m₁, swapLoop o pool (HashMap.total (slack pool) m + 1) m [] = some (m₁, swaps) ∧
      m' = fillSlots o (swaps.length + 1) m₁ pool cap := by
  unfold rotate at h
  dsimp only at h
  cases hloop : swapLoop o pool (HashMap.total (slack pool) m + 1) m [] with
  | none =>
    rw [hloop] at h
    cases h
  | some r =>
    rw [hloop] at h
    cases h
    exact ⟨r.1, rfl, rfl⟩

/-- No place to fill, or nobody to fill it. -/
theorem fillSlots_settled (turn : Nat) (hk : Keyed m) (hfill : activeCount m < cap →
    ∀ k v, m.lookup k = some v → v.status ≠ .standby) : fillSlots o turn m pool cap = m := by
  unfold fillSlots
  dsimp only
  split
  · rename_i hroom
    have hempty : sortByStake o.delegations (withStatus (o.validators turn) m .standby) pool =
        [] := by
      apply List.eq_nil_iff_forall_not_mem.mpr
      intro r hr
      obtain ⟨⟨v, hv, hs⟩, -⟩ := of_mem_ranked hk hr
      exact hfill hroom r.pubkey v hv hs
    rw [hempty, List.take_nil]
    rfl
  · rfl

/-- Nothing to swap and nothing to fill. -/
theorem rotate_eq_self (hk : Keyed m) (hswap : ∀ p d, ¬ Swappable pool m p d)
    (hfill : activeCount m < cap → ∀ k v, m.lookup k = some v → v.status ≠ .standby) :
    rotate o m pool cap = some (m, []) := by
  unfold rotate swapLoop
  dsimp only
  rw [(swapOnce_none_iff hk).mpr hswap]
  dsimp only
  rw [fillSlots_settled _ hk hfill]

theorem rotate_settled (hk : Keyed m) (hswap : ∀ p d, ¬ Swappable pool m p d)
    (hfill : activeCount m < cap → ∀ k v, m.lookup k = some v → v.status ≠ .standby)
    {swaps : List (PublicKey × PublicKey)} (h : rotate o m pool cap = some (m', swaps)) :
    m' = m := by
  rw [rotate_eq_self hk hswap hfill] at h
  cases h
  rfl

/-- The seats are all taken, and nobody seated is weaker than `d`, who is on standby. -/
structure Outranked (pool : StakingPool) (cap : Nat) (d : PublicKey) (m : Validators) : Prop where
  keyed : Keyed m
  standby : ∃ v, m.lookup d = some v ∧ v.status = .standby
  weakest : ∀ k v, m.lookup k = some v → v.status = .active →
    pool.getVotingPower .stored d ≤ pool.getVotingPower .stored k
  full : activeCount m = cap

theorem lookup_swap (p d k : PublicKey) :
    (setStatus .active p (setStatus .standby d m)).lookup k =
      if k = p then ((setStatus .standby d m).lookup p).map ({ · with status := .active })
      else if k = d then (m.lookup d).map ({ · with status := .standby }) else m.lookup k := by
  unfold setStatus
  rw [HashMap.lookup_modify]
  split
  · rfl
  · rw [HashMap.lookup_modify]

/-- Who is Active after a swap: the promoted, or one of the others that were. -/
theorem active_swap {p d k : PublicKey} {v : ValidatorInfo}
    (hv : (setStatus .active p (setStatus .standby d m)).lookup k = some v)
    (hactive : v.status = .active) : k = p ∨ m.lookup k = some v := by
  rw [lookup_swap] at hv
  by_cases hp : k = p
  · exact Or.inl hp
  · rw [if_neg hp] at hv
    by_cases hd : k = d
    · rw [if_pos hd] at hv
      obtain ⟨w, -, rfl⟩ := Option.map_eq_some_iff.mp hv
      cases hactive
    · rw [if_neg hd] at hv
      exact Or.inr hv

/-- The first swap leaves the demoted validator outranked. -/
theorem swapOnce_outranked {turn : Nat} {swap : PublicKey × PublicKey} (hk : Keyed m)
    (hfull : activeCount m = cap) (hs : swapOnce o turn m pool = some (m', swap)) :
    Outranked pool cap swap.2 m' := by
  obtain ⟨hswap, rfl⟩ := swapOnce_some hk hs
  refine ⟨(hk.setStatus _ _).setStatus _ _, ?_, ?_, hswap.activeCount.trans hfull⟩
  · obtain ⟨v, hv, -⟩ := hswap.active
    refine ⟨{ v with status := .standby }, ?_, rfl⟩
    rw [lookup_swap, if_neg hswap.ne.symm, if_pos rfl, hv]
    rfl
  · intro k v hv hactive
    rcases active_swap hv hactive with rfl | hold
    · exact UInt64.le_of_lt hswap.stronger
    · exact swapOnce_weakest hk hs hold hactive

/-- Later swaps bring in only validators stronger than someone seated, so never `d`. -/
theorem Outranked.swap {d p q : PublicKey} (h : Outranked pool cap d m)
    (hs : Swappable pool m p q) :
    Outranked pool cap d (setStatus .active p (setStatus .standby q m)) := by
  obtain ⟨vq, hq, hqs⟩ := hs.active
  obtain ⟨vd, hd, hds⟩ := h.standby
  have hlt := UInt64.lt_of_le_of_lt (h.weakest q vq hq hqs) hs.stronger
  have hdp : d ≠ p := by
    rintro rfl
    exact UInt64.lt_irrefl _ hlt
  have hdq : d ≠ q := by
    rintro rfl
    rw [hd] at hq
    cases hq
    rw [hds] at hqs
    cases hqs
  refine ⟨(h.keyed.setStatus _ _).setStatus _ _, ⟨vd, ?_, hds⟩, ?_, hs.activeCount.trans h.full⟩
  · rw [lookup_swap, if_neg hdp, if_neg hdq]
    exact hd
  · intro k v hv hactive
    rcases active_swap hv hactive with rfl | hold
    · exact UInt64.le_of_lt hlt
    · exact h.weakest k v hold hactive

theorem Outranked.swapLoop {d : PublicKey} (h : Outranked pool cap d m) {fuel : Nat}
    {swaps swaps' : List (PublicKey × PublicKey)}
    (hloop : ValidatorSet.swapLoop o pool fuel m swaps = some (m', swaps')) :
    Outranked pool cap d m' := by
  refine (swapLoop_invariant (I := fun m _ => Outranked pool cap d m) ?_ h hloop).1
  intro m swaps m' swap hm hs
  obtain ⟨hswap, rfl⟩ := swapOnce_some hm.keyed hs
  exact hm.swap hswap

theorem Outranked.fillSlots {d : PublicKey} (h : Outranked pool cap d m) (turn : Nat) :
    Outranked pool cap d (fillSlots o turn m pool cap) := by
  rw [fillSlots_settled turn h.keyed (fun hroom => absurd hroom (by rw [h.full]; omega))]
  exact h

/-- As many rotations, one after the other, in whatever orders. -/
inductive Rotations (pool : StakingPool) (cap : Nat) (m : Validators) : Nat → Validators → Prop
  | none : Rotations pool cap m 0 m
  | more {n : Nat} {m₁ m₂ : Validators} {o : RotationOrder}
      {swaps : List (PublicKey × PublicKey)} : Rotations pool cap m n m₁ →
      rotate o m₁ pool cap = some (m₂, swaps) → Rotations pool cap m (n + 1) m₂

theorem Rotations.zero (h : Rotations pool cap m 0 m') : m' = m := by
  cases h with
  | none => rfl

theorem Rotations.settled (hk : Keyed m) (hswap : ∀ p d, ¬ Swappable pool m p d)
    (hfill : activeCount m < cap → ∀ k v, m.lookup k = some v → v.status ≠ .standby) {n : Nat}
    (h : Rotations pool cap m n m') : m' = m := by
  induction h with
  | none => rfl
  | more _ hrot ih =>
    subst ih
    exact rotate_settled hk hswap hfill hrot

/-- **A seat lost is lost for good**: once a rotation has something to swap, someone who was Active
is on standby after it and after every later one. -/
theorem Rotations.unseats (hk : Keyed m) (hfull : activeCount m = cap) {p q : PublicKey}
    (hswap : Swappable pool m p q) {n : Nat} (h : Rotations pool cap m (n + 1) m') :
    ∃ d, (∃ v, m.lookup d = some v ∧ v.status = .active) ∧ Outranked pool cap d m' := by
  induction n generalizing m' with
  | zero =>
    cases h with
    | more h hrot =>
      cases h
      obtain ⟨m₁, hloop, rfl⟩ := rotate_some hrot
      unfold ValidatorSet.swapLoop at hloop
      rename_i o swaps
      cases hs : swapOnce o 0 m pool with
      | none => exact absurd hswap ((swapOnce_none_iff hk).mp hs p q)
      | some r =>
        rw [List.length_nil, hs] at hloop
        exact ⟨r.2.2, (swapOnce_some hk hs).1.active,
          ((swapOnce_outranked hk hfull hs).swapLoop hloop).fillSlots _⟩
  | succ n ih =>
    cases h with
    | more h hrot =>
      obtain ⟨d, hactive, hd⟩ := ih h
      obtain ⟨m₂, hloop, rfl⟩ := rotate_some hrot
      exact ⟨d, hactive, (hd.swapLoop hloop).fillSlots _⟩

end ValidatorSet

end Trv1Chain
