import Trv1Chain.Lib.Run
import Trv1Chain.ValidatorSet.Manager

/-!
# The cap on the active set

Validators become Active when they register, when a rotation swaps them in and when it fills a free
place. A registration and a free place are checked against the cap; a swap promotes one validator
for one that it demotes, because the map is stored under its own keys. The same fact ends the swap
loop: each swap puts a stronger validator in the place of a weaker one.
-/

set_option autoImplicit false

namespace Trv1Chain

open Lib Staking

namespace ValidatorSet

/-! ## Counting -/

/-- The share of a validator in the active count. -/
def activeShare (v : ValidatorInfo) : Nat := if v.status = .active then 1 else 0

theorem activeCount_eq (m : Validators) : activeCount m = HashMap.total activeShare m := by
  show (m.values.filter fun v => v.status == .active).length = (m.values.map activeShare).sum
  induction m.values with
  | nil => rfl
  | cons v l ih =>
    rw [List.filter_cons, List.map_cons, List.sum_cons, ← ih]
    unfold activeShare
    by_cases h : v.status = .active
    · rw [if_pos h, if_pos (beq_iff_eq.mpr h), List.length_cons, Nat.add_comm]
    · rw [if_neg h, if_neg (fun hb => h (beq_iff_eq.mp hb)), Nat.zero_add]

/-- A change of status moves any quantity by the share of the one entry. -/
theorem total_setStatus (f : ValidatorInfo → Nat) {m : Validators} {k : PublicKey}
    {v : ValidatorInfo} (hv : m.lookup k = some v) (s : ValidatorStatus) :
    HashMap.total f (setStatus s k m) + f v = HashMap.total f m + f { v with status := s } := by
  have h := HashMap.total_modify (fun v => { v with status := s }) f m k
  rw [hv] at h
  exact h

/-- A promotion fills at most one place. -/
theorem activeCount_promote (k : PublicKey) (m : Validators) :
    activeCount (setStatus .active k m) ≤ activeCount m + 1 := by
  have h := HashMap.total_modify (fun v => { v with status := .active }) activeShare m k
  have hone : ((m.lookup k).elim 0 fun v => activeShare { v with status := .active }) ≤ 1 := by
    cases m.lookup k with
    | none => exact Nat.zero_le _
    | some v => exact Nat.le_refl _
  rw [activeCount_eq, activeCount_eq]
  unfold setStatus
  omega

theorem activeCount_foldl_promote : ∀ (l : List RankedValidator) (m : Validators),
    activeCount (l.foldl (fun m r => setStatus .active r.pubkey m) m) ≤
      activeCount m + l.length := by
  intro l
  induction l with
  | nil => intro m; exact Nat.le_refl _
  | cons r l ih =>
    intro m
    have hrest := ih (setStatus .active r.pubkey m)
    have hfirst := activeCount_promote r.pubkey m
    rw [List.foldl_cons, List.length_cons]
    omega

/-! ## A swap -/

/-- A swap moves any quantity by what the two validators weigh in their new places. -/
theorem Swappable.total {pool : StakingPool} {m : Validators} {p d : PublicKey}
    (h : Swappable pool m p d) (f : ValidatorInfo → Nat) :
    ∃ vp vd, (m.lookup p = some vp ∧ vp.status = .standby) ∧
      (m.lookup d = some vd ∧ vd.status = .active) ∧
      HashMap.total f (setStatus .active p (setStatus .standby d m)) + f vp + f vd =
        HashMap.total f m + f { vp with status := .active } + f { vd with status := .standby } := by
  obtain ⟨vp, hp, hps⟩ := h.standby
  obtain ⟨vd, hd, hds⟩ := h.active
  have hp' : (setStatus .standby d m).lookup p = some vp := by
    unfold setStatus
    rw [HashMap.lookup_modify, if_neg h.ne]
    exact hp
  have h₁ := total_setStatus f hd .standby
  have h₂ := total_setStatus f hp' .active
  exact ⟨vp, vd, ⟨hp, hps⟩, ⟨hd, hds⟩, by omega⟩

theorem Swappable.activeCount {pool : StakingPool} {m : Validators} {p d : PublicKey}
    (h : Swappable pool m p d) :
    ValidatorSet.activeCount (setStatus .active p (setStatus .standby d m)) =
      ValidatorSet.activeCount m := by
  obtain ⟨vp, vd, ⟨-, hps⟩, ⟨-, hds⟩, htotal⟩ := h.total activeShare
  rw [activeCount_eq, activeCount_eq]
  simp [activeShare, hps, hds] at htotal
  omega

/-- A swap uses up fuel. -/
theorem Swappable.slack {pool : StakingPool} {m : Validators} (hk : Keyed m) {p d : PublicKey}
    (h : Swappable pool m p d) :
    HashMap.total (slack pool) (setStatus .active p (setStatus .standby d m)) <
      HashMap.total (slack pool) m := by
  obtain ⟨vp, vd, ⟨hp, hps⟩, ⟨hd, hds⟩, htotal⟩ := h.total (ValidatorSet.slack pool)
  have hlt := UInt64.lt_iff_toNat_lt.mp h.stronger
  have hmax := (pool.getVotingPower .stored p).toNat_lt
  simp [ValidatorSet.slack, hps, hds, hk p vp hp, hk d vd hd] at htotal
  omega

theorem Reranked.swap {pool : StakingPool} {m₀ m : Validators} (h : Reranked m₀ m)
    {p d : PublicKey} (hs : Swappable pool m p d) :
    Reranked m₀ (ValidatorSet.setStatus .active p (ValidatorSet.setStatus .standby d m)) := by
  obtain ⟨wp, hp, hps⟩ := hs.standby
  obtain ⟨wd, hd, hds⟩ := hs.active
  obtain ⟨vp, hp, hpfree⟩ := h.free hp (by simp [hps])
  obtain ⟨vd, hd, hdfree⟩ := h.free hd (by simp [hds])
  exact (h.setStatus hd hdfree (by simp)).setStatus hp hpfree (by simp)

/-! ## A rotation -/

/-- The swap loop returns when the fuel exceeds what it can use up. -/
theorem swapLoop_returns (o : RotationOrder) (pool : StakingPool) :
    ∀ (fuel : Nat) {m : Validators} (swaps : List (PublicKey × PublicKey)), Keyed m →
      HashMap.total (slack pool) m < fuel → (swapLoop o pool fuel m swaps).isSome = true := by
  intro fuel
  induction fuel with
  | zero => intro m swaps _ h; exact absurd h (Nat.not_lt_zero _)
  | succ fuel ih =>
    intro m swaps hk hfuel
    unfold swapLoop
    cases hs : swapOnce o swaps.length m pool with
    | none => rfl
    | some r =>
      obtain ⟨hswap, hm⟩ := swapOnce_some hk hs
      have hless := hswap.slack hk
      rw [← hm] at hless
      apply ih
      · rw [hm]
        exact (hk.setStatus _ _).setStatus _ _
      · omega

theorem Reranked.foldl_promote {m₀ : Validators} : ∀ {l : List RankedValidator} {m : Validators},
    Reranked m₀ m → Keyed m →
    (∀ r ∈ l, ∃ v, m₀.lookup r.pubkey = some v ∧ v.status ≠ .jailed) →
    Reranked m₀ (l.foldl (fun m r => ValidatorSet.setStatus .active r.pubkey m) m) ∧
      Keyed (l.foldl (fun m r => ValidatorSet.setStatus .active r.pubkey m) m) := by
  intro l
  induction l with
  | nil => intro m h hk _; exact ⟨h, hk⟩
  | cons r l ih =>
    intro m h hk hall
    rw [List.forall_mem_cons] at hall
    obtain ⟨⟨v, hv, hfree⟩, hall⟩ := hall
    rw [List.foldl_cons]
    exact ih (h.setStatus hv hfree (by simp)) (hk.setStatus _ _) hall

theorem fillSlots_reranked (o : RotationOrder) (turn : Nat) {m₀ m : Validators}
    (pool : StakingPool) (cap : Nat) (hk : Keyed m) (h : Reranked m₀ m) :
    Reranked m₀ (fillSlots o turn m pool cap) ∧ Keyed (fillSlots o turn m pool cap) := by
  unfold fillSlots
  dsimp only
  split
  · -- all that is promoted is on standby in `m`
    apply h.foldl_promote hk
    intro r hr
    obtain ⟨⟨w, hw, hws⟩, -⟩ := of_mem_ranked hk (List.mem_of_mem_take hr)
    exact h.free hw (by simp [hws])
  · exact ⟨h, hk⟩

theorem activeCount_fillSlots (o : RotationOrder) (turn : Nat) {m : Validators}
    (pool : StakingPool) {cap : Nat} (h : activeCount m ≤ cap) :
    activeCount (fillSlots o turn m pool cap) ≤ cap := by
  unfold fillSlots
  dsimp only
  split
  · have hle := activeCount_foldl_promote ((sortByStake o.delegations
      (withStatus (o.validators turn) m .standby) pool).take (cap - activeCount m)) m
    have htake := List.length_take_le (cap - activeCount m) (sortByStake o.delegations
      (withStatus (o.validators turn) m .standby) pool)
    omega
  · exact h

/-- What a rotation leaves alone: the keys, all fields but the status, the Jailed, and the
cap. -/
structure Rotated (cap : Nat) (m m' : Validators) : Prop where
  keyed : Keyed m'
  reranked : Reranked m m'
  capped : activeCount m ≤ cap → activeCount m' ≤ cap

/-- **A rotation returns.** -/
theorem rotate_rotated (o : RotationOrder) {m : Validators} (hk : Keyed m) (pool : StakingPool)
    (cap : Nat) : ∃ m' swaps, rotate o m pool cap = some (m', swaps) ∧ Rotated cap m m' := by
  have hsome := swapLoop_returns o pool (HashMap.total (slack pool) m + 1) [] hk
    (Nat.lt_succ_self _)
  obtain ⟨⟨m₁, swaps⟩, hloop⟩ := Option.isSome_iff_exists.mp hsome
  -- the three parts survive each swap
  obtain ⟨⟨hk₁, hr₁, hcount⟩, -⟩ := swapLoop_invariant
    (I := fun m₁ _ => Keyed m₁ ∧ Reranked m m₁ ∧ activeCount m₁ = activeCount m)
    (by
      intro m₁ swaps m₂ swap hI hs
      obtain ⟨hk₁, hr₁, hcount⟩ := hI
      obtain ⟨hswap, rfl⟩ := swapOnce_some hk₁ hs
      exact ⟨(hk₁.setStatus _ _).setStatus _ _, hr₁.swap hswap, hswap.activeCount.trans hcount⟩)
    ⟨hk, Reranked.refl m, rfl⟩ hloop
  obtain ⟨hr₂, hk₂⟩ := fillSlots_reranked o (swaps.length + 1) pool cap hk₁ hr₁
  refine ⟨_, swaps, ?_, hk₂, hr₂, ?_⟩
  · unfold rotate
    dsimp only
    rw [hloop]
  · intro hcap
    exact activeCount_fillSlots o _ pool (by omega)

/-! ## A call -/

namespace ValidatorSetManager

/-- Everything a call can do to a registry stored under its own keys. -/
inductive Does (vs : ValidatorSetManager) : Call → ValidatorSetManager → Prop
  | refused (c : Call) : Does vs c vs
  | registered {k : PublicKey} {stake : UInt64} {commissionRate : UInt16} {height : UInt64}
      {status : ValidatorStatus} : vs.validators.lookup k = none → vs.config.minStake ≤ stake →
      status ≠ .jailed → (status = .active → activeCount vs.validators < vs.config.activeSetCap) →
      Does vs (.registerValidator k stake commissionRate height)
        { vs with
          validators := vs.validators.insert k ⟨k, stake, commissionRate, status, 10000, height⟩ }
  | deregistered {k : PublicKey} {v : ValidatorInfo} : vs.validators.lookup k = some v →
      Does vs (.deregisterValidator k) { vs with validators := vs.validators.erase k }
  | updated (k : PublicKey) (newStake : UInt64) :
      Does vs (.updateStake k newStake)
        { vs with
          validators := HashMap.modify (fun v => { v with stake := newStake }) k vs.validators }
  | jailed (k : PublicKey) :
      Does vs (.jail k) { vs with validators := setStatus .jailed k vs.validators }
  | unjailed {k : PublicKey} {v : ValidatorInfo} : vs.validators.lookup k = some v →
      v.status = .jailed →
      Does vs (.unjail k) { vs with validators := setStatus .standby k vs.validators }
  | rotated {o : RotationOrder} {pool : StakingPool} {m : Validators} :
      Rotated vs.config.activeSetCap vs.validators m →
      Does vs (.epochRotation o pool)
        { vs with validators := m, currentEpoch := vs.currentEpoch + 1 }

theorem registerValidator_does (vs : ValidatorSetManager) (k : PublicKey) (stake : UInt64)
    (commissionRate : UInt16) (height : UInt64) :
    Does vs (.registerValidator k stake commissionRate height)
      (vs.registerValidator k stake commissionRate height).1 := by
  unfold registerValidator
  split
  · exact .refused _
  rename_i hnone
  split
  · exact .refused _
  rename_i hstake
  refine .registered (Option.not_isSome_iff_eq_none.mp hnone) (UInt64.not_lt.mp hstake) ?_ ?_
  · split
    · simp
    · simp
  · split
    · rename_i hroom
      exact fun _ => hroom
    · simp

theorem deregisterValidator_does (vs : ValidatorSetManager) (k : PublicKey) :
    Does vs (.deregisterValidator k) (vs.deregisterValidator k).1 := by
  unfold deregisterValidator
  cases hl : vs.validators.lookup k with
  | none => exact .refused _
  | some v => exact .deregistered hl

theorem updateStake_does (vs : ValidatorSetManager) (k : PublicKey) (newStake : UInt64) :
    Does vs (.updateStake k newStake) (vs.updateStake k newStake).1 := by
  unfold updateStake
  cases hl : vs.validators.lookup k with
  | none => exact .refused _
  | some v => exact .updated k newStake

theorem jail_does (vs : ValidatorSetManager) (k : PublicKey) :
    Does vs (.jail k) (vs.jail k).1 := by
  unfold ValidatorSetManager.jail ValidatorSet.jail
  cases hl : vs.validators.lookup k with
  | none => exact .refused _
  | some v => exact .jailed k

theorem unjail_does (vs : ValidatorSetManager) (k : PublicKey) :
    Does vs (.unjail k) (vs.unjail k).1 := by
  unfold ValidatorSetManager.unjail ValidatorSet.unjail
  cases hl : vs.validators.lookup k with
  | none => exact .refused _
  | some v =>
    by_cases hj : v.status = .jailed
    · simp only [ne_eq, hj, not_true_eq_false, if_false]
      exact .unjailed hl hj
    · simp only [ne_eq, hj, not_false_eq_true, if_true]
      exact .refused _

theorem epochRotation_does (o : RotationOrder) {vs : ValidatorSetManager}
    (hk : Keyed vs.validators) (pool : StakingPool) :
    ∃ vs' swaps, vs.epochRotation o pool = some (vs', swaps) ∧
      Does vs (.epochRotation o pool) vs' := by
  obtain ⟨m, swaps, hrot, hm⟩ := rotate_rotated o hk pool vs.config.activeSetCap
  refine ⟨_, swaps, ?_, .rotated hm⟩
  unfold epochRotation
  rw [hrot]

/-- **The list of what a call does is complete**, and every call returns. -/
theorem call_does {vs : ValidatorSetManager} (hk : Keyed vs.validators) (c : Call) :
    ∃ vs' a, vs.call c = some (vs', a) ∧ Does vs c vs' := by
  cases c with
  | registerValidator k stake commissionRate height =>
    exact ⟨_, _, rfl, vs.registerValidator_does k stake commissionRate height⟩
  | deregisterValidator k => exact ⟨_, _, rfl, vs.deregisterValidator_does k⟩
  | updateStake k newStake => exact ⟨_, _, rfl, vs.updateStake_does k newStake⟩
  | jail k => exact ⟨_, _, rfl, vs.jail_does k⟩
  | unjail k => exact ⟨_, _, rfl, vs.unjail_does k⟩
  | epochRotation o pool =>
    obtain ⟨vs', swaps, hrot, hdoes⟩ := epochRotation_does o hk pool
    refine ⟨vs', .swapped swaps, ?_, hdoes⟩
    show (vs.epochRotation o pool).map _ = _
    rw [hrot]
    rfl

/-- The registry as a machine. -/
def step (vs : ValidatorSetManager) (c : Call) : Option (ValidatorSetManager × List Answer) :=
  (vs.call c).map fun r => (r.1, [r.2])

theorem step_does {vs vs' : ValidatorSetManager} {c : Call} {out : List Answer}
    (hk : Keyed vs.validators) (hs : vs.step c = some (vs', out)) : Does vs c vs' := by
  obtain ⟨vs₁, a, hcall, hdoes⟩ := call_does hk c
  unfold step at hs
  rw [hcall] at hs
  cases hs
  exact hdoes

/-! ## The invariant -/

/-- Stored under its own keys, and no more Active than the cap. -/
structure WellFormed (vs : ValidatorSetManager) : Prop where
  keyed : Keyed vs.validators
  capped : activeCount vs.validators ≤ vs.config.activeSetCap

theorem wellFormed_withConfig (config : ValidatorSetConfig) : (withConfig config).WellFormed :=
  ⟨keyed_empty, Nat.zero_le _⟩

theorem activeCount_erase (m : Validators) (k : PublicKey) :
    activeCount (m.erase k) ≤ activeCount m := by
  have h := HashMap.total_erase activeShare m k
  rw [activeCount_eq, activeCount_eq]
  omega

/-- A change of an entry that keeps its share keeps the count. -/
theorem activeCount_modify_le {f : ValidatorInfo → ValidatorInfo}
    (hf : ∀ v, activeShare (f v) ≤ activeShare v) (m : Validators) (k : PublicKey) :
    activeCount (HashMap.modify f k m) ≤ activeCount m := by
  have h := HashMap.total_modify f activeShare m k
  have hle : ((m.lookup k).elim 0 fun v => activeShare (f v)) ≤
      (m.lookup k).elim 0 activeShare := by
    cases m.lookup k with
    | none => exact Nat.le_refl _
    | some v => exact hf v
  rw [activeCount_eq, activeCount_eq]
  omega

theorem Does.wellFormed {vs vs' : ValidatorSetManager} {c : Call} (h : vs.WellFormed)
    (hd : Does vs c vs') : vs'.WellFormed ∧ vs'.config = vs.config := by
  have hk := h.keyed
  have hcap := h.capped
  cases hd with
  | refused => exact ⟨h, rfl⟩
  | @registered k stake commissionRate height status hnone _ _ hroom =>
    refine ⟨⟨hk.insert ⟨k, stake, commissionRate, status, 10000, height⟩, ?_⟩, rfl⟩
    have herase := activeCount_erase vs.validators k
    rw [activeCount_eq, activeCount_eq] at herase
    rw [activeCount_eq] at hcap hroom
    show activeCount (vs.validators.insert k _) ≤ vs.config.activeSetCap
    rw [activeCount_eq, HashMap.total_insert]
    unfold activeShare at herase hroom hcap ⊢
    dsimp only at herase ⊢
    by_cases hs : status = .active
    · have := hroom hs
      rw [if_pos hs]
      omega
    · rw [if_neg hs]
      omega
  | deregistered _ => exact ⟨⟨hk.erase _, (activeCount_erase _ _).trans hcap⟩, rfl⟩
  | updated k newStake =>
    refine ⟨⟨hk.modify (f := fun v => { v with stake := newStake }) (fun _ => rfl) k, ?_⟩, rfl⟩
    exact (activeCount_modify_le (f := fun v => { v with stake := newStake })
      (fun _ => Nat.le_refl _) _ k).trans hcap
  | jailed k =>
    refine ⟨⟨hk.setStatus _ k, ?_⟩, rfl⟩
    exact (activeCount_modify_le (f := fun v => { v with status := .jailed })
      (fun _ => Nat.zero_le _) _ k).trans hcap
  | @unjailed k =>
    refine ⟨⟨hk.setStatus _ _, ?_⟩, rfl⟩
    exact (activeCount_modify_le (f := fun v => { v with status := .standby })
      (fun _ => Nat.zero_le _) _ k).trans hcap
  | rotated hrot => exact ⟨⟨hrot.keyed, hrot.capped hcap⟩, rfl⟩

theorem wellFormed_run {G : ValidatorSetManager → Call → Prop} {config : ValidatorSetConfig}
    {hist : List (Turn ValidatorSetManager Call Answer)} {vs : ValidatorSetManager}
    (hr : Run step G (withConfig config) hist vs) : vs.WellFormed ∧ vs.config = config := by
  apply hr.invariant (I := fun _ vs => vs.WellFormed ∧ vs.config = config)
  · exact ⟨wellFormed_withConfig config, rfl⟩
  · intro hist vs c vs' out _ ih _ hs
    obtain ⟨hwf, hconfig⟩ := (step_does ih.1.keyed hs).wellFormed ih.1
    exact ⟨hwf, hconfig.trans ih.2⟩

/-- **The active set keeps its cap.** After any calls on a new registry, rotations with any
staking pools among them, no more validators are Active than the cap, every entry is stored under
its own pubkey, and the next call returns whatever it is. -/
theorem active_set_capped {config : ValidatorSetConfig}
    {hist : List (Turn ValidatorSetManager Call Answer)} {vs : ValidatorSetManager}
    (hr : Run step (fun _ _ => True) (withConfig config) hist vs) :
    activeCount vs.validators ≤ config.activeSetCap ∧
      (∀ k v, vs.validators.lookup k = some v → v.pubkey = k) ∧
      ∀ c, (vs.call c).isSome = true := by
  obtain ⟨hwf, rfl⟩ := wellFormed_run hr
  refine ⟨hwf.capped, hwf.keyed, ?_⟩
  intro c
  obtain ⟨vs', a, hcall, -⟩ := call_does hwf.keyed c
  rw [hcall]
  rfl

/-- A pool in which the second key has the higher power. -/
def rivalPool : StakingPool :=
  ((StakingPool.new.stake (Bytes.fill 32 1) 500 .delegator).1.stake
    (Bytes.fill 32 2) 500 .permanent).1

/-- Two validators for one place: the second takes it in a rotation, is jailed, and the first gets
it back. -/
def rivalCalls : List Call :=
  [.registerValidator (Bytes.fill 32 1) 500 0 0, .registerValidator (Bytes.fill 32 2) 500 0 0,
    .epochRotation .stored rivalPool, .jail (Bytes.fill 32 2), .epochRotation .stored rivalPool]

theorem active_set_capped_rivals :
    ∃ hist vs, Run step (fun _ _ => True) (withConfig ⟨1, 100, 100⟩) hist vs ∧
      vs.isActive (Bytes.fill 32 1) = true ∧ activeCount vs.validators ≤ 1 := by
  obtain ⟨hist, vs, hr, hactive⟩ : ∃ hist vs,
      Run step (fun _ _ => True) (withConfig ⟨1, 100, 100⟩) hist vs ∧
        vs.isActive (Bytes.fill 32 1) = true :=
    Run.exists_of_replay rivalCalls (by decide +kernel)
  exact ⟨hist, vs, hr, hactive, (active_set_capped hr).1⟩

end ValidatorSetManager

end ValidatorSet

end Trv1Chain
