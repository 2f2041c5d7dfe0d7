import Trv1Chain.Proof.EpochClock
import Trv1Chain.Proof.Seats

/-!
# The validators of consensus and of the registry

Both sets come from the genesis list. Consensus has the keys that decode, and its list never
changes; the registry has its seats, and rotates them at the end of an epoch. So the two sets agree
exactly if decoding and seating pick the same keys, and no boundary comes that changes a seat.
-/

set_option autoImplicit false

namespace Trv1Chain

open Lib Staking ValidatorSet Genesis

/-! ## The running validator -/

namespace ValidatorNode

variable {C : Crates}

/-- The keys of consensus are the Active ones of the registry. -/
def Agrees (v : ValidatorNode C) : Prop :=
  ∀ k, (⟨k⟩ : ValidatorId) ∈ v.node.bft.validators ↔ v.validatorSet.isActive k = true

/-- The action applies a commit whose height ends an epoch. -/
def endsEpoch (genesis : GenesisConfig) : Action → Bool
  | .applyCommit height _ _ => decide (EndsEpoch genesis height)
  | _ => false

/-- What the two ledgers and consensus have in common along a run, and the registry as the start
made it but for so many rotations. -/
structure Rotates (v₀ : ValidatorNode C) (n : Nat) (v : ValidatorNode C) : Prop where
  genesis : v.genesis = v₀.genesis
  stakingPool : v.stakingPool = v₀.stakingPool
  config : v.validatorSet.config = v₀.validatorSet.config
  validators : v.node.bft.validators = v₀.node.bft.validators
  rotations : Rotations v₀.stakingPool v₀.validatorSet.config.activeSetCap
    v₀.validatorSet.validators n v.validatorSet.validators

theorem Rotates.handleEpoch {v₀ v v' : ValidatorNode C} {n : Nat} (h : Rotates v₀ n v)
    {o : RotationOrder} {height : Height} (hs : handleEpoch o v height = some v') :
    Rotates v₀ (n + if EndsEpoch v₀.genesis height then 1 else 0) v' := by
  rw [← h.genesis]
  rcases handleEpoch_cases hs with ⟨hends, rfl⟩ | ⟨hends, m, swaps, hrot, rfl⟩
  · rw [if_neg hends]
    exact h
  · rw [if_pos hends]
    rw [h.stakingPool, h.config] at hrot
    exact ⟨h.genesis, h.stakingPool, h.config, h.validators, h.rotations.more hrot⟩

theorem Rotates.handleEpochs {v₀ v' : ValidatorNode C} {o : RotationOrder} :
    ∀ {acts : List Action} {v : ValidatorNode C} {n : Nat}, Rotates v₀ n v →
      handleEpochs o v acts = some v' → Rotates v₀ (n + acts.countP (endsEpoch v₀.genesis)) v' := by
  intro acts
  induction acts with
  | nil =>
    intro v n h hs
    cases hs
    exact h
  | cons a acts ih =>
    intro v n h hs
    cases a with
    | applyCommit height x txs =>
      unfold ValidatorNode.handleEpochs at hs
      cases hone : ValidatorNode.handleEpoch o v height with
      | none =>
        rw [hone] at hs
        cases hs
      | some v₁ =>
        rw [hone] at hs
        have hrest := ih (h.handleEpoch hone) hs
        rw [List.countP_cons, Nat.add_comm (acts.countP _), ← Nat.add_assoc]
        simpa only [endsEpoch, decide_eq_true_eq] using hrest
    | _ => exact ih h hs

/-- Consensus keeps its list through a turn. -/
theorem handle_validators {n n' : Node C} {e : Env × NodeEvent} {acts : List Action}
    (h : n.handle e = some (n', acts)) : n'.bft.validators = n.bft.validators := by
  rcases (Node.handle_moves h).machine (G := fun _ _ => True) (fun _ _ _ => trivial) with
    ⟨seg, hseg, -⟩ | ⟨be, m', out, -, hbe, seg, hseg, -⟩
  · exact BftStateMachine.validators_of_run hseg
  · rw [BftStateMachine.validators_of_run hseg]
    exact (BftStateMachine.handle_moves hbe).validators

abbrev History (C : Crates) :=
  List (Turn (ValidatorNode C) (RotationOrder × Env × NodeEvent) Action)

/-- **A run of the loop rotates the registry once for each boundary it commits**, and changes
nothing else of the two sets. -/
theorem rotates_of_run {G : ValidatorNode C → RotationOrder × Env × NodeEvent → Prop}
    {v₀ v : ValidatorNode C} {hist : History C} (hr : Run handle G v₀ hist v) :
    Rotates v₀ ((outputs hist).countP (endsEpoch v₀.genesis)) v := by
  apply hr.invariant (I := fun hist v =>
    Rotates v₀ ((outputs hist).countP (endsEpoch v₀.genesis)) v)
  · exact ⟨rfl, rfl, rfl, rfl, .none⟩
  · intro hist v e v' acts _ ih _ hs
    unfold handle at hs
    cases hn : v.node.handle e.2 with
    | none =>
      rw [hn] at hs
      cases hs
    | some r =>
      rw [hn] at hs
      obtain ⟨w, hw, heq⟩ := Option.map_eq_some_iff.mp hs
      obtain ⟨rfl, rfl⟩ := Prod.mk.inj heq
      have hturn : Rotates v₀ ((outputs hist).countP (endsEpoch v₀.genesis))
          { v with node := r.1 } :=
        ⟨ih.genesis, ih.stakingPool, ih.config, (handle_validators hn).trans ih.validators,
          ih.rotations⟩
      rw [outputs_cons, List.countP_append, Nat.add_comm]
      exact hturn.handleEpochs hw

/-! ## From the genesis -/

theorem boot_eq {env : Env} {genesis : GenesisConfig} {signingKey : Option (Bytes 32)}
    {stateDb : StateDb} {v₀ : ValidatorNode C} {acts : List Action}
    (h : boot C env genesis signingKey stateDb = some (v₀, acts)) :
    v₀.genesis = genesis ∧ v₀.stakingPool = genesis.enrolAll.1 ∧
      v₀.validatorSet = genesis.enrolAll.2 ∧
      v₀.node.bft.validators = genesis.bftValidators C := by
  unfold boot at h
  cases hfee : FeeMarket.new FeeConfig.default genesis.chainParams.baseFeeFloor with
  | error e =>
    rw [hfee] at h
    cases h
  | ok feeMarket =>
    rw [hfee] at h
    have hv := congrArg Prod.fst (Option.some.inj h)
    subst hv
    refine ⟨rfl, rfl, rfl, ?_⟩
    obtain ⟨seg, hseg, -⟩ := Node.start_ownCalls (G := fun _ _ => True) (fun _ _ _ => trivial)
      (Node.genesis C (genesis.bftValidators C) (signingKey.bind fun sk =>
        (genesis.bftValidators C).findIdx? fun v => v == ⟨C.verifyingKey sk⟩) signingKey stateDb
        feeMarket) env
    exact BftStateMachine.validators_of_run hseg

theorem mem_bftValidators {genesis : GenesisConfig} {k : PublicKey} :
    (⟨k⟩ : ValidatorId) ∈ genesis.bftValidators C ↔
      ∃ gv ∈ genesis.validators, C.isPoint gv.pubkey = true ∧ gv.pubkey = k := by
  unfold GenesisConfig.bftValidators
  rw [List.mem_filterMap]
  refine exists_congr fun gv => and_congr_right fun _ => ?_
  by_cases hp : C.isPoint gv.pubkey = true
  · simp [hp]
  · simp [hp]

theorem mem_of_seated {genesis : GenesisConfig} {gv : GenesisValidator}
    (h : gv ∈ genesis.seated) : gv ∈ genesis.validators ∧ minStake ≤ gv.initialStake :=
  mem_staked.mp (List.mem_of_mem_take h)

theorem mem_of_waiting {genesis : GenesisConfig} {gv : GenesisValidator}
    (h : gv ∈ genesis.waiting) : gv ∈ genesis.validators ∧ minStake ≤ gv.initialStake :=
  mem_staked.mp (List.mem_of_mem_drop h)

/-- At start-up the sets agree exactly if the keys that decode are the seated ones. -/
theorem agrees_start_iff {genesis : GenesisConfig}
    (hnodup : (genesis.validators.map (·.pubkey)).Nodup) {v₀ : ValidatorNode C}
    (hset : v₀.validatorSet = genesis.enrolAll.2)
    (hbft : v₀.node.bft.validators = genesis.bftValidators C) :
    v₀.Agrees ↔ ∀ gv ∈ genesis.validators, C.isPoint gv.pubkey = true ↔ gv ∈ genesis.seated := by
  have hseats := (enrolled_of_nodup hnodup).1.active
  unfold Agrees
  simp only [hset, hbft, mem_bftValidators, ValidatorSetManager.isActive_iff, hseats,
    List.mem_map]
  constructor
  · intro h gv hgv
    constructor
    · intro hp
      obtain ⟨gv', hseat, heq⟩ := (h gv.pubkey).mp ⟨gv, hgv, hp, rfl⟩
      rw [← List.inj_on_of_nodup_map hnodup (mem_of_seated hseat).1 hgv heq]
      exact hseat
    · intro hseat
      obtain ⟨gv', hgv', hp, heq⟩ := (h gv.pubkey).mpr ⟨gv, hseat, rfl⟩
      rw [← List.inj_on_of_nodup_map hnodup hgv' hgv heq]
      exact hp
  · intro h k
    constructor
    · rintro ⟨gv, hgv, hp, rfl⟩
      exact ⟨gv, (h gv hgv).mp hp, rfl⟩
    · rintro ⟨gv, hseat, rfl⟩
      have hgv := (mem_of_seated hseat).1
      exact ⟨gv, hgv, (h gv hgv).mpr hseat, rfl⟩

/-- The genesis leaves a rotation nothing to swap exactly if nobody waiting has more stake than
someone seated. -/
theorem swappable_start_iff {genesis : GenesisConfig}
    (hnodup : (genesis.validators.map (·.pubkey)).Nodup) :
    (∀ p d, ¬ Swappable genesis.enrolAll.1 genesis.enrolAll.2.validators p d) ↔
      ∀ w ∈ genesis.waiting, ∀ s ∈ genesis.seated, w.initialStake ≤ s.initialStake := by
  obtain ⟨hset, hpool⟩ := enrolled_of_nodup hnodup
  have hpower : ∀ {gv}, gv ∈ genesis.validators ∧ minStake ≤ gv.initialStake →
      genesis.enrolAll.1.getVotingPower .stored gv.pubkey = gv.initialStake := by
    intro gv hgv
    apply hpool.power hgv.1
    intro hzero
    rw [hzero] at hgv
    exact absurd hgv.2 (by decide)
  constructor
  · intro h w hw s hs
    apply UInt64.not_lt.mp
    intro hlt
    refine h w.pubkey s.pubkey ⟨?_, ?_, ?_⟩
    · exact ValidatorSetManager.statusOf_eq_some.mp
        ((hset.standby _).mpr (List.mem_map_of_mem hw))
    · exact ValidatorSetManager.statusOf_eq_some.mp
        ((hset.active _).mpr (List.mem_map_of_mem hs))
    · rw [hpower (mem_of_waiting hw), hpower (mem_of_seated hs)]
      exact hlt
  · intro h p d hswap
    obtain ⟨w, hw, rfl⟩ := List.mem_map.mp
      ((hset.standby p).mp (ValidatorSetManager.statusOf_eq_some.mpr hswap.standby))
    obtain ⟨s, hs, rfl⟩ := List.mem_map.mp
      ((hset.active d).mp (ValidatorSetManager.statusOf_eq_some.mpr hswap.active))
    have hlt := hswap.stronger
    rw [hpower (mem_of_waiting hw), hpower (mem_of_seated hs)] at hlt
    exact UInt64.not_le.mpr hlt (h w hw s hs)

/-- Somebody waits only when all seats are taken. -/
theorem full_of_standby {genesis : GenesisConfig}
    (hnodup : (genesis.validators.map (·.pubkey)).Nodup) {k : PublicKey} {v : ValidatorInfo}
    (hv : genesis.enrolAll.2.validators.lookup k = some v) (hs : v.status = .standby) :
    activeCount genesis.enrolAll.2.validators = genesis.chainParams.maxValidators := by
  have hset := (enrolled_of_nodup hnodup).1
  have hwait := (hset.standby k).mp (ValidatorSetManager.statusOf_eq_some.mpr ⟨v, hv, hs⟩)
  have hlen := List.length_pos_of_mem hwait
  rw [List.length_map, List.length_drop] at hlen
  rw [hset.count]
  omega

/-- **When the two sets agree.** Start from any valid genesis and run the loop. At start-up and
after every turn the keys of consensus are the Active ones of the registry, exactly if the genesis
keys that decode are those that get a seat, and, should the run commit the end of an epoch, nobody
left waiting has more stake than someone seated. -/
theorem validator_sets_agree {env : Env} {genesis : GenesisConfig}
    {signingKey : Option (Bytes 32)} {stateDb : StateDb} {v₀ : ValidatorNode C}
    {acts : List Action} (hvalid : genesis.validate = .ok ())
    (hboot : boot C env genesis signingKey stateDb = some (v₀, acts)) {hist : History C}
    {v : ValidatorNode C} (hr : Run handle (fun _ _ => True) v₀ hist v) :
    (v₀.Agrees ∧ ∀ τ ∈ hist, τ.after.Agrees) ↔
      (∀ gv ∈ genesis.validators, C.isPoint gv.pubkey = true ↔ gv ∈ genesis.seated) ∧
        ((∃ a ∈ outputs hist, endsEpoch genesis a = true) →
          ∀ w ∈ genesis.waiting, ∀ s ∈ genesis.seated, w.initialStake ≤ s.initialStake) := by
  have hnodup := (GenesisConfig.validate_ok hvalid).1
  obtain ⟨hgen, hpool, hset, hbft⟩ := boot_eq hboot
  have henrolled := (enrolled_of_nodup hnodup).1
  have hkeyed : Keyed v₀.validatorSet.validators := hset ▸ henrolled.keyed
  have hcap : v₀.validatorSet.config.activeSetCap = genesis.chainParams.maxValidators :=
    hset ▸ henrolled.activeSetCap
  rw [← agrees_start_iff hnodup hset hbft, ← swappable_start_iff hnodup, ← hpool, ← hset]
  refine and_congr_right fun hstart => ?_
  constructor
  · -- the last state has the list of the start, and with a swap it lacks one of its Active
    rintro hall ⟨a, ha, hends⟩ p q hswap
    have hlast : v.Agrees := by
      cases hr with
      | init => cases ha
      | turn _ _ _ => exact hall _ List.mem_cons_self
    have hrot := rotates_of_run hr
    rw [← hgen] at hends
    have hpos := List.countP_pos_iff.mpr ⟨a, ha, hends⟩
    obtain ⟨n, hn⟩ := Nat.exists_eq_succ_of_ne_zero hpos.ne'
    rw [hn] at hrot
    obtain ⟨w, hw, hws⟩ := hswap.standby
    rw [hset] at hw
    have hfull : activeCount v₀.validatorSet.validators =
        v₀.validatorSet.config.activeSetCap := by
      rw [hcap, hset]
      exact full_of_standby hnodup hw hws
    obtain ⟨d, hactive, hout⟩ := hrot.rotations.unseats hkeyed hfull hswap
    have hd₀ := (ValidatorSetManager.isActive_iff _ d).mpr
      (ValidatorSetManager.statusOf_eq_some.mpr hactive)
    have hd := (hlast d).mp (hrot.validators ▸ (hstart d).mpr hd₀)
    have hstandby := ValidatorSetManager.statusOf_eq_some.mpr hout.standby
    rw [ValidatorSetManager.isActive_iff, hstandby] at hd
    cases hd
  · -- no boundary or nothing to swap: the registry is as it was at the start
    intro hcond τ hτ
    obtain ⟨past, hsuf, hpast, hguard, hstep⟩ := hr.of_mem hτ
    have hrot := rotates_of_run (Run.turn hpast hguard hstep)
    have hsame : τ.after.validatorSet.validators = v₀.validatorSet.validators := by
      rcases Nat.eq_zero_or_pos ((outputs (⟨τ.before, τ.event, τ.after, τ.out⟩ :: past)).countP
        (endsEpoch v₀.genesis)) with hzero | hpos
      · rw [hzero] at hrot
        exact hrot.rotations.zero
      · obtain ⟨a, ha, hends⟩ := List.countP_pos_iff.mp hpos
        obtain ⟨σ, hσ, haσ⟩ := mem_outputs.mp ha
        have hswap := hcond ⟨a, mem_outputs.mpr ⟨σ, hsuf.subset hσ, haσ⟩, hgen ▸ hends⟩
        refine hrot.rotations.settled hkeyed hswap ?_
        intro hroom k w hw hs
        rw [hset] at hw
        rw [hcap, hset, full_of_standby hnodup hw hs] at hroom
        exact Nat.lt_irrefl _ hroom
    intro k
    rw [hrot.validators, hstart k, ValidatorSetManager.isActive_iff,
      ValidatorSetManager.isActive_iff]
    unfold ValidatorSetManager.statusOf
    rw [hsame]

/-- Two announced commits, of the heights 0 and 1. -/
def announcedPair : List (RotationOrder × Env × NodeEvent) :=
  [(.stored, Node.storedOrder, .network (.commitBlock ⟨0⟩ BlockHash.default)),
    (.stored, Node.storedOrder, .network (.commitBlock ⟨1⟩ BlockHash.default))]

theorem pairGenesis_boots :
    (boot Crates.sample Node.storedOrder (pairGenesis 1) none .new).isSome = true := by
  decide +kernel

/-- The process started on two validators, with epochs of one block. -/
def bootedPair : ValidatorNode Crates.sample × List Action :=
  (boot Crates.sample Node.storedOrder (pairGenesis 1) none .new).get pairGenesis_boots

theorem validator_sets_agree_pair :
    ∃ hist v, Run handle (fun _ _ => True) bootedPair.1 hist v ∧
      (∃ a ∈ outputs hist, endsEpoch (pairGenesis 1) a = true) ∧
      bootedPair.1.Agrees ∧ ∀ τ ∈ hist, τ.after.Agrees := by
  obtain ⟨hist, v, hr, hends⟩ : ∃ hist v, Run handle (fun _ _ => True) bootedPair.1 hist v ∧
      ∃ a ∈ outputs hist, endsEpoch (pairGenesis 1) a = true :=
    Run.exists_of_replay announcedPair (by decide +kernel)
  have hboot : boot Crates.sample Node.storedOrder (pairGenesis 1) none .new =
      some (bootedPair.1, bootedPair.2) := (Option.some_get pairGenesis_boots).symm
  refine ⟨hist, v, hr, hends, ?_⟩
  exact (validator_sets_agree (by decide +kernel) hboot hr).mpr
    ⟨by decide +kernel, fun _ => by decide +kernel⟩

/-- Two validators, the second a token short of the minimum stake. -/
def shortGenesis : GenesisConfig where
  chainParams := ChainParams.default
  validators := [⟨Bytes.fill 32 1, 1000000, 0⟩, ⟨Bytes.fill 32 2, 999999, 0⟩]
  accounts := []

/-- **A voter the registry does not know.** The genesis is valid and the process starts; the second
key votes and counts towards the two thirds, and is not Active. -/
theorem short_stake_votes :
    shortGenesis.validate = .ok () ∧
      ∃ v₀ acts, boot Crates.sample Node.storedOrder shortGenesis none .new = some (v₀, acts) ∧
        ¬ v₀.Agrees := by
  have hsome : (boot Crates.sample Node.storedOrder shortGenesis none .new).isSome = true := by
    decide +kernel
  obtain ⟨⟨v₀, acts⟩, hboot⟩ := Option.isSome_iff_exists.mp hsome
  refine ⟨by decide +kernel, v₀, acts, hboot, ?_⟩
  obtain ⟨-, -, hset, hbft⟩ := boot_eq hboot
  intro h
  have hvotes := (h (Bytes.fill 32 2)).mp (by rw [hbft]; decide +kernel)
  rw [hset] at hvotes
  exact absurd hvotes (by decide +kernel)

end ValidatorNode

end Trv1Chain
