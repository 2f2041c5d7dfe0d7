import Trv1Chain.Proof.Chain
import Trv1Chain.Validator.Registry

/-!
# The two epoch clocks

The registry counts its rotations, and the staking pool has an epoch of its own that only
`set_epoch` moves. A commit at an epoch boundary rotates the registry; nothing on the commit path
calls `set_epoch`. So the registry's clock shows the epoch of the height, and the pool's stands
still.
-/

set_option autoImplicit false

namespace Trv1Chain

open Lib Staking ValidatorSet Genesis

namespace ValidatorNode

variable {C : Crates}

/-! ## One commit -/

/-- What the epoch handling leaves alone, and how it moves the registry's clock. -/
theorem handleEpoch_clock {o : RotationOrder} {v v' : ValidatorNode C} {height : Height}
    (h : handleEpoch o v height = some v') :
    v'.genesis = v.genesis ∧ v'.stakingPool = v.stakingPool ∧
      v'.validatorSet.currentEpoch =
        if EndsEpoch v.genesis height then v.validatorSet.currentEpoch + 1
        else v.validatorSet.currentEpoch := by
  rcases handleEpoch_cases h with ⟨hends, rfl⟩ | ⟨hends, m, swaps, -, rfl⟩
  · rw [if_neg hends]
    exact ⟨rfl, rfl, rfl⟩
  · rw [if_pos hends]
    exact ⟨rfl, rfl, rfl⟩

theorem applyCommit_clock {v v' : ValidatorNode C} {c : CommitCall} {txs : List Transaction}
    (h : v.applyCommit c = some (v', txs)) :
    v'.genesis = v.genesis ∧ v'.stakingPool = v.stakingPool ∧
      v'.validatorSet.currentEpoch =
        if EndsEpoch v.genesis c.height then v.validatorSet.currentEpoch + 1
        else v.validatorSet.currentEpoch := by
  unfold applyCommit at h
  cases hn : v.node.applyCommit c.env c.height c.blockHash c.committedBlock with
  | none =>
    rw [hn] at h
    cases h
  | some r =>
    rw [hn] at h
    obtain ⟨w, hw, heq⟩ := Option.map_eq_some_iff.mp h
    cases heq
    have hclock := handleEpoch_clock hw
    exact hclock

/-! ## A sequence of commits -/

/-- Calls of `apply_commit`, one after another. -/
def commitStep (v : ValidatorNode C) (c : CommitCall) :
    Option (ValidatorNode C × List (List Transaction)) :=
  (v.applyCommit c).map fun r => (r.1, [r.2])

abbrev CommitHistory (C : Crates) :=
  List (Turn (ValidatorNode C) CommitCall (List Transaction))

/-- The heights of a sequence of commits, in order. -/
def heights (hist : CommitHistory C) : List Height := hist.reverse.map fun τ => τ.event.height

/-- One more height, one more epoch exactly at its end. -/
theorem epoch_succ {genesis : GenesisConfig} (hL : 0 < genesis.chainParams.epochLength)
    {k : Nat} (hk : k < 2 ^ 64) :
    k / genesis.chainParams.epochLength.toNat = (k - 1) / genesis.chainParams.epochLength.toNat +
      if EndsEpoch genesis ⟨UInt64.ofNat k⟩ then 1 else 0 := by
  have hmod : (UInt64.ofNat k % genesis.chainParams.epochLength).toNat =
      k % genesis.chainParams.epochLength.toNat := by
    rw [UInt64.toNat_mod, UInt64.toNat_ofNat', Nat.mod_eq_of_lt hk]
  have hends : EndsEpoch genesis ⟨UInt64.ofNat k⟩ ↔
      0 < k ∧ genesis.chainParams.epochLength.toNat ∣ k := by
    unfold EndsEpoch
    rw [Nat.dvd_iff_mod_eq_zero, ← hmod, gt_iff_lt, gt_iff_lt, UInt64.lt_iff_toNat_lt (a := 0)
      (b := UInt64.ofNat k), UInt64.toNat_ofNat', Nat.mod_eq_of_lt hk]
    constructor
    · intro h
      exact ⟨h.2.1, congrArg UInt64.toNat h.2.2⟩
    · intro h
      exact ⟨hL, h.1, UInt64.toNat_inj.mp h.2⟩
  cases k with
  | zero =>
    rw [if_neg (fun h => absurd (hends.mp h).1 (Nat.lt_irrefl 0))]
    rfl
  | succ k =>
    rw [Nat.add_sub_cancel, Nat.succ_div]
    by_cases hdvd : genesis.chainParams.epochLength.toNat ∣ k + 1
    · rw [if_pos hdvd, if_pos (hends.mpr ⟨Nat.succ_pos k, hdvd⟩)]
    · rw [if_neg hdvd, if_neg (fun h => hdvd (hends.mp h).2)]

/-- **The clocks after the heights below `hist.length`**: the registry's shows the epoch of the last
one, the pool's has not moved. -/
theorem clocks_of_run {G : ValidatorNode C → CommitCall → Prop} {v₀ v : ValidatorNode C}
    (hL : 0 < v₀.genesis.chainParams.epochLength) (hvs : v₀.validatorSet.currentEpoch = 0)
    {hist : CommitHistory C} (hr : Run commitStep G v₀ hist v)
    (hheights : heights hist = Node.heightsUpTo hist.length) (hlen : hist.length ≤ 2 ^ 64) :
    v.genesis = v₀.genesis ∧ v.stakingPool = v₀.stakingPool ∧
      v.validatorSet.currentEpoch.toNat =
        (hist.length - 1) / v₀.genesis.chainParams.epochLength.toNat := by
  revert hheights hlen
  apply hr.invariant (I := fun hist v => heights hist = Node.heightsUpTo hist.length →
    hist.length ≤ 2 ^ 64 → v.genesis = v₀.genesis ∧ v.stakingPool = v₀.stakingPool ∧
      v.validatorSet.currentEpoch.toNat =
        (hist.length - 1) / v₀.genesis.chainParams.epochLength.toNat)
  · intro _ _
    refine ⟨rfl, rfl, ?_⟩
    rw [hvs]
    exact (Nat.zero_div _).symm
  · intro hist v c v' out _ ih _ hs hheights hlen
    rw [List.length_cons] at hlen
    -- the last height is the number of commits before it
    have hsplit : heights hist ++ [c.height] =
        Node.heightsUpTo hist.length ++ [⟨UInt64.ofNat hist.length⟩] := by
      rw [← Node.heightsUpTo_succ]
      unfold heights at hheights ⊢
      rw [List.reverse_cons, List.map_append] at hheights
      exact hheights
    obtain ⟨hpast, hlast⟩ := List.append_inj' hsplit rfl
    obtain ⟨hgen, hpool, hclock⟩ := ih hpast (by omega)
    obtain ⟨⟨w, txs⟩, hcommit, heq⟩ := Option.map_eq_some_iff.mp hs
    cases heq
    obtain ⟨hgen', hpool', hclock'⟩ := applyCommit_clock hcommit
    refine ⟨hgen'.trans hgen, hpool'.trans hpool, ?_⟩
    have hsucc := epoch_succ hL (k := hist.length) (by omega)
    rw [List.cons.inj hlast |>.1, hgen] at hclock'
    dsimp only at hclock' ⊢
    rw [List.length_cons, Nat.add_sub_cancel, hsucc, hclock', ← hclock]
    have hle := Nat.div_le_self (hist.length - 1) v₀.genesis.chainParams.epochLength.toNat
    split
    · rw [toNat_add_of_fits]
      · rfl
      · have hone : (1 : UInt64).toNat = 1 := rfl
        rename_i hends
        have hpos := UInt64.lt_iff_toNat_lt.mp hends.2.1
        have hofNat : (UInt64.ofNat hist.length).toNat = hist.length % 2 ^ 64 :=
          UInt64.toNat_ofNat'
        omega
    · rfl

/-! ## From the genesis -/

theorem foldl_enrol_epochs : ∀ (validators : List GenesisValidator)
    (s : StakingPool × ValidatorSetManager),
    (validators.foldl enrol s).1.currentEpoch = s.1.currentEpoch ∧
      (validators.foldl enrol s).2.currentEpoch = s.2.currentEpoch := by
  intro validators
  induction validators with
  | nil => intro s; exact ⟨rfl, rfl⟩
  | cons gv validators ih =>
    intro s
    obtain ⟨hpool, hvs⟩ := ih (enrol s gv)
    refine ⟨hpool, hvs.trans ?_⟩
    show (s.2.registerValidator gv.pubkey gv.initialStake gv.commissionRate 0).1.currentEpoch = _
    unfold ValidatorSetManager.registerValidator
    split
    · rfl
    · split
      · rfl
      · rfl

/-- **The epoch clocks.** Commit the heights 0 to `h`, from any genesis with a positive epoch
length. The registry's clock then shows the epoch of `h`; the staking pool's does exactly as long
as that is the first one. -/
theorem epoch_clocks {genesis : GenesisConfig} (hL : 0 < genesis.chainParams.epochLength)
    {node : Node C} {h : UInt64} {hist : CommitHistory C} {v : ValidatorNode C}
    (hr : Run commitStep (fun _ _ => True)
      ⟨genesis, node, genesis.enrolAll.1, genesis.enrolAll.2⟩ hist v)
    (hheights : heights hist = Node.heightsUpTo (h.toNat + 1)) :
    v.validatorSet.currentEpoch = h / genesis.chainParams.epochLength ∧
      (v.stakingPool.currentEpoch = h / genesis.chainParams.epochLength ↔
        h < genesis.chainParams.epochLength) := by
  have hlen : hist.length = h.toNat + 1 := by
    have := congrArg List.length hheights
    simpa [heights, Node.heightsUpTo] using this
  have hlt := h.toNat_lt
  obtain ⟨hpool₀, hvs₀⟩ := foldl_enrol_epochs genesis.validators
    (.new, .withConfig genesis.validatorSetConfig)
  rw [← hlen] at hheights
  obtain ⟨-, hpool, hclock⟩ := clocks_of_run hL hvs₀ hr hheights (by omega)
  refine ⟨?_, ?_⟩
  · apply UInt64.toNat_inj.mp
    rw [hclock, UInt64.toNat_div, hlen, Nat.add_sub_cancel]
  · have hzero : v.stakingPool.currentEpoch = 0 := by
      rw [hpool]
      exact hpool₀
    have hLpos : 0 < genesis.chainParams.epochLength.toNat := UInt64.lt_iff_toNat_lt.mp hL
    rw [hzero, eq_comm, ← UInt64.toNat_inj, UInt64.toNat_div, UInt64.lt_iff_toNat_lt,
      UInt64.toNat_zero, Nat.div_eq_zero_iff_lt hLpos]

/-- A genesis with two validators of a million each, and epochs of the given length. -/
def pairGenesis (epochLength : UInt64) : GenesisConfig where
  chainParams := { ChainParams.default with epochLength := epochLength }
  validators := [⟨Bytes.fill 32 1, 1000000, 0⟩, ⟨Bytes.fill 32 2, 1000000, 0⟩]
  accounts := []

def pairNode (epochLength : UInt64) : ValidatorNode Crates.sample where
  genesis := pairGenesis epochLength
  node := Node.genesis Crates.sample ((pairGenesis epochLength).bftValidators Crates.sample) none
    none .new ⟨.default, 1⟩
  stakingPool := (pairGenesis epochLength).enrolAll.1
  validatorSet := (pairGenesis epochLength).enrolAll.2

/-- Empty blocks at the heights below `k`. -/
def emptyCommits (k : Nat) : List CommitCall :=
  (Node.heightsUpTo k).map fun height =>
    ⟨Node.storedOrder, .stored, height, BlockHash.default, none⟩

theorem epoch_clocks_first :
    ∃ hist v, Run commitStep (fun _ _ => True) (pairNode 3) hist v ∧ hist.length = 3 ∧
      v.stakingPool.currentEpoch = 2 / 3 := by
  obtain ⟨hist, v, hr, hlength, hheights⟩ : ∃ hist v,
      Run commitStep (fun _ _ => True) (pairNode 3) hist v ∧ hist.length = 3 ∧
        heights hist = Node.heightsUpTo 3 :=
    Run.exists_of_replay (emptyCommits 3) (by decide +kernel)
  exact ⟨hist, v, hr, hlength, (epoch_clocks (h := 2) (by decide) hr hheights).2.mpr (by decide)⟩

/-- **The pool misses the first boundary.** After height 3 of epochs of three, the registry is in
epoch 1 and the pool in epoch 0. -/
theorem pool_clock_stands :
    ∃ hist v, Run commitStep (fun _ _ => True) (pairNode 3) hist v ∧
      heights hist = Node.heightsUpTo 4 ∧ v.validatorSet.currentEpoch = 3 / 3 ∧
      v.stakingPool.currentEpoch ≠ 3 / 3 := by
  exact Run.exists_of_replay (emptyCommits 4) (by decide +kernel)

end ValidatorNode

end Trv1Chain
