import Mathlib.Algebra.BigOperators.Group.Finset.Basic
import Trv1Chain.Proof.Withdrawal
import Trv1Chain.Slashing.Economy

/-!
# The loop over the evidence, key by key

A record touches the account of its offender alone: the recorded stake and status, and the
offender's own entries in the pool. So the ledgers after `process_all_evidence` are, key by key,
what the records against that key make of its account, in the order the loop met them, and the
treasury is the saturating sum of what all accounts were slashed by.
-/

set_option autoImplicit false

namespace Trv1Chain

open Lib Staking ValidatorSet

namespace Slashing

/-! ## One account -/

/-- What a slash touches of one key: its recorded stake, its own entries in the pool, and how much
the treasury got from it. -/
structure Account where
  stake : UInt64
  entries : Option (List (Entry PublicKey))
  credited : Nat

/-- A key's entries after the pool is asked for an amount. -/
def withdrawn (epoch : UInt64) (entries : Option (List (Entry PublicKey))) (amount : UInt64) :
    Option (List (Entry PublicKey)) :=
  if amount ≤ unlockedTotal epoch (entries.getD []) then
    let rest := (takeUnlocked epoch (entries.getD []) amount 0).1
    if rest.isEmpty then none else some rest
  else entries

theorem unstake_lookup (pool : StakingPool) (k : PublicKey) {amount : UInt64} (hne : amount ≠ 0) :
    (pool.unstake k amount).1.entries.lookup k =
      withdrawn pool.currentEpoch (pool.entries.lookup k) amount := by
  have hown : (pool.entries.lookup k).getD [] = Book.entriesOf pool.entries k := rfl
  unfold withdrawn
  rw [hown]
  rcases unstake_cases pool k hne with ⟨hlt, hsame⟩ | ⟨hcov, htaken⟩
  · rw [hsame, if_neg (UInt64.not_le.mpr hlt)]
  · rw [htaken, if_pos hcov]
    exact Book.lookup_put _ _ _

namespace Account

/-- A slash at a rate; nothing happens when the percentage is less than one. -/
def slash (epoch : UInt64) (a : Account) (bps : UInt64) : Account :=
  let amount := slashAmount a.stake bps
  if amount = 0 then a
  else ⟨saturatingSub a.stake amount, withdrawn epoch a.entries amount, a.credited + amount.toNat⟩

theorem slash_of_zero (epoch : UInt64) {a : Account} {bps : UInt64}
    (h : slashAmount a.stake bps = 0) : a.slash epoch bps = a := if_pos h

theorem slash_of_ne (epoch : UInt64) {a : Account} {bps amount : UInt64}
    (h : slashAmount a.stake bps = amount) (hne : amount ≠ 0) : a.slash epoch bps =
      ⟨saturatingSub a.stake amount, withdrawn epoch a.entries amount,
        a.credited + amount.toNat⟩ := by
  subst h
  exact if_neg hne

theorem stake_slash_le (epoch : UInt64) (a : Account) (bps : UInt64) :
    (a.slash epoch bps).stake.toNat ≤ a.stake.toNat := by
  by_cases h : slashAmount a.stake bps = 0
  · rw [slash_of_zero epoch h]
  · rw [slash_of_ne epoch rfl h]
    dsimp only
    rw [toNat_saturatingSub]
    omega

end Account

/-- Nothing is taken from nothing. -/
theorem slashAmount_zero (bps : UInt64) : slashAmount 0 bps = 0 := by
  unfold slashAmount
  rw [UInt64.toNat_zero, Nat.zero_mul, Nat.zero_div]
  rfl

/-- A slash of something leaves less. -/
theorem saturatingSub_lt {stake bps amount : UInt64} (h : slashAmount stake bps = amount)
    (hne : amount ≠ 0) : (saturatingSub stake amount).toNat < stake.toNat := by
  have hpos : amount.toNat ≠ 0 := fun hz => hne (UInt64.toNat_inj.mp hz)
  have hstake : stake.toNat ≠ 0 := by
    intro hz
    have hzero : stake = 0 := UInt64.toNat_inj.mp hz
    rw [hzero, slashAmount_zero] at h
    exact hne h.symm
  rw [toNat_saturatingSub]
  omega

/-! ## The account of a key after some records -/

namespace Economy

variable {C : Crates}

/-- The account of a key; one that is not registered has no stake. -/
def account (s : Economy) (k : PublicKey) : Account :=
  ⟨(s.validatorSet.validators.lookup k).elim 0 (·.stake), s.stakingPool.entries.lookup k, 0⟩

def rate (s : Economy) (e : EvidenceRecord) : UInt64 := s.engine.config.slashBps e.offense

/-- The account of a key after the records against it among `done`, in their order. -/
def accountAfter (s : Economy) (k : PublicKey) (done : List EvidenceRecord) : Account :=
  (done.filter fun e => e.offender == k).foldl
    (fun a e => a.slash s.stakingPool.currentEpoch (s.rate e)) (s.account k)

theorem accountAfter_congr (s : Economy) {k : PublicKey} {l l' : List EvidenceRecord}
    (h : (l.filter fun e => e.offender == k) = l'.filter fun e => e.offender == k) :
    s.accountAfter k l = s.accountAfter k l' := by
  unfold accountAfter
  rw [h]

theorem accountAfter_same (s : Economy) (done : List EvidenceRecord) (e : EvidenceRecord) :
    s.accountAfter e.offender (done ++ [e]) =
      (s.accountAfter e.offender done).slash s.stakingPool.currentEpoch (s.rate e) := by
  unfold accountAfter
  rw [List.filter_append, List.filter_singleton, beq_self_eq_true, List.foldl_append]
  rfl

theorem accountAfter_other (s : Economy) (done : List EvidenceRecord) {e : EvidenceRecord}
    {k : PublicKey} (h : k ≠ e.offender) :
    s.accountAfter k (done ++ [e]) = s.accountAfter k done := by
  apply accountAfter_congr
  rw [List.filter_append, List.filter_singleton, beq_eq_false_iff_ne.mpr h.symm]
  exact List.append_nil _

theorem stake_accountAfter_le (s : Economy) (k : PublicKey) (done : List EvidenceRecord) :
    (s.accountAfter k done).stake.toNat ≤ (s.account k).stake.toNat := by
  unfold accountAfter
  generalize done.filter (fun e => e.offender == k) = l
  induction l using List.reverseRecOn with
  | nil => exact Nat.le_refl _
  | append_singleton l e ih =>
    rw [List.foldl_append]
    exact (Account.stake_slash_le _ _ _).trans ih

/-- A key that is not registered is not slashed. -/
theorem accountAfter_unknown {s : Economy} {k : PublicKey}
    (h : s.validatorSet.validators.lookup k = none) (done : List EvidenceRecord) :
    s.accountAfter k done = s.account k := by
  have hzero : (s.account k).stake = 0 := by
    unfold account
    rw [h]
    rfl
  unfold accountAfter
  generalize done.filter (fun e => e.offender == k) = l
  induction l using List.reverseRecOn with
  | nil => rfl
  | append_singleton l e ih =>
    rw [List.foldl_append, ih]
    apply Account.slash_of_zero
    rw [hzero]
    exact slashAmount_zero _

/-! ## The loop, key by key -/

/-- A validator whose stake has come down to `stake`: jailed, if that is less than it was. -/
def slashedTo (stake : UInt64) (v : ValidatorInfo) : ValidatorInfo :=
  { v with stake := stake, status := if stake = v.stake then v.status else .jailed }

/-- What all accounts together gave to the treasury. -/
def creditedBy (s : Economy) (done : List EvidenceRecord) : Nat :=
  ∑ k ∈ s.validatorSet.validators.keys.toFinset, (s.accountAfter k done).credited

/-- The ledgers after some records, from `s₀`. -/
structure Processed (s₀ : Economy) (done : List EvidenceRecord) (s : Economy) : Prop where
  config : s.engine.config = s₀.engine.config
  currentEpoch : s.stakingPool.currentEpoch = s₀.stakingPool.currentEpoch
  delegations : s.stakingPool.delegations = s₀.stakingPool.delegations
  validators : ∀ k, s.validatorSet.validators.lookup k =
    (s₀.validatorSet.validators.lookup k).map (slashedTo (s₀.accountAfter k done).stake)
  entries : ∀ k, s.stakingPool.entries.lookup k = (s₀.accountAfter k done).entries
  treasury : s.engine.treasury.toNat =
    min (s₀.engine.treasury.toNat + s₀.creditedBy done) (2 ^ 64 - 1)
  /-- The total moves with the entries. -/
  totalStaked : s.stakingPool.totalStaked - UInt64.ofNat (Book.held s.stakingPool.entries) =
    s₀.stakingPool.totalStaked - UInt64.ofNat (Book.held s₀.stakingPool.entries)

theorem processed_nil (s : Economy) : Processed s [] s where
  config := rfl
  currentEpoch := rfl
  delegations := rfl
  validators k := by
    cases h : s.validatorSet.validators.lookup k with
    | none => rfl
    | some v =>
      have hstake : (s.accountAfter k []).stake = v.stake := by
        show (s.validatorSet.validators.lookup k).elim 0 (·.stake) = _
        rw [h]
        rfl
      rw [Option.map_some, hstake]
      unfold slashedTo
      rw [if_pos rfl]
  entries _ := rfl
  treasury := by
    have hzero : s.creditedBy [] = 0 := Finset.sum_eq_zero fun _ _ => rfl
    have hlt := s.engine.treasury.toNat_lt
    rw [hzero]
    omega
  totalStaked := rfl

variable {s₀ s : Economy} {done : List EvidenceRecord} {e : EvidenceRecord}

/-- A record that changes no account changes no ledger. -/
theorem Processed.skip (h : Processed s₀ done s)
    (hzero : slashAmount (s₀.accountAfter e.offender done).stake (s₀.rate e) = 0) :
    Processed s₀ (done ++ [e]) s := by
  have hsame : ∀ k, s₀.accountAfter k (done ++ [e]) = s₀.accountAfter k done := by
    intro k
    by_cases hk : k = e.offender
    · subst hk
      rw [accountAfter_same, Account.slash_of_zero _ hzero]
    · exact accountAfter_other s₀ done hk
  have hcredited : s₀.creditedBy (done ++ [e]) = s₀.creditedBy done :=
    Finset.sum_congr rfl fun k _ => by rw [hsame]
  refine ⟨h.config, h.currentEpoch, h.delegations, ?_, ?_, ?_, h.totalStaked⟩
  · intro k
    rw [hsame]
    exact h.validators k
  · intro k
    rw [hsame]
    exact h.entries k
  · rw [hcredited]
    exact h.treasury

/-- What a registered key has in the ledgers is what its account says. -/
theorem Processed.known (h : Processed s₀ done s) {k : PublicKey} {v : ValidatorInfo}
    (hv : s.validatorSet.validators.lookup k = some v) :
    ∃ v₀, s₀.validatorSet.validators.lookup k = some v₀ ∧
      v = slashedTo (s₀.accountAfter k done).stake v₀ := by
  rw [h.validators k] at hv
  obtain ⟨v₀, hv₀, heq⟩ := Option.map_eq_some_iff.mp hv
  exact ⟨v₀, hv₀, heq.symm⟩

/-- One more slash of a key adds its amount to what the treasury got. -/
theorem creditedBy_snoc {v₀ : ValidatorInfo} {amount : UInt64}
    (hknown : s₀.validatorSet.validators.lookup e.offender = some v₀)
    (hamount : slashAmount (s₀.accountAfter e.offender done).stake (s₀.rate e) = amount)
    (hne : amount ≠ 0) :
    s₀.creditedBy (done ++ [e]) = s₀.creditedBy done + amount.toNat := by
  have hmem : e.offender ∈ s₀.validatorSet.validators.keys.toFinset := by
    apply List.mem_toFinset.mpr
    apply AList.lookup_isSome.mp
    rw [hknown]
    rfl
  have hrest : ∑ k ∈ s₀.validatorSet.validators.keys.toFinset.erase e.offender,
      (s₀.accountAfter k (done ++ [e])).credited =
        ∑ k ∈ s₀.validatorSet.validators.keys.toFinset.erase e.offender,
          (s₀.accountAfter k done).credited :=
    Finset.sum_congr rfl fun k hk => by
      rw [accountAfter_other s₀ done (Finset.ne_of_mem_erase hk)]
  unfold creditedBy
  rw [← Finset.add_sum_erase _ _ hmem, ← Finset.add_sum_erase _ _ hmem, accountAfter_same,
    Account.slash_of_ne _ hamount hne, hrest]
  dsimp only
  omega

/-- The total of the pool and what its entries hold go down together. -/
theorem unstake_gap (pool : StakingPool) (k : PublicKey) {amount : UInt64} (hne : amount ≠ 0) :
    (pool.unstake k amount).1.totalStaked -
        UInt64.ofNat (Book.held (pool.unstake k amount).1.entries) =
      pool.totalStaked - UInt64.ofNat (Book.held pool.entries) := by
  rcases unstake_cases pool k hne with ⟨-, hsame⟩ | ⟨hcov, htaken⟩
  · rw [hsame]
  · rw [htaken]
    rw [← Book.held_taken hcov, UInt64.ofNat_add, UInt64.ofNat_toNat]
    dsimp only
    exact sub_sub_comm_add _ _ _

/-- **One record moves the ledgers as it moves the account of its offender.** -/
theorem Processed.slashes (h : Processed s₀ done s) {s' : Economy} {event : Option SlashEvent}
    (hs : Slashes C s e s' event) : Processed s₀ (done ++ [e]) s' := by
  cases hs with
  | unknown hnone =>
    have hnone₀ : s₀.validatorSet.validators.lookup e.offender = none := by
      rw [h.validators, Option.map_eq_none_iff] at hnone
      exact hnone
    apply h.skip
    rw [accountAfter_unknown hnone₀]
    unfold account
    rw [hnone₀]
    exact slashAmount_zero _
  | nothing hv hzero =>
    obtain ⟨v₀, -, rfl⟩ := h.known hv
    rw [h.config] at hzero
    exact h.skip hzero
  | @slashed v amount history hv hamount hne =>
    obtain ⟨v₀, hv₀, rfl⟩ := h.known hv
    rw [h.config] at hamount
    have hamount : slashAmount (s₀.accountAfter e.offender done).stake (s₀.rate e) = amount :=
      hamount
    have hafter := accountAfter_same s₀ done e
    rw [Account.slash_of_ne _ hamount hne] at hafter
    refine ⟨h.config, h.currentEpoch, h.delegations, ?_, ?_, ?_,
      (unstake_gap _ _ hne).trans h.totalStaked⟩
    · intro k
      show (setStatus .jailed e.offender _).lookup k = _
      unfold setStatus
      rw [HashMap.lookup_modify, HashMap.lookup_modify, if_pos rfl, hv, HashMap.lookup_modify]
      by_cases hk : k = e.offender
      · -- less than before, and before no more than at the start: the offender is jailed
        subst hk
        have hless := saturatingSub_lt hamount hne
        have hle := stake_accountAfter_le s₀ e.offender done
        have hstart : (s₀.account e.offender).stake = v₀.stake := by
          unfold account
          rw [hv₀]
          rfl
        have hneq : saturatingSub (s₀.accountAfter e.offender done).stake amount ≠ v₀.stake := by
          intro heq
          rw [heq, ← hstart] at hless
          exact absurd hle (Nat.not_le.mpr hless)
        rw [if_pos rfl, hv₀, hafter]
        simp only [Option.map_some, slashedTo, if_neg hneq]
      · rw [if_neg hk, if_neg hk, accountAfter_other s₀ done hk]
        exact h.validators k
    · intro k
      by_cases hk : k = e.offender
      · subst hk
        rw [hafter]
        dsimp only
        rw [unstake_lookup _ _ hne, h.entries, h.currentEpoch]
      · rw [accountAfter_other s₀ done hk, ← h.entries k]
        exact unstake_lookup_ne _ _ hk
    · rw [creditedBy_snoc hv₀ hamount hne]
      show (saturatingAdd s.engine.treasury amount).toNat = _
      rw [toNat_saturatingAdd, h.treasury]
      omega

/-- **The loop over the pending records.** -/
theorem Processed.processEvidence : ∀ {pending done : List EvidenceRecord} {s : Economy},
    Processed s₀ done s → Processed s₀ (done ++ pending) (s.processEvidence C pending).1 := by
  intro pending
  induction pending with
  | nil =>
    intro done s h
    rw [List.append_nil]
    exact h
  | cons e pending ih =>
    intro done s h
    have hone := h.slashes (processSingleEvidence_slashes C s e)
    -- the mark on the record is in the evidence pool alone
    have hmarked : Processed s₀ (done ++ [e]) ((s.processSingleEvidence C e).1.markProcessed C e) :=
      ⟨hone.config, hone.currentEpoch, hone.delegations, hone.validators, hone.entries,
        hone.treasury, hone.totalStaked⟩
    have hrest := ih hmarked
    rw [List.append_assoc] at hrest
    exact hrest

end Economy

end Slashing

end Trv1Chain
