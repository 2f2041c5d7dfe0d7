import Trv1Chain.Proof.SlashLedgers

/-!
# The slash history

Every event the engine returns is pushed to the history of its offender, and nothing else is
written there. So the history accounts for the stakes: what a validator lost is the sum of its
events, each a floored percentage of what the events before it left, and the treasury is the sum of
all of them.
-/

set_option autoImplicit false

namespace Trv1Chain

open Lib Staking ValidatorSet

namespace Slashing

/-! ## What is recorded -/

def record (history : HashMap PublicKey (List SlashEvent)) (event : SlashEvent) :
    HashMap PublicKey (List SlashEvent) :=
  HashMap.push history event.offender event

namespace Economy

theorem processSingleEvidence_history (C : Crates) (s : Economy) (e : EvidenceRecord) :
    (s.processSingleEvidence C e).1.engine.slashHistory =
      (s.processSingleEvidence C e).2.toList.foldl record s.engine.slashHistory := by
  unfold processSingleEvidence
  split
  · rfl
  · dsimp only
    split
    · rfl
    · split
      · rfl
      · rfl

theorem processEvidence_cons (C : Crates) (s : Economy) (e : EvidenceRecord)
    (pending : List EvidenceRecord) :
    s.processEvidence C (e :: pending) =
      (((((s.processSingleEvidence C e).1.markProcessed C e).processEvidence C pending).1),
        (s.processSingleEvidence C e).2.toList ++
          (((s.processSingleEvidence C e).1.markProcessed C e).processEvidence C pending).2) := rfl

theorem processEvidence_history (C : Crates) : ∀ (pending : List EvidenceRecord) (s : Economy),
    (s.processEvidence C pending).1.engine.slashHistory =
      (s.processEvidence C pending).2.foldl record s.engine.slashHistory := by
  intro pending
  induction pending with
  | nil => intro s; rfl
  | cons e pending ih =>
    intro s
    rw [processEvidence_cons, List.foldl_append, ← processSingleEvidence_history]
    exact ih _

end Economy

/-- A call records what it answers. -/
theorem slash_history (C : Crates) (s : Economy) (c : Call) :
    (s.slash C c).1.engine.slashHistory =
      (s.slash C c).2.events.foldl record s.engine.slashHistory := by
  cases c with
  | submitEvidence e => rfl
  | processAllEvidence it => exact Economy.processEvidence_history C _ s
  | slashValidator k offense height =>
    have h := Economy.processSingleEvidence_history C s (Economy.directEvidence k offense height)
    obtain ⟨hstate, hevents⟩ := Economy.slashValidator_eq C s k offense height
    rw [← hstate, ← hevents] at h
    exact h

/-- The history after a run is the pushing of its events. -/
theorem slashHistory_of_run {C : Crates} {G : Economy → Call → Prop} {s₀ s : Economy}
    {hist : List (Turn Economy Call Answer)} (hr : Run (Economy.slashStep C) G s₀ hist s) :
    s.engine.slashHistory = (Economy.eventsOf hist).foldl record s₀.engine.slashHistory := by
  refine hr.invariant (I := fun hist s => s.engine.slashHistory =
    (Economy.eventsOf hist).foldl record s₀.engine.slashHistory) rfl ?_
  intro hist s c s' out _ ih _ hs
  cases hs
  rw [slash_history, ih, Economy.eventsOf_cons, List.foldl_append, List.flatMap_singleton]

/-- What is recorded of a key is what was answered about it. -/
theorem getSlashHistory_of_run {C : Crates} {G : Economy → Call → Prop} {s₀ s : Economy}
    (h₀ : s₀.engine.slashHistory = ∅) {hist : List (Turn Economy Call Answer)}
    (hr : Run (Economy.slashStep C) G s₀ hist s) (k : PublicKey) :
    s.engine.getSlashHistory k =
      (Economy.eventsOf hist).filter fun event => event.offender = k := by
  unfold SlashingEngine.getSlashHistory
  rw [slashHistory_of_run hr, h₀]
  exact HashMap.lookup_foldl_push SlashEvent.offender k (Economy.eventsOf hist) ∅

/-! ## The amounts -/

/-- What events amount to. -/
def amounts (events : List SlashEvent) : Nat :=
  (events.map fun event => event.slashAmount.toNat).sum

@[simp] theorem amounts_append (l l' : List SlashEvent) :
    amounts (l ++ l') = amounts l + amounts l' := by
  unfold amounts
  rw [List.map_append, List.sum_append]

@[simp] theorem amounts_singleton (event : SlashEvent) :
    amounts [event] = event.slashAmount.toNat := by
  simp [amounts]

/-- The recorded stake of a key; one that is not registered has none. -/
def stakeOf (vs : ValidatorSetManager) (k : PublicKey) : Nat :=
  (vs.validators.lookup k).elim 0 fun v => v.stake.toNat

/-- All recorded stakes together. -/
def stakeSum (vs : ValidatorSetManager) : Nat :=
  HashMap.total (fun v => v.stake.toNat) vs.validators

theorem toNat_slashAmount (stake : UInt64) {bps : UInt64} (h : bps.toNat ≤ 10000) :
    (slashAmount stake bps).toNat = stake.toNat * bps.toNat / 10000 ∧
      (slashAmount stake bps).toNat ≤ stake.toNat := by
  have hle : stake.toNat * bps.toNat / 10000 ≤ stake.toNat := by
    apply Nat.div_le_of_le_mul
    rw [Nat.mul_comm 10000]
    exact Nat.mul_le_mul_left _ h
  have heq : (slashAmount stake bps).toNat = stake.toNat * bps.toNat / 10000 := by
    unfold slashAmount
    rw [UInt64.toNat_ofNat', Nat.mod_eq_of_lt (hle.trans_lt stake.toNat_lt)]
  exact ⟨heq, heq ▸ hle⟩

/-- Each event takes its percentage of what the ones before it left. -/
def Floored (config : SlashingConfig) (stake : Nat) (events : List SlashEvent) : Prop :=
  ∀ past event later, events = past ++ event :: later → event.slashAmount.toNat =
    (stake - amounts past) * (config.slashBps event.offense).toNat / 10000

theorem floored_snoc {config : SlashingConfig} {stake : Nat} {events : List SlashEvent}
    (h : Floored config stake events) {event : SlashEvent} (hevent : event.slashAmount.toNat =
      (stake - amounts events) * (config.slashBps event.offense).toNat / 10000) :
    Floored config stake (events ++ [event]) := by
  intro past x later hsplit
  rcases List.eq_nil_or_concat later with rfl | ⟨later, y, rfl⟩
  · obtain ⟨rfl, hx⟩ := List.append_inj' hsplit rfl
    cases hx
    exact hevent
  · rw [List.concat_eq_append, ← List.cons_append, ← List.append_assoc] at hsplit
    exact h past x later (List.append_inj' hsplit rfl).1

section Slashed

variable {vs : ValidatorSetManager} {k : PublicKey} {v : ValidatorInfo}

/-- The validators after a slash that leaves `stake`. -/
def slashedStake (vs : ValidatorSetManager) (k : PublicKey) (stake : UInt64) :
    ValidatorSetManager :=
  { vs with
    validators := setStatus .jailed k
      (HashMap.modify (fun w => { w with stake := stake }) k vs.validators) }

theorem stakeOf_slashed (hv : vs.validators.lookup k = some v) (stake : UInt64) :
    stakeOf (slashedStake vs k stake) k = stake.toNat := by
  unfold stakeOf slashedStake setStatus
  dsimp only
  rw [HashMap.lookup_modify, if_pos rfl, HashMap.lookup_modify, if_pos rfl, hv]
  rfl

theorem stakeOf_slashed_ne {j : PublicKey} (hne : k ≠ j) (stake : UInt64) :
    stakeOf (slashedStake vs k stake) j = stakeOf vs j := by
  unfold stakeOf slashedStake setStatus
  dsimp only
  rw [HashMap.lookup_modify, if_neg (Ne.symm hne), HashMap.lookup_modify, if_neg (Ne.symm hne)]

theorem stakeSum_slashed (hv : vs.validators.lookup k = some v) (stake : UInt64) :
    stakeSum (slashedStake vs k stake) + v.stake.toNat = stakeSum vs + stake.toNat := by
  have hstake := HashMap.total_modify (fun w : ValidatorInfo => { w with stake := stake })
    (fun w => w.stake.toNat) vs.validators k
  have hstatus := HashMap.total_modify (fun w : ValidatorInfo => { w with status := .jailed })
    (fun w => w.stake.toNat)
    (HashMap.modify (fun w : ValidatorInfo => { w with stake := stake }) k vs.validators) k
  rw [HashMap.lookup_modify, if_pos rfl] at hstatus
  rw [hv] at hstake hstatus
  unfold stakeSum slashedStake setStatus
  simp only [Option.map_some, Option.elim_some] at hstake hstatus ⊢
  omega

end Slashed

/-- The accounts after some events, from the validators `vs` and an empty treasury. -/
structure Accounted (config : SlashingConfig) (vs : ValidatorSetManager) (s : Economy)
    (events : List SlashEvent) : Prop where
  sameConfig : s.engine.config = config
  stakes : ∀ k, stakeOf s.validatorSet k + amounts (events.filter fun x => x.offender = k) =
    stakeOf vs k
  treasury : s.engine.treasury.toNat = amounts events
  total : stakeSum s.validatorSet + amounts events = stakeSum vs
  floored : ∀ k, Floored config (stakeOf vs k) (events.filter fun x => x.offender = k)

/-- **One slash** takes from the stake what it pays into the treasury. -/
theorem Accounted.slash {C : Crates} {config : SlashingConfig} {vs : ValidatorSetManager}
    (hbps : ∀ offense, (config.slashBps offense).toNat ≤ 10000) (hfits : stakeSum vs < 2 ^ 64)
    {s s' : Economy} {events : List SlashEvent} {e : EvidenceRecord} {event : Option SlashEvent}
    (h : Accounted config vs s events) (hs : Slashes C s e s' event) :
    Accounted config vs s' (events ++ event.toList) := by
  cases hs with
  | unknown _ =>
    rw [Option.toList_none, List.append_nil]
    exact h
  | nothing _ _ =>
    rw [Option.toList_none, List.append_nil]
    exact h
  | @slashed v amount history hv hamount hne =>
    rw [h.sameConfig] at hamount
    obtain ⟨hfloor, hle⟩ := toNat_slashAmount v.stake (hbps e.offense)
    rw [hamount] at hfloor hle
    have hleft : (saturatingSub v.stake amount).toNat = v.stake.toNat - amount.toNat :=
      toNat_saturatingSub _ _
    have hbefore : stakeOf s.validatorSet e.offender = v.stake.toNat := by
      unfold stakeOf
      rw [hv]
      rfl
    have hstakes := h.stakes e.offender
    have hpaid := stakeSum_slashed hv (saturatingSub v.stake amount)
    have htotal := h.total
    have htreasury := h.treasury
    rw [Option.toList_some]
    refine ⟨h.sameConfig, ?_, ?_, ?_, ?_⟩
    · intro k
      show stakeOf (slashedStake s.validatorSet e.offender (saturatingSub v.stake amount)) k + _ = _
      rw [List.filter_append, List.filter_singleton, amounts_append]
      by_cases hk : e.offender = k
      · subst hk
        rw [decide_eq_true rfl, stakeOf_slashed hv]
        show _ + (_ + amounts [_]) = _
        rw [amounts_singleton]
        dsimp only
        omega
      · rw [decide_eq_false hk, stakeOf_slashed_ne hk]
        exact h.stakes k
    · show (saturatingAdd s.engine.treasury amount).toNat = _
      rw [toNat_saturatingAdd, amounts_append, amounts_singleton]
      dsimp only
      omega
    · show stakeSum (slashedStake s.validatorSet e.offender (saturatingSub v.stake amount)) + _ = _
      rw [amounts_append, amounts_singleton]
      dsimp only
      omega
    · intro k
      rw [List.filter_append, List.filter_singleton]
      by_cases hk : e.offender = k
      · subst hk
        rw [decide_eq_true rfl]
        apply floored_snoc (h.floored e.offender)
        dsimp only
        rw [hfloor]
        congr 2
        omega
      · rw [decide_eq_false hk]
        show Floored _ _ (_ ++ [])
        rw [List.append_nil]
        exact h.floored k

/-- **Slash accounting.** For any configuration with percentages up to 10,000 basis points, any
registry whose recorded stakes fit together into 64 bits and any staking pool, over every sequence
of the engine's calls: the treasury is the sum of all recorded events, and what the recorded stakes
have come down by. Each validator has lost exactly the sum of its own events, and each of these is
the floored percentage of what the ones before it had left. -/
theorem slash_accounting {C : Crates} {config : SlashingConfig} {vs : ValidatorSetManager}
    {pool : StakingPool} (hbps : ∀ offense, config.slashBps offense ≤ 10000)
    (hfits : stakeSum vs < 2 ^ 64) {hist : List (Turn Economy Call Answer)} {s : Economy}
    (hr : Run (Economy.slashStep C) (fun _ _ => True) ⟨.withConfig config, vs, pool⟩ hist s) :
    s.engine.treasury.toNat = HashMap.total amounts s.engine.slashHistory ∧
      stakeSum s.validatorSet + s.engine.treasury.toNat = stakeSum vs ∧
      ∀ k, stakeOf s.validatorSet k + amounts (s.engine.getSlashHistory k) = stakeOf vs k ∧
        ∀ past event later, s.engine.getSlashHistory k = past ++ event :: later →
          event.slashAmount.toNat = (stakeOf vs k - amounts past) *
            (config.slashBps event.offense).toNat / 10000 := by
  have h : Accounted config vs s (Economy.eventsOf hist) := by
    refine Economy.slashRun_invariant (I := Accounted config vs) ?_ ?_ ?_ hr
    · intro s e s' event events h hs
      exact h.slash (fun offense => UInt64.le_iff_toNat_le.mp (hbps offense)) hfits hs
    · intro s events evidence h
      exact ⟨h.sameConfig, h.stakes, h.treasury, h.total, h.floored⟩
    · refine ⟨rfl, fun _ => rfl, rfl, rfl, fun k past event later hsplit => ?_⟩
      exact absurd hsplit (by simp)
  refine ⟨?_, ?_, fun k => ?_⟩
  · rw [h.treasury, slashHistory_of_run hr]
    exact ((HashMap.total_foldl_push (fun event : SlashEvent => event.slashAmount.toNat)
      SlashEvent.offender (Economy.eventsOf hist) ∅).trans (Nat.zero_add _)).symm
  · rw [h.treasury]
    exact h.total
  · rw [getSlashHistory_of_run rfl hr]
    exact ⟨h.stakes k, h.floored k⟩

/-- Five percent of 10,000, then one percent of what is left. -/
theorem slash_accounting_twice :
    ∃ hist s, Run (Economy.slashStep Crates.sample) (fun _ _ => True) delegatedEconomy hist s ∧
      (s.engine.getSlashHistory (Bytes.fill 32 1)).map (·.slashAmount) = [500, 95] ∧
      s.engine.treasury.toNat = HashMap.total amounts s.engine.slashHistory ∧
      stakeSum s.validatorSet + s.engine.treasury.toNat = 10000 := by
  obtain ⟨hist, s, hr, hslashes⟩ : ∃ hist s,
      Run (Economy.slashStep Crates.sample) (fun _ _ => True) delegatedEconomy hist s ∧
        (s.engine.getSlashHistory (Bytes.fill 32 1)).map (·.slashAmount) = [500, 95] :=
    Run.exists_of_replay slashCalls (by decide +kernel)
  have hbps : ∀ offense, SlashingConfig.default.slashBps offense ≤ 10000 := by
    intro offense
    cases offense <;> decide
  have h := slash_accounting hbps (by decide +kernel) hr
  exact ⟨hist, s, hr, hslashes, h.1, h.2.1⟩

end Slashing

end Trv1Chain
