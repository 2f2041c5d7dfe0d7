import Trv1Chain.Proof.Withdrawal
import Trv1Chain.Slashing.Economy

/-!
# What slashing does to the ledgers

The engine states one critical invariant: only the validator's own stake is slashed. It holds of
every sequence of calls on any state, because a slash reaches the pool only through `unstake`.

The amounts are another matter. A slash credits the treasury with a percentage of the *recorded*
stake, and asks the pool for as much, best-effort: the pool gives all of it when the offender's
unlocked entries hold it, and nothing when they are locked.
-/

set_option autoImplicit false

namespace Trv1Chain

open Lib Staking ValidatorSet

namespace Slashing

/-! ## The part of the pool a slash does not touch -/

/-- The delegations and the entries of all but the offenders are as they were in `pool₀`. -/
def Spared (pool₀ : StakingPool) (s : Economy) (events : List SlashEvent) : Prop :=
  s.stakingPool.delegations = pool₀.delegations ∧
    ∀ k, (∀ event ∈ events, event.offender ≠ k) →
      s.stakingPool.entries.lookup k = pool₀.entries.lookup k

theorem Spared.slash {C : Crates} {pool₀ : StakingPool} {s s' : Economy}
    {events : List SlashEvent} {e : EvidenceRecord} {event : Option SlashEvent}
    (h : Spared pool₀ s events) (hs : Slashes C s e s' event) :
    Spared pool₀ s' (events ++ event.toList) := by
  cases hs with
  | unknown _ =>
    rw [Option.toList_none, List.append_nil]
    exact h
  | nothing _ _ =>
    rw [Option.toList_none, List.append_nil]
    exact h
  | slashed _ _ _ =>
    refine ⟨h.1, ?_⟩
    intro k hk
    have hold : ∀ event ∈ events, event.offender ≠ k :=
      fun event he => hk event (List.mem_append_left _ he)
    have hnew : k ≠ e.offender :=
      (hk _ (List.mem_append_right _ (List.mem_singleton_self _))).symm
    exact (unstake_lookup_ne _ _ hnew).trans (h.2 k hold)

/-- **Delegators are never slashed.** No sequence of the engine's calls, on any state, changes the
delegations, or the entries of a key without a slash against it. So the power a key has from
delegations is what it was: its voting power is the sum of its own stakes now and of the
delegations to it then. -/
theorem delegators_never_slashed {C : Crates} {s₀ s : Economy}
    {hist : List (Turn Economy Call Answer)}
    (hr : Run (Economy.slashStep C) (fun _ _ => True) s₀ hist s) :
    s.stakingPool.delegations = s₀.stakingPool.delegations ∧
      (∀ k, (∀ event ∈ Economy.eventsOf hist, event.offender ≠ k) →
        s.stakingPool.entries.lookup k = s₀.stakingPool.entries.lookup k) ∧
      ∀ it k, s.stakingPool.getVotingPower it k =
        (s.stakingPool.ownPowers k ++ s₀.stakingPool.delegatedPowers k).foldl saturatingAdd 0 := by
  obtain ⟨hdel, hentries⟩ := Economy.slashRun_invariant (I := Spared s₀.stakingPool)
    (fun h hs => h.slash hs) (fun _ h => h) ⟨rfl, fun _ _ => rfl⟩ hr
  refine ⟨hdel, hentries, ?_⟩
  intro it k
  rw [StakingPool.getVotingPower_eq]
  unfold StakingPool.delegatedPowers
  rw [hdel]

/-- A validator whose stake of 10,000 is unlocked, with a delegation of 5,000 from the second
key. -/
def delegatedEconomy : Economy where
  engine := .withConfig .default
  validatorSet :=
    ((ValidatorSetManager.withConfig ⟨200, 100, 100⟩).registerValidator (Bytes.fill 32 1) 10000 0
      0).1
  stakingPool :=
    ((StakingPool.new.stake (Bytes.fill 32 1) 10000 .delegator).1.delegate (Bytes.fill 32 2)
      (Bytes.fill 32 1) 5000 .delegator).1

def doubleSign (b : UInt8) : EvidenceRecord := ⟨.doubleSign, Bytes.fill 32 b, 7, [1], false⟩

/-- Evidence against the validator and against a key that is none; then a direct slash. -/
def slashCalls : List Call :=
  [.submitEvidence (doubleSign 1), .submitEvidence (doubleSign 2),
    .processAllEvidence .stored, .slashValidator (Bytes.fill 32 1) .downtime 9]

theorem delegators_never_slashed_twice :
    ∃ hist s, Run (Economy.slashStep Crates.sample) (fun _ _ => True) delegatedEconomy hist s ∧
      (Economy.eventsOf hist).map (·.slashAmount) = [500, 95] ∧
      s.stakingPool.totalStaked = 14405 ∧
      s.stakingPool.delegations = delegatedEconomy.stakingPool.delegations := by
  obtain ⟨hist, s, hr, hslashes, htotal⟩ : ∃ hist s,
      Run (Economy.slashStep Crates.sample) (fun _ _ => True) delegatedEconomy hist s ∧
        (Economy.eventsOf hist).map (·.slashAmount) = [500, 95] ∧
        s.stakingPool.totalStaked = 14405 :=
    Run.exists_of_replay slashCalls (by decide +kernel)
  exact ⟨hist, s, hr, hslashes, htotal, (delegators_never_slashed hr).1⟩

/-! ## The amounts -/

/-- One slash: the pool before it, the event it was recorded as, the pool after it. -/
structure Slash where
  before : StakingPool
  event : SlashEvent
  after : StakingPool

namespace Slash

/-- The offender's own entries before the slash. -/
def ownEntries (x : Slash) : List (Entry PublicKey) :=
  Book.entriesOf x.before.entries x.event.offender

/-- The offender's unlocked entries hold the amount. -/
def Covered (x : Slash) : Prop :=
  x.event.slashAmount ≤ unlockedTotal x.before.currentEpoch x.ownEntries

instance : DecidablePred Covered := fun _ => inferInstanceAs (Decidable (_ ≤ _))

/-- The offender has no unlocked entry. -/
def Locked (x : Slash) : Prop :=
  ∀ e ∈ x.ownEntries, isUnlocked e.unlockEpoch x.before.currentEpoch = false

/-- The pool was asked for the amount. -/
def Asked (x : Slash) : Prop :=
  x.event.slashAmount ≠ 0 ∧
    x.after = (x.before.unstake x.event.offender x.event.slashAmount).1

/-- The amount was taken out of the offender's own entries, and off the total. -/
def Taken (x : Slash) : Prop :=
  x.after.totalStaked + x.event.slashAmount = x.before.totalStaked ∧
    sumOf (Book.entriesOf x.after.entries x.event.offender) + x.event.slashAmount.toNat =
      sumOf x.ownEntries

theorem Asked.taken {x : Slash} (h : x.Asked) (hc : x.Covered) : x.Taken := by
  obtain ⟨hne, hafter⟩ := h
  unfold Taken
  rw [hafter]
  rcases unstake_cases x.before x.event.offender hne with ⟨hlt, -⟩ | ⟨hcov, htaken⟩
  · exact absurd (UInt64.lt_of_lt_of_le hlt hc) (UInt64.lt_irrefl _)
  · rw [htaken]
    refine ⟨UInt64.sub_add_cancel _ _, ?_⟩
    rw [Book.entriesOf_put]
    exact (takeUnlocked_covered hcov).2

theorem Locked.not_covered {x : Slash} (h : x.Locked) (hne : x.event.slashAmount ≠ 0) :
    ¬ x.Covered := by
  intro hc
  have hnone : x.ownEntries.filter (fun e => isUnlocked e.unlockEpoch x.before.currentEpoch) =
      [] := by
    apply List.filter_eq_nil_iff.mpr
    intro e he
    rw [h e he]
    simp
  unfold Covered unlockedTotal at hc
  rw [hnone] at hc
  exact hne (UInt64.le_zero_iff.mp hc)

theorem Asked.unchanged {x : Slash} (h : x.Asked) (hc : ¬ x.Covered) : x.after = x.before := by
  obtain ⟨hne, hafter⟩ := h
  rcases unstake_cases x.before x.event.offender hne with ⟨-, hsame⟩ | ⟨hcov, -⟩
  · exact hafter.trans hsame
  · exact absurd hcov hc

end Slash

/-- The slashes lead from one pool to the other, each from where the one before it ended. -/
inductive Linked (pool₀ : StakingPool) : List Slash → StakingPool → Prop
  | nil : Linked pool₀ [] pool₀
  | snoc {log : List Slash} {x : Slash} : Linked pool₀ log x.before →
      Linked pool₀ (log ++ [x]) x.after

/-- What the slashes took together. -/
def covered (log : List Slash) : UInt64 :=
  ((log.filter fun x => decide x.Covered).map fun x => x.event.slashAmount).sum

theorem Linked.totalStaked {pool₀ pool : StakingPool} {log : List Slash}
    (h : Linked pool₀ log pool) (hall : ∀ x ∈ log, x.Asked) :
    pool.totalStaked + covered log = pool₀.totalStaked := by
  induction h with
  | nil => exact UInt64.add_zero _
  | @snoc log x hlog ih =>
    rw [List.forall_mem_append, List.forall_mem_singleton] at hall
    have hpast := ih hall.1
    unfold covered at hpast ⊢
    rw [List.filter_append, List.map_append, List.sum_append]
    by_cases hc : x.Covered
    · have htaken := (hall.2.taken hc).1
      have hone : ([x].filter fun x => decide x.Covered) = [x] := by simp [hc]
      rw [hone, List.map_singleton, List.sum_singleton, UInt64.add_comm _ x.event.slashAmount,
        ← UInt64.add_assoc, htaken]
      exact hpast
    · have hnone : ([x].filter fun x => decide x.Covered) = [] := by simp [hc]
      rw [hnone, List.map_nil, List.sum_nil, UInt64.add_zero, hall.2.unchanged hc]
      exact hpast

/-- The ledgers after a series of slashes from `s₀`, with the series. -/
structure Recorded (s₀ s : Economy) (events : List SlashEvent) (log : List Slash) : Prop where
  named : log.map Slash.event = events
  linked : Linked s₀.stakingPool log s.stakingPool
  asked : ∀ x ∈ log, x.Asked
  treasury : s.engine.treasury.toNat =
    min (s₀.engine.treasury.toNat + (events.map fun event => event.slashAmount.toNat).sum)
      (2 ^ 64 - 1)

theorem Recorded.slash {C : Crates} {s₀ s s' : Economy} {events : List SlashEvent}
    {log : List Slash} {e : EvidenceRecord} {event : Option SlashEvent}
    (h : Recorded s₀ s events log) (hs : Slashes C s e s' event) :
    ∃ log', Recorded s₀ s' (events ++ event.toList) log' := by
  cases hs with
  | unknown _ =>
    rw [Option.toList_none, List.append_nil]
    exact ⟨log, h⟩
  | nothing _ _ =>
    rw [Option.toList_none, List.append_nil]
    exact ⟨log, h⟩
  | @slashed v amount history hl hamount hne =>
    refine ⟨log ++ [⟨s.stakingPool, ⟨e.offender, e.offense, amount, e.height, e.hash C⟩,
      (s.stakingPool.unstake e.offender amount).1⟩], ?_, .snoc h.linked, ?_, ?_⟩
    · rw [List.map_append, h.named]
      rfl
    · rw [List.forall_mem_append, List.forall_mem_singleton]
      exact ⟨h.asked, hne, rfl⟩
    · have htreasury := h.treasury
      rw [List.map_append, List.sum_append, Option.toList_some, List.map_singleton,
        List.sum_singleton]
      dsimp only
      rw [toNat_saturatingAdd]
      omega

/-- **What slashing takes, and what it credits.** Over any sequence of the engine's calls that
leaves the treasury below saturation, the treasury rises by the sum of the slashed amounts. Each
slash whose offender's unlocked own stake holds the amount takes exactly it, out of the offender's
own entries and off the total; a slash against an offender whose stake is locked leaves the pool as
it is. When every slash is of the first kind, the treasury rises by what the total falls. -/
theorem slashing_moves_value {C : Crates} {s₀ s : Economy}
    {hist : List (Turn Economy Call Answer)}
    (hr : Run (Economy.slashStep C) (fun _ _ => True) s₀ hist s)
    (hroom : s.engine.treasury.toNat < 2 ^ 64 - 1) :
    s.engine.treasury.toNat = s₀.engine.treasury.toNat +
        ((Economy.eventsOf hist).map fun event => event.slashAmount.toNat).sum ∧
      ∃ log : List Slash, log.map Slash.event = Economy.eventsOf hist ∧
        Linked s₀.stakingPool log s.stakingPool ∧
        (∀ x ∈ log, (x.Covered → x.Taken) ∧ (x.Locked → x.after = x.before)) ∧
        ((∀ x ∈ log, x.Covered) → s.engine.treasury - s₀.engine.treasury =
          s₀.stakingPool.totalStaked - s.stakingPool.totalStaked) := by
  have hrec : ∃ log, Recorded s₀ s (Economy.eventsOf hist) log := by
    refine Economy.slashRun_invariant (I := fun s events => ∃ log, Recorded s₀ s events log)
      ?_ ?_ ⟨[], rfl, .nil, by simp, ?_⟩ hr
    · intro s e s' event events ⟨log, h⟩ hs
      exact h.slash hs
    · intro s events pool ⟨log, h⟩
      exact ⟨log, h.named, h.linked, h.asked, h.treasury⟩
    · have := s₀.engine.treasury.toNat_lt
      simp only [List.map_nil, List.sum_nil]
      omega
  obtain ⟨log, h⟩ := hrec
  have htreasury := h.treasury
  have hexact : s.engine.treasury.toNat = s₀.engine.treasury.toNat +
      ((Economy.eventsOf hist).map fun event => event.slashAmount.toNat).sum := by omega
  refine ⟨hexact, log, h.named, h.linked, ?_, ?_⟩
  · intro x hx
    have hasked := h.asked x hx
    exact ⟨hasked.taken, fun hlocked => hasked.unchanged (hlocked.not_covered hasked.1)⟩
  · intro hall
    have htotal := h.linked.totalStaked h.asked
    -- every slash counts, so what was taken is the sum of the events
    have hsum : covered log = ((Economy.eventsOf hist).map (·.slashAmount)).sum := by
      unfold covered
      rw [List.filter_eq_self.mpr (fun x hx => decide_eq_true (hall x hx)), ← h.named,
        List.map_map]
      rfl
    have hword : s.engine.treasury = s₀.engine.treasury +
        ((Economy.eventsOf hist).map (·.slashAmount)).sum := by
      apply UInt64.toNat_inj.mp
      rw [UInt64.toNat_add, toNat_sum, Nat.add_mod_mod, List.map_map]
      refine hexact.trans (Nat.mod_eq_of_lt ?_).symm
      rw [← hexact]
      exact s.engine.treasury.toNat_lt
    rw [hword, ← htotal, hsum, UInt64.add_comm s₀.engine.treasury,
      UInt64.add_comm s.stakingPool.totalStaked, UInt64.add_sub_cancel, UInt64.add_sub_cancel]

theorem slashing_moves_value_twice :
    ∃ hist s, Run (Economy.slashStep Crates.sample) (fun _ _ => True) delegatedEconomy hist s ∧
      s.engine.treasury = 595 ∧
      delegatedEconomy.stakingPool.totalStaked - s.stakingPool.totalStaked = 595 ∧
      s.engine.treasury.toNat = delegatedEconomy.engine.treasury.toNat +
        ((Economy.eventsOf hist).map fun event => event.slashAmount.toNat).sum := by
  obtain ⟨hist, s, hr, htreasury, htaken⟩ : ∃ hist s,
      Run (Economy.slashStep Crates.sample) (fun _ _ => True) delegatedEconomy hist s ∧
        s.engine.treasury = 595 ∧
        delegatedEconomy.stakingPool.totalStaked - s.stakingPool.totalStaked = 595 :=
    Run.exists_of_replay slashCalls (by decide +kernel)
  have hroom : s.engine.treasury.toNat < 2 ^ 64 - 1 := by
    rw [htreasury]
    decide
  exact ⟨hist, s, hr, htreasury, htaken, (slashing_moves_value hr hroom).1⟩

/-- A validator whose stake of 10,000 is locked for thirty epochs. -/
def lockedEconomy : Economy :=
  { delegatedEconomy with
    stakingPool := (StakingPool.new.stake (Bytes.fill 32 1) 10000 .thirtyDay).1 }

/-- **A slash of locked stake is paid by nobody.** The treasury gets 500; the pool still holds all
of the 10,000. -/
theorem locked_slash_unpaid :
    ∃ hist s, Run (Economy.slashStep Crates.sample) (fun _ _ => True) lockedEconomy hist s ∧
      s.engine.treasury - lockedEconomy.engine.treasury = 500 ∧
      lockedEconomy.stakingPool.totalStaked - s.stakingPool.totalStaked = 0 ∧
      sumOf (Book.entriesOf s.stakingPool.entries (Bytes.fill 32 1)) = 10000 := by
  exact Run.exists_of_replay [.slashValidator (Bytes.fill 32 1) .doubleSign 7] (by decide +kernel)

end Slashing

end Trv1Chain
