import Trv1Chain.Proof.SlashLedgers

/-!
# Locked principal stays

Stake leaves a pool by `unstake`, by `undelegate` and by a slash, and all three end in one removal
loop. The loop asks each entry for its recorded unlock epoch; that this is the start of the entry
plus the duration of its tier is an invariant of the pool, as long as epochs leave room for the
addition. So what a call does to the entries of an owner is `Grows`: entries whose lock has ended
may shrink or go, every other one stays as it is, and new entries come behind.
-/

set_option autoImplicit false

namespace Trv1Chain

open Lib

namespace Staking

/-! ## The entries of one owner -/

section Owner

variable {Owner : Type}

/-- An entry of a tier with an end, and the end has come by epoch `t`. -/
def Withdrawable (t : UInt64) (e : Entry Owner) : Prop :=
  e.lockTier ≠ .permanent ∧
    ∃ d, e.lockTier.lockDurationEpochs = some d ∧ e.startEpoch.toNat + d.toNat ≤ t.toNat

/-- `Shrinks t l l'`: entries of `l` whose lock has ended are gone from `l'` or hold less there;
all others are in `l'` as they are. -/
inductive Shrinks (t : UInt64) : List (Entry Owner) → List (Entry Owner) → Prop
  | nil : Shrinks t [] []
  | keep (e : Entry Owner) {l l' : List (Entry Owner)} : Shrinks t l l' →
      Shrinks t (e :: l) (e :: l')
  | drop {e : Entry Owner} {l l' : List (Entry Owner)} : Withdrawable t e → Shrinks t l l' →
      Shrinks t (e :: l) l'
  | part {e : Entry Owner} {amount : UInt64} {l l' : List (Entry Owner)} : Withdrawable t e →
      amount ≤ e.amount → Shrinks t l l' → Shrinks t (e :: l) ({ e with amount := amount } :: l')

theorem Shrinks.refl (t : UInt64) : ∀ l : List (Entry Owner), Shrinks t l l
  | [] => .nil
  | e :: l => .keep e (Shrinks.refl t l)

theorem Shrinks.trans {t : UInt64} {l₁ l₂ : List (Entry Owner)} (h : Shrinks t l₁ l₂) :
    ∀ {l₃ : List (Entry Owner)}, Shrinks t l₂ l₃ → Shrinks t l₁ l₃ := by
  induction h with
  | nil => intro l₃ h'; exact h'
  | keep e _ ih =>
    intro l₃ h'
    cases h' with
    | keep _ h' => exact .keep e (ih h')
    | drop hw h' => exact .drop hw (ih h')
    | part hw hle h' => exact .part hw hle (ih h')
  | drop hw _ ih => intro l₃ h'; exact .drop hw (ih h')
  | part hw hle _ ih =>
    intro l₃ h'
    cases h' with
    | keep _ h' => exact .part hw hle (ih h')
    | drop _ h' => exact .drop hw (ih h')
    | part _ hle' h' => exact .part hw (UInt64.le_trans hle' hle) (ih h')

/-- The permanently locked amount of a list of entries. -/
def permanentSum (entries : List (Entry Owner)) : Nat :=
  sumOf (entries.filter fun e => e.lockTier == .permanent)

theorem Shrinks.permanentSum {t : UInt64} {l l' : List (Entry Owner)} (h : Shrinks t l l') :
    permanentSum l' = permanentSum l := by
  unfold Staking.permanentSum
  induction h with
  | nil => rfl
  | keep e _ ih =>
    rw [List.filter_cons, List.filter_cons]
    split
    · rw [sumOf_cons, sumOf_cons, ih]
    · exact ih
  | drop hw _ ih =>
    rw [List.filter_cons, if_neg (by simp [hw.1])]
    exact ih
  | part hw _ _ ih =>
    rw [List.filter_cons, List.filter_cons, if_neg (by simp [hw.1]), if_neg (by simp [hw.1])]
    exact ih

/-! ### The unlock epoch -/

/-- Below this epoch every lock duration can be added. -/
def lastEpoch : Nat := 2 ^ 64 - 360

/-- The recorded unlock epoch is the start plus the duration, and neither wraps. -/
def Timed (e : Entry Owner) : Prop :=
  e.startEpoch.toNat < lastEpoch ∧
    e.unlockEpoch = e.lockTier.lockDurationEpochs.map fun d => e.startEpoch + d

theorem LockTier.toNat_duration_le {tier : LockTier} {d : UInt64}
    (h : tier.lockDurationEpochs = some d) : d.toNat ≤ 360 := by
  cases tier <;> cases h <;> decide

theorem Timed.withdrawable {t : UInt64} {e : Entry Owner} (h : Timed e)
    (hun : isUnlocked e.unlockEpoch t = true) : Withdrawable t e := by
  obtain ⟨hstart, hunlock⟩ := h
  unfold lastEpoch at hstart
  cases hd : e.lockTier.lockDurationEpochs with
  | none =>
    rw [hunlock, hd] at hun
    cases hun
  | some d =>
    have hle := LockTier.toNat_duration_le hd
    have hadd := toNat_add_of_fits (x := e.startEpoch) (y := d) (by omega)
    rw [hunlock, hd] at hun
    have hge : t ≥ e.startEpoch + d := of_decide_eq_true hun
    refine ⟨?_, d, hd, ?_⟩
    · intro hperm
      rw [hperm] at hd
      cases hd
    · have := UInt64.le_iff_toNat_le.mp hge
      omega

theorem Shrinks.timed {t : UInt64} {l l' : List (Entry Owner)} (h : Shrinks t l l')
    (hl : ∀ e ∈ l, Timed e) : ∀ e ∈ l', Timed e := by
  induction h with
  | nil => exact hl
  | keep e _ ih =>
    rw [List.forall_mem_cons] at hl ⊢
    exact ⟨hl.1, ih hl.2⟩
  | drop _ _ ih =>
    rw [List.forall_mem_cons] at hl
    exact ih hl.2
  | part _ _ _ ih =>
    rw [List.forall_mem_cons] at hl ⊢
    exact ⟨hl.1, ih hl.2⟩

/-- The removal loop passes over locked entries. -/
theorem takeUnlocked_shrinks (t : UInt64) : ∀ {entries : List (Entry Owner)}
    (amount removed : UInt64), (∀ e ∈ entries, Timed e) →
    Shrinks t entries (takeUnlocked t entries amount removed).1 := by
  intro entries
  induction entries with
  | nil => intro amount removed _; exact .nil
  | cons e rest ih =>
    intro amount removed htimed
    rw [List.forall_mem_cons] at htimed
    unfold takeUnlocked
    split
    · split
      · rename_i hun
        have hw := htimed.1.withdrawable hun
        split
        · exact .drop hw (ih _ _ htimed.2)
        · rename_i hlt
          refine .part hw ?_ (.refl t rest)
          exact UInt64.sub_le (UInt64.le_of_lt (UInt64.not_le.mp hlt))
      · exact .keep e (ih _ _ htimed.2)
    · exact .refl t _

/-- Opened in epoch `t`, with the lock of its tier. -/
def Opened (t : UInt64) (e : Entry Owner) : Prop :=
  e.startEpoch = t ∧ e.unlockEpoch = e.lockTier.lockDurationEpochs.map fun d => t + d

/-- The entries of an owner before and after a call in epoch `t`: what shrinks has its lock behind
it, and new entries come behind. -/
def Grows (t : UInt64) (l l' : List (Entry Owner)) : Prop :=
  ∃ kept added, l' = kept ++ added ∧ Shrinks t l kept ∧ ∀ e ∈ added, Opened t e

theorem Shrinks.grows {t : UInt64} {l l' : List (Entry Owner)} (h : Shrinks t l l') :
    Grows t l l' :=
  ⟨l', [], (List.append_nil l').symm, h, by simp⟩

theorem Grows.permanentSum_le {t : UInt64} {l l' : List (Entry Owner)} (h : Grows t l l') :
    permanentSum l ≤ permanentSum l' := by
  obtain ⟨kept, added, rfl, hshrinks, -⟩ := h
  rw [← hshrinks.permanentSum]
  unfold permanentSum
  rw [List.filter_append, sumOf_append]
  exact Nat.le_add_right _ _

theorem Grows.timed {t : UInt64} {l l' : List (Entry Owner)} (h : Grows t l l')
    (ht : t.toNat < lastEpoch) (hl : ∀ e ∈ l, Timed e) : ∀ e ∈ l', Timed e := by
  obtain ⟨kept, added, rfl, hshrinks, hopened⟩ := h
  rw [List.forall_mem_append]
  refine ⟨hshrinks.timed hl, ?_⟩
  intro e he
  obtain ⟨rfl, hunlock⟩ := hopened e he
  exact ⟨ht, hunlock⟩

end Owner

/-! ## The books -/

section Book

variable {Owner : Type} [DecidableEq Owner]

theorem Book.deposit_grows (book : Book Owner) (total t : UInt64) (owner : Owner)
    (amount : UInt64) (tier : LockTier) (k : Owner) :
    Grows t (Book.entriesOf book k)
      (Book.entriesOf (book.deposit total t owner amount tier).1 k) := by
  have hinsert : Grows t (Book.entriesOf book k) (Book.entriesOf (book.insert owner
      (Book.entriesOf book owner ++ [Entry.new owner amount tier t])) k) := by
    by_cases hk : k = owner
    · subst hk
      refine ⟨Book.entriesOf book k, [Entry.new k amount tier t], ?_, .refl t _, ?_⟩
      · show ((book.insert k _).lookup k).getD [] = _
        rw [AList.lookup_insert]
        rfl
      · rw [List.forall_mem_singleton]
        exact ⟨rfl, rfl⟩
    · show Grows t _ (((book.insert owner _).lookup k).getD [])
      rw [AList.lookup_insert_ne hk]
      exact (Shrinks.refl t _).grows
  unfold Book.deposit
  split
  · exact (Shrinks.refl t _).grows
  · dsimp only
    split
    · exact hinsert
    · exact hinsert

theorem Takes.shrinks {book : Book Owner} {total t : UInt64} {owner : Owner} {amount : UInt64}
    {r : Book Owner × UInt64 × Except StakingError Unit} (h : Takes book total t owner amount r)
    (htimed : ∀ k, ∀ e ∈ Book.entriesOf book k, Timed e) (k : Owner) :
    Shrinks t (Book.entriesOf book k) (Book.entriesOf r.1 k) := by
  cases h with
  | refused _ => exact .refl t _
  | taken _ _ =>
    by_cases hk : k = owner
    · subst hk
      rw [Book.entriesOf_put]
      exact takeUnlocked_shrinks t _ _ (htimed k)
    · rw [Book.entriesOf_put_ne book _ hk]
      exact .refl t _

end Book

/-! ## The pool -/

namespace StakingPool

/-- Every recorded unlock epoch is right. -/
structure AllTimed (pool : StakingPool) : Prop where
  epoch : pool.currentEpoch.toNat < lastEpoch
  entries : ∀ k, ∀ e ∈ Book.entriesOf pool.entries k, Timed e
  delegations : ∀ k, ∀ e ∈ Book.entriesOf pool.delegations k, Timed e

/-- What a call may do to the stakers' entries and to the delegations. -/
structure Evolves (pool pool' : StakingPool) : Prop where
  entries : ∀ k, Grows pool.currentEpoch (Book.entriesOf pool.entries k)
    (Book.entriesOf pool'.entries k)
  delegations : ∀ k, Grows pool.currentEpoch (Book.entriesOf pool.delegations k)
    (Book.entriesOf pool'.delegations k)

theorem Evolves.refl (pool : StakingPool) : Evolves pool pool :=
  ⟨fun _ => (Shrinks.refl _ _).grows, fun _ => (Shrinks.refl _ _).grows⟩

theorem Evolves.allTimed {pool pool' : StakingPool} (h : Evolves pool pool')
    (ht : pool.AllTimed) (hepoch : pool'.currentEpoch.toNat < lastEpoch) : pool'.AllTimed :=
  ⟨hepoch, fun k => (h.entries k).timed ht.epoch (ht.entries k),
    fun k => (h.delegations k).timed ht.epoch (ht.delegations k)⟩

theorem call_evolves {pool : StakingPool} (ht : pool.AllTimed) (c : Call) :
    Evolves pool (pool.call c).1 := by
  have hsame : ∀ {Owner : Type} [DecidableEq Owner] (book : Book Owner) (k : Owner),
      Grows pool.currentEpoch (Book.entriesOf book k) (Book.entriesOf book k) :=
    fun _ _ => (Shrinks.refl _ _).grows
  cases c with
  | stake staker amount tier =>
    exact ⟨Book.deposit_grows _ _ _ _ _ _, hsame pool.delegations⟩
  | delegate delegator validator amount tier =>
    exact ⟨hsame pool.entries, Book.deposit_grows _ _ _ _ _ _⟩
  | unstake staker amount =>
    refine ⟨fun k => ?_, hsame pool.delegations⟩
    exact ((Book.withdraw_takes pool.entries pool.totalStaked pool.currentEpoch staker amount
      .noStakeFound).shrinks ht.entries k).grows
  | undelegate delegator validator amount =>
    refine ⟨hsame pool.entries, fun k => ?_⟩
    exact ((Book.withdraw_takes pool.delegations pool.totalStaked pool.currentEpoch
      (delegator, validator) amount .noDelegationFound).shrinks ht.delegations k).grows
  | setEpoch epoch => exact ⟨hsame pool.entries, hsame pool.delegations⟩

end StakingPool

end Staking

/-! ## Staking, the registry and slashing together -/

namespace Slashing

open Staking

/-- The stakers' entries have shrunk since `pool₀`, in its epoch, and nothing else has changed. -/
structure Shrunk (pool₀ pool : StakingPool) : Prop where
  epoch : pool.currentEpoch = pool₀.currentEpoch
  delegations : pool.delegations = pool₀.delegations
  entries : ∀ k, Shrinks pool₀.currentEpoch (Book.entriesOf pool₀.entries k)
    (Book.entriesOf pool.entries k)

theorem Shrunk.unstake {pool₀ pool : StakingPool} (ht : pool₀.AllTimed) (h : Shrunk pool₀ pool)
    (k : PublicKey) (amount : UInt64) : Shrunk pool₀ (pool.unstake k amount).1 := by
  refine ⟨h.epoch, h.delegations, ?_⟩
  intro k'
  have htimed : ∀ k, ∀ e ∈ Book.entriesOf pool.entries k, Timed e :=
    fun k => (h.entries k).timed (ht.entries k)
  have hstep := (unstake_takes pool k amount).shrinks htimed k'
  rw [h.epoch] at hstep
  exact (h.entries k').trans hstep

theorem slash_shrunk (C : Crates) {s : Economy} (ht : s.stakingPool.AllTimed) (c : Call) :
    Shrunk s.stakingPool (s.slash C c).1.stakingPool := by
  refine @Economy.slash_invariant C (fun s' _ => Shrunk s.stakingPool s'.stakingPool) ?_
    (fun _ h => h) s [] ⟨rfl, rfl, fun _ => .refl _ _⟩ c
  intro s₁ e s₂ event events h hs
  cases hs with
  | unknown _ => exact h
  | nothing _ _ => exact h
  | slashed _ _ _ => exact h.unstake ht _ _

namespace Economy

/-- Epochs are set low enough for every lock to end. -/
def EpochFits (_ : Economy) : Call → Prop
  | .staking (.setEpoch epoch) => epoch.toNat < lastEpoch
  | _ => True

instance (s : Economy) : ∀ c : Call, Decidable (EpochFits s c)
  | .staking (.setEpoch _) => inferInstanceAs (Decidable (_ < _))
  | .staking (.stake _ _ _) => inferInstanceAs (Decidable True)
  | .staking (.unstake _ _) => inferInstanceAs (Decidable True)
  | .staking (.delegate _ _ _ _) => inferInstanceAs (Decidable True)
  | .staking (.undelegate _ _ _) => inferInstanceAs (Decidable True)
  | .registry _ => inferInstanceAs (Decidable True)
  | .slashing _ => inferInstanceAs (Decidable True)

/-- **What a turn does to the stakes**, and that it keeps the unlock epochs right. -/
theorem step_evolves {C : Crates} {s s' : Economy} {c : Call} {out : List Answer}
    (ht : s.stakingPool.AllTimed) (hG : EpochFits s c) (hs : step C s c = some (s', out)) :
    s.stakingPool.Evolves s'.stakingPool ∧ s'.stakingPool.AllTimed := by
  cases c with
  | staking c =>
    cases hs
    have hev := StakingPool.call_evolves ht c
    refine ⟨hev, hev.allTimed ht ?_⟩
    cases c with
    | setEpoch epoch => exact hG
    | stake staker amount tier => exact ht.epoch
    | unstake staker amount => exact ht.epoch
    | delegate delegator validator amount tier => exact ht.epoch
    | undelegate delegator validator amount => exact ht.epoch
  | registry c =>
    obtain ⟨r, -, hr⟩ := Option.map_eq_some_iff.mp hs
    cases hr
    exact ⟨.refl _, ht⟩
  | slashing c =>
    cases hs
    have hsh := slash_shrunk C ht c
    have hev : s.stakingPool.Evolves (s.slash C c).1.stakingPool := by
      refine ⟨fun k => (hsh.entries k).grows, fun k => ?_⟩
      rw [hsh.delegations]
      exact (Shrinks.refl _ _).grows
    refine ⟨hev, hev.allTimed ht ?_⟩
    rw [hsh.epoch]
    exact ht.epoch

/-- **Locked principal stays.** In every run of staking, registry and slashing calls from an empty
pool, with epochs that leave room for the lock durations, each turn takes stake only from entries
whose tier has an end and whose start plus duration is at most the epoch of that turn; all other
entries stay as they are. The permanently locked amount of a staker, and of a pair of delegator and
validator, never falls. -/
theorem locked_stake_stays {C : Crates} {engine : SlashingEngine}
    {validatorSet : ValidatorSet.ValidatorSetManager} {hist : List (Turn Economy Call Answer)}
    {s : Economy} (hr : Run (step C) EpochFits ⟨engine, validatorSet, .new⟩ hist s) :
    ∀ τ ∈ hist,
      ((∀ k, Grows τ.before.stakingPool.currentEpoch
          (Book.entriesOf τ.before.stakingPool.entries k)
          (Book.entriesOf τ.after.stakingPool.entries k)) ∧
        ∀ k, Grows τ.before.stakingPool.currentEpoch
          (Book.entriesOf τ.before.stakingPool.delegations k)
          (Book.entriesOf τ.after.stakingPool.delegations k)) ∧
      (∀ k, permanentSum (Book.entriesOf τ.before.stakingPool.entries k) ≤
          permanentSum (Book.entriesOf s.stakingPool.entries k)) ∧
        ∀ k, permanentSum (Book.entriesOf τ.before.stakingPool.delegations k) ≤
          permanentSum (Book.entriesOf s.stakingPool.delegations k) := by
  have hnew : StakingPool.new.AllTimed := by
    refine ⟨by decide, ?_, ?_⟩
    · intro k e he
      cases he
    · intro k e he
      cases he
  have hall : s.stakingPool.AllTimed ∧ ∀ τ ∈ hist,
      τ.before.stakingPool.Evolves τ.after.stakingPool ∧
      (∀ k, permanentSum (Book.entriesOf τ.before.stakingPool.entries k) ≤
          permanentSum (Book.entriesOf s.stakingPool.entries k)) ∧
        ∀ k, permanentSum (Book.entriesOf τ.before.stakingPool.delegations k) ≤
          permanentSum (Book.entriesOf s.stakingPool.delegations k) := by
    refine hr.invariant (I := fun hist s => s.stakingPool.AllTimed ∧ ∀ τ ∈ hist,
      τ.before.stakingPool.Evolves τ.after.stakingPool ∧
      (∀ k, permanentSum (Book.entriesOf τ.before.stakingPool.entries k) ≤
          permanentSum (Book.entriesOf s.stakingPool.entries k)) ∧
        ∀ k, permanentSum (Book.entriesOf τ.before.stakingPool.delegations k) ≤
          permanentSum (Book.entriesOf s.stakingPool.delegations k)) ⟨hnew, by simp⟩ ?_
    intro hist s c s' out _ ih hG hs
    obtain ⟨ht, hpast⟩ := ih
    obtain ⟨hev, ht'⟩ := step_evolves ht hG hs
    have hentries := fun k => (hev.entries k).permanentSum_le
    have hdelegations := fun k => (hev.delegations k).permanentSum_le
    refine ⟨ht', ?_⟩
    rw [List.forall_mem_cons]
    refine ⟨⟨hev, hentries, hdelegations⟩, ?_⟩
    intro τ hτ
    obtain ⟨hevτ, he, hd⟩ := hpast τ hτ
    exact ⟨hevτ, fun k => (he k).trans (hentries k), fun k => (hd k).trans (hdelegations k)⟩
  intro τ hτ
  obtain ⟨hev, hperm⟩ := hall.2 τ hτ
  exact ⟨⟨hev.entries, hev.delegations⟩, hperm⟩

/-- A validator with a permanent, a thirty-day and an unlocked stake. It withdraws in vain, waits,
withdraws across two of them, and is slashed. -/
def mixedCalls : List Call :=
  [.registry (.registerValidator (Bytes.fill 32 1) 10000 0 0),
    .staking (.stake (Bytes.fill 32 1) 5000 .permanent),
    .staking (.stake (Bytes.fill 32 1) 3000 .thirtyDay),
    .staking (.stake (Bytes.fill 32 1) 2000 .noLock),
    .staking (.unstake (Bytes.fill 32 1) 4000), .staking (.setEpoch 30),
    .staking (.unstake (Bytes.fill 32 1) 4000),
    .slashing (.slashValidator (Bytes.fill 32 1) .doubleSign 7)]

def emptyEconomy : Economy :=
  ⟨.withConfig .default, .withConfig ⟨200, 100, 100⟩, .new⟩

theorem locked_stake_stays_mixed :
    ∃ hist s, Run (step Crates.sample) EpochFits emptyEconomy hist s ∧
      s.stakingPool.totalStaked = 5500 ∧
      ∀ τ ∈ hist, permanentSum (Book.entriesOf τ.before.stakingPool.entries (Bytes.fill 32 1)) ≤
        permanentSum (Book.entriesOf s.stakingPool.entries (Bytes.fill 32 1)) := by
  obtain ⟨hist, s, hr, htotal⟩ : ∃ hist s,
      Run (step Crates.sample) EpochFits emptyEconomy hist s ∧ s.stakingPool.totalStaked = 5500 :=
    Run.exists_of_replay mixedCalls (by decide +kernel)
  exact ⟨hist, s, hr, htotal, fun τ hτ => (locked_stake_stays hr τ hτ).2.1 _⟩

end Economy

end Slashing

end Trv1Chain
