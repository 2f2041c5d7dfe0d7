import Trv1Chain.Lib.Run
import Trv1Chain.Proof.Withdrawal

/-!
# The staking total

`total_staked` is a counter beside the two books, and should be what they hold together. A
withdrawal keeps it so, and cannot underflow: the counter covers every entry. A deposit keeps it so
unless the counter would pass 64 bits; then the call answers `Overflow`, the counter stays, and the
entry is in the book all the same.
-/

set_option autoImplicit false

namespace Trv1Chain

open Lib

namespace Staking

/-! ## One book -/

section Book

variable {Owner : Type}

variable [DecidableEq Owner]

/-- What a deposit does to its book and to the counter. -/
inductive Deposits (book : Book Owner) (total amount : UInt64) :
    Book Owner × UInt64 × Except StakingError Unit → Prop
  | refused : amount = 0 → Deposits book total amount (book, total, .error .zeroAmount)
  | counted {book' : Book Owner} : Book.held book' = Book.held book + amount.toNat →
      total.toNat + amount.toNat < 2 ^ 64 →
      Deposits book total amount (book', total + amount, .ok ())
  /-- The entry is in the book, and the counter does not hold it. -/
  | uncounted {book' : Book Owner} : Book.held book' = Book.held book + amount.toNat →
      amount ≠ 0 → ¬ total.toNat + amount.toNat < 2 ^ 64 →
      Deposits book total amount (book', total, .error .overflow)

theorem Book.deposit_deposits (book : Book Owner) (total epoch : UInt64) (owner : Owner)
    (amount : UInt64) (tier : LockTier) :
    Deposits book total amount (book.deposit total epoch owner amount tier) := by
  unfold Book.deposit
  split
  · rename_i hz
    exact .refused hz
  rename_i hne
  have hins := Book.held_insert book owner
    ((book.lookup owner).getD [] ++ [Entry.new owner amount tier epoch])
  rw [sumOf_append, sumOf_cons, sumOf_nil] at hins
  have hamount : (Entry.new owner amount tier epoch).amount = amount := rfl
  rw [hamount] at hins
  dsimp only
  split
  · rename_i hfit
    exact .counted (by omega) hfit
  · rename_i hfit
    exact .uncounted (by omega) hne hfit

/-- What a withdrawal does: it is refused, or takes the same from the book and from the counter. -/
inductive Withdraws (book : Book Owner) (total : UInt64) :
    Book Owner × UInt64 × Except StakingError Unit → Prop
  | refused (e : StakingError) : Withdraws book total (book, total, .error e)
  | taken {book' : Book Owner} {total' : UInt64} (removed : Nat) :
      Book.held book' + removed = Book.held book → total'.toNat + removed = total.toNat →
      Withdraws book total (book', total', .ok ())

theorem Book.withdraw_withdraws (book : Book Owner) (total epoch : UInt64) (owner : Owner)
    (amount : UInt64) (notFound : StakingError) (hcover : Book.held book ≤ total.toNat) :
    Withdraws book total (book.withdraw total epoch owner amount notFound) := by
  have ht := book.withdraw_takes total epoch owner amount notFound
  generalize book.withdraw total epoch owner amount notFound = r at ht ⊢
  cases ht with
  | refused _ => exact .refused _
  | taken _ hcov =>
    have hheld := Book.held_taken hcov
    -- the book holds the amount, and the counter covers the book
    have hle : amount ≤ total := by
      rw [UInt64.le_iff_toNat_le]
      omega
    refine .taken amount.toNat hheld ?_
    rw [UInt64.toNat_sub_of_le _ _ hle]
    have := UInt64.le_iff_toNat_le.mp hle
    omega

end Book

/-! ## The pool -/

/-- The call takes stake out. -/
def Call.Withdraws : Call → Prop
  | .unstake _ _ => True
  | .undelegate _ _ _ => True
  | _ => False

namespace StakingPool

/-- What the two books hold. -/
def staked (pool : StakingPool) : Nat := Book.held pool.entries + Book.held pool.delegations

/-- The counter is what the books hold. -/
def Balanced (pool : StakingPool) : Prop := pool.totalStaked.toNat = pool.staked

/-- A deposit fits the counter. Other calls are free. -/
def Fits (pool : StakingPool) : Call → Prop
  | .stake _ amount _ => amount = 0 ∨ pool.totalStaked.toNat + amount.toNat < 2 ^ 64
  | .delegate _ _ amount _ => amount = 0 ∨ pool.totalStaked.toNat + amount.toNat < 2 ^ 64
  | _ => True

instance (pool : StakingPool) : ∀ c : Call, Decidable (pool.Fits c)
  | .stake _ _ _ => inferInstanceAs (Decidable (_ ∨ _))
  | .delegate _ _ _ _ => inferInstanceAs (Decidable (_ ∨ _))
  | .unstake _ _ => inferInstanceAs (Decidable True)
  | .undelegate _ _ _ => inferInstanceAs (Decidable True)
  | .setEpoch _ => inferInstanceAs (Decidable True)

/-- The pool as a machine that answers each call with its result. -/
def step (pool : StakingPool) (c : Call) :
    Option (StakingPool × List (Except StakingError Unit)) :=
  some ((pool.call c).1, [(pool.call c).2])

/-- What a call on a balanced pool comes to. -/
inductive Outcome (pool : StakingPool) (c : Call) :
    StakingPool → Except StakingError Unit → Prop
  | refused (e : StakingError) : pool.Fits c → Outcome pool c pool (.error e)
  | settled {pool' : StakingPool} : pool.Fits c → pool'.Balanced →
      (c.Withdraws → pool'.totalStaked ≤ pool.totalStaked) → Outcome pool c pool' (.ok ())
  /-- The entry is in its book, and not in the counter. -/
  | uncounted {pool' : StakingPool} : ¬ pool.Fits c → ¬ pool'.Balanced →
      Outcome pool c pool' (.error .overflow)

end StakingPool

open StakingPool

/-- A deposit in one of the books, next to `rest` in the other. -/
theorem Deposits.outcome {Owner : Type} {book : Book Owner} {pool : StakingPool} {c : Call}
    {amount : UInt64} {r : Book Owner × UInt64 × Except StakingError Unit}
    (hd : Deposits book pool.totalStaked amount r) {rest : Nat}
    (hb : pool.totalStaked.toNat = Book.held book + rest) (hc : ¬ c.Withdraws)
    (hfits : pool.Fits c ↔ amount = 0 ∨ pool.totalStaked.toNat + amount.toNat < 2 ^ 64)
    (update : Book Owner → UInt64 → StakingPool)
    (hsame : update book pool.totalStaked = pool)
    (hupdate : ∀ b t, (update b t).Balanced ↔ t.toNat = Book.held b + rest) :
    Outcome pool c (update r.1 r.2.1) r.2.2 := by
  cases hd with
  | refused hz =>
    rw [hsame]
    exact .refused _ (hfits.mpr (Or.inl hz))
  | counted hheld hfit =>
    refine .settled (hfits.mpr (Or.inr hfit)) ?_ fun hw => absurd hw hc
    rw [hupdate, toNat_add_of_fits hfit]
    dsimp only
    omega
  | uncounted hheld hne hfit =>
    refine .uncounted ?_ ?_
    · intro h
      exact (hfits.mp h).elim hne hfit
    · -- the book is up by a positive amount, the counter is not
      have hpos : amount.toNat ≠ 0 := fun h => hne (UInt64.toNat_inj.mp h)
      rw [hupdate]
      dsimp only
      omega

theorem Withdraws.outcome {Owner : Type} {book : Book Owner} {pool : StakingPool} {c : Call}
    {r : Book Owner × UInt64 × Except StakingError Unit}
    (hd : Withdraws book pool.totalStaked r) {rest : Nat}
    (hb : pool.totalStaked.toNat = Book.held book + rest) (hfits : pool.Fits c)
    (update : Book Owner → UInt64 → StakingPool)
    (hsame : update book pool.totalStaked = pool)
    (hupdate : ∀ b t, (update b t).Balanced ↔ t.toNat = Book.held b + rest)
    (htotal : ∀ b t, (update b t).totalStaked = t) :
    Outcome pool c (update r.1 r.2.1) r.2.2 := by
  cases hd with
  | refused e =>
    rw [hsame]
    exact .refused e hfits
  | taken removed hheld hleft =>
    refine .settled hfits ?_ fun _ => ?_
    · rw [hupdate]
      dsimp only
      omega
    · rw [htotal, UInt64.le_iff_toNat_le]
      dsimp only
      omega

namespace StakingPool

theorem call_outcome {pool : StakingPool} (hb : pool.Balanced) (c : Call) :
    Outcome pool c (pool.call c).1 (pool.call c).2 := by
  have hentries : pool.totalStaked.toNat =
    Book.held pool.entries + Book.held pool.delegations := hb
  have hdelegations : pool.totalStaked.toNat =
    Book.held pool.delegations + Book.held pool.entries := by omega
  cases c with
  | stake staker amount tier =>
    exact (Book.deposit_deposits pool.entries pool.totalStaked pool.currentEpoch staker amount
      tier).outcome (c := .stake staker amount tier)
      hentries (fun h => h) Iff.rfl (fun b t => { pool with entries := b, totalStaked := t })
      rfl fun _ _ => Iff.rfl
  | delegate delegator validator amount tier =>
    refine (Book.deposit_deposits pool.delegations pool.totalStaked pool.currentEpoch
      (delegator, validator) amount tier).outcome (c := .delegate delegator validator amount tier)
      hdelegations (fun h => h) Iff.rfl
      (fun b t => { pool with delegations := b, totalStaked := t }) rfl ?_
    intro b t
    unfold Balanced staked
    rw [Nat.add_comm]
  | unstake staker amount =>
    exact (Book.withdraw_withdraws pool.entries pool.totalStaked pool.currentEpoch staker amount
      .noStakeFound (by omega)).outcome (c := .unstake staker amount)
      hentries trivial (fun b t => { pool with entries := b, totalStaked := t }) rfl
      (fun _ _ => Iff.rfl) fun _ _ => rfl
  | undelegate delegator validator amount =>
    refine (Book.withdraw_withdraws pool.delegations pool.totalStaked pool.currentEpoch
      (delegator, validator) amount .noDelegationFound (by omega)).outcome
      (c := .undelegate delegator validator amount)
      hdelegations trivial (fun b t => { pool with delegations := b, totalStaked := t }) rfl ?_
      fun _ _ => rfl
    intro b t
    unfold Balanced staked
    rw [Nat.add_comm]
  | setEpoch epoch => exact .settled trivial hb fun hw => hw.elim

/-- A call leaves a balanced pool balanced exactly when it fits. -/
theorem balanced_call {pool : StakingPool} (hb : pool.Balanced) (c : Call) :
    (pool.call c).1.Balanced ↔ pool.Fits c := by
  have ho := call_outcome hb c
  generalize (pool.call c).1 = pool' at ho ⊢
  generalize (pool.call c).2 = r at ho
  cases ho with
  | refused e hf => exact iff_of_true hb hf
  | settled hf hb' _ => exact iff_of_true hb' hf
  | uncounted hf hb' => exact iff_of_false hb' hf

/-- A run none of whose calls answered `Overflow` ends in a balanced pool. -/
theorem balanced_of_run {G : StakingPool → Call → Prop}
    (hG : ∀ {pool c}, G pool c → (pool.call c).2 ≠ .error .overflow)
    {hist : List (Turn StakingPool Call (Except StakingError Unit))} {pool : StakingPool}
    (hr : Run step G new hist pool) : pool.Balanced := by
  refine hr.invariant (I := fun _ pool => pool.Balanced) rfl ?_
  intro _ p c p' out _ hb hg hs
  cases hs
  have ho := call_outcome hb c
  have hne := hG hg
  generalize (p.call c).1 = p' at ho ⊢
  generalize (p.call c).2 = r at ho hne
  cases ho with
  | refused e _ => exact hb
  | settled _ hb' _ => exact hb'
  | uncounted _ _ => exact absurd rfl hne

/-- **The staking total.** A run of calls from the empty pool keeps the counter equal to the exact
sum of all entries, in every state it passes, exactly when each deposit of it fits the counter. In
such a run a refused call changes nothing, and no withdrawal raises the counter, as one that
underflows would. -/
theorem staking_total {hist : List (Turn StakingPool Call (Except StakingError Unit))}
    {pool : StakingPool} (hr : Run step (fun _ _ => True) new hist pool) :
    ((∀ τ ∈ hist, τ.after.totalStaked.toNat = τ.after.staked) ↔
        ∀ τ ∈ hist, τ.before.Fits τ.event) ∧
      ((∀ τ ∈ hist, τ.before.Fits τ.event) → ∀ τ ∈ hist,
        (∀ e, .error e ∈ τ.out → τ.after = τ.before) ∧
          (τ.event.Withdraws → τ.after.totalStaked ≤ τ.before.totalStaked)) := by
  have hnew : new.Balanced := rfl
  have hstep : ∀ {p : StakingPool} {c p' out}, p.Balanced → step p c = some (p', out) →
      (p'.Balanced ↔ p.Fits c) := by
    intro p c p' out hb hs
    cases hs
    exact balanced_call hb c
  refine ⟨hr.always_iff hnew hstep, ?_⟩
  intro hfits τ hτ
  -- the turn was taken from a balanced pool
  obtain ⟨past, -, hpast, -, hs⟩ := (hr.restrict hfits).of_mem hτ
  have hb : τ.before.Balanced := hpast.invariant (I := fun _ p => p.Balanced) hnew
    fun _ hb hf hs => (hstep hb hs).mpr hf
  have ho := call_outcome hb τ.event
  obtain ⟨hafter, hout⟩ := Prod.mk.inj (Option.some.inj hs)
  rw [hafter] at ho
  rw [← hout]
  generalize (τ.before.call τ.event).2 = r at ho
  generalize τ.after = after at ho
  cases ho with
  | refused e hf => exact ⟨fun _ _ => rfl, fun _ => UInt64.le_refl _⟩
  | settled hf hb' hle =>
    refine ⟨fun e he => ?_, hle⟩
    simp at he
  | uncounted hf hb' => exact absurd (hfits τ hτ) hf

/-- Two stakes and a delegation; a withdrawal before the lock ends and one after it. -/
def lockedCalls : List Call :=
  [.stake (Bytes.fill 32 1) 500 .noLock, .stake (Bytes.fill 32 1) 30 .thirtyDay,
    .delegate (Bytes.fill 32 2) (Bytes.fill 32 1) 70 .delegator,
    .unstake (Bytes.fill 32 1) 510, .setEpoch 30, .unstake (Bytes.fill 32 1) 510]

theorem staking_total_locked :
    ∃ hist pool, Run step (fun _ _ => True) new hist pool ∧
      (chronicle hist).filter (fun r => !r.isOk) = [.error (.insufficientBalance 500 510)] ∧
      pool.totalStaked = 90 ∧ ∀ τ ∈ hist, τ.after.totalStaked.toNat = τ.after.staked := by
  obtain ⟨hist, pool, hr, hrefused, htotal, hfits⟩ : ∃ hist pool,
      Run step (fun _ _ => True) new hist pool ∧
        (chronicle hist).filter (fun r => !r.isOk) = [.error (.insufficientBalance 500 510)] ∧
        pool.totalStaked = 90 ∧ ∀ τ ∈ hist, τ.before.Fits τ.event :=
    Run.exists_of_replay lockedCalls (by decide +kernel)
  exact ⟨hist, pool, hr, hrefused, htotal, (staking_total hr).1.mpr hfits⟩

def overfullCalls : List Call :=
  [.stake (Bytes.fill 32 1) (0 - 1) .noLock, .stake (Bytes.fill 32 1) 1 .noLock]

/-- **A refused stake is in the book.** The counter is full; the next stake of one is refused for
overflow, and the books hold one more than the counter. -/
theorem refused_stake_held :
    ∃ hist pool, Run step (fun _ _ => True) new hist pool ∧
      chronicle hist = [.ok (), .error .overflow] ∧
      pool.staked = pool.totalStaked.toNat + 1 ∧
      ¬ ∀ τ ∈ hist, τ.after.totalStaked.toNat = τ.after.staked := by
  exact Run.exists_of_replay overfullCalls (by decide +kernel)

end StakingPool

end Staking

end Trv1Chain
