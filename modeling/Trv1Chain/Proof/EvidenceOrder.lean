import Trv1Chain.Proof.Accounts

/-!
# The order of the evidence

`process_all_evidence` takes the pending records as a hash map enumerates them. Records against
different keys commute, since each touches one account. Records against one key need not: each
slash is a floored percentage of what the one before it left, and what the pool gives up depends on
the single amounts.

`evidence_order_iff` takes the question apart, key by key. `order_free_of_rates` is a condition that
can be read off the input: one rate for each offender, among the records that take something. It is
not necessary, since percentages that are not rounded commute.
-/

set_option autoImplicit false

namespace Trv1Chain

open Lib Staking ValidatorSet

namespace Slashing

namespace Economy

variable {s₀ s : Economy} {done : List EvidenceRecord}

/-! ## Two orders -/

/-- The same validators, the same pool and the same treasury. -/
structure SameLedgers (s s' : Economy) : Prop where
  validators : ∀ k, s.validatorSet.validators.lookup k = s'.validatorSet.validators.lookup k
  entries : ∀ k, s.stakingPool.entries.lookup k = s'.stakingPool.entries.lookup k
  delegations : s.stakingPool.delegations = s'.stakingPool.delegations
  totalStaked : s.stakingPool.totalStaked = s'.stakingPool.totalStaked
  currentEpoch : s.stakingPool.currentEpoch = s'.stakingPool.currentEpoch
  treasury : s.engine.treasury = s'.engine.treasury

/-- The accounts agree in what the registry and the pool have of them. -/
def SamePosition (a b : Account) : Prop := a.stake = b.stake ∧ a.entries = b.entries

theorem sameLedgers_iff {done' : List EvidenceRecord} {s' : Economy} (h : Processed s₀ done s)
    (h' : Processed s₀ done' s') :
    SameLedgers s s' ↔
      (∀ k, SamePosition (s₀.accountAfter k done) (s₀.accountAfter k done')) ∧
        min (s₀.engine.treasury.toNat + s₀.creditedBy done) (2 ^ 64 - 1) =
          min (s₀.engine.treasury.toNat + s₀.creditedBy done') (2 ^ 64 - 1) := by
  rw [← h.treasury, ← h'.treasury, UInt64.toNat_inj]
  constructor
  · intro hsame
    refine ⟨?_, hsame.treasury⟩
    intro k
    constructor
    · have hv := hsame.validators k
      rw [h.validators, h'.validators] at hv
      cases hv₀ : s₀.validatorSet.validators.lookup k with
      | none => rw [accountAfter_unknown hv₀, accountAfter_unknown hv₀]
      | some v₀ =>
        rw [hv₀] at hv
        exact congrArg ValidatorInfo.stake (Option.some.inj hv)
    · rw [← h.entries, ← h'.entries]
      exact hsame.entries k
  · rintro ⟨hpos, htreasury⟩
    have hentries : ∀ k, s.stakingPool.entries.lookup k = s'.stakingPool.entries.lookup k := by
      intro k
      rw [h.entries, h'.entries]
      exact (hpos k).2
    refine ⟨?_, hentries, h.delegations.trans h'.delegations.symm, ?_,
      h.currentEpoch.trans h'.currentEpoch.symm, htreasury⟩
    · intro k
      rw [h.validators, h'.validators, (hpos k).1]
    · -- the entries hold the same, so the totals are equal
      have hheld : Book.held s.stakingPool.entries = Book.held s'.stakingPool.entries :=
        HashMap.total_congr sumOf hentries
      have hgap := h.totalStaked.trans h'.totalStaked.symm
      rw [hheld] at hgap
      have hadd := congrArg (· + UInt64.ofNat (Book.held s'.stakingPool.entries)) hgap
      rw [UInt64.sub_add_cancel, UInt64.sub_add_cancel] at hadd
      exact hadd

/-- The pending records, in the order they are stored. -/
def pending (s : Economy) : List EvidenceRecord :=
  s.engine.evidencePool.getPendingEvidence .stored

/-- The pending records against a key. -/
def against (s : Economy) (k : PublicKey) : List EvidenceRecord :=
  s.pending.filter fun e => e.offender == k

/-- The loop can meet the pending records in every order. -/
theorem exists_order (s : Economy) {l : List EvidenceRecord} (h : l.Perm s.pending) :
    ∃ it, s.engine.evidencePool.getPendingEvidence it = l := by
  have hall : ∀ e ∈ l, (!e.processed) = true := by
    intro e he
    exact (List.mem_filter.mp (h.mem_iff.mp he)).2
  have hperm : (l ++ s.engine.evidencePool.records.values.filter fun e => !(!e.processed)).Perm
      s.engine.evidencePool.records.values :=
    (h.append_right _).trans (List.filter_append_perm _ _)
  obtain ⟨it, hit⟩ := IterOrder.exists_enum hperm
  refine ⟨it, ?_⟩
  unfold EvidencePool.getPendingEvidence
  rw [hit, List.filter_append, List.filter_eq_self.mpr hall, List.filter_filter]
  have hnone : (s.engine.evidencePool.records.values.filter fun e =>
      !e.processed && !(!e.processed)) = [] := by
    apply List.filter_eq_nil_iff.mpr
    intro e _
    simp
  rw [hnone, List.append_nil]

/-- Two enumerations of the map are two rearrangements of the pending records. -/
theorem order_free_iff (C : Crates) (s : Economy) :
    (∀ it it', SameLedgers (s.processAllEvidence C it).1 (s.processAllEvidence C it').1) ↔
      ∀ l l', l.Perm s.pending → l'.Perm s.pending →
        (∀ k, SamePosition (s.accountAfter k l) (s.accountAfter k l')) ∧
          min (s.engine.treasury.toNat + s.creditedBy l) (2 ^ 64 - 1) =
            min (s.engine.treasury.toNat + s.creditedBy l') (2 ^ 64 - 1) := by
  have hloop : ∀ it, Processed s (s.engine.evidencePool.getPendingEvidence it)
      (s.processAllEvidence C it).1 := fun it => (processed_nil s).processEvidence
  constructor
  · intro h l l' hl hl'
    obtain ⟨it, rfl⟩ := s.exists_order hl
    obtain ⟨it', rfl⟩ := s.exists_order hl'
    exact (sameLedgers_iff (hloop it) (hloop it')).mp (h it it')
  · intro h it it'
    exact (sameLedgers_iff (hloop it) (hloop it')).mpr
      (h _ _ ((it.perm _).filter _) ((it'.perm _).filter _))

/-! ## Rearranging the records against one key -/

theorem accountAfter_filter (s : Economy) (k : PublicKey) (l : List EvidenceRecord) :
    s.accountAfter k (l.filter fun e => e.offender == k) = s.accountAfter k l := by
  apply accountAfter_congr
  rw [List.filter_filter]
  simp only [Bool.and_self]

/-- The records against `k` first, in another order, then the others. -/
def rearranged (k : PublicKey) (own l : List EvidenceRecord) : List EvidenceRecord :=
  own ++ l.filter fun e => !(e.offender == k)

variable {k : PublicKey} {own l : List EvidenceRecord}

theorem rearranged_perm (hown : own.Perm (s.against k)) (hl : l.Perm s.pending) :
    (rearranged k own l).Perm s.pending :=
  ((hown.trans (hl.filter _).symm).append_right _).trans
    ((List.filter_append_perm _ l).trans hl)

theorem offender_of_perm (hown : own.Perm (s.against k)) : ∀ e ∈ own, e.offender = k := by
  intro e he
  exact beq_iff_eq.mp (List.mem_filter.mp (hown.mem_iff.mp he)).2

theorem accountAfter_rearranged (s : Economy) (k : PublicKey) (own l : List EvidenceRecord) :
    s.accountAfter k (rearranged k own l) = s.accountAfter k own := by
  apply accountAfter_congr
  unfold rearranged
  rw [List.filter_append, List.filter_filter]
  simp

theorem accountAfter_rearranged_ne (hown : own.Perm (s.against k)) (l : List EvidenceRecord)
    {j : PublicKey} (hj : j ≠ k) : s.accountAfter j (rearranged k own l) = s.accountAfter j l := by
  apply accountAfter_congr
  have hnone : (own.filter fun e => e.offender == j) = [] := by
    apply List.filter_eq_nil_iff.mpr
    intro e he
    rw [offender_of_perm hown e he]
    simpa using hj.symm
  unfold rearranged
  rw [List.filter_append, hnone, List.nil_append, List.filter_filter]
  apply List.filter_congr
  intro e _
  by_cases he : e.offender = j
  · simp [he, hj]
  · simp [he]

/-- What the rest gives to the treasury does not depend on the order of `k`'s records. -/
theorem creditedBy_rearranged (hown : own.Perm (s.against k)) (l : List EvidenceRecord) :
    s.creditedBy (rearranged k own l) + (s.accountAfter k l).credited =
      s.creditedBy l + (s.accountAfter k own).credited := by
  by_cases hmem : k ∈ s.validatorSet.validators.keys.toFinset
  · have hrest : ∑ j ∈ s.validatorSet.validators.keys.toFinset.erase k,
        (s.accountAfter j (rearranged k own l)).credited =
          ∑ j ∈ s.validatorSet.validators.keys.toFinset.erase k,
            (s.accountAfter j l).credited :=
      Finset.sum_congr rfl fun j hj => by
        rw [accountAfter_rearranged_ne hown l (Finset.ne_of_mem_erase hj)]
    unfold creditedBy
    rw [← Finset.add_sum_erase _ _ hmem, ← Finset.add_sum_erase _ _ hmem, hrest,
      accountAfter_rearranged]
    omega
  · have hnone : s.validatorSet.validators.lookup k = none := by
      apply AList.lookup_eq_none.mpr
      exact fun hk => hmem (List.mem_toFinset.mpr hk)
    have hsame : s.creditedBy (rearranged k own l) = s.creditedBy l := by
      apply Finset.sum_congr rfl
      intro j hj
      have hne : j ≠ k := fun heq => hmem (heq ▸ hj)
      rw [accountAfter_rearranged_ne hown l hne]
    rw [hsame, accountAfter_unknown hnone, accountAfter_unknown hnone]

/-! ## When the order does not matter -/

/-- Whatever the order, the treasury ends full. -/
def Overflows (s : Economy) : Prop :=
  ∀ l, l.Perm s.pending → 2 ^ 64 - 1 ≤ s.engine.treasury.toNat + s.creditedBy l

theorem sum_credited_perm (h : ∀ k own, own.Perm (s.against k) →
    (s.accountAfter k own).credited = (s.accountAfter k (s.against k)).credited)
    (hl : l.Perm s.pending) : s.creditedBy l = s.creditedBy s.pending := by
  apply Finset.sum_congr rfl
  intro k _
  rw [← s.accountAfter_filter k l, h k _ (hl.filter _)]
  exact congrArg Account.credited (s.accountAfter_filter k s.pending)

/-- **When the order of the evidence does not matter.** For any registry, pool, engine and pending
records, all enumeration orders lead to the same validators, the same pool and the same treasury
exactly if, key by key, the records against it take its stake and its entries to the same end in
every order of theirs, and either give the treasury the same, or it is full in any case. -/
theorem evidence_order_iff (C : Crates) (s : Economy) :
    (∀ it it', SameLedgers (s.processAllEvidence C it).1 (s.processAllEvidence C it').1) ↔
      (∀ k own, own.Perm (s.against k) →
        SamePosition (s.accountAfter k own) (s.accountAfter k (s.against k))) ∧
      ((∀ k own, own.Perm (s.against k) →
        (s.accountAfter k own).credited = (s.accountAfter k (s.against k)).credited) ∨
          s.Overflows) := by
  rw [order_free_iff]
  constructor
  · intro h
    refine ⟨?_, ?_⟩
    · intro k own hown
      have hpos := (h _ _ (rearranged_perm hown (List.Perm.refl s.pending))
        (List.Perm.refl s.pending)).1 k
      rw [accountAfter_rearranged, ← s.accountAfter_filter k s.pending] at hpos
      exact hpos
    · by_cases hcredit : ∀ k own, own.Perm (s.against k) →
        (s.accountAfter k own).credited = (s.accountAfter k (s.against k)).credited
      · exact Or.inl hcredit
      · -- two orders give different sums: only a full treasury hides that
        right
        push Not at hcredit
        obtain ⟨k, own, hown, hne⟩ := hcredit
        intro l hl
        have hfirst := (h _ _ (rearranged_perm hown hl) hl).2
        have hsecond := (h _ _ (rearranged_perm (List.Perm.refl (s.against k)) hl) hl).2
        have hsum := creditedBy_rearranged hown l
        have hsum' := creditedBy_rearranged (List.Perm.refl (s.against k)) l
        omega
  · rintro ⟨hpos, hcredit⟩ l l' hl hl'
    refine ⟨?_, ?_⟩
    · intro k
      have hk := hpos k _ (hl.filter _)
      have hk' := hpos k _ (hl'.filter _)
      rw [s.accountAfter_filter] at hk hk'
      exact ⟨hk.1.trans hk'.1.symm, hk.2.trans hk'.2.symm⟩
    · rcases hcredit with hsame | hfull
      · rw [sum_credited_perm hsame hl, sum_credited_perm hsame hl']
      · have hfirst := hfull l hl
        have hsecond := hfull l' hl'
        omega

/-- The record takes something from the stake its offender has on record. -/
def Takes (s : Economy) (e : EvidenceRecord) : Prop :=
  ∃ v ∈ s.validatorSet.getValidator e.offender, 10000 ≤ v.stake.toNat * (s.rate e).toNat

instance (s : Economy) : DecidablePred s.Takes := fun e =>
  inferInstanceAs (Decidable (∃ v ∈ s.validatorSet.getValidator e.offender, _))

/-- A record that takes nothing at the start takes nothing later, when there is less. -/
theorem slash_of_not_takes {e : EvidenceRecord} (h : ¬ s.Takes e) (epoch : UInt64) {a : Account}
    (hle : a.stake.toNat ≤ (s.account e.offender).stake.toNat) :
    a.slash epoch (s.rate e) = a := by
  apply Account.slash_of_zero
  have hlt : (s.account e.offender).stake.toNat * (s.rate e).toNat < 10000 := by
    unfold account
    cases hv : s.validatorSet.validators.lookup e.offender with
    | none => simp
    | some v =>
      by_contra hge
      exact h ⟨v, hv, Nat.not_lt.mp hge⟩
  unfold slashAmount
  rw [Nat.div_eq_of_lt (Nat.lt_of_le_of_lt (Nat.mul_le_mul_right _ hle) hlt)]
  rfl

/-- Only the records that take something matter. -/
theorem accountAfter_takes (s : Economy) (k : PublicKey) (l : List EvidenceRecord) :
    s.accountAfter k (l.filter fun e => s.Takes e) = s.accountAfter k l := by
  induction l using List.reverseRecOn with
  | nil => rfl
  | append_singleton l e ih =>
    rw [List.filter_append, List.filter_singleton]
    by_cases hk : k = e.offender
    · subst hk
      by_cases htakes : s.Takes e
      · rw [decide_eq_true htakes, accountAfter_same, ← ih]
        exact accountAfter_same s _ e
      · rw [decide_eq_false htakes, accountAfter_same,
          slash_of_not_takes htakes _ (s.stake_accountAfter_le _ _), ← ih]
        exact congrArg _ (List.append_nil _)
    · rw [accountAfter_other s l hk, ← ih]
      by_cases htakes : s.Takes e
      · rw [decide_eq_true htakes]
        exact accountAfter_other s _ hk
      · rw [decide_eq_false htakes]
        exact congrArg _ (List.append_nil _)

/-- **One rate for each offender.** If all pending records against the same key that take something
from its recorded stake are punished at the same rate, the order does not matter. -/
theorem order_free_of_rates (C : Crates) {s : Economy}
    (hrate : ∀ e ∈ s.pending, ∀ e' ∈ s.pending, e.offender = e'.offender →
      s.Takes e → s.Takes e' → s.rate e = s.rate e') (it it' : EvidenceOrder) :
    SameLedgers (s.processAllEvidence C it).1 (s.processAllEvidence C it').1 := by
  -- the fold over the records that matter sees only their rate
  have hfold : ∀ k own, own.Perm (s.against k) →
      s.accountAfter k own = s.accountAfter k (s.against k) := by
    intro k own hown
    rw [← s.accountAfter_takes k own, ← s.accountAfter_takes k (s.against k)]
    refine ((hown.filter _).filter _).foldl_eq' ?_ _
    intro e he e' he' a
    simp only [List.mem_filter, decide_eq_true_eq, beq_iff_eq] at he he'
    have hpending : ∀ x ∈ own, x ∈ s.pending := fun x hx =>
      (List.mem_filter.mp (hown.mem_iff.mp hx)).1
    rw [hrate e (hpending e he.1.1) e' (hpending e' he'.1.1) (he.2.trans he'.2.symm) he.1.2
      he'.1.2]
  refine (evidence_order_iff C s).mpr ⟨?_, .inl ?_⟩ it it'
  · intro k own hown
    rw [hfold k own hown]
    exact ⟨rfl, rfl⟩
  · intro k own hown
    rw [hfold k own hown]

/-! ## Several records against one validator -/

/-- Some validators, each with all of its stake unlocked in the pool, and evidence against them. -/
def accused (stakes : List (UInt8 × UInt64)) (evidence : List EvidenceRecord) : Economy :=
  evidence.foldl (fun s e => (s.submitEvidence Crates.sample e).1)
    ⟨.withConfig .default,
      stakes.foldl (fun set v => (set.registerValidator (Bytes.fill 32 v.1) v.2 0 0).1)
        (.withConfig ⟨200, 100, 10⟩),
      stakes.foldl (fun pool v => (pool.stake (Bytes.fill 32 v.1) v.2 .delegator).1) .new⟩

/-- The records from the last to the first. -/
def backwards : EvidenceOrder := ⟨List.reverse, List.reverse_perm⟩

/-- The stake of a validator that is left when the records are met in the given order. -/
def stakeLeft (s : Economy) (b : UInt8) (it : EvidenceOrder) : Option UInt64 :=
  ((s.processAllEvidence Crates.sample it).1.validatorSet.getValidator (Bytes.fill 32 b)).map
    (·.stake)

/-- Two double signs and a downtime of a validator with a stake of 50, of which one percent is
nothing, and two downtimes of another. -/
def mixedRates : Economy :=
  accused [(1, 50), (2, 120)]
    [⟨.doubleSign, Bytes.fill 32 1, 7, [1], false⟩, ⟨.downtime, Bytes.fill 32 1, 8, [1], false⟩,
      ⟨.doubleSign, Bytes.fill 32 1, 9, [1], false⟩, ⟨.downtime, Bytes.fill 32 2, 8, [1], false⟩,
      ⟨.downtime, Bytes.fill 32 2, 9, [1], false⟩]

/-- Five records at two rates, and forwards and backwards are the same. -/
theorem order_free_of_rates_mixed :
    mixedRates.pending.map mixedRates.rate = [100, 100, 500, 100, 500] ∧
      stakeLeft mixedRates 1 .stored = some 46 ∧ stakeLeft mixedRates 2 .stored = some 118 ∧
      SameLedgers (mixedRates.processAllEvidence Crates.sample .stored).1
        (mixedRates.processAllEvidence Crates.sample backwards).1 :=
  ⟨by decide +kernel, by decide +kernel, by decide +kernel,
    order_free_of_rates Crates.sample (by decide +kernel) .stored backwards⟩

/-- A validator with a double sign and a downtime on record. -/
def accusedTwice (stake : UInt64) : Economy :=
  accused [(1, stake)]
    [⟨.doubleSign, Bytes.fill 32 1, 7, [1], false⟩, ⟨.downtime, Bytes.fill 32 1, 8, [1], false⟩]

/-- One rate is not necessary: where no percentage is rounded, both orders leave the same. -/
example : stakeLeft (accusedTwice 10000) 1 .stored = some 9405 ∧
    stakeLeft (accusedTwice 10000) 1 backwards = some 9405 := by
  decide +kernel

/-- A validator of stake 120 with a double sign and a downtime on record. -/
def twiceAccused : Economy := accusedTwice 120

/-- **The order decides the stake.** One percent and then five leave 114 of 120; five percent and
then one leave 113. -/
theorem evidence_order_matters :
    stakeLeft twiceAccused 1 .stored = some 114 ∧ stakeLeft twiceAccused 1 backwards = some 113 ∧
      ¬ SameLedgers (twiceAccused.processAllEvidence Crates.sample .stored).1
        (twiceAccused.processAllEvidence Crates.sample backwards).1 := by
  have hstored : stakeLeft twiceAccused 1 .stored = some 114 := by decide +kernel
  have hback : stakeLeft twiceAccused 1 backwards = some 113 := by decide +kernel
  refine ⟨hstored, hback, ?_⟩
  intro h
  have hv := h.validators (Bytes.fill 32 1)
  unfold stakeLeft ValidatorSetManager.getValidator at hstored hback
  rw [hv, hback] at hstored
  exact absurd hstored (by decide)

end Economy

end Slashing

end Trv1Chain
