import Trv1Chain.Lib.Run
import Trv1Chain.Rewards.Developer

/-!
# Developer fees are conserved

What a contract has earned is what it is owed and what has been paid for it, over every run of
calls. The invariant ties three places together: the registry, the pending map and the events that
were returned (`Accounted`). It is also what makes a refused fee harmless, because the second of
the two checked additions is on the smaller number.
-/

set_option autoImplicit false

namespace Trv1Chain

open Lib

namespace Rewards

namespace DeveloperRewards

/-- The rewards system as a machine. -/
def step (d : DeveloperRewards) (c : Call) : Option (DeveloperRewards × List Answer) :=
  some ((d.call c).1, [(d.call c).2])

def Answer.events : Answer → List RewardEvent
  | .done _ => []
  | .paid events => events

abbrev History := List (Turn DeveloperRewards Call Answer)

/-- All events a run has returned. -/
def paidEvents (hist : History) : List RewardEvent := (outputs hist).flatMap Answer.events

def amounts (events : List RewardEvent) : Nat := (events.map fun e => e.amount.toNat).sum

def amountsFor (c : ContractAddress) (events : List RewardEvent) : Nat :=
  amounts (events.filter fun e => e.contract = c)

/-- The contract was registered by this deployer. -/
def Registered (hist : History) (c : ContractAddress) (deployer : PublicKey) : Prop :=
  ∃ t ∈ hist, ∃ height, t.event = .registerContract c deployer height ∧ t.out = [.done (.ok ())]

theorem amounts_append (l l' : List RewardEvent) : amounts (l ++ l') = amounts l + amounts l' := by
  unfold amounts
  rw [List.map_append, List.sum_append]

theorem amountsFor_append (c : ContractAddress) (l l' : List RewardEvent) :
    amountsFor c (l ++ l') = amountsFor c l + amountsFor c l' := by
  unfold amountsFor
  rw [List.filter_append, amounts_append]

theorem paidEvents_cons (t : Turn DeveloperRewards Call Answer) (hist : History) :
    paidEvents (t :: hist) = t.out.flatMap Answer.events ++ paidEvents hist := by
  unfold paidEvents
  rw [outputs_cons, List.flatMap_append]

/-! ## A distribution -/

/-- Leaving out empty amounts leaves out nothing. -/
theorem sum_filter_pos : ∀ l : List (Sigma fun _ : ContractAddress => UInt64),
    ((l.filter fun e => e.2 > 0).map fun e => e.2.toNat).sum =
      (l.map fun e => e.2.toNat).sum := by
  intro l
  induction l with
  | nil => rfl
  | cons e l ih =>
    by_cases hpos : e.2 > 0
    · rw [List.filter_cons_of_pos (by simpa using hpos), List.map_cons, List.map_cons,
        List.sum_cons, List.sum_cons, ih]
    · have hzero : e.2 = 0 := Decidable.not_not.mp fun hne => hpos (UInt64.pos_iff_ne_zero.mpr hne)
      rw [List.filter_cons_of_neg (by simpa using hpos), List.map_cons, List.sum_cons, ih, hzero]
      exact (Nat.zero_add _).symm

/-- A distribution pays each contract what it is owed. -/
theorem amountsFor_drained (d : DeveloperRewards) (it : PendingOrder) (c : ContractAddress) :
    amountsFor c ((d.drained it).map d.eventOf) = d.owed c := by
  have hkey := HashMap.sum_filter_key UInt64.toNat d.pending c
  have hperm := (((it.perm d.pending.entries).filter fun e => e.1 = c).map
    fun e => e.2.toNat).sum_nat
  unfold amountsFor amounts drained owed
  rw [List.filter_map, List.map_map]
  show ((((it.enum d.pending.entries).filter fun e => e.2 > 0).filter fun e => e.1 = c).map
    fun e => e.2.toNat).sum = _
  rw [List.filter_comm, sum_filter_pos, hperm, hkey]
  cases d.pending.lookup c with
  | none => rfl
  | some a => rfl

theorem amounts_drained (d : DeveloperRewards) (it : PendingOrder) :
    amounts ((d.drained it).map d.eventOf) = (((d.drained it).map (·.2)).map UInt64.toNat).sum := by
  unfold amounts
  rw [List.map_map, List.map_map]
  rfl

/-! ## The invariant -/

/-- The registry, the pending map and the events returned so far agree. -/
structure Accounted (hist : History) (d : DeveloperRewards) : Prop where
  registered : ∀ c a, d.pending.lookup c = some a → ∃ entry, d.registry.lookup c = some entry
  earned : ∀ c entry, d.registry.lookup c = some entry →
    entry.totalFeesEarned.toNat = d.owed c + amountsFor c (paidEvents hist)
  unpaid : ∀ c, d.registry.lookup c = none → amountsFor c (paidEvents hist) = 0
  deployer : ∀ c p, Registered hist c p ↔ d.getDeveloper c = some p
  paid : ∀ e ∈ paidEvents hist, d.getDeveloper e.contract = some e.developer
  total : d.totalDistributed.toNat = min (2 ^ 64 - 1) (amounts (paidEvents hist))

theorem accounted_new : Accounted [] new where
  registered c a h := by cases h
  earned c entry h := by cases h
  unpaid c _ := rfl
  deployer c p := by
    refine iff_of_false ?_ (by simp [getDeveloper, new])
    rintro ⟨t, ht, -⟩
    cases ht
  paid e h := by cases h
  total := rfl

variable {hist : History} {d d' : DeveloperRewards} {c : Call} {a : Answer}

theorem Accounted.backed (h : Accounted hist d) : d.Backed where
  registered := h.registered
  owed_le c entry hentry := by
    rw [h.earned c entry hentry]
    exact Nat.le_add_right _ _

/-- A turn that is not an accepted registration adds no deployer. -/
theorem registered_cons_iff {t : Turn DeveloperRewards Call Answer}
    (h : ∀ c p height, t.event = .registerContract c p height → t.out ≠ [.done (.ok ())])
    (c : ContractAddress) (p : PublicKey) : Registered (t :: hist) c p ↔ Registered hist c p := by
  constructor
  · rintro ⟨t', ht', height, he, ho⟩
    rcases List.mem_cons.mp ht' with rfl | hmem
    · exact absurd ho (h c p height he)
    · exact ⟨t', hmem, height, he, ho⟩
  · rintro ⟨t', ht', hrest⟩
    exact ⟨t', List.mem_cons_of_mem _ ht', hrest⟩

/-- A turn that changes nothing but the height, and pays nothing, keeps the books. -/
theorem Accounted.same (h : Accounted hist d) {t : Turn DeveloperRewards Call Answer}
    (hreg : ∀ c p height, t.event = .registerContract c p height → t.out ≠ [.done (.ok ())])
    (hpaid : t.out.flatMap Answer.events = []) (height : UInt64) :
    Accounted (t :: hist) { d with currentHeight := height } := by
  have hevents : paidEvents (t :: hist) = paidEvents hist := by
    rw [paidEvents_cons, hpaid, List.nil_append]
  refine ⟨h.registered, ?_, ?_, ?_, ?_, ?_⟩
  · rw [hevents]
    exact h.earned
  · rw [hevents]
    exact h.unpaid
  · intro c p
    rw [registered_cons_iff hreg]
    exact h.deployer c p
  · rw [hevents]
    exact h.paid
  · rw [hevents]
    exact h.total

theorem Accounted.registerContract (h : Accounted hist d) (c : ContractAddress) (p : PublicKey)
    (height : UInt64) : Accounted
      (⟨d, .registerContract c p height, (d.registerContract c p height).1,
        [.done (d.registerContract c p height).2]⟩ :: hist)
      (d.registerContract c p height).1 := by
  unfold DeveloperRewards.registerContract
  split
  · exact h.same (by simp) rfl d.currentHeight
  · rename_i hnew
    have hnone : d.registry.lookup c = none := Option.not_isSome_iff_eq_none.mp hnew
    have hpending : d.pending.lookup c = none := by
      cases hl : d.pending.lookup c with
      | none => rfl
      | some a =>
        obtain ⟨entry, hentry⟩ := h.registered c a hl
        rw [hnone] at hentry
        cases hentry
    refine ⟨?_, ?_, ?_, ?_, ?_, h.total⟩
    · intro c' a ha
      obtain ⟨entry, hentry⟩ := h.registered c' a ha
      have hne : c' ≠ c := by
        rintro rfl
        rw [hnone] at hentry
        cases hentry
      exact ⟨entry, (AList.lookup_insert_ne hne).trans hentry⟩
    · intro c' entry hentry
      by_cases heq : c' = c
      · subst heq
        rw [AList.lookup_insert] at hentry
        cases hentry
        -- nothing is pending for a new contract, and nothing was ever paid
        show 0 = ((d.pending.lookup c').getD 0).toNat + amountsFor c' (paidEvents hist)
        rw [hpending, h.unpaid c' hnone]
        rfl
      · rw [AList.lookup_insert_ne heq] at hentry
        exact h.earned c' entry hentry
    · intro c' hc'
      by_cases heq : c' = c
      · subst heq
        rw [AList.lookup_insert] at hc'
        cases hc'
      · rw [AList.lookup_insert_ne heq] at hc'
        exact h.unpaid c' hc'
    · intro c' p'
      unfold getDeveloper
      by_cases heq : c' = c
      · subst heq
        rw [AList.lookup_insert]
        constructor
        · rintro ⟨t, ht, height', he, ho⟩
          rcases List.mem_cons.mp ht with rfl | hmem
          · cases he
            rfl
          · have := (h.deployer c' p').mp ⟨t, hmem, height', he, ho⟩
            unfold getDeveloper at this
            rw [hnone] at this
            cases this
        · intro he
          cases he
          exact ⟨_, List.mem_cons_self, height, rfl, rfl⟩
      · rw [AList.lookup_insert_ne heq]
        refine Iff.trans ?_ (h.deployer c' p')
        constructor
        · rintro ⟨t, ht, height', he, ho⟩
          rcases List.mem_cons.mp ht with rfl | hmem
          · cases he
            exact absurd rfl heq
          · exact ⟨t, hmem, height', he, ho⟩
        · rintro ⟨t, ht, hrest⟩
          exact ⟨t, List.mem_cons_of_mem _ ht, hrest⟩
    · intro e he
      have hold := h.paid e he
      have hne : e.contract ≠ c := by
        intro heq
        unfold getDeveloper at hold
        rw [heq, hnone] at hold
        cases hold
      unfold getDeveloper
      exact (congrArg _ (AList.lookup_insert_ne hne)).trans hold

theorem Accounted.recordFee (h : Accounted hist d) (c : ContractAddress) (fee : UInt64) :
    Accounted (⟨d, .recordFee c fee, (d.recordFee c fee).1, [.done (d.recordFee c fee).2]⟩ :: hist)
      (d.recordFee c fee).1 := by
  rcases recordFee_cases h.backed c fee with
    ⟨e, heq, -⟩ | ⟨entry, earned, amount, hentry, hearned, hamount, heq⟩
  · rw [heq]
    exact h.same (by simp) rfl d.currentHeight
  · rw [heq]
    -- the entry keeps its deployer
    have hdev : ∀ c', getDeveloper { d with
        registry := d.registry.insert c { entry with totalFeesEarned := earned },
        pending := d.pending.insert c amount } c' = d.getDeveloper c' := by
      intro c'
      unfold getDeveloper
      by_cases hc : c' = c
      · subst hc
        rw [AList.lookup_insert, hentry]
        rfl
      · rw [AList.lookup_insert_ne hc]
    refine ⟨?_, ?_, ?_, ?_, ?_, h.total⟩
    · intro c' a ha
      by_cases hc : c' = c
      · subst hc
        exact ⟨_, AList.lookup_insert _⟩
      · rw [AList.lookup_insert_ne hc] at ha
        obtain ⟨entry', hentry'⟩ := h.registered c' a ha
        exact ⟨entry', (AList.lookup_insert_ne hc).trans hentry'⟩
    · intro c' entry' hentry'
      by_cases hc : c' = c
      · subst hc
        rw [AList.lookup_insert] at hentry'
        cases hentry'
        have hold := h.earned c' entry hentry
        show earned.toNat = (((d.pending.insert c' amount).lookup c').getD 0).toNat +
          amountsFor c' (paidEvents hist)
        rw [AList.lookup_insert, Option.getD_some]
        omega
      · rw [AList.lookup_insert_ne hc] at hentry'
        show _ = (((d.pending.insert c amount).lookup c').getD 0).toNat + _
        rw [AList.lookup_insert_ne hc]
        exact h.earned c' entry' hentry'
    · intro c' hc'
      by_cases hc : c' = c
      · subst hc
        rw [AList.lookup_insert] at hc'
        cases hc'
      · rw [AList.lookup_insert_ne hc] at hc'
        exact h.unpaid c' hc'
    · intro c' p
      rw [registered_cons_iff (by simp), hdev]
      exact h.deployer c' p
    · intro e he
      rw [hdev]
      exact h.paid e he

theorem Accounted.distributeRewards (h : Accounted hist d) (it : PendingOrder) :
    Accounted (⟨d, .distributeRewards it, (d.distributeRewards it).1,
      [.paid (d.distributeRewards it).2]⟩ :: hist) (d.distributeRewards it).1 := by
  rw [distributeRewards_eq h.backed it]
  have hevents : paidEvents (⟨d, .distributeRewards it, { d with
        pending := ∅,
        totalDistributed := ((d.drained it).map (·.2)).foldl saturatingAdd d.totalDistributed },
      [.paid ((d.drained it).map d.eventOf)]⟩ :: hist) =
      (d.drained it).map d.eventOf ++ paidEvents hist := by
    rw [paidEvents_cons]
    simp [Answer.events]
  -- who is paid is registered
  have hpaid : ∀ e ∈ (d.drained it).map d.eventOf,
      d.getDeveloper e.contract = some e.developer := by
    intro e he
    obtain ⟨x, hx, rfl⟩ := List.mem_map.mp he
    have hmem := it.mem_enum.mp (List.mem_of_mem_filter hx)
    obtain ⟨entry, hentry⟩ := h.registered x.1 x.2 (AList.mem_lookup_iff.mpr hmem)
    show d.getDeveloper x.1 = some ((d.getDeveloper x.1).getD _)
    unfold getDeveloper
    rw [hentry]
    rfl
  refine ⟨?_, ?_, ?_, ?_, ?_, ?_⟩
  · intro c a ha
    cases ha
  · intro c entry hentry
    rw [hevents, amountsFor_append, amountsFor_drained, h.earned c entry hentry]
    show _ = 0 + _
    rw [Nat.zero_add]
  · intro c hc
    rw [hevents, amountsFor_append, amountsFor_drained, h.unpaid c hc]
    cases hl : d.pending.lookup c with
    | none =>
      unfold owed
      rw [hl]
      rfl
    | some a =>
      obtain ⟨entry, hentry⟩ := h.registered c a hl
      have hc' : d.registry.lookup c = none := hc
      rw [hentry] at hc'
      cases hc'
  · intro c p
    rw [registered_cons_iff (by simp)]
    exact h.deployer c p
  · intro e he
    rw [hevents] at he
    rcases List.mem_append.mp he with hnew | hold
    · exact hpaid e hnew
    · exact h.paid e hold
  · rw [hevents, amounts_append, amounts_drained, toNat_foldl_saturatingAdd, h.total]
    omega

theorem accounted_run {G : DeveloperRewards → Call → Prop} (hr : Run step G new hist d) :
    Accounted hist d := by
  refine hr.invariant (I := Accounted) accounted_new ?_
  intro hist d c d' out _ h _ hs
  cases hs
  cases c with
  | registerContract c p height => exact h.registerContract c p height
  | recordFee c fee => exact h.recordFee c fee
  | setHeight height => exact h.same (by simp) rfl height
  | distributeRewards it => exact h.distributeRewards it

/-- **Developer fees are conserved.** After any calls on a new rewards system: what a contract has
earned is what is pending for it and what all events together paid for it; each event pays the one
deployer who registered the contract; the running total is that of all events, up to the largest
word; and a fee that is refused leaves everything as it was, for one of the reasons that are checked
before anything changes. -/
theorem developer_fees_conserved (hr : Run step (fun _ _ => True) new hist d) :
    (∀ c entry, d.registry.lookup c = some entry → entry.totalFeesEarned.toNat =
      ((d.pending.lookup c).getD 0).toNat + amountsFor c (paidEvents hist)) ∧
    (∀ e ∈ paidEvents hist, ∀ p, Registered hist e.contract p ↔ p = e.developer) ∧
    d.totalDistributed.toNat = min (2 ^ 64 - 1) (amounts (paidEvents hist)) ∧
    ∀ c fee e, (d.recordFee c fee).2 = .error e → (d.recordFee c fee).1 = d ∧
      (fee = 0 ∨ d.registry.lookup c = none ∨ ∃ entry, d.registry.lookup c = some entry ∧
        2 ^ 64 ≤ entry.totalFeesEarned.toNat + fee.toNat) := by
  have h := accounted_run hr
  refine ⟨h.earned, ?_, h.total, ?_⟩
  · intro e he p
    rw [h.deployer, h.paid e he, Option.some.injEq]
    exact eq_comm
  · intro c fee e herr
    rcases recordFee_cases h.backed c fee with ⟨e', heq, hwhy⟩ | ⟨_, _, _, _, _, _, heq⟩
    · rw [heq]
      exact ⟨rfl, hwhy⟩
    · rw [heq] at herr
      cases herr

/-- A contract earns, is paid, and earns again. -/
def feeCalls : List Call :=
  [.registerContract (Bytes.fill 32 1) (Bytes.fill 32 9) 5, .recordFee (Bytes.fill 32 1) 70,
    .distributeRewards .stored, .recordFee (Bytes.fill 32 1) 30, .recordFee (Bytes.fill 32 2) 1]

theorem developer_fees_conserved_paid :
    ∃ hist d, Run step (fun _ _ => True) new hist d ∧
      paidEvents hist = [⟨Bytes.fill 32 1, Bytes.fill 32 9, 70, 0⟩] ∧
      ∀ entry, d.registry.lookup (Bytes.fill 32 1) = some entry →
        entry.totalFeesEarned.toNat = ((d.pending.lookup (Bytes.fill 32 1)).getD 0).toNat +
          amountsFor (Bytes.fill 32 1) (paidEvents hist) := by
  obtain ⟨hist, d, hr, hpaid⟩ : ∃ hist d, Run step (fun _ _ => True) new hist d ∧
      paidEvents hist = [⟨Bytes.fill 32 1, Bytes.fill 32 9, 70, 0⟩] :=
    Run.exists_of_replay feeCalls (by decide +kernel)
  exact ⟨hist, d, hr, hpaid, fun entry => (developer_fees_conserved hr).1 _ entry⟩

end DeveloperRewards

end Rewards

end Trv1Chain
