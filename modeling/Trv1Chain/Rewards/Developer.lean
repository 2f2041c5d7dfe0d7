import Trv1Chain.Lib.Bytes
import Trv1Chain.Lib.HashMap
import Trv1Chain.Lib.Word

/-!
# Developer rewards

`economics/rewards/src/{types,developer}.rs`. Fees of a contract are kept twice: the registry adds
up what the contract has earned, and `pending` what of it is still to be paid. A distribution
empties `pending`, in an order the hasher picks, and pays the deployers.
-/

set_option autoImplicit false

namespace Trv1Chain

open Lib

namespace Rewards

abbrev PublicKey := Bytes 32

/-- A unique contract address (32-byte hash). -/
abbrev ContractAddress := Bytes 32

structure ContractRegistry where
  contractAddress : ContractAddress
  deployer : PublicKey
  deployHeight : UInt64
  totalFeesEarned : UInt64

structure RewardEvent where
  contract : ContractAddress
  developer : PublicKey
  amount : UInt64
  height : UInt64
  deriving DecidableEq

inductive RewardsError where
  | alreadyRegistered (contractAddress : ContractAddress)
  | contractNotFound (contractAddress : ContractAddress)
  | zeroFeeAmount
  | overflow
  deriving DecidableEq

structure DeveloperRewards where
  registry : HashMap ContractAddress ContractRegistry
  /-- Undistributed rewards of each contract. -/
  pending : HashMap ContractAddress UInt64
  totalDistributed : UInt64
  currentHeight : UInt64

/-- The order in which a pass meets the pending rewards. -/
abbrev PendingOrder := IterOrder (Sigma fun _ : ContractAddress => UInt64)

namespace DeveloperRewards

def new : DeveloperRewards := ⟨∅, ∅, 0, 0⟩

def setHeight (d : DeveloperRewards) (height : UInt64) : DeveloperRewards :=
  { d with currentHeight := height }

def registerContract (d : DeveloperRewards) (contractAddress : ContractAddress)
    (deployer : PublicKey) (height : UInt64) : DeveloperRewards × Except RewardsError Unit :=
  if (d.registry.lookup contractAddress).isSome then
    (d, .error (.alreadyRegistered contractAddress))
  else
    ({ d with
      registry := d.registry.insert contractAddress ⟨contractAddress, deployer, height, 0⟩ },
      .ok ())

/-- The fee is added to what the contract has earned before the second addition is checked. -/
def recordFee (d : DeveloperRewards) (contractAddress : ContractAddress) (feeAmount : UInt64) :
    DeveloperRewards × Except RewardsError Unit :=
  if feeAmount = 0 then (d, .error .zeroFeeAmount)
  else match d.registry.lookup contractAddress with
    | none => (d, .error (.contractNotFound contractAddress))
    | some entry => match checkedAdd entry.totalFeesEarned feeAmount with
      | none => (d, .error .overflow)
      | some earned =>
        let d := { d with
          registry := d.registry.insert contractAddress { entry with totalFeesEarned := earned } }
        match checkedAdd ((d.pending.lookup contractAddress).getD 0) feeAmount with
        | none => (d, .error .overflow)
        | some amount => ({ d with pending := d.pending.insert contractAddress amount }, .ok ())

def getDeveloper (d : DeveloperRewards) (contractAddress : ContractAddress) : Option PublicKey :=
  (d.registry.lookup contractAddress).map (·.deployer)

/-- `sum()` wraps. -/
def getAccumulatedRewards (d : DeveloperRewards) (it : PendingOrder) (developer : PublicKey) :
    UInt64 :=
  ((it.enum d.pending.entries).filterMap fun e =>
    match d.registry.lookup e.1 with
    | some entry => if entry.deployer = developer then some e.2 else none
    | none => none).sum

/-- One drained pair: an event for the deployer, if the contract is registered. -/
def payOut (s : DeveloperRewards × List RewardEvent)
    (e : Sigma fun _ : ContractAddress => UInt64) : DeveloperRewards × List RewardEvent :=
  match s.1.registry.lookup e.1 with
  | some entry =>
    ({ s.1 with totalDistributed := saturatingAdd s.1.totalDistributed e.2 },
      s.2 ++ [⟨e.1, entry.deployer, e.2, s.1.currentHeight⟩])
  | none => s

def distributeRewards (d : DeveloperRewards) (it : PendingOrder) :
    DeveloperRewards × List RewardEvent :=
  let pending := (it.enum d.pending.entries).filter fun e => e.2 > 0
  pending.foldl payOut ({ d with pending := ∅ }, [])

/-! ## Calls -/

inductive Call where
  | registerContract (contractAddress : ContractAddress) (deployer : PublicKey) (height : UInt64)
  | recordFee (contractAddress : ContractAddress) (feeAmount : UInt64)
  | setHeight (height : UInt64)
  | distributeRewards (it : PendingOrder)

inductive Answer where
  | done (outcome : Except RewardsError Unit)
  | paid (events : List RewardEvent)

def call (d : DeveloperRewards) : Call → DeveloperRewards × Answer
  | .registerContract contractAddress deployer height =>
    let (d, r) := d.registerContract contractAddress deployer height
    (d, .done r)
  | .recordFee contractAddress feeAmount =>
    let (d, r) := d.recordFee contractAddress feeAmount
    (d, .done r)
  | .setHeight height => (d.setHeight height, .done (.ok ()))
  | .distributeRewards it =>
    let (d, events) := d.distributeRewards it
    (d, .paid events)

/-! ## What the calls do -/

/-- What a developer is told does not depend on the order of the map. -/
theorem getAccumulatedRewards_order (it it' : PendingOrder) (d : DeveloperRewards)
    (developer : PublicKey) :
    d.getAccumulatedRewards it developer = d.getAccumulatedRewards it' developer := by
  have hperm := (it.perm d.pending.entries).trans (it'.perm d.pending.entries).symm
  apply UInt64.toNat_inj.mp
  unfold getAccumulatedRewards
  rw [toNat_sum, toNat_sum, ((hperm.filterMap _).map UInt64.toNat).sum_nat]

/-- What of a contract's fees is still to be paid. -/
def owed (d : DeveloperRewards) (c : ContractAddress) : Nat :=
  ((d.pending.lookup c).getD 0).toNat

/-- Only registered contracts have fees, and none has more to get than it has earned. -/
structure Backed (d : DeveloperRewards) : Prop where
  registered : ∀ c a, d.pending.lookup c = some a → ∃ entry, d.registry.lookup c = some entry
  owed_le : ∀ c entry, d.registry.lookup c = some entry → d.owed c ≤ entry.totalFeesEarned.toNat

/-- **The second check never fails**: a fee is refused by a check that comes before any change. -/
theorem recordFee_cases {d : DeveloperRewards} (h : d.Backed) (c : ContractAddress)
    (fee : UInt64) :
    (∃ e, d.recordFee c fee = (d, .error e) ∧ (fee = 0 ∨ d.registry.lookup c = none ∨
        ∃ entry, d.registry.lookup c = some entry ∧
          2 ^ 64 ≤ entry.totalFeesEarned.toNat + fee.toNat)) ∨
      ∃ entry earned amount, d.registry.lookup c = some entry ∧
        entry.totalFeesEarned.toNat + fee.toNat = earned.toNat ∧
        d.owed c + fee.toNat = amount.toNat ∧
        d.recordFee c fee = ({ d with
          registry := d.registry.insert c { entry with totalFeesEarned := earned },
          pending := d.pending.insert c amount }, .ok ()) := by
  unfold recordFee
  split
  · rename_i hzero
    exact Or.inl ⟨_, rfl, Or.inl hzero⟩
  cases hl : d.registry.lookup c with
  | none => exact Or.inl ⟨_, rfl, Or.inr (Or.inl rfl)⟩
  | some entry =>
    dsimp only
    cases hearned : checkedAdd entry.totalFeesEarned fee with
    | none =>
      exact Or.inl ⟨_, rfl, Or.inr (Or.inr ⟨entry, rfl, checkedAdd_eq_none.mp hearned⟩)⟩
    | some earned =>
      have hsum := checkedAdd_eq_some.mp hearned
      have hle := h.owed_le c entry hl
      dsimp only
      cases hamount : checkedAdd ((d.pending.lookup c).getD 0) fee with
      | none =>
        have hover := checkedAdd_eq_none.mp hamount
        have hlt := earned.toNat_lt
        unfold owed at hle
        omega
      | some amount =>
        exact Or.inr ⟨entry, earned, amount, rfl, hsum, checkedAdd_eq_some.mp hamount, rfl⟩

theorem foldl_payOut (deployer : ContractAddress → PublicKey)
    {registry : HashMap ContractAddress ContractRegistry}
    {pending : HashMap ContractAddress UInt64} {height : UInt64} :
    ∀ (l : List (Sigma fun _ : ContractAddress => UInt64)) (total : UInt64)
      (events : List RewardEvent),
      (∀ e ∈ l, (registry.lookup e.1).map (·.deployer) = some (deployer e.1)) →
      l.foldl payOut (⟨registry, pending, total, height⟩, events) =
        (⟨registry, pending, (l.map (·.2)).foldl saturatingAdd total, height⟩,
          events ++ l.map fun e => ⟨e.1, deployer e.1, e.2, height⟩) := by
  intro l
  induction l with
  | nil =>
    intro total events _
    simp
  | cons e l ih =>
    intro total events hall
    rw [List.forall_mem_cons] at hall
    obtain ⟨entry, hentry, hdeployer⟩ := Option.map_eq_some_iff.mp hall.1
    have hpay : payOut (⟨registry, pending, total, height⟩, events) e =
        (⟨registry, pending, saturatingAdd total e.2, height⟩,
          events ++ [⟨e.1, deployer e.1, e.2, height⟩]) := by
      unfold payOut
      dsimp only
      rw [hentry, ← hdeployer]
    rw [List.foldl_cons, hpay, ih _ _ hall.2]
    simp

/-- What a distribution drains. -/
def drained (d : DeveloperRewards) (it : PendingOrder) :
    List (Sigma fun _ : ContractAddress => UInt64) :=
  (it.enum d.pending.entries).filter fun e => e.2 > 0

/-- The event for one drained pair of a registered contract. -/
def eventOf (d : DeveloperRewards) (e : Sigma fun _ : ContractAddress => UInt64) : RewardEvent :=
  ⟨e.1, (d.getDeveloper e.1).getD (Bytes.fill 32 0), e.2, d.currentHeight⟩

/-- A distribution pays all that is pending. -/
theorem distributeRewards_eq {d : DeveloperRewards} (h : d.Backed) (it : PendingOrder) :
    d.distributeRewards it =
      ({ d with
        pending := ∅,
        totalDistributed := ((d.drained it).map (·.2)).foldl saturatingAdd d.totalDistributed },
        (d.drained it).map d.eventOf) := by
  refine (foldl_payOut (fun c => (d.getDeveloper c).getD (Bytes.fill 32 0)) _ _ _ ?_).trans ?_
  · intro e he
    have hmem := it.mem_enum.mp (List.mem_of_mem_filter he)
    obtain ⟨entry, hentry⟩ := h.registered e.1 e.2 (AList.mem_lookup_iff.mpr hmem)
    unfold getDeveloper
    rw [hentry]
    rfl
  · rw [List.nil_append]
    rfl

end DeveloperRewards

end Rewards

end Trv1Chain
