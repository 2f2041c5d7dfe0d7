import Trv1Chain.Proof.ProposerSlots

/-!
# The lists of the registry

`get_active_set` ranks the active validators and then looks each up again by the key it was ranked
under, and whoever is not found is dropped. That nobody is, and that the entry found is the entry
ranked, rests on the registry being stored under its own keys. The two other lists are filters.

In every reachable registry the three lists are the registry, each validator once
(`lists_partition`), and the first of them, unlike the other two, does not depend on the order of
the map.
-/

set_option autoImplicit false

namespace Trv1Chain

open Lib Staking

namespace ValidatorSet

namespace ValidatorSetManager

variable {vs : ValidatorSetManager} {pool : StakingPool}

/-- The keys of the list are the ranking of the keys. -/
theorem map_pubkey_getActiveSet (hk : Keyed vs.validators) (it : IterOrder ValidatorInfo)
    (itd : DelegationOrder) (pool : StakingPool) :
    (vs.getActiveSet it itd pool).map (·.pubkey) =
      rankedKeys ⟨fun _ => it, itd⟩ 0 vs.validators pool .active := by
  unfold getActiveSet rankedKeys
  rw [List.map_filterMap, List.filterMap_eq_map_iff_forall_eq_some]
  intro r hr
  obtain ⟨⟨v, hv, -⟩, -⟩ := of_mem_ranked hk hr
  rw [hv, ← hk _ v hv]
  rfl

/-- What is found is what was ranked. -/
theorem getActiveSet_perm (hk : Keyed vs.validators) (it : IterOrder ValidatorInfo)
    (itd : DelegationOrder) (pool : StakingPool) :
    (vs.getActiveSet it itd pool).Perm (withStatus it vs.validators .active) := by
  have hranked : (vs.getActiveSet it itd pool).Perm
      (((withStatus it vs.validators .active).map (rank itd pool)).filterMap fun r =>
        vs.validators.lookup r.pubkey) :=
    (List.perm_insertionSort _ _).filterMap _
  refine hranked.trans (.of_eq ?_)
  rw [List.filterMap_map]
  refine (List.filterMap_eq_map_iff_forall_eq_some.mpr fun v hv => ?_).trans (List.map_id _)
  exact ((mem_withStatus hk).mp hv).1

/-- Every validator has one of the three statuses. -/
theorem withStatus_perm (it : IterOrder ValidatorInfo) (m : Validators) :
    (withStatus it m .active ++ (withStatus it m .standby ++ withStatus it m .jailed)).Perm
      m.values := by
  refine List.Perm.trans ?_ (it.perm m.values)
  unfold withStatus
  induction it.enum m.values with
  | nil => exact .refl _
  | cons v l ih =>
    cases hs : v.status with
    | active => simpa [hs] using ih.cons v
    | standby => simpa [hs] using List.perm_middle.trans (ih.cons v)
    | jailed =>
      simp only [List.filter_cons, hs]
      rw [← List.append_assoc] at ih ⊢
      exact List.perm_middle.trans (ih.cons v)

theorem getActiveSet_order (it it' : IterOrder ValidatorInfo) (itd itd' : DelegationOrder)
    (vs : ValidatorSetManager) (pool : StakingPool) :
    vs.getActiveSet it' itd' pool = vs.getActiveSet it itd pool := by
  have hperm : (withStatus it' vs.validators .active).Perm (withStatus it vs.validators .active) :=
    ((it'.perm _).trans (it.perm _).symm).filter _
  unfold getActiveSet
  dsimp only
  rw [sortByStake_perm itd' itd hperm]

theorem searchSlot_mem {slot : UInt64} {k : PublicKey} : ∀ {active : List (PublicKey × UInt64)}
    {cumulative : UInt64}, searchSlot slot cumulative active = some k → k ∈ active.map (·.1) := by
  intro active
  induction active with
  | nil =>
    intro cumulative h
    cases h
  | cons x active ih =>
    intro cumulative h
    unfold searchSlot at h
    split at h
    · cases h
      exact List.mem_cons_self
    · exact List.mem_cons_of_mem _ (ih h)

/-- A proposer is one of the ranges' owners, also by the fallback. -/
theorem getProposer_mem {it : IterOrder ValidatorInfo} {itd : DelegationOrder} {height : UInt64}
    {k : PublicKey} (h : vs.getProposer it itd height pool = some k) :
    k ∈ (vs.slots it itd pool).map (·.1) := by
  unfold getProposer at h
  dsimp only at h
  split at h
  · cases h
  split at h
  · cases h
  split at h
  · rename_i hsearch
    cases h
    exact searchSlot_mem hsearch
  · obtain ⟨x, hx, rfl⟩ := Option.map_eq_some_iff.mp h
    exact List.mem_map_of_mem (List.mem_of_getLast? hx)

/-- **The lists are the registry.** After any calls on a new registry the active, the standby and
the jailed validators are together the entries of the registry, each once. The active list holds
exactly the keys that are active and is no longer than the cap; it descends strictly in the ranking
by voting power and key, whatever the order of the maps; and every proposer, of any height, is on
it. -/
theorem lists_partition {config : ValidatorSetConfig}
    {hist : List (Turn ValidatorSetManager Call Answer)}
    (hr : Run step (fun _ _ => True) (withConfig config) hist vs) (it : IterOrder ValidatorInfo)
    (itd : DelegationOrder) (pool : StakingPool) :
    (vs.getActiveSet it itd pool ++ (vs.getStandbySet it ++ vs.getJailedSet it)).Perm
        vs.validators.values ∧
      (vs.getActiveSet it itd pool).length + (vs.getStandbySet it).length +
        (vs.getJailedSet it).length = vs.totalCount ∧
      (∀ k, k ∈ (vs.getActiveSet it itd pool).map (·.pubkey) ↔ vs.isActive k = true) ∧
      (vs.getActiveSet it itd pool).length ≤ config.activeSetCap ∧
      (vs.getActiveSet it itd pool).Pairwise (fun v w => (ranking pool).Ahead v.pubkey w.pubkey) ∧
      (∀ it' itd', vs.getActiveSet it' itd' pool = vs.getActiveSet it itd pool) ∧
      ∀ height k, vs.getProposer it itd height pool = some k →
        k ∈ (vs.getActiveSet it itd pool).map (·.pubkey) := by
  obtain ⟨⟨hk, hcap⟩, rfl⟩ := wellFormed_run hr
  have hperm := getActiveSet_perm hk it itd pool
  have hall : (vs.getActiveSet it itd pool ++ (vs.getStandbySet it ++ vs.getJailedSet it)).Perm
      vs.validators.values := (hperm.append_right _).trans (withStatus_perm it vs.validators)
  have hkeys : ∀ k, k ∈ (vs.getActiveSet it itd pool).map (·.pubkey) ↔ vs.isActive k = true := by
    intro k
    have hslots : k ∈ (vs.slots it itd pool).map (·.1) ↔ vs.isActive k = true := mem_slots_keys hk
    rw [← hslots, (hperm.map _).mem_iff, ((slots_perm it itd vs pool).map _).mem_iff, activePowers,
      List.map_map]
    rfl
  refine ⟨hall, ?_, hkeys, ?_, ?_, fun it' itd' => getActiveSet_order it it' itd itd' vs pool, ?_⟩
  · have hlength := hall.length_eq
    rw [List.length_append, List.length_append, HashMap.values, List.length_map] at hlength
    rw [Nat.add_assoc]
    exact hlength
  · have hactive : (withStatus it vs.validators .active).Perm
        (withStatus .stored vs.validators .active) := (it.perm _).filter _
    rw [(hperm.trans hactive).length_eq]
    exact hcap
  · rw [← List.pairwise_map (f := ValidatorInfo.pubkey), map_pubkey_getActiveSet hk]
    exact rankedKeys_sorted hk _ 0 pool .active
  · intro height k hproposer
    rw [hkeys, ← mem_slots_keys hk]
    exact getProposer_mem hproposer

/-- Two validators for one place, of which the second is jailed at the end: one is on each of two
lists, and the first proposes. -/
theorem lists_partition_rivals :
    ∃ hist vs, Run step (fun _ _ => True) (withConfig ⟨1, 100, 100⟩) hist vs ∧
      (vs.getActiveSet .stored .stored rivalPool).map (·.pubkey) = [Bytes.fill 32 1] ∧
      (vs.getJailedSet .stored).map (·.pubkey) = [Bytes.fill 32 2] ∧
      vs.getProposer .stored .stored 7 rivalPool = some (Bytes.fill 32 1) ∧
      (vs.getActiveSet .stored .stored rivalPool ++
        (vs.getStandbySet .stored ++ vs.getJailedSet .stored)).Perm vs.validators.values ∧
      ∀ it' itd',
        vs.getActiveSet it' itd' rivalPool = vs.getActiveSet .stored .stored rivalPool := by
  have hreplay : ∃ hist vs, Run step (fun _ _ => True) (withConfig ⟨1, 100, 100⟩) hist vs ∧
      (vs.getActiveSet .stored .stored rivalPool).map (·.pubkey) = [Bytes.fill 32 1] ∧
      (vs.getJailedSet .stored).map (·.pubkey) = [Bytes.fill 32 2] ∧
      vs.getProposer .stored .stored 7 rivalPool = some (Bytes.fill 32 1) :=
    Run.exists_of_replay rivalCalls (by decide +kernel)
  obtain ⟨hist, vs, hr, hactive, hjailed, hproposer⟩ := hreplay
  have hlists := lists_partition hr .stored .stored rivalPool
  exact ⟨hist, vs, hr, hactive, hjailed, hproposer, hlists.1, hlists.2.2.2.2.2.1⟩

end ValidatorSetManager

end ValidatorSet

end Trv1Chain
