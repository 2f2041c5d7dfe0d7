import Trv1Chain.Lib.Seating
import Trv1Chain.Proof.RotationOrder

/-!
# What a rotation makes of the seats

A rotation refines `Lib.Ranking`: the Active hold the seats, the Standby wait, the ranking is that
of `sort_by_stake`. Its swap loop is a sequence of swaps there, and its second phase fills the free
seats (`rotate_seats`).

The two phases do not know of each other. The swaps are recorded in the first, and the second may
give a validator that was just swapped out its seat back.
-/

set_option autoImplicit false

namespace Trv1Chain

open Lib Staking

namespace ValidatorSet

variable {o : RotationOrder} {m m' : Validators} {pool : StakingPool} {cap : Nat}
  {swaps : List (PublicKey × PublicKey)}

/-! ## The ranking -/

/-- A key's place in the ranking of `sort_by_stake`. -/
def place (pool : StakingPool) (k : PublicKey) : RankedValidator :=
  ⟨k, pool.getVotingPower .stored k⟩

theorem place_inj {a b : PublicKey} (h : place pool a = place pool b) : a = b :=
  congrArg RankedValidator.pubkey h

/-- The ranking of the keys by voting power, ties broken by key. -/
def ranking (pool : StakingPool) : Ranking PublicKey where
  power k := (pool.getVotingPower .stored k).toNat
  Ahead a b := (place pool a).Precedes (place pool b) ∧ a ≠ b
  decAhead _ _ := inferInstanceAs (Decidable (_ ∧ _))
  irrefl a h := h.2 rfl
  trans {a b c} hab hbc := by
    refine ⟨IsTrans.trans _ _ _ hab.1 hbc.1, ?_⟩
    rintro rfl
    exact hab.2 (place_inj (antisymm hab.1 hbc.1))
  total {a b} hne := by
    rcases Std.Total.total (r := RankedValidator.Precedes) (place pool a) (place pool b) with h | h
    · exact Or.inl ⟨h, hne⟩
    · exact Or.inr ⟨h, hne.symm⟩
  of_power {a b} hlt := by
    refine ⟨Or.inl (UInt64.lt_iff_toNat_lt.mpr hlt), ?_⟩
    rintro rfl
    exact Nat.lt_irrefl _ hlt

/-! ## The seats -/

/-- The keys with a status. -/
def seats (m : Validators) (s : ValidatorStatus) : Finset PublicKey :=
  m.keys.toFinset.filter fun k => (m.lookup k).map (·.status) = some s

theorem mem_seats {s : ValidatorStatus} {k : PublicKey} :
    k ∈ seats m s ↔ ∃ v, m.lookup k = some v ∧ v.status = s := by
  unfold seats
  rw [Finset.mem_filter, List.mem_toFinset, Option.map_eq_some_iff]
  constructor
  · exact fun h => h.2
  · rintro ⟨v, hv, hs⟩
    refine ⟨?_, v, hv, hs⟩
    rw [← AList.mem_keys, ← AList.lookup_isSome, hv]
    rfl

theorem not_standby_of_active {k : PublicKey} (h : k ∈ seats m .active) : k ∉ seats m .standby := by
  intro h'
  obtain ⟨v, hv, hs⟩ := mem_seats.mp h
  obtain ⟨w, hw, hs'⟩ := mem_seats.mp h'
  rw [hv] at hw
  cases hw
  rw [hs] at hs'
  cases hs'

theorem seats_setStatus {k : PublicKey} (hk : ∃ v, m.lookup k = some v) (s : ValidatorStatus) :
    seats (setStatus s k m) s = insert k (seats m s) := by
  obtain ⟨v, hv⟩ := hk
  ext k'
  rw [Finset.mem_insert, mem_seats, mem_seats]
  unfold setStatus
  rw [HashMap.lookup_modify]
  by_cases heq : k' = k
  · rw [if_pos heq, hv]
    exact iff_of_true ⟨_, rfl, rfl⟩ (Or.inl heq)
  · rw [if_neg heq]
    exact (or_iff_right heq).symm

theorem seats_setStatus_ne {s s' : ValidatorStatus} (hne : s ≠ s') (k : PublicKey) :
    seats (setStatus s k m) s' = (seats m s').erase k := by
  ext k'
  rw [Finset.mem_erase, mem_seats, mem_seats]
  unfold setStatus
  rw [HashMap.lookup_modify]
  by_cases heq : k' = k
  · rw [if_pos heq]
    refine iff_of_false ?_ (fun h => h.1 heq)
    rintro ⟨v, hv, hs⟩
    obtain ⟨w, -, rfl⟩ := Option.map_eq_some_iff.mp hv
    exact hne hs
  · rw [if_neg heq]
    exact (and_iff_right heq).symm

/-- A swap exchanges two keys between the two sets. -/
theorem seats_swap {p d : PublicKey} (hs : Swappable pool m p d) :
    seats (setStatus .active p (setStatus .standby d m)) .active =
        insert p ((seats m .active).erase d) ∧
      seats (setStatus .active p (setStatus .standby d m)) .standby =
        insert d ((seats m .standby).erase p) := by
  obtain ⟨vp, hp, -⟩ := hs.standby
  obtain ⟨vd, hd, -⟩ := hs.active
  have hp' : ∃ v, (setStatus .standby d m).lookup p = some v := by
    refine ⟨vp, ?_⟩
    unfold setStatus
    rw [HashMap.lookup_modify, if_neg hs.ne]
    exact hp
  constructor
  · rw [seats_setStatus hp', seats_setStatus_ne (by simp)]
  · rw [seats_setStatus_ne (by simp), seats_setStatus ⟨vd, hd⟩,
      Finset.erase_insert_of_ne hs.ne.symm]

theorem seats_foldl_promote : ∀ (l : List RankedValidator) {m : Validators},
    (∀ r ∈ l, ∃ v, m.lookup r.pubkey = some v) →
    seats (l.foldl (fun m r => setStatus .active r.pubkey m) m) .active =
        seats m .active ∪ (l.map (·.pubkey)).toFinset ∧
      seats (l.foldl (fun m r => setStatus .active r.pubkey m) m) .standby =
        seats m .standby \ (l.map (·.pubkey)).toFinset := by
  intro l
  induction l with
  | nil =>
    intro m _
    simp
  | cons r l ih =>
    intro m hall
    rw [List.forall_mem_cons] at hall
    have hall' : ∀ r' ∈ l, ∃ v, (setStatus .active r.pubkey m).lookup r'.pubkey = some v := by
      intro r' hr'
      obtain ⟨v, hv⟩ := hall.2 r' hr'
      unfold setStatus
      rw [HashMap.lookup_modify]
      split
      · obtain ⟨w, hw⟩ := hall.1
        exact ⟨{ w with status := .active }, by rw [hw]; rfl⟩
      · exact ⟨v, hv⟩
    obtain ⟨hactive, hstandby⟩ := ih hall'
    rw [List.foldl_cons, hactive, hstandby, seats_setStatus hall.1, seats_setStatus_ne (by simp)]
    rw [List.map_cons, List.toFinset_cons]
    constructor
    · rw [Finset.insert_union, Finset.union_insert]
    · rw [Finset.erase_sdiff_comm, Finset.sdiff_insert]

/-! ## The rankings of the code -/

/-- The keys with a status as the code ranks them. -/
def rankedKeys (o : RotationOrder) (turn : Nat) (m : Validators) (pool : StakingPool)
    (s : ValidatorStatus) : List PublicKey :=
  (sortByStake o.delegations (withStatus (o.validators turn) m s) pool).map (·.pubkey)

theorem mem_rankedKeys (hk : Keyed m) {turn : Nat} {s : ValidatorStatus} {k : PublicKey} :
    k ∈ rankedKeys o turn m pool s ↔ k ∈ seats m s := by
  unfold rankedKeys
  rw [List.mem_map, mem_seats]
  constructor
  · rintro ⟨r, hr, rfl⟩
    exact (of_mem_ranked hk hr).1
  · rintro ⟨v, hv, rfl⟩
    exact ⟨_, mem_ranked _ _ hk hv pool, rfl⟩

/-- The pubkeys of a map stored under its own keys are its keys. -/
theorem values_map_pubkey (hk : Keyed m) : m.values.map (·.pubkey) = m.keys := by
  show (m.entries.map (·.2)).map (·.pubkey) = m.entries.map Sigma.fst
  rw [List.map_map]
  apply List.map_congr_left
  intro e he
  exact hk e.1 e.2 (AList.mem_lookup_iff.mpr he)

theorem nodup_withStatus (hk : Keyed m) (it : IterOrder ValidatorInfo) (s : ValidatorStatus) :
    ((withStatus it m s).map (·.pubkey)).Nodup := by
  have hnodup : ((it.enum m.values).map (·.pubkey)).Nodup := by
    rw [((it.perm m.values).map _).nodup_iff, values_map_pubkey hk]
    exact m.keys_nodup
  exact hnodup.sublist (List.filter_sublist.map _)

theorem rankedKeys_perm (o : RotationOrder) (turn : Nat) (m : Validators) (pool : StakingPool)
    (s : ValidatorStatus) :
    (rankedKeys o turn m pool s).Perm ((withStatus (o.validators turn) m s).map (·.pubkey)) := by
  unfold rankedKeys sortByStake
  refine ((List.perm_insertionSort _ _).map _).trans ?_
  rw [List.map_map]
  exact List.Perm.refl _

theorem rankedKeys_nodup (hk : Keyed m) (o : RotationOrder) (turn : Nat) (pool : StakingPool)
    (s : ValidatorStatus) : (rankedKeys o turn m pool s).Nodup :=
  (rankedKeys_perm o turn m pool s).nodup_iff.mpr (nodup_withStatus hk _ s)

theorem card_seats (hk : Keyed m) (o : RotationOrder) (turn : Nat) (pool : StakingPool)
    (s : ValidatorStatus) : (seats m s).card = (rankedKeys o turn m pool s).length := by
  rw [← List.toFinset_card_of_nodup (rankedKeys_nodup hk o turn pool s)]
  congr 1
  ext k
  rw [List.mem_toFinset, mem_rankedKeys hk]

theorem activeCount_eq_card (hk : Keyed m) : activeCount m = (seats m .active).card := by
  rw [card_seats hk .stored 0 .new, (rankedKeys_perm _ _ _ _ _).length_eq, List.length_map]
  rfl

/-- A ranked validator stands in its place. -/
theorem eq_place (hk : Keyed m) {turn : Nat} {s : ValidatorStatus} {r : RankedValidator}
    (hr : r ∈ sortByStake o.delegations (withStatus (o.validators turn) m s) pool) :
    r = place pool r.pubkey := by
  cases r with
  | mk k stake => exact congrArg (RankedValidator.mk k) (of_mem_ranked hk hr).2

theorem place_mem (hk : Keyed m) {turn : Nat} {s : ValidatorStatus} {k : PublicKey}
    (h : k ∈ seats m s) :
    place pool k ∈ sortByStake o.delegations (withStatus (o.validators turn) m s) pool := by
  obtain ⟨v, hv, rfl⟩ := mem_seats.mp h
  have hmem := mem_ranked (o.validators turn) o.delegations hk hv pool
  rw [StakingPool.getVotingPower_order o.delegations .stored] at hmem
  exact hmem

theorem rankedKeys_sorted (hk : Keyed m) (o : RotationOrder) (turn : Nat) (pool : StakingPool)
    (s : ValidatorStatus) : (rankedKeys o turn m pool s).Pairwise (ranking pool).Ahead := by
  have hsorted : (rankedKeys o turn m pool s).Pairwise fun a b =>
      (place pool a).Precedes (place pool b) := by
    unfold rankedKeys
    rw [List.pairwise_map]
    refine (sortByStake_sorted o.delegations _ pool).imp_of_mem ?_
    intro a b ha hb hab
    rw [← eq_place hk ha, ← eq_place hk hb]
    exact hab
  exact hsorted.and (rankedKeys_nodup hk o turn pool s)

/-! ## The two phases -/

/-- A turn of the loop swaps the first of the waiting for the last of the seated. -/
theorem swapOnce_swap {turn : Nat} {swap : PublicKey × PublicKey} (hk : Keyed m)
    (h : swapOnce o turn m pool = some (m', swap)) :
    (ranking pool).Swap (seats m .active) (seats m .standby) swap.1 swap.2 := by
  obtain ⟨hswap, -⟩ := swapOnce_some hk h
  unfold swapOnce at h
  dsimp only at h
  split at h
  · rename_i weakest strongest hlast hhead
    split at h
    · obtain ⟨-, rfl⟩ := Prod.mk.inj (Option.some.inj h)
      have hstrongest := eq_place hk (List.mem_of_mem_head? hhead)
      have hweakest := eq_place hk (List.mem_of_getLast? hlast)
      refine ⟨mem_seats.mpr hswap.standby, mem_seats.mpr hswap.active, ?_, ?_,
        UInt64.lt_iff_toNat_lt.mp hswap.stronger⟩
      · intro x hx hne
        rw [hstrongest] at hhead
        exact ⟨precedes_of_head hhead (place_mem hk hx) fun h => hne (place_inj h), hne.symm⟩
      · intro x hx hne
        rw [hweakest] at hlast
        exact ⟨precedes_of_getLast hlast (place_mem hk hx) fun h => hne (place_inj h), hne⟩
    · cases h
  · cases h

theorem swapLoop_swapped (hk : Keyed m) {fuel : Nat}
    (h : swapLoop o pool fuel m [] = some (m', swaps)) :
    Keyed m' ∧ (ranking pool).Swapped (seats m .active) (seats m .standby) (seats m' .active)
        (seats m' .standby) swaps ∧
      ∀ a ∈ seats m' .active, ∀ s ∈ seats m' .standby,
        (ranking pool).power s ≤ (ranking pool).power a := by
  obtain ⟨⟨hk', hswapped⟩, hend⟩ := swapLoop_invariant
    (I := fun m' swaps => Keyed m' ∧ (ranking pool).Swapped (seats m .active)
      (seats m .standby) (seats m' .active) (seats m' .standby) swaps)
    (by
      intro m₁ swaps m₂ swap hI hs
      obtain ⟨hk₁, hswapped⟩ := hI
      have hswap := swapOnce_swap hk₁ hs
      obtain ⟨hswappable, rfl⟩ := swapOnce_some hk₁ hs
      obtain ⟨hactive, hstandby⟩ := seats_swap hswappable
      rw [hactive, hstandby]
      exact ⟨(hk₁.setStatus _ _).setStatus _ _,
        hswapped.swap (fun _ => not_standby_of_active) hswap⟩)
    ⟨hk, .refl _ _⟩ h
  refine ⟨hk', hswapped, ?_⟩
  intro a ha s hs
  by_contra hlt
  exact (swapOnce_none_iff hk').mp hend s a
    ⟨mem_seats.mp hs, mem_seats.mp ha, UInt64.lt_iff_toNat_lt.mpr (Nat.not_le.mp hlt)⟩

/-- Who gets a free place. -/
def chosen (o : RotationOrder) (turn : Nat) (m : Validators) (pool : StakingPool) (cap : Nat) :
    Finset PublicKey :=
  ((rankedKeys o turn m pool .standby).take (cap - (seats m .active).card)).toFinset

theorem chosen_filled (hk : Keyed m) (o : RotationOrder) (turn : Nat) (pool : StakingPool)
    (cap : Nat) : (ranking pool).Filled (seats m .standby) (chosen o turn m pool cap)
      (cap - (seats m .active).card) := by
  generalize hn : cap - (seats m .active).card = n
  unfold chosen
  rw [hn]
  refine ⟨?_, ?_, ?_⟩
  · intro k h
    exact (mem_rankedKeys hk).mp (List.mem_of_mem_take (List.mem_toFinset.mp h))
  · rw [List.toFinset_card_of_nodup ((rankedKeys_nodup hk o turn pool _).sublist
      (List.take_sublist _ _)), List.length_take, ← card_seats hk]
  · intro t ht s hs hout
    rw [List.mem_toFinset] at ht hout
    have hsorted := rankedKeys_sorted hk o turn pool .standby
    rw [← List.take_append_drop n (rankedKeys o turn m pool .standby)] at hsorted
    have hmem : s ∈ rankedKeys o turn m pool .standby := (mem_rankedKeys hk).mpr hs
    rw [← List.take_append_drop n (rankedKeys o turn m pool .standby)] at hmem
    exact (List.pairwise_append.mp hsorted).2.2 t ht s ((List.mem_append.mp hmem).resolve_left hout)

theorem fillSlots_seats (hk : Keyed m) (o : RotationOrder) (turn : Nat) (pool : StakingPool)
    (cap : Nat) :
    seats (fillSlots o turn m pool cap) .active = seats m .active ∪ chosen o turn m pool cap ∧
      seats (fillSlots o turn m pool cap) .standby =
        seats m .standby \ chosen o turn m pool cap := by
  unfold fillSlots chosen rankedKeys
  dsimp only
  rw [activeCount_eq_card hk, ← List.map_take]
  split
  · apply seats_foldl_promote
    intro r hr
    obtain ⟨⟨v, hv, -⟩, -⟩ := of_mem_ranked hk (List.mem_of_mem_take hr)
    exact ⟨v, hv⟩
  · rename_i hfull
    rw [Nat.sub_eq_zero_of_le (Nat.not_lt.mp hfull)]
    simp

/-- **A rotation in terms of the seats**: swaps until none is left, then the free seats go to the
first of those who wait. -/
theorem rotate_seats (hk : Keyed m) (h : rotate o m pool cap = some (m', swaps)) :
    ∃ A S T, (ranking pool).Swapped (seats m .active) (seats m .standby) A S swaps ∧
      (∀ a ∈ A, ∀ s ∈ S, (ranking pool).power s ≤ (ranking pool).power a) ∧
      (ranking pool).Filled S T (cap - (seats m .active).card) ∧
      seats m' .active = A ∪ T ∧ seats m' .standby = S \ T := by
  obtain ⟨m₁, hloop, rfl⟩ := rotate_some h
  obtain ⟨hk₁, hswapped, hdone⟩ := swapLoop_swapped hk hloop
  obtain ⟨hactive, hstandby⟩ := fillSlots_seats hk₁ o (swaps.length + 1) pool cap
  have hfilled := chosen_filled hk₁ o (swaps.length + 1) pool cap
  rw [hswapped.card] at hfilled
  exact ⟨_, _, _, hswapped, hdone, hfilled, hactive, hstandby⟩

/-! ## The strongest hold the seats -/

def unjailedCount (m : Validators) : Nat := (m.values.filter fun v => v.status != .jailed).length

theorem unjailedCount_eq (hk : Keyed m) :
    unjailedCount m = (seats m .active).card + (seats m .standby).card := by
  rw [card_seats hk .stored 0 .new, card_seats hk .stored 0 .new,
    (rankedKeys_perm _ _ _ _ _).length_eq, (rankedKeys_perm _ _ _ _ _).length_eq, List.length_map,
    List.length_map]
  show (m.values.filter fun v => v.status != .jailed).length =
    (m.values.filter fun v => v.status == .active).length +
      (m.values.filter fun v => v.status == .standby).length
  induction m.values with
  | nil => rfl
  | cons v l ih =>
    cases hs : v.status with
    | active =>
      simp [hs, ih]
      omega
    | standby =>
      simp [hs, ih]
      omega
    | jailed => simp [hs, ih]

/-- **A rotation seats the strongest.** It returns, changes no field but the status and leaves the
Jailed alone; the seats are filled as far as there are validators for them, nobody on standby is
stronger than anybody seated, and another rotation with the same pool does nothing. -/
theorem rotate_strongest (hk : Keyed m) (hcap : activeCount m ≤ cap) (o : RotationOrder)
    (pool : StakingPool) :
    ∃ m' swaps, rotate o m pool cap = some (m', swaps) ∧ Reranked m m' ∧
      activeCount m' = min cap (unjailedCount m) ∧
      (∀ a ∈ seats m' .active, ∀ s ∈ seats m' .standby,
        pool.getVotingPower .stored s ≤ pool.getVotingPower .stored a) ∧
      ∀ o', rotate o' m' pool cap = some (m', []) := by
  obtain ⟨m', swaps, hrot, hrotated⟩ := rotate_rotated o hk pool cap
  obtain ⟨A, S, T, hswapped, hdone, hfilled, hactive, hstandby⟩ := rotate_seats hk hrot
  have hdisj : Disjoint A T := Finset.disjoint_left.mpr fun x hA hT =>
    hswapped.disjoint (fun _ => not_standby_of_active) hA (hfilled.subset hT)
  have hunjailed : unjailedCount m = A.card + S.card := by
    rw [unjailedCount_eq hk, ← Finset.card_union_of_disjoint, ← Finset.card_union_of_disjoint]
    · exact congrArg Finset.card (Finset.ext fun x => (hswapped.mem_union x).symm)
    · exact Finset.disjoint_left.mpr fun x =>
        hswapped.disjoint fun _ => not_standby_of_active
    · exact Finset.disjoint_left.mpr fun _ => not_standby_of_active
  have hcount : activeCount m' = min cap (unjailedCount m) := by
    rw [activeCount_eq_card hrotated.keyed, hactive, Finset.card_union_of_disjoint hdisj,
      hfilled.card, hunjailed, ← hswapped.card]
    rw [activeCount_eq_card hk, ← hswapped.card] at hcap
    omega
  have hstrongest : ∀ a ∈ seats m' .active, ∀ s ∈ seats m' .standby,
      (ranking pool).power s ≤ (ranking pool).power a := by
    intro a ha s hs
    rw [hstandby, Finset.mem_sdiff] at hs
    rw [hactive, Finset.mem_union] at ha
    rcases ha with hA | hT
    · exact hdone a hA s hs.1
    · exact Ranking.power_le (hfilled.first a hT s hs.1 hs.2)
  refine ⟨m', swaps, hrot, hrotated.reranked, hcount, ?_, ?_⟩
  · exact fun a ha s hs => UInt64.le_iff_toNat_le.mpr (hstrongest a ha s hs)
  · intro o'
    apply rotate_eq_self hrotated.keyed
    · intro p d hswap
      exact Nat.not_lt.mpr (hstrongest d (mem_seats.mpr hswap.active) p
        (mem_seats.mpr hswap.standby)) (UInt64.lt_iff_toNat_lt.mp hswap.stronger)
    · -- a free seat means that everybody who waited has one
      intro hroom k v hv hs
      have hk' : k ∈ seats m' .standby := mem_seats.mpr ⟨v, hv, hs⟩
      have hpos : 0 < (S \ T).card := Finset.card_pos.mpr ⟨k, hstandby ▸ hk'⟩
      rw [Finset.card_sdiff_of_subset hfilled.subset, hfilled.card] at hpos
      rw [hcount, hunjailed] at hroom
      rw [activeCount_eq_card hk, ← hswapped.card] at hcap
      rw [← hswapped.card] at hpos
      omega

theorem rotate_strongest_rivals :
    ∃ m' swaps, rotate .stored rivals ValidatorSetManager.rivalPool 1 = some (m', swaps) ∧
      activeCount m' = min 1 (unjailedCount rivals) ∧
      rotate .reversed m' ValidatorSetManager.rivalPool 1 = some (m', []) := by
  have hcap : activeCount rivals ≤ 1 := by decide +kernel
  obtain ⟨m', swaps, hrot, -, hcount, -, hagain⟩ :=
    rotate_strongest keyed_rivals hcap .stored ValidatorSetManager.rivalPool
  exact ⟨m', swaps, hrot, hcount, hagain .reversed⟩

/-! ## The report of a rotation -/

/-- The reported pairs are the real changes: each names one who was not Active and is, and one who
was and is not; nobody is named twice; whoever lost a seat is reported. -/
structure Reported (m m' : Validators) (swaps : List (PublicKey × PublicKey)) : Prop where
  promoted : ∀ s ∈ swaps, s.1 ∉ seats m .active ∧ s.1 ∈ seats m' .active
  demoted : ∀ s ∈ swaps, s.2 ∈ seats m .active ∧ s.2 ∉ seats m' .active
  once : (swaps.flatMap fun s => [s.1, s.2]).Nodup
  complete : ∀ k ∈ seats m .active, k ∉ seats m' .active → k ∈ swaps.map Prod.snd

/-- An Active validator with as many stronger rivals on standby as there are Active ones from it
downwards has candidates for all the places ahead of it. -/
def NoneRegained (pool : StakingPool) (m : Validators) (cap : Nat) : Prop :=
  ∀ d ∈ seats m .active,
    ((seats m .active).filter fun a => a = d ∨ (ranking pool).Ahead d a).card ≤
      ((seats m .standby).filter fun s => (ranking pool).power d < (ranking pool).power s).card →
    cap ≤ ((seats m .active ∪ seats m .standby).filter fun x => (ranking pool).Ahead x d).card

instance (pool : StakingPool) (m : Validators) (cap : Nat) :
    Decidable (NoneRegained pool m cap) :=
  -- over the seats, not over all keys there are
  (Finset.decidableDforallFinset : Decidable (∀ d ∈ seats m .active, _ ≤ _ → cap ≤ _))

/-- **When the report is the change.** Everything a rotation reports is true but one thing: a
validator reported as demoted may have got a free place afterwards. -/
theorem rotate_reports_iff (hk : Keyed m) (o : RotationOrder) (pool : StakingPool) (cap : Nat) :
    ∃ m' swaps, rotate o m pool cap = some (m', swaps) ∧
      (Reported m m' swaps ↔ NoneRegained pool m cap) := by
  obtain ⟨m', swaps, hrot, -⟩ := rotate_rotated o hk pool cap
  obtain ⟨A, S, T, hswapped, hdone, hfilled, hactive, hstandby⟩ := rotate_seats hk hrot
  have hdisj : ∀ x ∈ seats m .active, x ∉ seats m .standby := fun _ => not_standby_of_active
  have hpromoted : ∀ s ∈ swaps, s.1 ∈ Ranking.promoted swaps := fun s hs => List.mem_map_of_mem hs
  have hdemoted : ∀ s ∈ swaps, s.2 ∈ Ranking.demoted swaps := fun s hs => List.mem_map_of_mem hs
  -- who lost a seat in the swaps has one in the end exactly if it got a free one
  have hlost : ∀ d ∈ Ranking.demoted swaps, d ∉ seats m' .active ↔ d ∉ T := by
    intro d hd
    have hdA : d ∉ A := fun hA => (ranking pool).irrefl d (hswapped.behind d hA d hd)
    rw [hactive, Finset.mem_union, not_or]
    exact and_iff_right hdA
  refine ⟨m', swaps, hrot, ?_, ?_⟩
  · intro hrep d hd hcount
    have hmem := (hswapped.mem_demoted_iff hdone hd).mpr hcount
    obtain ⟨s, hs, rfl⟩ := List.mem_map.mp hmem
    exact (hswapped.notMem_filled_iff hdisj hfilled hmem).mp
      ((hlost _ hmem).mp (hrep.demoted s hs).2)
  · intro hcond
    refine ⟨?_, ?_, hswapped.nodup hdisj, ?_⟩
    · intro s hs
      refine ⟨fun hA => hdisj _ hA (hswapped.promoted_mem _ (hpromoted s hs)), ?_⟩
      rw [hactive, Finset.mem_union]
      exact Or.inl ((hswapped.seated _).mpr (Or.inr (hpromoted s hs)))
    · intro s hs
      have hmem := hdemoted s hs
      have hd := hswapped.demoted_mem _ hmem
      refine ⟨hd, (hlost _ hmem).mpr ?_⟩
      exact (hswapped.notMem_filled_iff hdisj hfilled hmem).mpr
        (hcond _ hd ((hswapped.mem_demoted_iff hdone hd).mp hmem))
    · intro k hk hout
      rw [hactive, Finset.mem_union, not_or] at hout
      by_contra hkept
      exact hout.1 ((hswapped.seated k).mpr (Or.inl ⟨hk, hkept⟩))

/-- One place: the swap stands. -/
theorem rotate_reports_iff_one_place :
    ∃ m' swaps, rotate .stored rivals ValidatorSetManager.rivalPool 1 = some (m', swaps) ∧
      swaps = [(Bytes.fill 32 2, Bytes.fill 32 1)] ∧ Reported rivals m' swaps := by
  obtain ⟨m', swaps, hrot, hiff⟩ :=
    rotate_reports_iff keyed_rivals .stored ValidatorSetManager.rivalPool 1
  refine ⟨m', swaps, hrot, ?_, hiff.mpr (by decide +kernel)⟩
  have hswaps : (rotate .stored rivals ValidatorSetManager.rivalPool 1).map Prod.snd =
      some [(Bytes.fill 32 2, Bytes.fill 32 1)] := by
    decide +kernel
  rw [hrot] at hswaps
  exact Option.some.inj hswaps

/-- Two places and one Active validator: it is reported as demoted, and is Active. -/
theorem rotate_reports_regained :
    ∃ m' swaps, rotate .stored rivals ValidatorSetManager.rivalPool 2 = some (m', swaps) ∧
      (Bytes.fill 32 2, Bytes.fill 32 1) ∈ swaps ∧ Bytes.fill 32 1 ∈ seats m' .active ∧
      ¬ Reported rivals m' swaps := by
  have hsome : (rotate .stored rivals ValidatorSetManager.rivalPool 2).any (fun r =>
      decide ((Bytes.fill 32 2, Bytes.fill 32 1) ∈ r.2 ∧
        Bytes.fill 32 1 ∈ seats r.1 .active)) = true := by
    decide +kernel
  cases hrot : rotate .stored rivals ValidatorSetManager.rivalPool 2 with
  | none =>
    rw [hrot] at hsome
    cases hsome
  | some r =>
    rw [hrot] at hsome
    obtain ⟨hmem, hactive⟩ := of_decide_eq_true hsome
    exact ⟨r.1, r.2, rfl, hmem, hactive, fun hrep => (hrep.demoted _ hmem).2 hactive⟩

end ValidatorSet

end Trv1Chain
