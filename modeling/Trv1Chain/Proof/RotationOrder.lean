import Trv1Chain.Proof.Seats

/-!
# A rotation and the order of its map

Every turn of the swap loop lists the map anew, in an order the hasher picks, and takes the ends of
two rankings. The rankings are the same in every order (`sortByStake_perm`), so two nodes with the
same bindings make the same swap in every turn and promote the same validators at the end, although
the tables behind their maps differ.
-/

set_option autoImplicit false

namespace Trv1Chain

open Lib Staking

namespace ValidatorSet

variable (o o' : RotationOrder) {m m' : Validators} (pool : StakingPool)

/-- The two maps answer every lookup alike. -/
def SameBindings (m m' : Validators) : Prop := ∀ k, m.lookup k = m'.lookup k

theorem SameBindings.setStatus (h : SameBindings m m') (s : ValidatorStatus) (k : PublicKey) :
    SameBindings (setStatus s k m) (setStatus s k m') := by
  intro k'
  unfold ValidatorSet.setStatus
  rw [HashMap.lookup_modify, HashMap.lookup_modify, h k, h k']

theorem SameBindings.activeCount (h : SameBindings m m') :
    activeCount m = ValidatorSet.activeCount m' := by
  rw [activeCount_eq, activeCount_eq]
  exact HashMap.total_congr activeShare h

theorem SameBindings.withStatus (h : SameBindings m m') (it it' : IterOrder ValidatorInfo)
    (s : ValidatorStatus) : (withStatus it m s).Perm (withStatus it' m' s) := by
  unfold ValidatorSet.withStatus
  exact (((it.perm _).trans (HashMap.values_perm h)).trans (it'.perm _).symm).filter _

/-- The rankings of a turn are the same on both sides, whichever turn it is there. -/
theorem SameBindings.ranked (h : SameBindings m m') (turn turn' : Nat) (s : ValidatorStatus) :
    sortByStake o.delegations (ValidatorSet.withStatus (o.validators turn) m s) pool =
      sortByStake o'.delegations (ValidatorSet.withStatus (o'.validators turn') m' s) pool :=
  sortByStake_perm _ _ (h.withStatus _ _ s) pool

/-- Two results of a turn or of a rotation: the same swaps and the same bindings, or no result. -/
def SameResult {β : Type} : Option (Validators × β) → Option (Validators × β) → Prop :=
  Option.Rel fun r r' => SameBindings r.1 r'.1 ∧ r.2 = r'.2

theorem SameBindings.swapOnce (h : SameBindings m m') (turn turn' : Nat) :
    SameResult (swapOnce o turn m pool) (swapOnce o' turn' m' pool) := by
  unfold ValidatorSet.swapOnce
  dsimp only
  rw [h.ranked o o' pool turn turn' .active, h.ranked o o' pool turn turn' .standby]
  split
  · split
    · exact .some ⟨(h.setStatus _ _).setStatus _ _, rfl⟩
    · exact .none
  · exact .none

theorem SameBindings.swapLoop : ∀ (fuel : Nat) {m m' : Validators}
    (swaps : List (PublicKey × PublicKey)), SameBindings m m' →
    SameResult (swapLoop o pool fuel m swaps) (swapLoop o' pool fuel m' swaps) := by
  intro fuel
  induction fuel with
  | zero =>
    intro m m' swaps _
    exact .none
  | succ fuel ih =>
    intro m m' swaps h
    have hturn := h.swapOnce o o' pool swaps.length swaps.length
    unfold ValidatorSet.swapLoop
    cases hs : ValidatorSet.swapOnce o swaps.length m pool with
    | none =>
      cases hs' : ValidatorSet.swapOnce o' swaps.length m' pool with
      | none => exact .some ⟨h, rfl⟩
      | some r' =>
        rw [hs, hs'] at hturn
        cases hturn
    | some r =>
      cases hs' : ValidatorSet.swapOnce o' swaps.length m' pool with
      | none =>
        rw [hs, hs'] at hturn
        cases hturn
      | some r' =>
        rw [hs, hs'] at hturn
        cases hturn with
        | some hsame =>
          dsimp only
          rw [hsame.2]
          exact ih _ hsame.1

theorem SameBindings.foldl_promote : ∀ (l : List RankedValidator) {m m' : Validators},
    SameBindings m m' →
    SameBindings (l.foldl (fun m r => ValidatorSet.setStatus .active r.pubkey m) m)
      (l.foldl (fun m r => ValidatorSet.setStatus .active r.pubkey m) m') := by
  intro l
  induction l with
  | nil =>
    intro m m' h
    exact h
  | cons r l ih =>
    intro m m' h
    exact ih (h.setStatus _ _)

theorem SameBindings.fillSlots (h : SameBindings m m') (turn turn' cap : Nat) :
    SameBindings (fillSlots o turn m pool cap) (fillSlots o' turn' m' pool cap) := by
  unfold ValidatorSet.fillSlots
  dsimp only
  rw [h.activeCount, h.ranked o o' pool turn turn' .standby]
  split
  · exact foldl_promote _ h
  · exact h

theorem SameBindings.rotate (h : SameBindings m m') (cap : Nat) :
    SameResult (rotate o m pool cap) (rotate o' m' pool cap) := by
  unfold ValidatorSet.rotate
  dsimp only
  rw [HashMap.total_congr (slack pool) h]
  have hloop := swapLoop o o' pool (HashMap.total (slack pool) m' + 1) [] h
  generalize ValidatorSet.swapLoop o pool _ m [] = r at hloop ⊢
  generalize ValidatorSet.swapLoop o' pool _ m' [] = r' at hloop ⊢
  cases hloop with
  | none => exact .none
  | some hsame =>
    dsimp only
    rw [hsame.2]
    exact .some ⟨hsame.1.fillSlots o o' pool _ _ _, rfl⟩

/-- **All nodes rotate identically.** Two maps with the same bindings, stored under their own keys,
are rotated in any orders, another one in every turn of the loop: both rotations return, with the
same swaps and the same status for every validator. -/
theorem rotation_order_free (hk : Keyed m) (h : ∀ k, m.lookup k = m'.lookup k) (cap : Nat) :
    ∃ r r' swaps, rotate o m pool cap = some (r, swaps) ∧
      rotate o' m' pool cap = some (r', swaps) ∧ ∀ k, r.lookup k = r'.lookup k := by
  have hsame := SameBindings.rotate o o' pool h cap
  obtain ⟨r, swaps, hr, -⟩ := rotate_rotated o hk pool cap
  rw [hr] at hsame
  generalize hr' : rotate o' m' pool cap = x at hsame
  cases hsame with
  | some hres =>
    obtain ⟨hbind, hswaps⟩ := hres
    dsimp only at hswaps
    exact ⟨r, _, swaps, hr, by rw [hswaps], hbind⟩

/-- Every map backwards. -/
def RotationOrder.reversed : RotationOrder where
  validators _ := ⟨List.reverse, List.reverse_perm⟩
  delegations := .stored

def validatorOf (b : UInt8) (status : ValidatorStatus) : ValidatorInfo :=
  ⟨Bytes.fill 32 b, 500, 0, status, 10000, 0⟩

/-- The weaker of two is Active. -/
def rivals : Validators :=
  AList.insert (Bytes.fill 32 2) (validatorOf 2 .standby)
    (AList.insert (Bytes.fill 32 1) (validatorOf 1 .active) ∅)

theorem keyed_rivals : Keyed rivals :=
  (keyed_empty.insert (validatorOf 1 .active)).insert (validatorOf 2 .standby)

theorem rotation_order_free_rivals :
    ∃ r r' swaps, rotate .stored rivals ValidatorSetManager.rivalPool 1 = some (r, swaps) ∧
      rotate .reversed rivals ValidatorSetManager.rivalPool 1 = some (r', swaps) ∧
      ∀ k, r.lookup k = r'.lookup k :=
  rotation_order_free _ _ _ keyed_rivals (fun _ => rfl) 1

end ValidatorSet

end Trv1Chain
