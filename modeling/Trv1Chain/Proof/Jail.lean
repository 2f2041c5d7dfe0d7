import Trv1Chain.Proof.ActiveSet
import Trv1Chain.Slashing.Economy

/-!
# Leaving jail

A Jailed validator is excluded from consensus and rotation, and `unjail` is the way back. Every
call of the registry keeps to that but one: `register_validator` asks only whether there is an
entry, so a key that is deregistered while it is Jailed registers again with a clean record. A run
keeps its Jailed keys out until `unjail` is called on them exactly if no key does so.
-/

set_option autoImplicit false

namespace Trv1Chain

open Lib Staking ValidatorSet

/-! ## The registry -/

namespace ValidatorSet.ValidatorSetManager

/-- The key is Active or on Standby. -/
def Free (vs : ValidatorSetManager) (k : PublicKey) : Prop :=
  ∃ v, vs.validators.lookup k = some v ∧ v.status ≠ .jailed

def Jailed (vs : ValidatorSetManager) (k : PublicKey) : Prop :=
  ∃ v, vs.validators.lookup k = some v ∧ v.status = .jailed

instance (vs : ValidatorSetManager) (k : PublicKey) : Decidable (vs.Jailed k) :=
  decidable_of_iff ((vs.validators.lookup k).map (·.status) = some .jailed)
    Option.map_eq_some_iff

theorem Jailed.not_free {vs : ValidatorSetManager} {k : PublicKey} (h : vs.Jailed k) :
    ¬ vs.Free k := by
  obtain ⟨v, hv, hj⟩ := h
  rintro ⟨w, hw, hfree⟩
  rw [hv] at hw
  cases hw
  exact hfree hj

/-- The call registers the key: it has no entry, and the stake is enough. -/
def Registers (vs : ValidatorSetManager) (k : PublicKey) : Call → Prop
  | .registerValidator k' stake _ _ =>
    k' = k ∧ vs.validators.lookup k = none ∧ vs.config.minStake ≤ stake
  | _ => False

/-- **What frees a key**: registering it, and `unjail`. -/
theorem Does.free {vs vs' : ValidatorSetManager} {c : Call} (hd : Does vs c vs') {k : PublicKey}
    (h : vs'.Free k) : vs.Free k ∨ vs.Registers k c ∨ c = .unjail k := by
  obtain ⟨v, hv, hfree⟩ := h
  cases hd with
  | refused => exact Or.inl ⟨v, hv, hfree⟩
  | @registered k' stake _ _ _ hnone hstake _ _ =>
    by_cases hk : k = k'
    · subst hk
      exact Or.inr (Or.inl ⟨rfl, hnone, hstake⟩)
    · have hv : (vs.validators.insert k' _).lookup k = some v := hv
      rw [AList.lookup_insert_ne hk] at hv
      exact Or.inl ⟨v, hv, hfree⟩
  | @deregistered k' _ _ =>
    have hv : (vs.validators.erase k').lookup k = some v := hv
    by_cases hk : k = k'
    · subst hk
      rw [AList.lookup_erase] at hv
      cases hv
    · rw [AList.lookup_erase_ne hk] at hv
      exact Or.inl ⟨v, hv, hfree⟩
  | updated k' newStake =>
    have hv : (HashMap.modify (fun v => { v with stake := newStake }) k' vs.validators).lookup k =
      some v := hv
    rw [HashMap.lookup_modify] at hv
    split at hv
    · rename_i heq
      subst heq
      obtain ⟨w, hw, rfl⟩ := Option.map_eq_some_iff.mp hv
      exact Or.inl ⟨w, hw, hfree⟩
    · exact Or.inl ⟨v, hv, hfree⟩
  | jailed k' =>
    have hv : (setStatus .jailed k' vs.validators).lookup k = some v := hv
    unfold setStatus at hv
    rw [HashMap.lookup_modify] at hv
    split at hv
    · obtain ⟨w, -, rfl⟩ := Option.map_eq_some_iff.mp hv
      exact absurd rfl hfree
    · exact Or.inl ⟨v, hv, hfree⟩
  | @unjailed k' _ _ _ =>
    have hv : (setStatus .standby k' vs.validators).lookup k = some v := hv
    unfold setStatus at hv
    rw [HashMap.lookup_modify] at hv
    split at hv
    · rename_i heq
      subst heq
      exact Or.inr (Or.inr rfl)
    · exact Or.inl ⟨v, hv, hfree⟩
  | rotated hrot => exact Or.inl (hrot.reranked.free hv hfree)

/-- A registered key is free. -/
theorem Registers.free {vs : ValidatorSetManager} {k : PublicKey} {c : Call}
    (h : vs.Registers k c) {vs' : ValidatorSetManager} {a : Answer}
    (hcall : vs.call c = some (vs', a)) : vs'.Free k := by
  cases c with
  | registerValidator k' stake commissionRate height =>
    obtain ⟨rfl, hnone, hstake⟩ := h
    have hvs : (vs.registerValidator k' stake commissionRate height).1 = vs' :=
      congrArg Prod.fst (Option.some.inj hcall)
    have hsome : ¬ (vs.validators.lookup k').isSome = true := by simp [hnone]
    rw [← hvs]
    unfold registerValidator
    rw [if_neg hsome, if_neg (UInt64.not_lt.mpr hstake)]
    refine ⟨_, AList.lookup_insert _, ?_⟩
    dsimp only
    split
    · simp
    · simp
  | deregisterValidator k' => exact h.elim
  | updateStake k' newStake => exact h.elim
  | jail k' => exact h.elim
  | unjail k' => exact h.elim
  | epochRotation o pool => exact h.elim

end ValidatorSet.ValidatorSetManager

/-! ## With slashing -/

namespace Slashing

/-- A slash is a stake update and a jailing. -/
theorem Slashes.does {C : Crates} {s s' : Economy} {e : EvidenceRecord}
    {event : Option SlashEvent} (h : Slashes C s e s' event) :
    s'.validatorSet = s.validatorSet ∨ ∃ stake vs,
      s.validatorSet.Does (.updateStake e.offender stake) vs ∧
        vs.Does (.jail e.offender) s'.validatorSet := by
  cases h with
  | unknown _ => exact Or.inl rfl
  | nothing _ _ => exact Or.inl rfl
  | slashed _ _ _ => exact Or.inr ⟨_, _, .updated _ _, .jailed _⟩

theorem slash_frees_none (C : Crates) {s : Economy} (hwf : s.validatorSet.WellFormed) (c : Call) :
    (s.slash C c).1.validatorSet.WellFormed ∧
      ∀ k, (s.slash C c).1.validatorSet.Free k → s.validatorSet.Free k := by
  refine @Economy.slash_invariant C (fun s' _ => s'.validatorSet.WellFormed ∧
    ∀ k, s'.validatorSet.Free k → s.validatorSet.Free k) ?_ (fun _ h => h) s []
    ⟨hwf, fun _ h => h⟩ c
  intro s₁ e s₂ event events h hs
  rcases hs.does with hsame | ⟨stake, vs, hupdate, hjail⟩
  · rw [hsame]
    exact h
  · have hwf' := (hupdate.wellFormed h.1).1
    refine ⟨(hjail.wellFormed hwf').1, ?_⟩
    intro k hfree
    rcases hjail.free hfree with hfree | hreg | hunjail
    · rcases hupdate.free hfree with hfree | hreg | hunjail
      · exact h.2 k hfree
      · exact hreg.elim
      · cases hunjail
    · exact hreg.elim
    · cases hunjail

namespace Economy

/-- The call registers the key. -/
def Registers (s : Economy) (k : PublicKey) : Call → Prop
  | .registry c => s.validatorSet.Registers k c
  | _ => False

/-- **What a turn does to who is free.** -/
theorem step_free {C : Crates} {s s' : Economy} {c : Call} {out : List Answer}
    (hwf : s.validatorSet.WellFormed) (hs : step C s c = some (s', out)) :
    s'.validatorSet.WellFormed ∧ ∀ k, s'.validatorSet.Free k →
      s.validatorSet.Free k ∨ s.Registers k c ∨ c = .registry (.unjail k) := by
  cases c with
  | staking c =>
    cases hs
    exact ⟨hwf, fun k h => Or.inl h⟩
  | registry c =>
    obtain ⟨⟨vs, a⟩, hcall, hr⟩ := Option.map_eq_some_iff.mp hs
    cases hr
    obtain ⟨vs', a', hcall', hdoes⟩ := ValidatorSetManager.call_does hwf.keyed c
    rw [hcall] at hcall'
    cases hcall'
    refine ⟨(hdoes.wellFormed hwf).1, ?_⟩
    intro k hfree
    rcases hdoes.free hfree with hfree | hreg | rfl
    · exact Or.inl hfree
    · exact Or.inr (Or.inl hreg)
    · exact Or.inr (Or.inr rfl)
  | slashing c =>
    cases hs
    obtain ⟨hwf', hfree⟩ := slash_frees_none C hwf c
    exact ⟨hwf', fun k h => Or.inl (hfree k h)⟩

theorem Registers.free {C : Crates} {s s' : Economy} {k : PublicKey} {c : Call}
    {out : List Answer} (h : s.Registers k c) (hs : step C s c = some (s', out)) :
    s'.validatorSet.Free k := by
  cases c with
  | staking c => exact h.elim
  | registry c =>
    obtain ⟨⟨vs, a⟩, hcall, hr⟩ := Option.map_eq_some_iff.mp hs
    cases hr
    exact ValidatorSetManager.Registers.free h hcall
  | slashing c => exact h.elim

/-! ## A whole run -/

/-- The key has been Jailed in a state since the last call of `unjail` on it. -/
def Serving (k : PublicKey) : List (Turn Economy Call Answer) → Prop
  | [] => False
  | τ :: past =>
    τ.event ≠ .registry (.unjail k) ∧ (τ.after.validatorSet.Jailed k ∨ Serving k past)

theorem wellFormed_run {C : Crates} {G : Economy → Call → Prop} {engine : SlashingEngine}
    {config : ValidatorSetConfig} {pool : StakingPool} {hist : List (Turn Economy Call Answer)}
    {s : Economy} (hr : Run (step C) G ⟨engine, .withConfig config, pool⟩ hist s) :
    s.validatorSet.WellFormed := by
  apply hr.invariant (I := fun _ s => s.validatorSet.WellFormed)
  · exact ValidatorSetManager.wellFormed_withConfig config
  · intro hist s c s' out _ ih _ hs
    exact (step_free ih hs).1

/-- **Jail is left by `unjail` and by registering anew.** Consider any run of the registry's,
the staking pool's and the engine's calls on a new registry. No key that has been Jailed since the
last `unjail` on it is Active or on Standby, in any state of the run, exactly if no such key is
registered in the run. -/
theorem jail_kept_iff {C : Crates} {engine : SlashingEngine} {config : ValidatorSetConfig}
    {pool : StakingPool} {hist : List (Turn Economy Call Answer)} {s : Economy}
    (hr : Run (step C) (fun _ _ => True) ⟨engine, .withConfig config, pool⟩ hist s) :
    (∀ τ past k, τ :: past <:+ hist → Serving k (τ :: past) → ¬ τ.after.validatorSet.Free k) ↔
      ∀ τ past k, τ :: past <:+ hist → Serving k past → ¬ τ.before.Registers k τ.event := by
  constructor
  · intro hkept τ past k hsuf hserving hreg
    obtain ⟨-, -, hs⟩ := hr.of_suffix hsuf
    have hevent : τ.event ≠ .registry (.unjail k) := by
      intro heq
      rw [heq] at hreg
      exact hreg
    exact hkept τ past k hsuf ⟨hevent, Or.inr hserving⟩ (hreg.free hs)
  · intro hnone
    -- along the history: whoever is serving is not free
    have hall : ∀ {past}, past <:+ hist → ∀ τ past' k, past = τ :: past' → Serving k past →
        ¬ τ.after.validatorSet.Free k := by
      intro past
      induction past with
      | nil => intro _ τ past' k heq; cases heq
      | cons τ past ih =>
        intro hsuf τ' past' k heq hserving hfree
        cases heq
        obtain ⟨hpast, -, hs⟩ := hr.of_suffix hsuf
        obtain ⟨hevent, hjailed | hserving⟩ := hserving
        · exact hjailed.not_free hfree
        rcases (step_free (wellFormed_run hpast) hs).2 k hfree with hbefore | hreg | hunjail
        · cases past with
          | nil => exact hserving
          | cons τ₁ past₁ =>
            have hafter : τ₁.after = τ.before := by
              cases hpast
              rfl
            rw [← hafter] at hbefore
            exact ih ((List.suffix_cons τ _).trans hsuf) τ₁ past₁ k rfl hserving hbefore
        · exact hnone τ past k hsuf hserving hreg
        · exact hevent hunjail
    intro τ past k hsuf hserving
    exact hall hsuf τ past k rfl hserving

/-- One validator, registered and jailed. -/
def jailCalls : List Call :=
  [.registry (.registerValidator (Bytes.fill 32 1) 500 0 0), .registry (.jail (Bytes.fill 32 1))]

def registryEconomy : Economy := ⟨.withConfig .default, .withConfig ⟨1, 100, 100⟩, .new⟩

/-- A rotation with a free place, `unjail`, and another rotation. -/
def unjailCalls : List Call :=
  jailCalls ++ [.registry (.epochRotation .stored .new), .registry (.unjail (Bytes.fill 32 1)),
    .registry (.epochRotation .stored .new)]

/-- Whether a history goes on after a registration. -/
def registersLater : List (Turn Economy Call Answer) → Bool
  | ⟨_, .registry (.registerValidator _ _ _ _), _, _⟩ :: past => !past.isEmpty
  | _ => false

theorem jail_kept_unjailed :
    ∃ hist s, Run (step Crates.sample) (fun _ _ => True) registryEconomy hist s ∧
      s.validatorSet.isActive (Bytes.fill 32 1) = true ∧
      ∀ τ past k, τ :: past <:+ hist → Serving k (τ :: past) →
        ¬ τ.after.validatorSet.Free k := by
  -- the only registration is the first call
  obtain ⟨hist, s, hr, hactive, hfirst⟩ : ∃ hist s,
      Run (step Crates.sample) (fun _ _ => True) registryEconomy hist s ∧
        s.validatorSet.isActive (Bytes.fill 32 1) = true ∧
        ∀ l ∈ hist.tails, registersLater l = false :=
    Run.exists_of_replay unjailCalls (by decide +kernel)
  refine ⟨hist, s, hr, hactive, (jail_kept_iff hr).mpr ?_⟩
  intro τ past k hsuf hserving hreg
  have hlater := hfirst _ ((List.mem_tails _ _).mpr hsuf)
  obtain ⟨before, event, after, out⟩ := τ
  cases event with
  | staking c => exact hreg
  | slashing c => exact hreg
  | registry c =>
    cases c with
    | registerValidator k' stake commissionRate height =>
      cases past with
      | nil => exact hserving
      | cons τ₁ past₁ => cases hlater
    | deregisterValidator k' => exact hreg
    | updateStake k' newStake => exact hreg
    | jail k' => exact hreg
    | unjail k' => exact hreg
    | epochRotation o pool => exact hreg

/-- Out, and in again. -/
def escapeCalls : List Call :=
  jailCalls ++ [.registry (.deregisterValidator (Bytes.fill 32 1)),
    .registry (.registerValidator (Bytes.fill 32 1) 500 0 0)]

theorem escapeCalls_replay :
    (Run.replay (step Crates.sample) registryEconomy [] escapeCalls).isSome = true := by
  decide +kernel

/-- **A Jailed validator registers its way out.** It is deregistered and registered again, and is
Active without a call of `unjail`. -/
theorem jail_escaped :
    ∃ hist s, Run (step Crates.sample) (fun _ _ => True) registryEconomy hist s ∧
      Serving (Bytes.fill 32 1) hist ∧ s.validatorSet.isActive (Bytes.fill 32 1) = true := by
  have hr := Run.of_replay_get (G := fun _ _ => True) escapeCalls_replay fun _ _ => trivial
  refine ⟨_, _, hr, ⟨?_, Or.inr ⟨?_, Or.inr ⟨?_, Or.inl ?_⟩⟩⟩, by decide +kernel⟩
  · intro h
    cases h
  · intro h
    cases h
  · intro h
    cases h
  · decide +kernel

end Economy

end Slashing

end Trv1Chain
