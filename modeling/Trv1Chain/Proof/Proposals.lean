import Trv1Chain.Proof.Chain
import Trv1Chain.Proof.StepVotes
import Trv1Chain.Validator.Offers

/-!
# One proposal a round, and for the valid block

Two properties of what a node proposes, read off the moments it is asked.

One proposal a round: the node is asked once for each round it enters, and once more for every
precommit timeout that does not end the round it is in. Those are the ones that repeat a proposal,
and the only ones, as long as the machine does not go back (`one_proposal_per_round`).

Proposing the valid block again: `propose_block` reads neither `valid_value` nor `valid_round`, so
a node that has them set when it is asked proposes over them (`reproposes_valid`).
-/

set_option autoImplicit false

namespace Trv1Chain

open Lib

namespace Node

variable {C : Crates}

/-! ## One proposal a round -/

/-- A height and a round as one number. -/
def slotOf (h : Height) (r : Round) : Nat := h.val.toNat * 2 ^ 32 + r.val.toNat

theorem slotOf_inj {h h' : Height} {r r' : Round} :
    slotOf h r = slotOf h' r' ↔ h = h' ∧ r = r' := by
  constructor
  · intro heq
    have hr := r.val.toNat_lt
    have hr' := r'.val.toNat_lt
    unfold slotOf at heq
    obtain ⟨h⟩ := h
    obtain ⟨h'⟩ := h'
    obtain ⟨r⟩ := r
    obtain ⟨r'⟩ := r'
    dsimp only at *
    exact ⟨congrArg Height.mk (UInt64.toNat_inj.mp (by omega)),
      congrArg Round.mk (UInt32.toNat_inj.mp (by omega))⟩
  · rintro ⟨rfl, rfl⟩
    rfl

def slot (n : Node C) : Nat := slotOf n.bft.height n.bft.round

def proposalSlot (a : Action) : Option Nat := a.proposal?.map fun p => slotOf p.height p.round

theorem filterMap_proposalSlot (acts : List Action) :
    acts.filterMap proposalSlot = (offers acts).map fun p => slotOf p.height p.round := by
  unfold offers proposalSlot
  rw [List.map_filterMap]

/-- How many of the actions propose for a height and a round. -/
def proposalsFor (h : Height) (r : Round) (acts : List Action) : Nat :=
  (offers acts).countP fun p => p.height = h ∧ p.round = r

theorem proposalsFor_eq_count (h : Height) (r : Round) (acts : List Action) :
    proposalsFor h r acts = (acts.filterMap proposalSlot).count (slotOf h r) := by
  unfold proposalsFor
  rw [filterMap_proposalSlot, List.count, List.countP_map]
  refine List.countP_congr ?_
  intro p _
  rw [decide_eq_true_iff, Function.comp_apply, beq_iff_eq, slotOf_inj]

/-- Events that do not take the machine back: an announced commit is for no height the machine
has left, and neither counter wraps. -/
def Forward (n : Node C) : NodeEvent → Prop
  | .network (.commitBlock h _) => n.bft.height.val ≤ h.val ∧ h.val.toNat + 1 < 2 ^ 64
  | .network (.castVote _) => n.bft.height.val.toNat + 1 < 2 ^ 64
  | .timeout te => n.bft.PrecommitEnds te → n.bft.round.val.toNat + 1 < 2 ^ 32
  | _ => True

/-- A precommit timeout that does not end the round, on the proposer of the round. -/
def Repeats (n : Node C) : NodeEvent → Prop
  | .timeout te => te.step = .precommit ∧ ¬ n.bft.PrecommitEnds te ∧ n.mayPropose = true
  | _ => False

instance (n : Node C) : ∀ e : NodeEvent, Decidable (n.Forward e)
  | .network (.commitBlock h _) => inferInstanceAs (Decidable
      (n.bft.height.val ≤ h.val ∧ h.val.toNat + 1 < 2 ^ 64))
  | .network (.castVote _) => inferInstanceAs (Decidable (n.bft.height.val.toNat + 1 < 2 ^ 64))
  | .timeout te => inferInstanceAs (Decidable
      (n.bft.PrecommitEnds te → n.bft.round.val.toNat + 1 < 2 ^ 32))
  | .network (.proposeBlock ..) => inferInstanceAs (Decidable True)
  | .network (.scheduleTimeout _) => inferInstanceAs (Decidable True)
  | .gossiped _ => inferInstanceAs (Decidable True)
  | .submitted _ => inferInstanceAs (Decidable True)
  | .toGossip _ => inferInstanceAs (Decidable True)

instance (n : Node C) : ∀ e : NodeEvent, Decidable (n.Repeats e)
  | .timeout te => inferInstanceAs (Decidable
      (te.step = .precommit ∧ ¬ n.bft.PrecommitEnds te ∧ n.mayPropose = true))
  | .network _ => inferInstanceAs (Decidable False)
  | .gossiped _ => inferInstanceAs (Decidable False)
  | .submitted _ => inferInstanceAs (Decidable False)
  | .toGossip _ => inferInstanceAs (Decidable False)

/-- Being asked to propose marks a later round, or repeats. -/
theorem Asked.later {n n₁ : Node C} {e : NodeEvent} (ha : Asked n e n₁) (hf : n.Forward e) :
    n.slot < n₁.slot ∨ n₁ = n ∧ (n.mayPropose = true → n.Repeats e) := by
  have hround := n.bft.round.val.toNat_lt
  have hnext : ∀ {h : Height}, n.bft.height.val ≤ h.val → h.val.toNat + 1 < 2 ^ 64 →
      ∀ {m : BftStateMachine C}, n₁.bft = (m.advanceHeight ⟨h.val + 1⟩).1 → n.slot < n₁.slot := by
    intro h hle hfits m hbft
    have hle : n.bft.height.val.toNat ≤ h.val.toNat := hle
    have hsucc : (h.val + 1).toNat = h.val.toNat + 1 := toNat_add_of_fits hfits
    unfold slot
    rw [hbft]
    show slotOf _ _ < slotOf ⟨h.val + 1⟩ ⟨0⟩
    unfold slotOf
    rw [hsucc]
    omega
  cases ha with
  | timeout te hp =>
    unfold BftStateMachine.roundAfter
    by_cases hends : n.bft.PrecommitEnds te
    · refine Or.inl ?_
      have hsucc : (n.bft.round.val + 1).toNat = n.bft.round.val.toNat + 1 := by
        rw [UInt32.toNat_add]
        exact Nat.mod_eq_of_lt (hf hends)
      rw [if_pos hends]
      show slotOf _ _ < slotOf n.bft.height ⟨n.bft.round.val + 1⟩
      unfold slotOf
      rw [hsucc]
      omega
    · rw [if_neg hends]
      exact Or.inr ⟨rfl, fun hmay => ⟨hp, hends, hmay⟩⟩
  | commit v hbft => exact Or.inl (hnext (UInt64.le_refl _) hf hbft)
  | announced hbft => exact Or.inl (hnext hf.1 hf.2 hbft)

theorem ask_slot (n : Node C) (env : Env) : (n.ask env).1.slot = n.slot := by
  obtain ⟨⟨hh, hr, -⟩, -⟩ := n.ask_keeps env
  unfold slot
  rw [hh, hr]

theorem ask_stamp (n : Node C) (env : Env) :
    (offers (n.ask env).2).map (fun p => slotOf p.height p.round) = [] ∨
      (offers (n.ask env).2).map (fun p => slotOf p.height p.round) = [n.slot] := by
  cases h : n.mayPropose with
  | false => rw [ask_refused h]; exact Or.inl rfl
  | true =>
    obtain ⟨p, block, hp, hh, hr, -, -⟩ := ask_granted h env
    rw [hp, List.map_singleton, hh, hr]
    exact Or.inr rfl

/-- The rounds a node proposes for only go up, unless a turn repeats. -/
theorem Does.ticks {n n' : Node C} {env : Env} {e : NodeEvent} {acts : List Action}
    (hd : Does n env e n' acts) (hf : n.Forward e) (hrep : ¬ n.Repeats e) :
    Run.Ticks slot proposalSlot n n' acts := by
  unfold Run.Ticks
  rw [filterMap_proposalSlot]
  rcases hd.asks with ⟨hno, ⟨hh, hr, -⟩, -, -⟩ | ⟨n₁, ha, rfl, hacts⟩
  · have hslot : n'.slot = n.slot := by
      unfold slot
      rw [hh, hr]
    rw [hslot, hno]
    exact ⟨le_rfl, Or.inl rfl⟩
  · rw [ask_slot, hacts]
    rcases ha.later hf with hlt | ⟨rfl, hmay⟩
    · exact ⟨le_of_lt hlt, (n₁.ask_stamp env).imp id fun h => ⟨h, hlt⟩⟩
    · have hnot : n₁.mayPropose = false := by
        cases h : n₁.mayPropose with
        | false => rfl
        | true => exact absurd (hmay h) hrep
      rw [ask_refused hnot]
      exact ⟨le_rfl, Or.inl rfl⟩

/-- The round the node is in has its proposal, if the node is its proposer. -/
def HasProposed (n : Node C) (acts : List Action) : Prop :=
  n.mayPropose = true → 0 < proposalsFor n.bft.height n.bft.round acts

theorem proposalsFor_append (h : Height) (r : Round) (acts acts' : List Action) :
    proposalsFor h r (acts ++ acts') = proposalsFor h r acts + proposalsFor h r acts' := by
  unfold proposalsFor
  rw [offers_append, List.countP_append]

/-- Whoever is asked and may propose does. -/
theorem ask_proposes (n : Node C) (env : Env) {acts : List Action}
    (hacts : offers acts = offers (n.ask env).2) : (n.ask env).1.HasProposed acts := by
  intro hmay
  obtain ⟨⟨hh, hr, -⟩, hsame, -, -⟩ := n.ask_keeps env
  rw [hsame] at hmay
  obtain ⟨p, block, hp, hph, hpr, -, -⟩ := ask_granted hmay env
  unfold proposalsFor
  rw [hacts, hp, hh, hr]
  simp [hph, hpr]

theorem Does.hasProposed {n n' : Node C} {env : Env} {e : NodeEvent} {acts past : List Action}
    (hd : Does n env e n' acts) (hn : n.HasProposed past) : n'.HasProposed (acts ++ past) := by
  intro hmay
  rw [proposalsFor_append]
  rcases hd.asks with ⟨-, ⟨hh, hr, -⟩, hsame, -⟩ | ⟨n₁, -, rfl, hacts⟩
  · rw [hh, hr]
    rw [hsame] at hmay
    exact Nat.lt_of_lt_of_le (hn hmay) (Nat.le_add_left _ _)
  · exact Nat.lt_of_lt_of_le (ask_proposes n₁ env hacts hmay) (Nat.le_add_right _ _)

theorem Does.repeats {n n' : Node C} {env : Env} {e : NodeEvent} {acts : List Action}
    (hd : Does n env e n' acts) (hrep : n.Repeats e) :
    0 < proposalsFor n.bft.height n.bft.round acts := by
  cases e with
  | timeout te =>
    obtain ⟨hp, hends, hmay⟩ := hrep
    rcases hd.asks with ⟨-, -, -, hte⟩ | ⟨n₁, ha, rfl, hacts⟩
    · exact absurd hp (hte te rfl)
    · cases ha with
      | timeout te _ =>
        unfold BftStateMachine.roundAfter at hacts
        rw [if_neg hends] at hacts
        obtain ⟨⟨hh, hr, -⟩, hsame, -, -⟩ := n.ask_keeps env
        have := ask_proposes n env hacts (hsame.trans hmay)
        rwa [hh, hr] at this
  | _ => exact hrep.elim

/-- Whatever round the node may propose in has had its proposal, after every turn. -/
theorem hasProposed_of_run {validators : List ValidatorId} {idx : Option Nat}
    {sk : Option (Bytes 32)} {db : StateDb} {fm : FeeMarket} {env : Env}
    {G : Node C → Env × NodeEvent → Prop} {hist : NodeHistory C} {n : Node C}
    (hr : NodeRun C G ((genesis C validators idx sk db fm).start env).1 hist n) :
    n.HasProposed (outputs hist ++ ((genesis C validators idx sk db fm).start env).2) := by
  obtain ⟨n₁, -, hstart, hoffers⟩ := start_asks (C := C) validators idx sk db fm env
  refine hr.invariant (I := fun past n => n.HasProposed
    (outputs past ++ ((genesis C validators idx sk db fm).start env).2)) ?_ ?_
  · rw [hstart, outputs_nil, List.nil_append]
    exact ask_proposes n₁ env hoffers
  · intro past n e n' out _ ih _ hs
    rw [outputs_cons, List.append_assoc]
    exact (handle_does hs).hasProposed ih

theorem Repeats.mayPropose {n : Node C} {e : NodeEvent} (h : n.Repeats e) :
    n.mayPropose = true := by
  cases e with
  | timeout te => exact h.2.2
  | _ => exact h.elim

/-- **One proposal a round.** In a run that does not go back, the start included, a node proposes
at most once for each height and round exactly when no precommit timeout fires on it that does not
end its round while it is the proposer. -/
theorem one_proposal_per_round {validators : List ValidatorId} {idx : Option Nat}
    {sk : Option (Bytes 32)} {db : StateDb} {fm : FeeMarket} {env : Env} {hist : NodeHistory C}
    {n : Node C}
    (hr : NodeRun C (fun n e => n.Forward e.2) ((genesis C validators idx sk db fm).start env).1
      hist n) :
    (∀ h r, proposalsFor h r
        (outputs hist ++ ((genesis C validators idx sk db fm).start env).2) ≤ 1) ↔
      ∀ τ ∈ hist, ¬ τ.before.Repeats τ.event.2 := by
  obtain ⟨n₁, -, hstart, hoffers⟩ := start_asks (C := C) validators idx sk db fm env
  constructor
  · intro hone τ hτ hrep
    obtain ⟨past, ⟨later, hlater⟩, hpast, -, hs⟩ := hr.of_mem hτ
    -- the round had its proposal when the timeout fired
    have hfirst := hasProposed_of_run hpast (Repeats.mayPropose hrep)
    have hagain := (handle_does hs).repeats hrep
    have hle := hone τ.before.bft.height τ.before.bft.round
    rw [← hlater] at hle
    rw [outputs_append, outputs_cons, List.append_assoc, List.append_assoc,
      proposalsFor_append, proposalsFor_append] at hle
    omega
  · intro hrep h r
    have hticks : ∀ {hist : NodeHistory C} {n e n' out}, NodeRun C
        (fun n e => n.Forward e.2 ∧ ¬ n.Repeats e.2)
        ((genesis C validators idx sk db fm).start env).1 hist n →
        n.Forward e.2 ∧ ¬ n.Repeats e.2 → n.handle e = some (n', out) →
        Run.Ticks slot proposalSlot n n' out :=
      fun _ hg hs => (handle_does hs).ticks hg.1 hg.2
    have hr' : NodeRun C (fun n e => n.Forward e.2 ∧ ¬ n.Repeats e.2)
        ((genesis C validators idx sk db fm).start env).1 hist n := by
      refine hr.restrict fun τ hτ => ?_
      obtain ⟨-, -, -, hf, -⟩ := hr.of_mem hτ
      exact ⟨hf, hrep τ hτ⟩
    have hsorted := (hr'.stamps_sorted hticks).1
    have hlater := hr'.stamps_later hticks
    rw [hstart, ask_slot] at hlater
    rw [proposalsFor_eq_count, List.filterMap_append]
    refine List.nodup_iff_count_le_one.mp ?_ _
    rw [List.nodup_append']
    refine ⟨hsorted.imp fun hgt => (ne_of_lt hgt).symm, ?_, ?_⟩
    · rw [filterMap_proposalSlot, hoffers]
      rcases n₁.ask_stamp env with h | h <;> rw [h] <;> simp
    · intro t ht ht'
      rw [filterMap_proposalSlot, hoffers] at ht'
      have hlt := hlater t ht
      rcases n₁.ask_stamp env with h | h
      · rw [h] at ht'; exact absurd ht' (by simp)
      · rw [h, List.mem_singleton] at ht'
        omega

/-- The second of four validators, at the start of height 0. -/
def quadLaunch : Node Crates.sample × List Action :=
  (genesis Crates.sample BftStateMachine.quadKeys (some 1) (some (Crates.sampleKey 2)) genesisDb
    ⟨FeeConfig.default, 1⟩).start storedOrder

def quadTimeout (step : TimeoutStep) : Env × NodeEvent :=
  (storedOrder, .timeout ⟨⟨0⟩, ⟨0⟩, step⟩)

/-- A vote of validator `b` in round 0. -/
def quadVote (t : VoteType) (x : Option BlockHash) (b : UInt8) : Env × NodeEvent :=
  (storedOrder, .network (.castVote (Vote.new Crates.sample t ⟨0⟩ ⟨0⟩ x (Crates.sampleKey b))))

/-- No proposal comes, the others precommit nil, and one of their votes comes twice. -/
def quadNilRound : List (Env × NodeEvent) :=
  [quadTimeout .propose, quadTimeout .prevote, quadVote .precommit none 1,
    quadVote .precommit none 3, quadVote .precommit none 4, quadVote .precommit none 4]

/-- The round ends, and the node proposes for the next. -/
theorem one_proposal_per_round_next :
    ∃ hist n, NodeRun Crates.sample (fun n e => n.Forward e.2) quadLaunch.1 hist n ∧
      proposalsFor ⟨0⟩ ⟨1⟩ (outputs hist ++ quadLaunch.2) = 1 ∧
      ∀ h r, proposalsFor h r (outputs hist ++ quadLaunch.2) ≤ 1 := by
  obtain ⟨hist, n, hr, hone, hfresh⟩ : ∃ hist n,
      NodeRun Crates.sample (fun n e => n.Forward e.2) quadLaunch.1 hist n ∧
        proposalsFor ⟨0⟩ ⟨1⟩ (outputs hist ++ quadLaunch.2) = 1 ∧
        ∀ τ ∈ hist, ¬ τ.before.Repeats τ.event.2 :=
    Run.exists_of_replay (quadNilRound ++ [quadTimeout .precommit]) (by decide +kernel)
  exact ⟨hist, n, hr, hone, (one_proposal_per_round hr).mpr hfresh⟩

/-- The timeouts that fired in a run. -/
def fired (hist : NodeHistory C) : List TimeoutEvent :=
  hist.filterMap fun τ => τ.event.2.timeout?

/-- Whatever has fired had been scheduled before, as often as it fired. -/
def TimersKept (first : List Action) (hist : NodeHistory C) : Prop :=
  ∀ past ∈ hist.tails, ∀ te ∈ fired past,
    (fired past).count te ≤ ((outputs past.tail ++ first).filterMap Action.timer?).count te

instance (first : List Action) (hist : NodeHistory C) : Decidable (TimersKept first hist) :=
  inferInstanceAs (Decidable (∀ past ∈ hist.tails, ∀ te ∈ fired past, _))

/-- **A proposal repeated.** The vote that came twice has scheduled two timeouts for the end of
round 0. The first ends it, the second asks the proposer of round 1 again. -/
theorem proposal_repeated :
    ∃ hist n, NodeRun Crates.sample (fun n e => n.Forward e.2) quadLaunch.1 hist n ∧
      TimersKept quadLaunch.2 hist ∧
      proposalsFor ⟨0⟩ ⟨1⟩ (outputs hist ++ quadLaunch.2) = 2 := by
  exact Run.exists_of_replay
    (quadNilRound ++ [quadTimeout .precommit, quadTimeout .precommit]) (by decide +kernel)

/-! ## Proposing the valid block again -/

/-- What a proposal of a machine should be: for its valid value and with its valid round, when it
has them. -/
def Reproposes (m : BftStateMachine C) (p : Proposal) : Prop :=
  match m.validValue, m.validRound with
  | some v, some r => p.blockHash = v ∧ p.validRound = some r
  | _, _ => p.validRound = none

/-- A precommit timeout that asks a proposer whose machine holds a block valid. -/
def ProposesOver (n : Node C) : NodeEvent → Prop
  | .timeout te => te.step = .precommit ∧ (n.withBft (n.bft.roundAfter te)).mayPropose = true ∧
      n.bft.validValue.isSome = true ∧ n.bft.validRound.isSome = true
  | _ => False

instance (n : Node C) : ∀ e : NodeEvent, Decidable (n.ProposesOver e)
  | .timeout te => inferInstanceAs (Decidable
      (te.step = .precommit ∧ (n.withBft (n.bft.roundAfter te)).mayPropose = true ∧
        n.bft.validValue.isSome = true ∧ n.bft.validRound.isSome = true))
  | .network _ => inferInstanceAs (Decidable False)
  | .gossiped _ => inferInstanceAs (Decidable False)
  | .submitted _ => inferInstanceAs (Decidable False)
  | .toGossip _ => inferInstanceAs (Decidable False)

/-- Whoever is asked proposes a new block, whatever it holds valid. -/
theorem ask_reproposes (n : Node C) (env : Env) :
    (∀ p ∈ offers (n.ask env).2, Reproposes (n.ask env).1.bft p) ↔
      ¬ (n.mayPropose = true ∧ n.bft.validValue.isSome = true ∧
        n.bft.validRound.isSome = true) := by
  obtain ⟨-, -, hv, hvr⟩ := n.ask_keeps env
  unfold Reproposes
  rw [hv, hvr]
  cases h : n.mayPropose with
  | false => simp [ask_refused h]
  | true =>
    obtain ⟨p, block, hp, -, -, hnone, -⟩ := ask_granted h env
    rw [hp, List.forall_mem_singleton]
    cases n.bft.validValue with
    | none => simp [hnone]
    | some v => cases n.bft.validRound <;> simp [hnone]

theorem Does.reproposes {n n' : Node C} {env : Env} {e : NodeEvent} {acts : List Action}
    (hd : Does n env e n' acts) :
    (∀ p ∈ offers acts, Reproposes n'.bft p) ↔ ¬ n.ProposesOver e := by
  rcases hd.asks with ⟨hno, -, -, hte⟩ | ⟨n₁, ha, rfl, hacts⟩
  · -- nothing is proposed, and no precommit timeout fired
    rw [hno]
    refine iff_of_true (by simp) ?_
    intro hover
    cases e with
    | timeout te => exact hte te rfl hover.1
    | _ => exact hover
  · rw [hacts, ask_reproposes]
    refine not_congr ?_
    cases ha with
    | timeout te hp =>
      have hvalid : (n.bft.roundAfter te).validValue = n.bft.validValue ∧
          (n.bft.roundAfter te).validRound = n.bft.validRound := by
        unfold BftStateMachine.roundAfter
        split <;> exact ⟨rfl, rfl⟩
      rw [withBft_bft, hvalid.1, hvalid.2]
      exact (and_iff_right hp).symm
    | commit v hbft => exact iff_of_false (by simp [hbft]) id
    | announced hbft => exact iff_of_false (by simp [hbft]) id

/-- **The valid block is not proposed again.** Along every run each proposal, the first one
included, is for the valid value and carries the valid round of the machine that sends it (and no
valid round where there is none) exactly when it is not one a precommit timeout asks of a node
whose machine has both. The machine that sends is the one after the turn: its own proposal leaves
both fields alone. -/
theorem reproposes_valid {validators : List ValidatorId} {idx : Option Nat}
    {sk : Option (Bytes 32)} {db : StateDb} {fm : FeeMarket} {env : Env} {hist : NodeHistory C}
    {n : Node C}
    (hr : NodeRun C (fun _ _ => True) ((genesis C validators idx sk db fm).start env).1 hist n) :
    (∀ p ∈ offers ((genesis C validators idx sk db fm).start env).2,
        Reproposes ((genesis C validators idx sk db fm).start env).1.bft p) ∧
      ∀ τ ∈ hist, (∀ p ∈ offers τ.out, Reproposes τ.after.bft p) ↔
        ¬ τ.before.ProposesOver τ.event.2 := by
  constructor
  · obtain ⟨n₁, hv, hstart, hoffers⟩ := start_asks (C := C) validators idx sk db fm env
    rw [hstart, hoffers, ask_reproposes, hv]
    simp
  · intro τ hτ
    obtain ⟨past, -, -, -, hs⟩ := hr.of_mem hτ
    exact (handle_does hs).reproposes

/-- A round with no valid block ends, and the next proposal says so. -/
theorem reproposes_valid_none :
    ∃ hist n, NodeRun Crates.sample (fun _ _ => True) quadLaunch.1 hist n ∧
      (offers (outputs hist)).map (fun p => (p.round, p.validRound)) = [(⟨1⟩, none)] ∧
      ∀ τ ∈ hist, ∀ p ∈ offers τ.out, Reproposes τ.after.bft p := by
  obtain ⟨hist, n, hr, hoffers, hover⟩ : ∃ hist n,
      NodeRun Crates.sample (fun _ _ => True) quadLaunch.1 hist n ∧
        (offers (outputs hist)).map (fun p => (p.round, p.validRound)) = [(⟨1⟩, none)] ∧
        ∀ τ ∈ hist, ¬ τ.before.ProposesOver τ.event.2 :=
    Run.exists_of_replay (quadNilRound ++ [quadTimeout .precommit]) (by decide +kernel)
  exact ⟨hist, n, hr, hoffers, fun τ hτ => ((reproposes_valid hr).2 τ hτ).mpr (hover τ hτ)⟩

/-- The others prevote a block and precommit nil. -/
def quadPolkaRound : List (Env × NodeEvent) :=
  [(storedOrder, .network (.proposeBlock ⟨⟨0⟩, ⟨0⟩, BftStateMachine.quadHash,
      ⟨Crates.sampleKey 1⟩, Bytes.fill 64 0, none⟩ none)),
    quadVote .prevote (some BftStateMachine.quadHash) 1,
    quadVote .prevote (some BftStateMachine.quadHash) 3,
    quadVote .prevote (some BftStateMachine.quadHash) 4,
    quadVote .precommit none 1, quadVote .precommit none 3, quadVote .precommit none 4,
    quadTimeout .precommit]

/-- **A polka is proposed over.** The node holds a block valid since round 0, and as proposer of
round 1 sends another, with no valid round. -/
theorem polka_proposed_over :
    ∃ hist n, NodeRun Crates.sample (fun _ _ => True) quadLaunch.1 hist n ∧
      TimersKept quadLaunch.2 hist ∧
      n.bft.validValue = some BftStateMachine.quadHash ∧ n.bft.validRound = some ⟨0⟩ ∧
      (offers (outputs hist)).map (fun p => (p.round, p.validRound)) = [(⟨1⟩, none)] ∧
      ∀ p ∈ offers (outputs hist), p.blockHash ≠ BftStateMachine.quadHash := by
  exact Run.exists_of_replay quadPolkaRound (by decide +kernel)

end Node

end Trv1Chain
