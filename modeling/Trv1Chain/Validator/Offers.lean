import Trv1Chain.Proof.CommitCertificate
import Trv1Chain.Validator.Machine

/-!
# What a node proposes

A node proposes in three places: at the start, after a commit, and after any timeout of the
precommit step. Each time it first asks whether it is the proposer of the round its machine is in,
and then builds a new block. A proposal is thus fixed by the node at the moment it is asked: `Asked`
lists the moments, `ask` is the answer, and `Does.asks` says that nothing else proposes.
-/

set_option autoImplicit false

namespace Trv1Chain

open Lib

/-- The proposal an action sends, if it sends one. -/
def Action.proposal? : Action → Option Proposal
  | .broadcast (.proposeBlock p _) => some p
  | _ => none

/-- The timer an action starts, if it starts one. -/
def Action.timer? : Action → Option TimeoutEvent
  | .schedule te _ => some te
  | _ => none

def NodeEvent.timeout? : NodeEvent → Option TimeoutEvent
  | .timeout te => some te
  | _ => none

/-- The proposals among a list of actions. -/
def offers (acts : List Action) : List Proposal := acts.filterMap Action.proposal?

@[simp] theorem offers_nil : offers [] = [] := rfl

@[simp] theorem offers_append (acts acts' : List Action) :
    offers (acts ++ acts') = offers acts ++ offers acts' := by
  simp [offers]

@[simp] theorem offers_applyCommit (h : Height) (x : BlockHash) (txs : List Transaction)
    (acts : List Action) : offers (.applyCommit h x txs :: acts) = offers acts := rfl

theorem offers_schedule (timers : List (TimeoutEvent × UInt64)) :
    offers (timers.map fun t => .schedule t.1 t.2) = [] := by
  simp [offers, List.filterMap_map, Action.proposal?, Function.comp_def]

theorem offers_broadcast {msgs : List ConsensusMessage} (h : ∀ p b, .proposeBlock p b ∉ msgs) :
    offers (msgs.map .broadcast) = [] := by
  unfold offers
  rw [List.filterMap_map, List.filterMap_eq_nil_iff]
  intro msg hmsg
  cases msg with
  | proposeBlock p b => exact absurd hmsg (h p b)
  | _ => rfl

namespace BftStateMachine

variable {C : Crates}

/-- The machine itself never proposes. -/
theorem Moves.no_proposeBlock {m m' : BftStateMachine C} {e : BftEvent}
    {out : List ConsensusMessage} (hm : Moves m e m' out) (p : Proposal) (b : Option Block) :
    .proposeBlock p b ∉ out := by
  cases hm with
  | prevote it v out _ _ _ ho => rcases ho with rfl | rfl <;> simp
  | precommit it v out _ _ _ ho => rcases ho with rfl | rfl <;> simp
  | startRound r => simp [BftStateMachine.startRound]
  | advance h => simp [advanceHeight, BftStateMachine.startRound]
  | accept p block _ => simp [recordProposal]
  | precommitTimeout _ => simp [BftStateMachine.startRound]
  | _ => simp [precommitFor]

/-- Same height, round and turn to propose. -/
def SameTurn (m m' : BftStateMachine C) : Prop :=
  m'.height = m.height ∧ m'.round = m.round ∧ m'.isProposer = m.isProposer

theorem SameTurn.refl (m : BftStateMachine C) : SameTurn m m := ⟨rfl, rfl, rfl⟩

/-- Only a new round or height changes whose turn it is. -/
theorem Moves.sameTurn {m m' : BftStateMachine C} {e : BftEvent} {out : List ConsensusMessage}
    (hm : Moves m e m' out) (hr : ∀ r, e ≠ .startRound r) (hh : ∀ h, e ≠ .advanceHeight h)
    (ht : ∀ te, e = .timeout te → te.step ≠ .precommit) : SameTurn m m' := by
  cases hm with
  | startRound r => exact absurd rfl (hr r)
  | advance h => exact absurd rfl (hh h)
  | accept p block _ => cases block <;> exact .refl m
  | precommitTimeout _ => exact absurd rfl (ht _ rfl)
  | _ => exact .refl m

/-- The timeout of the precommit step the machine is in. -/
def PrecommitEnds (m : BftStateMachine C) (te : TimeoutEvent) : Prop :=
  te = ⟨m.height, m.round, .precommit⟩ ∧ m.step = .precommit

instance (m : BftStateMachine C) (te : TimeoutEvent) : Decidable (m.PrecommitEnds te) :=
  inferInstanceAs (Decidable (_ ∧ _))

/-- The machine after a timeout of the precommit step. -/
def roundAfter (m : BftStateMachine C) (te : TimeoutEvent) : BftStateMachine C :=
  if m.PrecommitEnds te then (m.startRound ⟨m.round.val + 1⟩).1 else m

theorem onTimeout_precommit {te : TimeoutEvent} (hte : te.step = .precommit)
    (m : BftStateMachine C) :
    m.onTimeout te =
      some (if m.PrecommitEnds te then m.startRound ⟨m.round.val + 1⟩ else (m, [])) := by
  obtain ⟨h, r, s⟩ := te
  subst hte
  unfold onTimeout
  by_cases hcur : h = m.height ∧ r = m.round
  · obtain ⟨rfl, rfl⟩ := hcur
    rw [if_neg (by simp)]
    dsimp only
    by_cases hs : m.step = .precommit
    · rw [if_pos hs, if_pos ⟨rfl, hs⟩]
    · rw [if_neg hs, if_neg fun h => hs h.2]
  · have hstale : h ≠ m.height ∨ r ≠ m.round := by
      rw [not_and_or] at hcur
      exact hcur
    rw [if_pos hstale, if_neg]
    intro h
    obtain ⟨rfl, rfl, -⟩ := TimeoutEvent.mk.inj h.1
    exact hcur ⟨rfl, rfl⟩

theorem onTimeout_roundAfter {m m' : BftStateMachine C} {te : TimeoutEvent}
    {out : List ConsensusMessage} (hp : te.step = .precommit)
    (hs : m.onTimeout te = some (m', out)) : m' = m.roundAfter te := by
  rw [onTimeout_precommit hp] at hs
  have hfst : (if m.PrecommitEnds te then m.startRound ⟨m.round.val + 1⟩ else (m, [])).1 = m' :=
    congrArg Prod.fst (Option.some.inj hs)
  rw [← hfst]
  unfold roundAfter
  split <;> rfl

@[simp] theorem advanceHeight_validValue (m : BftStateMachine C) (h : Height) :
    (m.advanceHeight h).1.validValue = none := rfl

/-- The machine's own proposal changes neither whose turn it is nor what it holds valid. -/
theorem onProposal_keeps (m : BftStateMachine C) (p : Proposal) (block : Option Block) :
    SameTurn m (m.onProposal p block).1 ∧ (m.onProposal p block).1.validValue = m.validValue ∧
      (m.onProposal p block).1.validRound = m.validRound := by
  rw [onProposal_eq]
  split
  · cases block <;> exact ⟨.refl m, rfl, rfl⟩
  · exact ⟨.refl m, rfl, rfl⟩

end BftStateMachine

namespace Node

variable {C : Crates}

/-- The node has a key, and its machine is the proposer. -/
def mayPropose (n : Node C) : Bool := n.signingKey.isSome && n.bft.isProposer

theorem mayPropose_withBft {n : Node C} {m' : BftStateMachine C}
    (h : BftStateMachine.SameTurn n.bft m') : (n.withBft m').mayPropose = n.mayPropose := by
  unfold mayPropose
  rw [withBft_signingKey, withBft_bft, h.2.2]

/-- The node asked for a proposal for the round its machine is in. -/
def ask (n : Node C) (env : Env) : Node C × List Action :=
  n.proposeIfProposer env n.bft.height n.bft.round

theorem ask_refused {n : Node C} (h : n.mayPropose = false) (env : Env) : n.ask env = (n, []) := by
  unfold mayPropose at h
  unfold ask proposeIfProposer
  cases hk : n.signingKey with
  | none => rfl
  | some sk =>
    rw [hk] at h
    dsimp only
    rw [if_neg (by simpa using h)]

/-- A proposal for the machine's height and round, for a block built there and then. -/
theorem ask_granted {n : Node C} (h : n.mayPropose = true) (env : Env) :
    ∃ p block, offers (n.ask env).2 = [p] ∧ p.height = n.bft.height ∧ p.round = n.bft.round ∧
      p.validRound = none ∧ (n.ask env).1 = n.withBft (n.bft.onProposal p block).1 := by
  unfold mayPropose at h
  rw [Bool.and_eq_true] at h
  obtain ⟨sk, hk⟩ := Option.isSome_iff_exists.mp h.1
  unfold ask proposeIfProposer
  rw [hk]
  dsimp only
  rw [if_pos h.2]
  exact ⟨_, _, rfl, rfl, rfl, rfl, rfl⟩

/-- What being asked leaves as it is. -/
theorem ask_keeps (n : Node C) (env : Env) :
    BftStateMachine.SameTurn n.bft (n.ask env).1.bft ∧
      (n.ask env).1.mayPropose = n.mayPropose ∧
      (n.ask env).1.bft.validValue = n.bft.validValue ∧
      (n.ask env).1.bft.validRound = n.bft.validRound := by
  cases h : n.mayPropose with
  | false =>
    rw [ask_refused h]
    exact ⟨.refl _, h, rfl, rfl⟩
  | true =>
    obtain ⟨p, block, -, -, -, -, hn⟩ := ask_granted h env
    obtain ⟨hsame, hv, hvr⟩ := n.bft.onProposal_keeps p block
    rw [hn]
    exact ⟨hsame, (mayPropose_withBft hsame).trans h, hv, hvr⟩

theorem offers_processOutput {n : Node C} {out : List ConsensusMessage}
    (h : ∀ p b, .proposeBlock p b ∉ out) :
    offers (n.processOutput out).2 = [] ∧ offers ((n.processOutput out).1.map .broadcast) = [] := by
  refine ⟨offers_schedule _, offers_broadcast ?_⟩
  intro p b hmem
  rcases processBftOutput_mem hmem with ⟨hmem, -⟩ | ⟨sk, t, -, -, heq⟩
  · exact h p b hmem
  · cases heq

/-! ## When a node is asked -/

/-- The turns that ask the node for a proposal, and the node that is asked. -/
inductive Asked (n : Node C) : NodeEvent → Node C → Prop
  /-- A timeout of the precommit step, which need not end the round. -/
  | timeout (te : TimeoutEvent) : te.step = .precommit →
      Asked n (.timeout te) (n.withBft (n.bft.roundAfter te))
  /-- A commit of the machine, on a vote. -/
  | commit (v : Vote) {m' : BftStateMachine C} {n₁ : Node C} :
      n₁.bft = (m'.advanceHeight ⟨n.bft.height.val + 1⟩).1 → Asked n (.network (.castVote v)) n₁
  /-- A commit the network announced. -/
  | announced {h : Height} {x : BlockHash} {n₁ : Node C} :
      n₁.bft = (n.bft.advanceHeight ⟨h.val + 1⟩).1 → Asked n (.network (.commitBlock h x)) n₁

theorem commitAndAdvance_asks {n n' : Node C} {env : Env} {h : Height} {x : BlockHash}
    {acts : List Action} (hc : n.commitAndAdvance env h x = some (n', acts)) :
    ∃ n₁ : Node C, n₁.bft = (n.bft.advanceHeight ⟨h.val + 1⟩).1 ∧ n' = (n₁.ask env).1 ∧
      offers acts = offers (n₁.ask env).2 := by
  obtain ⟨n₁, txs, msgs, timers, ha, hsent, rfl, rfl⟩ := commitAndAdvance_spec hc
  have hquiet := offers_processOutput (n := n₁.advanced h)
    (BftStateMachine.Moves.advance (m := n₁.bft) ⟨h.val + 1⟩).no_proposeBlock
  rw [hsent] at hquiet
  refine ⟨n₁.advanced h, ?_, rfl, ?_⟩
  · unfold advanced
    rw [withBft_bft, (applyCommit_spec ha).2.2.2.1]
  · rw [offers_applyCommit, offers_append, offers_append, hquiet.1, hquiet.2, List.nil_append,
      List.append_nil]
    rfl

/-- **A turn either asks the node or proposes nothing.** -/
theorem Does.asks {n n' : Node C} {env : Env} {e : NodeEvent} {acts : List Action}
    (hd : Does n env e n' acts) :
    (offers acts = [] ∧ BftStateMachine.SameTurn n.bft n'.bft ∧ n'.mayPropose = n.mayPropose ∧
        ∀ te, e = .timeout te → te.step ≠ .precommit) ∨
      ∃ n₁, Asked n e n₁ ∧ n' = (n₁.ask env).1 ∧ offers acts = offers (n₁.ask env).2 := by
  cases hd with
  | @answer _ be m' out hcall hte hs hno =>
    have hm := BftStateMachine.handle_moves hs
    have hsame : BftStateMachine.SameTurn n.bft m' := by
      refine hm.sameTurn ?_ ?_ fun te heq => absurd heq (hte te)
      · intro r heq; subst heq; cases hcall
      · intro h heq; subst heq; cases hcall
    have hquiet := offers_processOutput (n := n.withBft m') hm.no_proposeBlock
    refine Or.inl ⟨?_, hsame, mayPropose_withBft hsame, ?_⟩
    · unfold sent
      rw [offers_append, hquiet.1, hquiet.2, List.nil_append]
    · rintro te rfl
      cases hcall
      exact absurd rfl (hte te)
  | @timeout te m' out hs hno =>
    have hm := BftStateMachine.handle_moves (e := .timeout te) hs
    have hquiet := offers_processOutput (n := n.withBft m') hm.no_proposeBlock
    unfold offerAfter
    by_cases hp : te.step = .precommit
    · refine Or.inr ⟨_, .timeout te hp, ?_⟩
      rw [← BftStateMachine.onTimeout_roundAfter hp hs, if_pos hp, offers_append, offers_append,
        hquiet.1, hquiet.2]
      simp only [List.nil_append, List.append_nil]
      exact ⟨rfl, rfl⟩
    · have hsame : BftStateMachine.SameTurn n.bft m' := by
        refine hm.sameTurn (by simp) (by simp) ?_
        intro te' heq
        cases heq
        exact hp
      rw [if_neg hp]
      refine Or.inl ⟨?_, hsame, mayPropose_withBft hsame, ?_⟩
      · rw [offers_append, offers_append, hquiet.1, hquiet.2]
        rfl
      · intro te' heq
        cases heq
        exact hp
  | @commit _ be m' h x _ _ hcall hs hc =>
    obtain ⟨n₁, hbft, hn, hacts⟩ := commitAndAdvance_asks hc
    -- the machine commits at its own height, and only on a precommit
    obtain ⟨rfl, ⟨it, v, rfl⟩, -⟩ :=
      (BftStateMachine.handle_moves hs).of_commitBlock List.mem_cons_self
    obtain ⟨rfl, -⟩ := hcall.vote rfl
    exact Or.inr ⟨n₁, .commit v hbft, hn, hacts⟩
  | announced hc =>
    obtain ⟨n₁, hbft, hn, hacts⟩ := commitAndAdvance_asks hc
    exact Or.inr ⟨n₁, .announced hbft, hn, hacts⟩
  | pool e tx he =>
    refine Or.inl ⟨rfl, .refl _, rfl, ?_⟩
    rintro te rfl
    rcases he with he | he <;> cases he
  | gossip tx => exact Or.inl ⟨rfl, .refl _, rfl, by simp⟩
  | skip te => exact Or.inl ⟨rfl, .refl _, rfl, by simp⟩

/-- The start of consensus asks the node too. -/
theorem start_asks (validators : List ValidatorId) (idx : Option Nat) (sk : Option (Bytes 32))
    (db : StateDb) (fm : FeeMarket) (env : Env) :
    ∃ n₁ : Node C, n₁.bft.validValue = none ∧
      ((genesis C validators idx sk db fm).start env).1 = (n₁.ask env).1 ∧
      offers ((genesis C validators idx sk db fm).start env).2 = offers (n₁.ask env).2 := by
  have hquiet := offers_processOutput
    (n := (genesis C validators idx sk db fm).withBft
      ((genesis C validators idx sk db fm).bft.startRound ⟨0⟩).1)
    (BftStateMachine.Moves.startRound (m := (genesis C validators idx sk db fm).bft)
      ⟨0⟩).no_proposeBlock
  refine ⟨(genesis C validators idx sk db fm).withBft
    ((genesis C validators idx sk db fm).bft.startRound ⟨0⟩).1, rfl, rfl, ?_⟩
  unfold start
  dsimp only
  rw [offers_append, offers_append, hquiet.1, hquiet.2, List.nil_append, List.append_nil]
  rfl

end Node

end Trv1Chain
