import Trv1Chain.Proof.Chain
import Trv1Chain.Proof.Lock

/-!
# What a node prevotes

A prevote leaves a node only on a proposal from the network. The machine then has checked the
height, the round, the proposer's name and, if a block came along, that the block has the proposed
hash. It has not looked into the block: the header's height, proposer and parent are the sender's,
and with no block at all the proposal is prevoted just the same.

`prevotes_held_iff` says exactly when a turn prevotes a block the node holds and that extends its
chain: when the proposal it prevotes brings such a block, or is for one already in the cache. The
parent to compare with is known to the loop and not to the machine, and it is the hash of the last
commit in every run (`linked_of_run`).
-/

set_option autoImplicit false

namespace Trv1Chain

open Lib

/-- The vote an action sends, if it sends one. -/
def Action.vote? : Action → Option Vote
  | .broadcast (.castVote v) => some v
  | _ => none

def NodeEvent.vote? : NodeEvent → Option Vote
  | .network (.castVote v) => some v
  | _ => none

/-- The votes among a list of actions. -/
def votesSent (acts : List Action) : List Vote := acts.filterMap Action.vote?

theorem mem_votesSent {acts : List Action} {v : Vote} :
    v ∈ votesSent acts ↔ .broadcast (.castVote v) ∈ acts := by
  unfold votesSent
  rw [List.mem_filterMap]
  constructor
  · rintro ⟨a, ha, hv⟩
    cases a with
    | broadcast msg =>
      cases msg with
      | castVote w => cases hv; exact ha
      | _ => cases hv
    | _ => cases hv
  · intro hmem
    exact ⟨_, hmem, rfl⟩

namespace BftStateMachine

variable {C : Crates}

theorem decidePrevote_eq {m : BftStateMachine C} {p : Proposal} {x : BlockHash}
    (h : m.decidePrevote p = some x) : x = p.blockHash := by
  unfold decidePrevote at h
  repeat' split at h
  all_goals cases h
  all_goals rfl

/-- The block a proposal stands for: the one that came with it, or else the one in the cache. -/
def blockOf (m : BftStateMachine C) (p : Proposal) : Option Block → Option Block
  | some b => some b
  | none => m.proposedBlocks.lookup p.blockHash

theorem lookup_recordProposal (m : BftStateMachine C) (p : Proposal) (block : Option Block) :
    ((m.cacheBlock p.blockHash block).recordProposal p).1.proposedBlocks.lookup p.blockHash =
      m.blockOf p block := by
  cases block with
  | none => rfl
  | some b => exact AList.lookup_insert _

end BftStateMachine

namespace Node

variable {C : Crates}

/-! ## The votes of a turn -/

theorem not_vote_of_proposes {n n' : Node C} {env : Env} {acts : List Action} {v : Vote}
    (h : Proposes n env n' acts) : .broadcast (.castVote v) ∉ acts := by
  cases h with
  | skip => simp
  | propose sk height round hk hp => simp [proposeBlock]

theorem not_vote_of_commit {n n' : Node C} {env : Env} {h : Height} {x : BlockHash}
    {acts : List Action} {v : Vote} (hc : n.commitAndAdvance env h x = some (n', acts)) :
    .broadcast (.castVote v) ∉ acts := by
  obtain ⟨n₁, txs, msgs, timers, -, hsent, -, rfl⟩ := commitAndAdvance_spec hc
  obtain ⟨rfl, rfl⟩ := Prod.mk.inj hsent
  have hprop := not_vote_of_proposes (v := v)
    (proposeIfProposer_proposes (n₁.advanced h) env ⟨h.val + 1⟩ ⟨0⟩)
  simp [hprop, BftStateMachine.advanceHeight, BftStateMachine.startRound, processBftOutput]

theorem vote_of_processOutput {n : Node C} {out : List ConsensusMessage} {v : Vote}
    (h : .broadcast (.castVote v) ∈ (n.processOutput out).1.map Action.broadcast) :
    ∃ t k, n.signingKey = some k ∧ .castVote t ∈ out ∧
      v = signVote C t.voteType t.height t.round t.blockHash k := by
  obtain ⟨msg, hmsg, heq⟩ := List.mem_map.mp h
  cases heq
  rcases processBftOutput_mem hmsg with ⟨-, hne⟩ | ⟨k, t, hk, hmem, heq⟩
  · exact absurd rfl (hne v)
  · cases heq
    exact ⟨t, k, hk, hmem, rfl⟩

/-- **A vote is sent only for one the machine cast** on the event of the turn, signed afresh. -/
theorem Does.vote_sent {n n' : Node C} {env : Env} {e : NodeEvent} {acts : List Action} {v : Vote}
    (hd : Does n env e n' acts) (hv : v ∈ votesSent acts) :
    ∃ be m' out t k, Calls env e be ∧ n.bft.handle be = some (m', out) ∧
      n.signingKey = some k ∧ .castVote t ∈ out ∧
      v = signVote C t.voteType t.height t.round t.blockHash k := by
  rw [mem_votesSent] at hv
  cases hd with
  | @answer _ be m' out hcall hte hs hno =>
    rcases List.mem_append.mp hv with hv | hv
    · exact absurd hv (by simp [processOutput])
    · obtain ⟨t, k, hk, ht, heq⟩ := vote_of_processOutput hv
      exact ⟨be, m', out, t, k, hcall, hs, hk, ht, heq⟩
  | @timeout te m' out hs hno =>
    rcases List.mem_append.mp hv with hv | hv
    · exact absurd hv (by simp [processOutput])
    rcases List.mem_append.mp hv with hv | hv
    · exact absurd hv (not_vote_of_proposes (offerAfter_proposes (n.withBft m') env te))
    · obtain ⟨t, k, hk, ht, heq⟩ := vote_of_processOutput hv
      exact ⟨_, m', out, t, k, .timeout te, hs, hk, ht, heq⟩
  | commit hcall hs hc => exact absurd hv (not_vote_of_commit hc)
  | announced hc => exact absurd hv (not_vote_of_commit hc)
  | pool e tx he => exact absurd hv (by simp)
  | gossip tx => exact absurd hv (by simp)
  | skip te => exact absurd hv (by simp)

theorem Does.prevote_sent {n n' : Node C} {env : Env} {e : NodeEvent} {acts : List Action}
    {v : Vote} (hd : Does n env e n' acts) (hv : v ∈ votesSent acts) (ht : v.voteType = .prevote) :
    ∃ p block, e = .network (.proposeBlock p block) ∧ n.signingKey.isSome = true ∧
      n.bft.Accepts p block ∧ v.height = n.bft.height ∧ v.round = n.bft.round ∧
      v.blockHash = n.bft.decidePrevote p := by
  obtain ⟨be, m', out, t, k, hcall, hs, hk, hmem, rfl⟩ := hd.vote_sent hv
  obtain ⟨p, block, rfl, ha, hh, hr, hb⟩ := (BftStateMachine.handle_moves hs).of_prevote hmem ht
  cases hcall
  exact ⟨p, block, rfl, by rw [hk]; rfl, ha, hh, hr, hb⟩

/-- An accepted proposal is prevoted by a node with a key. -/
theorem Does.accepted {n n' : Node C} {env : Env} {p : Proposal} {block : Option Block}
    {acts : List Action} (hd : Does n env (.network (.proposeBlock p block)) n' acts)
    (ha : n.bft.Accepts p block) :
    n' = n.withBft ((n.bft.cacheBlock p.blockHash block).recordProposal p).1 ∧
      ∀ k, n.signingKey = some k →
        signVote C .prevote n.bft.height n.bft.round (n.bft.decidePrevote p) k ∈
          votesSent acts := by
  have hacc := BftStateMachine.handle_accepted ha
  cases hd with
  | @answer _ be m' out hcall hte hs hno =>
    cases hcall
    rw [hacc] at hs
    obtain ⟨rfl, rfl⟩ := Prod.mk.inj (Option.some.inj hs)
    refine ⟨rfl, ?_⟩
    intro k hk
    rw [mem_votesSent]
    apply List.mem_append_right
    simp [processOutput, processBftOutput, hk]
  | @commit _ be m' h x _ _ hcall hs hc =>
    cases hcall
    rw [hacc] at hs
    cases hs
  | pool e tx he => rcases he with he | he <;> cases he

/-! ## The last commit -/

/-- The header builds on the last commit: it is for the next height and names the committed hash
as its parent; before any commit, height 0 and the zero hash. -/
def ExtendsLast (committed : List (Height × BlockHash × List Transaction)) (header : BlockHeader) :
    Prop :=
  match committed.getLast? with
  | none => header.height = ⟨0⟩ ∧ header.parentHash = BlockHash.default
  | some (h, x, _) => header.height = ⟨h.val + 1⟩ ∧ header.parentHash = x

/-- The node is at the height after its last commit and remembers its hash. -/
def Linked (committed : List (Height × BlockHash × List Transaction)) (n : Node C) : Prop :=
  match committed.getLast? with
  | none => n.bft.height = ⟨0⟩ ∧ n.lastBlockHash = BlockHash.default
  | some (h, x, _) => n.bft.height = ⟨h.val + 1⟩ ∧ n.lastBlockHash = x

theorem Linked.extendsLast_iff {committed : List (Height × BlockHash × List Transaction)}
    {n : Node C} (h : Linked committed n) (header : BlockHeader) :
    ExtendsLast committed header ↔
      header.height = n.bft.height ∧ header.parentHash = n.lastBlockHash := by
  unfold Linked at h
  unfold ExtendsLast
  cases hl : committed.getLast? with
  | none =>
    rw [hl] at h
    rw [h.1, h.2]
  | some c =>
    rw [hl] at h
    rw [h.1, h.2]

theorem Proposes.lastBlockHash {n n' : Node C} {env : Env} {acts : List Action}
    (h : Proposes n env n' acts) : n'.lastBlockHash = n.lastBlockHash := by
  cases h with
  | skip => rfl
  | propose sk height round _ _ => rfl

theorem Commits.lastBlockHash {n n' : Node C} {env : Env} {h : Height} {x : BlockHash}
    {acts : List Action} (hc : Commits n env h x n' acts) : n'.lastBlockHash = x := by
  cases hc with
  | mk n₁ _ txs proposed rest ha hp _ =>
    rw [hp.lastBlockHash]
    exact (applyCommit_spec ha).2.2.2.2.2

theorem Commits.linked {n n' : Node C} {env : Env} {h : Height} {x : BlockHash}
    {acts : List Action} (hc : Commits n env h x n' acts)
    (committed : List (Height × BlockHash × List Transaction)) :
    Linked (committed ++ acts.filterMap Action.commit?) n' := by
  obtain ⟨txs, hout, -⟩ := hc.stateDb
  unfold Linked
  rw [hout, List.getLast?_concat]
  exact ⟨hc.height, hc.lastBlockHash⟩

theorem Moves.linked {n n' : Node C} {env : Env} {e : NodeEvent} {acts : List Action}
    {committed : List (Height × BlockHash × List Transaction)} (hm : Moves n env e n' acts)
    (h : Linked committed n) : Linked (committed ++ acts.filterMap Action.commit?) n' := by
  cases hm with
  | call hcall hs _ hp hq =>
    rw [Action.commit?_of_quiet hq, List.append_nil]
    unfold Linked
    rw [hp.height, hp.lastBlockHash, withBft_bft, hcall.height hs]
    exact h
  | commit hcall hs hc => exact hc.linked committed
  | announced hc => exact hc.linked committed
  | pool e tx _ => rwa [List.filterMap_nil, List.append_nil]
  | idle e hq => rwa [Action.commit?_of_quiet hq, List.append_nil]

theorem linked_of_run {G : Node C → Env × NodeEvent → Prop} {validators : List ValidatorId}
    {idx : Option Nat} {sk : Option (Bytes 32)} {db : StateDb} {fm : FeeMarket} {env : Env}
    {hist : NodeHistory C} {n : Node C}
    (hr : NodeRun C G ((genesis C validators idx sk db fm).start env).1 hist n) :
    Linked (commits hist) n := by
  refine hr.invariant (I := fun hist n => Linked (commits hist) n) ?_ ?_
  · have hprop := proposeIfProposer_proposes ((genesis C validators idx sk db fm).withBft
      ((genesis C validators idx sk db fm).bft.startRound ⟨0⟩).1) env ⟨0⟩ ⟨0⟩
    exact ⟨hprop.height, hprop.lastBlockHash⟩
  · intro hist n e n' acts _ ih _ hs
    rw [commits_cons]
    exact (handle_moves hs).linked ih

/-! ## Held blocks -/

/-- A prevote for a hash is for a block in the node's cache, whose header has the vote's height,
names the proposer designated for the vote's round, and extends the node's chain. -/
def PrevoteHeld (n : Node C) (committed : List (Height × BlockHash × List Transaction))
    (v : Vote) : Prop :=
  v.voteType = .prevote → ∀ x, v.blockHash = some x →
    ∃ b, n.bft.proposedBlocks.lookup x = some b ∧ b.header.height = v.height ∧
      n.bft.validators[n.bft.proposerIndex v.height v.round]? = some b.header.proposer ∧
      ExtendsLast committed b.header

/-- The block a proposal stands for has the machine's height, the proposer's name and the node's
last hash in its header. -/
def Extending (n : Node C) (p : Proposal) (block : Option Block) : Prop :=
  ∃ b ∈ n.bft.blockOf p block, b.header.height = n.bft.height ∧
    b.header.proposer = p.proposer ∧ b.header.parentHash = n.lastBlockHash

instance (n : Node C) (p : Proposal) (block : Option Block) : Decidable (n.Extending p block) :=
  inferInstanceAs (Decidable (∃ b ∈ n.bft.blockOf p block, _))

/-- Whatever proposal the node would prevote is an extending one. -/
def OffersExtend (n : Node C) : NodeEvent → Prop
  | .network (.proposeBlock p block) => n.signingKey.isSome = true → n.bft.Accepts p block →
      (n.bft.decidePrevote p).isSome = true → n.Extending p block
  | _ => True

instance (n : Node C) : ∀ e : NodeEvent, Decidable (n.OffersExtend e)
  | .network (.proposeBlock p block) => inferInstanceAs (Decidable
      (n.signingKey.isSome = true → n.bft.Accepts p block →
        (n.bft.decidePrevote p).isSome = true → n.Extending p block))
  | .network (.castVote _) => inferInstanceAs (Decidable True)
  | .network (.commitBlock _ _) => inferInstanceAs (Decidable True)
  | .network (.scheduleTimeout _) => inferInstanceAs (Decidable True)
  | .timeout _ => inferInstanceAs (Decidable True)
  | .gossiped _ => inferInstanceAs (Decidable True)
  | .submitted _ => inferInstanceAs (Decidable True)
  | .toGossip _ => inferInstanceAs (Decidable True)

theorem prevoteHeld_iff {n : Node C} {p : Proposal} {block : Option Block}
    {committed : List (Height × BlockHash × List Transaction)} (hl : Linked committed n)
    (ha : n.bft.Accepts p block) {v : Vote} (ht : v.voteType = .prevote)
    (hh : v.height = n.bft.height) (hr : v.round = n.bft.round)
    (hb : v.blockHash = some p.blockHash) :
    PrevoteHeld (n.withBft ((n.bft.cacheBlock p.blockHash block).recordProposal p).1) committed v ↔
      n.Extending p block := by
  have hproposer : ((n.bft.cacheBlock p.blockHash block).recordProposal p).1.validators[
      ((n.bft.cacheBlock p.blockHash block).recordProposal p).1.proposerIndex v.height v.round]? =
      some p.proposer := by
    rw [hh, hr, ← ha.2.2.2.1]
    cases block <;> rfl
  unfold PrevoteHeld Extending
  rw [withBft_bft, hproposer, hb, hh]
  simp only [ht, forall_const, Option.some.injEq, forall_eq', hl.extendsLast_iff,
    BftStateMachine.lookup_recordProposal]
  refine exists_congr fun b => and_congr_right fun _ => and_congr_right fun hheight => ?_
  exact and_congr eq_comm (and_iff_right hheight)

/-- **When a turn prevotes only held, chain-extending blocks.** Exactly when the proposal it
prevotes is one. -/
theorem Does.prevotes_held_iff {n n' : Node C} {env : Env} {e : NodeEvent} {acts : List Action}
    {committed : List (Height × BlockHash × List Transaction)} (hd : Does n env e n' acts)
    (hl : Linked committed n) :
    (∀ v ∈ votesSent acts, PrevoteHeld n' committed v) ↔ n.OffersExtend e := by
  constructor
  · intro hheld
    cases e with
    | network msg =>
      cases msg with
      | proposeBlock p block =>
        intro hkey ha hdec
        obtain ⟨k, hk⟩ := Option.isSome_iff_exists.mp hkey
        obtain ⟨x, hx⟩ := Option.isSome_iff_exists.mp hdec
        obtain ⟨rfl, hsent⟩ := hd.accepted ha
        have hv := hheld _ (hsent k hk)
        refine (prevoteHeld_iff hl ha rfl rfl rfl ?_).mp hv
        rw [← BftStateMachine.decidePrevote_eq hx]
        exact hx
      | _ => trivial
    | _ => trivial
  · intro hext v hv ht x hx
    obtain ⟨p, block, rfl, hkey, ha, hh, hr, hb⟩ := hd.prevote_sent hv ht
    obtain ⟨rfl, -⟩ := hd.accepted ha
    rw [hb] at hx
    have hheld := (prevoteHeld_iff hl ha ht hh hr (by
      rw [hb, hx, BftStateMachine.decidePrevote_eq hx])).mpr (hext hkey ha (by rw [hx]; rfl))
    exact hheld ht x (hb.trans hx)

end Node

end Trv1Chain
