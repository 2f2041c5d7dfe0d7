import Trv1Chain.Proof.Opening
import Trv1Chain.Validator.Machine

/-!
# A node in the opening round

One turn of the event loop on each of the round's messages. A node is `Voting` until it commits and
is `Gone` after. A `Plan` says which nodes are to precommit and which may commit; `Answers` is all
that the cluster needs to know of a turn: whom it counts, what it sends, and what it commits.
-/

set_option autoImplicit false

namespace Trv1Chain

open Lib

variable {C : Crates} {n : Nat}

/-- The messages of the round, by who sends them. -/
inductive Packet (n : Nat) where
  | proposal
  | prevote (j : Fin n)
  | precommit (j : Fin n)

/-- A weight that outdoes whatever a packet can cause. -/
def Packet.weight : Packet n → Nat
  | .proposal => n * (n + 1) + 1
  | .prevote _ => n + 1
  | .precommit _ => 1

theorem Packet.weight_pos (pk : Packet n) : 0 < pk.weight := by
  cases pk with
  | proposal => exact Nat.succ_pos _
  | prevote j => exact Nat.succ_pos _
  | precommit j => exact Nat.one_pos

/-! ## What the loop makes of an answer -/

namespace Node

theorem afterBft_silent (nd : Node C) (env : Env) (m' : BftStateMachine C)
    {out : List ConsensusMessage} (h : Opening.Silent out) :
    ∃ acts, nd.afterBft env (m', out) = some (nd.withBft m', acts) ∧ sentMessages acts = [] ∧
      ∀ a ∈ acts, a.Quiet := by
  rcases h with rfl | ⟨te, rfl⟩
  · refine ⟨_, afterBft_quiet (by simp), rfl, ?_⟩
    intro a ha
    simp [processOutput, processBftOutput] at ha
  · refine ⟨_, afterBft_quiet (by simp), ?_, ?_⟩
    · rw [sentMessages_append]
      exact congrArg (· ++ _) (sentMessages_schedules _)
    · intro a ha
      rcases List.mem_append.mp ha with ha | ha
      · exact map_schedule_quiet _ a ha
      · exact map_broadcast_quiet _ a ha

theorem afterBft_vote {nd : Node C} {sk : Bytes 32} (hk : nd.signingKey = some sk) (env : Env)
    (m' : BftStateMachine C) (v : Vote) :
    ∃ acts, nd.afterBft env (m', [.castVote v]) = some (nd.withBft m', acts) ∧
      sentMessages acts =
        [.castVote (signVote C v.voteType v.height v.round v.blockHash sk)] ∧
      ∀ a ∈ acts, a.Quiet := by
  refine ⟨_, afterBft_quiet (by simp), ?_, ?_⟩
  · unfold processOutput
    rw [withBft_signingKey, hk]
    rfl
  · exact sent_quiet (nd.withBft m') _

theorem height_of_proposed (nd : Node C) (env : Env) (h : Height) (r : Round) :
    ∀ msg ∈ sentMessages (nd.proposeIfProposer env h r).2, msg.height = h := by
  unfold proposeIfProposer
  cases nd.signingKey with
  | none => simp [sentMessages]
  | some sk =>
    dsimp only
    split
    · intro msg hmsg
      rw [List.mem_singleton.mp (show msg ∈ [_] from hmsg)]
      rfl
    · simp [sentMessages]

/-- A node that commits moves on. It sends a proposal for the next height, if it is to. -/
theorem afterBft_moveOn {nd : Node C} (hl : nd.feeMarket.Live) (env : Env)
    (m' : BftStateMachine C) (h : Height) (x : BlockHash) :
    ∃ nd' acts txs, nd.afterBft env (m', [.commitBlock h x]) = some (nd', acts) ∧
      nd'.bft.height = ⟨h.val + 1⟩ ∧ .applyCommit h x txs ∈ acts ∧
      (∀ msg ∈ sentMessages acts, msg.height = ⟨h.val + 1⟩) ∧
      ((m'.advanceHeight ⟨h.val + 1⟩).1.isProposer = false → sentMessages acts = []) := by
  obtain ⟨n₁, txs, ha⟩ := applyCommit_live (n := nd.withBft m') hl env h x
    ((nd.withBft m').bft.getCommittedBlock x)
  obtain ⟨-, -, -, hbft, -⟩ := applyCommit_spec ha
  have hbft : n₁.bft = m' := hbft
  let n₂ := n₁.withBft (n₁.bft.advanceHeight ⟨h.val + 1⟩).1
  have hturn : nd.afterBft env (m', [.commitBlock h x]) =
      some ((n₂.proposeIfProposer env ⟨h.val + 1⟩ ⟨0⟩).1, .applyCommit h x txs ::
        ((n₂.processOutput (n₁.bft.advanceHeight ⟨h.val + 1⟩).2).2 ++
          ((n₂.proposeIfProposer env ⟨h.val + 1⟩ ⟨0⟩).2 ++
            (n₂.processOutput (n₁.bft.advanceHeight ⟨h.val + 1⟩).2).1.map .broadcast))) := by
    rw [afterBft_commit]
    unfold commitAndAdvance
    rw [ha]
  have hsent : ∀ acts : List Action, sentMessages (.applyCommit h x txs ::
      ((n₂.processOutput (n₁.bft.advanceHeight ⟨h.val + 1⟩).2).2 ++ (acts ++
        (n₂.processOutput (n₁.bft.advanceHeight ⟨h.val + 1⟩).2).1.map .broadcast))) =
      sentMessages acts := by
    intro acts
    show sentMessages ((n₂.processOutput (n₁.bft.advanceHeight ⟨h.val + 1⟩).2).2 ++
      (acts ++ [])) = _
    rw [List.append_nil, sentMessages_append]
    exact congrArg (· ++ _) (sentMessages_schedules _)
  refine ⟨_, _, txs, hturn, ?_, List.mem_cons_self, ?_, ?_⟩
  · exact (proposeIfProposer_proposes n₂ env _ _).height
  · rw [hsent]
    exact height_of_proposed n₂ env _ _
  · intro hno
    rw [hsent]
    have hno : n₂.bft.isProposer = false := by
      show (n₁.bft.advanceHeight ⟨h.val + 1⟩).1.isProposer = false
      rw [hbft, hno]
    unfold proposeIfProposer
    rw [hno]
    cases n₂.signingKey with
    | none => rfl
    | some sk => rfl

end Node

/-- Whether the packet is `i`'s own. -/
def Packet.From (i : Fin n) : Packet n → Prop
  | .proposal => False
  | .prevote j => j = i
  | .precommit j => j = i

/-- A round with the nodes that are to precommit, and those that may commit. -/
structure Plan (C : Crates) (n : Nat) extends Opening C n where
  precommitting : Finset (Fin n)
  leaving : Finset (Fin n)
  leader_precommitting : leader ∈ precommitting

namespace Plan

variable (S : Plan C n)

def msg : Packet n → ConsensusMessage
  | .proposal => .proposeBlock S.proposal (some S.block)
  | .prevote j => .castVote (S.ballot .prevote j)
  | .precommit j => .castVote (S.ballot .precommit j)

/-- The node has committed and is at the next height. -/
def Gone (nd : Node C) : Prop := nd.bft.height = ⟨S.height.val + 1⟩

structure Voting (i : Fin n) (nd : Node C) : Prop where
  machine : S.InRound S.precommitting i nd.bft
  key : nd.signingKey = some (S.keys i)
  live : nd.feeMarket.Live

def Settled (i : Fin n) (nd : Node C) : Prop := S.Gone nd ∧ i ∈ S.leaving ∨ S.Voting i nd

/-- The node no longer waits for the proposal. -/
def Past (nd : Node C) : Prop := S.Gone nd ∨ nd.bft.step ≠ .propose

/-- The node has precommitted, or is gone. -/
def Cast (nd : Node C) : Prop := S.Gone nd ∨ nd.bft.step = .precommit

/-- What the packet is for has been taken into account. -/
def Taken (nd : Node C) : Packet n → Prop
  | .proposal => nd.bft.step ≠ .propose
  | .prevote j => S.idOf j ∈ S.prevoters nd.bft
  | .precommit j => S.idOf j ∈ S.precommitters nd.bft

/-- What a turn of `i` on a packet does, as far as the cluster is concerned. -/
structure Answers (i : Fin n) (pk : Packet n) (nd nd' : Node C) (acts : List Action)
    (new : List (Packet n)) : Prop where
  settled : S.Settled i nd'
  gone : S.Gone nd → S.Gone nd'
  taken : S.Gone nd' ∨ ∀ q, S.Taken nd' q ↔ S.Taken nd q ∨ q = pk
  cast : S.Cast nd → S.Cast nd'
  voted : S.Past nd' → S.Past nd ∨ .prevote i ∈ new
  precommitted : i ∈ S.precommitting → S.Cast nd' → S.Cast nd ∨ .precommit i ∈ new
  left : i ∈ S.precommitting → S.Gone nd' → S.Cast nd
  lawful : ∀ q ∈ new, q = .prevote i ∧ i ≠ S.leader ∧ S.Past nd' ∨
    q = .precommit i ∧ i ∈ S.precommitting ∧ S.Cast nd'
  lighter : n * (new.map Packet.weight).sum < pk.weight
  sent : ∃ foreign, sentMessages acts = new.map S.msg ++ foreign ∧
    (∀ msg ∈ foreign, msg.height ≠ S.height) ∧ (foreign ≠ [] → S.next ∈ S.leaving)
  quiet : i ∉ S.leaving → ∀ a ∈ acts, a.Quiet
  committed : S.Gone nd' → S.Gone nd ∨
    ∃ txs, .applyCommit S.height S.proposal.blockHash txs ∈ acts

/-- The turn does not panic, and is such an answer. -/
def Takes (i : Fin n) (pk : Packet n) (nd : Node C) (env : Env) : Prop :=
  ∃ nd' acts new, nd.handle (env, .network (S.msg pk)) = some (nd', acts) ∧
    S.Answers i pk nd nd' acts new

variable {S}

theorem height_ne : (⟨S.height.val + 1⟩ : Height) ≠ S.height := by
  intro h
  have h := congrArg Height.val h
  simp at h

theorem Voting.not_gone {i : Fin n} {nd : Node C} (h : S.Voting i nd) : ¬ S.Gone nd := by
  intro hg
  exact height_ne (hg.symm.trans h.machine.height)

theorem Answers.past {i : Fin n} {pk : Packet n} {nd nd' : Node C} {acts : List Action}
    {new : List (Packet n)} (h : S.Answers i pk nd nd' acts new) (hp : S.Past nd) :
    S.Past nd' := by
  rcases hp with hg | hs
  · exact Or.inl (h.gone hg)
  · exact h.taken.imp_right fun ht => (ht .proposal).mpr (Or.inl hs)

/-! ## A gone node -/

/-- A gone node ignores the round's messages. -/
theorem takes_of_gone {i : Fin n} {nd : Node C} (hg : S.Gone nd) (hi : i ∈ S.leaving)
    (pk : Packet n) (env : Env) : S.Takes i pk nd env := by
  have hne : nd.bft.height ≠ S.height := by rw [hg]; exact height_ne
  have hturn : nd.handle (env, .network (S.msg pk)) = some (nd, []) := by
    cases pk with
    | proposal =>
      show nd.afterBft env (nd.bft.onProposal S.proposal (some S.block)) = _
      rw [Opening.onProposal_ignored (Or.inl hne)]
      exact Node.afterBft_quiet (by simp)
    | prevote j =>
      show nd.afterBft env (nd.bft.onPrevote env.counts (S.ballot .prevote j)) = _
      rw [(Opening.onVote_ignored hne j env.counts).1]
      exact Node.afterBft_quiet (by simp)
    | precommit j =>
      show nd.afterBft env (nd.bft.onPrecommit env.counts (S.ballot .precommit j)) = _
      rw [(Opening.onVote_ignored hne j env.counts).2]
      exact Node.afterBft_quiet (by simp)
  refine ⟨nd, [], [], hturn, ?_⟩
  constructor
  case settled => exact Or.inl ⟨hg, hi⟩
  case gone => intro _; exact hg
  case taken => exact Or.inl hg
  case cast => intro h; exact h
  case voted => intro h; exact Or.inl h
  case precommitted => intro _ h; exact Or.inl h
  case left => intro _ _; exact Or.inl hg
  case lawful => simp
  case lighter => simpa using pk.weight_pos
  case sent => exact ⟨[], rfl, by simp, by simp⟩
  case quiet => intro hno; exact absurd hi hno
  case committed => intro _; exact Or.inl hg

/-! ## A voting node -/

/-- A turn that sends nothing and leaves the step. -/
theorem Answers.of_silent {i : Fin n} {pk : Packet n} {nd nd' : Node C} {acts : List Action}
    (h : S.Voting i nd) (h' : S.Voting i nd') (hstep : nd'.bft.step = nd.bft.step)
    (htaken : ∀ q, S.Taken nd' q ↔ S.Taken nd q ∨ q = pk) (hsent : sentMessages acts = [])
    (hquiet : ∀ a ∈ acts, a.Quiet) : S.Answers i pk nd nd' acts [] where
  settled := Or.inr h'
  gone hg := absurd hg h.not_gone
  taken := Or.inr htaken
  cast := by
    rintro (hg | hs)
    · exact absurd hg h.not_gone
    · exact Or.inr (hstep.trans hs)
  voted := by
    rintro (hg | hs)
    · exact absurd hg h'.not_gone
    · exact Or.inl (Or.inr (hstep ▸ hs))
  precommitted := by
    rintro _ (hg | hs)
    · exact absurd hg h'.not_gone
    · exact Or.inl (Or.inr (hstep ▸ hs))
  left _ hg := absurd hg h'.not_gone
  lawful := by simp
  lighter := by simpa using pk.weight_pos
  sent := ⟨[], hsent, by simp, by simp⟩
  quiet _ := hquiet
  committed hg := absurd hg h'.not_gone

/-- A turn that sends the node's own vote, for the first time. -/
theorem Answers.of_vote {i : Fin n} {pk q : Packet n} {nd nd' : Node C} {acts : List Action}
    (h : S.Voting i nd) (h' : S.Voting i nd')
    (htaken : ∀ q, S.Taken nd' q ↔ S.Taken nd q ∨ q = pk)
    (hcast : nd.bft.step = .precommit → nd'.bft.step = .precommit)
    (hvoted : nd.bft.step ≠ .propose ∨ q = .prevote i)
    (hprecommitted : nd'.bft.step ≠ .precommit ∨ q = .precommit i)
    (hlawful : q = .prevote i ∧ i ≠ S.leader ∧ S.Past nd' ∨
      q = .precommit i ∧ i ∈ S.precommitting ∧ S.Cast nd')
    (hlighter : n * q.weight < pk.weight) (hsent : sentMessages acts = [S.msg q])
    (hquiet : ∀ a ∈ acts, a.Quiet) : S.Answers i pk nd nd' acts [q] where
  settled := Or.inr h'
  gone hg := absurd hg h.not_gone
  taken := Or.inr htaken
  cast := by
    rintro (hg | hs)
    · exact absurd hg h.not_gone
    · exact Or.inr (hcast hs)
  voted _ := hvoted.imp Or.inr fun heq => by rw [heq]; exact List.mem_cons_self
  precommitted := by
    rintro _ (hg | hs)
    · exact absurd hg h'.not_gone
    · right
      rw [hprecommitted.resolve_left fun hne => hne hs]
      exact List.mem_cons_self
  left _ hg := absurd hg h'.not_gone
  lawful := by
    intro q' hq'
    rw [List.mem_singleton.mp hq']
    exact hlawful
  lighter := by simpa using hlighter
  sent := ⟨[], by simpa using hsent, by simp, by simp⟩
  quiet _ := hquiet
  committed hg := absurd hg h'.not_gone

theorem takes_proposal {i : Fin n} {nd : Node C} (h : S.Voting i nd) (env : Env) :
    S.Takes i .proposal nd env := by
  unfold Takes
  show ∃ nd' acts new, nd.afterBft env (nd.bft.onProposal S.proposal (some S.block)) = _ ∧ _
  by_cases hs : nd.bft.step = .propose
  · obtain ⟨m', v, heq, ht, hvh, hvr, hvb, hin, hs', hpre, hcom⟩ := h.machine.onProposal hs
    obtain ⟨acts, hturn, hsent, hquiet⟩ := Node.afterBft_vote h.key env m' v
    have hstep : m'.step ≠ .propose := by rw [hs']; simp
    rw [heq]
    refine ⟨_, acts, [.prevote i], hturn, ?_⟩
    refine .of_vote h ⟨hin, h.key, h.live⟩ ?_ ?_ (Or.inr rfl) ?_
      (Or.inl ⟨rfl, (h.machine.waiting hs).2.1, Or.inr hstep⟩) ?_ ?_ hquiet
    · intro q
      cases q with
      | proposal => simp [Taken, hstep]
      | prevote j => simp [Taken, hpre]
      | precommit j => simp [Taken, hcom]
    · intro hp
      rw [hs] at hp
      cases hp
    · left
      rw [Node.withBft_bft, hs']
      simp
    · simp [Packet.weight]
    · rw [hsent, ht, hvh, hvr, hvb]
      rfl
  · rw [Opening.onProposal_ignored (Or.inr hs)]
    refine ⟨nd, [], [], Node.afterBft_quiet (by simp), ?_⟩
    refine .of_silent h h rfl ?_ rfl (by simp)
    intro q
    constructor
    · exact Or.inl
    · rintro (hq | rfl)
      · exact hq
      · exact hs

theorem taken_prevote {j : Fin n} {nd : Node C} {m' : BftStateMachine C}
    (hpre : S.prevoters m' = insert (S.idOf j) (S.prevoters nd.bft))
    (hcom : S.precommitters m' = S.precommitters nd.bft)
    (hstep : m'.step = .propose ↔ nd.bft.step = .propose) (q : Packet n) :
    S.Taken (nd.withBft m') q ↔ S.Taken nd q ∨ q = .prevote j := by
  cases q with
  | proposal => simp [Taken, hstep]
  | prevote k =>
    simp only [Taken, Node.withBft_bft, hpre, Finset.mem_insert, Packet.prevote.injEq]
    rw [S.idOf_injective.eq_iff]
    exact or_comm
  | precommit k => simp [Taken, hcom]

theorem taken_precommit {j : Fin n} {nd : Node C} {m' : BftStateMachine C}
    (hpre : S.prevoters m' = S.prevoters nd.bft)
    (hcom : S.precommitters m' = insert (S.idOf j) (S.precommitters nd.bft))
    (hstep : m'.step = nd.bft.step) (q : Packet n) :
    S.Taken (nd.withBft m') q ↔ S.Taken nd q ∨ q = .precommit j := by
  cases q with
  | proposal => simp [Taken, hstep]
  | prevote k => simp [Taken, hpre]
  | precommit k =>
    simp only [Taken, Node.withBft_bft, hcom, Finset.mem_insert, Packet.precommit.injEq]
    rw [S.idOf_injective.eq_iff]
    exact or_comm

theorem takes_prevote {i j : Fin n} {nd : Node C} (hC : C.SignatureCorrect) (h : S.Voting i nd)
    (hlead : j ≠ S.leader) (hij : j ≠ i) (hpast : nd.bft.step ≠ .propose)
    (hsafe : i ∈ S.precommitting ∨ i ≠ S.leader ∧ 3 * (n - 2) ≤ 2 * n) (env : Env) :
    S.Takes i (.prevote j) nd env := by
  unfold Takes
  show ∃ nd' acts new,
    nd.afterBft env (nd.bft.onPrevote env.counts (S.ballot .prevote j)) = _ ∧ _
  obtain ⟨m', out, heq, hin, hs', hpre, hcom, hout⟩ :=
    h.machine.onPrevote hC hlead hij hpast hsafe env.counts
  have h' : S.Voting i (nd.withBft m') := ⟨hin, h.key, h.live⟩
  have htaken := taken_prevote hpre hcom (iff_of_false hs' hpast)
  rw [heq]
  rcases hout with ⟨hstep, hsilent⟩ | ⟨hV, hstep, k, s, rfl⟩
  · obtain ⟨acts, hturn, hsent, hquiet⟩ := nd.afterBft_silent env m' hsilent
    exact ⟨_, acts, [], hturn, .of_silent h h' hstep htaken hsent hquiet⟩
  · obtain ⟨acts, hturn, hsent, hquiet⟩ := Node.afterBft_vote h.key env m'
      ⟨.precommit, nd.bft.height, nd.bft.round, some S.proposal.blockHash, k, s⟩
    refine ⟨_, acts, [.precommit i], hturn, ?_⟩
    refine .of_vote h h' htaken (fun _ => hstep) (Or.inl hpast) (Or.inr rfl)
      (Or.inr ⟨rfl, hV, Or.inr hstep⟩) (by simp [Packet.weight]) ?_ hquiet
    rw [hsent, h.machine.height, h.machine.round]
    rfl

theorem isProposer_next {i : Fin n} {m : BftStateMachine C} (hi : i ≠ S.next)
    (hv : m.validators = validatorIds C S.keys) (hidx : m.validatorIndex = some i.val) :
    (m.advanceHeight ⟨S.height.val + 1⟩).1.isProposer = false := by
  have hn : n ≠ 0 := Nat.ne_of_gt (Nat.lt_of_le_of_lt (Nat.zero_le _) i.isLt)
  have hlen : (validatorIds C S.keys).length = n := List.length_ofFn
  have hne : S.next.val ≠ i.val := fun heq => hi (Fin.ext heq.symm)
  have hidx' : (m.advanceHeight ⟨S.height.val + 1⟩).1.validatorIndex = some i.val := hidx
  rw [BftStateMachine.isProposer_of_index hidx']
  show ((if m.validators.length = 0 then 0
    else (S.height.val + 1 + (0 : UInt32).toUInt64).toNat % m.validators.length) == i.val) = false
  rw [hv, hlen, if_neg hn, ← S.next_val]
  simpa using hne

/-- A node leaves on a quorum of precommits; one that is to precommit has done so by then. -/
theorem takes_precommit {i j : Fin n} {nd : Node C} (hC : C.SignatureCorrect)
    (h : S.Voting i nd) (hj : j ∈ S.precommitting) (hij : j ≠ i) (hpast : nd.bft.step ≠ .propose)
    (hleave : 2 * n < 3 * (insert (S.idOf j) (S.precommitters nd.bft)).card →
      i ∈ S.leaving ∧ (i ∈ S.precommitting → nd.bft.step = .precommit)) (env : Env) :
    S.Takes i (.precommit j) nd env := by
  unfold Takes
  show ∃ nd' acts new,
    nd.afterBft env (nd.bft.onPrecommit env.counts (S.ballot .precommit j)) = _ ∧ _
  rcases h.machine.onPrecommit hC hj hij env.counts with
    ⟨m', out, heq, hin, hstep, hpre, hcom, hsilent⟩ | ⟨hquorum, m', heq, hv, hidx⟩
  · obtain ⟨acts, hturn, hsent, hquiet⟩ := nd.afterBft_silent env m' hsilent
    rw [heq]
    exact ⟨_, acts, [], hturn, .of_silent h ⟨hin, h.key, h.live⟩ hstep
      (taken_precommit hpre hcom hstep) hsent hquiet⟩
  · obtain ⟨hi, hcast⟩ := hleave hquorum
    obtain ⟨nd', acts, txs, hturn, hgone, hcommit, hforeign, hsilent⟩ :=
      Node.afterBft_moveOn h.live env m' S.height S.proposal.blockHash
    rw [heq]
    refine ⟨nd', acts, [], hturn, ?_⟩
    constructor
    case settled => exact Or.inl ⟨hgone, hi⟩
    case gone => intro _; exact hgone
    case taken => exact Or.inl hgone
    case cast => intro _; exact Or.inl hgone
    case voted => intro _; exact Or.inl (Or.inr hpast)
    case precommitted => intro hV _; exact Or.inl (Or.inr (hcast hV))
    case left => intro hV _; exact Or.inr (hcast hV)
    case lawful => simp
    case lighter => simp [Packet.weight]
    case sent =>
      refine ⟨sentMessages acts, rfl, ?_, ?_⟩
      · intro msg hmsg
        rw [hforeign msg hmsg]
        exact height_ne
      · intro hsome
        by_contra hnext
        have hne : i ≠ S.next := by
          rintro rfl
          exact hnext hi
        exact hsome (hsilent (isProposer_next hne (hv.trans h.machine.validators)
          (hidx.trans h.machine.index)))
    case quiet => intro hno; exact absurd hi hno
    case committed => intro _; exact Or.inr ⟨txs, hcommit⟩

variable (S) in
/-- The packet may be handed to node `i` without upsetting the plan. -/
def Ready (i : Fin n) (nd : Node C) : Packet n → Prop
  | .proposal => True
  | .prevote _ => i ∈ S.precommitting ∨ S.Gone nd ∨ 3 * (n - 2) ≤ 2 * n
  | .precommit j => S.Voting i nd →
      2 * n < 3 * (insert (S.idOf j) (S.precommitters nd.bft)).card →
        i ∈ S.leaving ∧ (i ∈ S.precommitting → nd.bft.step = .precommit)

/-- **Every turn of the round is an answer**, if it is handed what it is ready for. -/
theorem Settled.takes {i : Fin n} {pk : Packet n} {nd : Node C} (hC : C.SignatureCorrect)
    (h : S.Settled i nd) (hfrom : ¬ pk.From i) (hprevote : pk ≠ .prevote S.leader)
    (hprecommit : ∀ j, pk = .precommit j → j ∈ S.precommitting)
    (hpast : pk ≠ .proposal → S.Past nd) (hready : S.Ready i nd pk) (env : Env) :
    S.Takes i pk nd env := by
  rcases h with ⟨hg, hi⟩ | h
  · exact takes_of_gone hg hi pk env
  · cases pk with
    | proposal => exact takes_proposal h env
    | prevote j =>
      have hstep : nd.bft.step ≠ .propose := (hpast (by simp)).resolve_left h.not_gone
      refine takes_prevote hC h (fun hj => hprevote (by rw [hj])) hfrom hstep ?_ env
      by_cases hV : i ∈ S.precommitting
      · exact Or.inl hV
      · right
        refine ⟨?_, (hready.resolve_left hV).resolve_left h.not_gone⟩
        rintro rfl
        exact hV S.leader_precommitting
    | precommit j =>
      have hstep : nd.bft.step ≠ .propose := (hpast (by simp)).resolve_left h.not_gone
      exact takes_precommit hC h (hprecommit j rfl) hfrom hstep (hready h) env

end Plan

end Trv1Chain
