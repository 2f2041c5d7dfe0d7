import Trv1Chain.Proof.OpeningNode

/-!
# A cluster in the opening round

`OnTrack` is the cluster in the course of a round, with the round's packets `P` and the messages
`F` of other heights in flight. No packet is lost: what has been sent is in flight, or has been
taken, or comes too late. And none is made up: what is in flight or taken has been sent.

The cluster is on track at the launch (`onTrack_launch`), and stays so with every packet that is
handed to a node ready for it (`OnTrack.deliver`).
-/

set_option autoImplicit false

namespace Trv1Chain

open Lib

variable {C : Crates} {n : Nat}

namespace Plan

variable (S : Plan C n)

/-- The packet has been sent, going by the state of its sender. -/
def Due (w : Cluster C n) : Packet n → Prop
  | .proposal => True
  | .prevote j => j ≠ S.leader ∧ S.Past (w.nodes j)
  | .precommit j => j ∈ S.precommitting ∧ S.Cast (w.nodes j)

/-- A quorum of followers other than `j` has voted. -/
def Polka (w : Cluster C n) (j : Fin n) : Prop :=
  ∃ A : Finset (Fin n), S.leader ∉ A ∧ j ∉ A ∧ 2 * n < 3 * A.card ∧ ∀ k ∈ A, S.Past (w.nodes k)

structure OnTrack (w : Cluster C n) (P : Multiset (Fin n × Packet n))
    (F : Multiset (Fin n × ConsensusMessage)) : Prop where
  inFlight : w.inFlight = P.map (Prod.map id S.msg) + F
  foreign : ∀ q ∈ F, q.2.height ≠ S.height
  alone : S.next ∉ S.leaving → F = 0
  settled : ∀ i, S.Settled i (w.nodes i)
  quiet : ∀ i ∉ S.leaving, ∀ a ∈ w.log i, a.Quiet
  committed : ∀ i, S.Gone (w.nodes i) →
    ∃ txs, .applyCommit S.height S.proposal.blockHash txs ∈ w.log i
  due : ∀ i pk, (i, pk) ∈ P → S.Due w pk ∧ ¬ pk.From i
  tracked : ∀ i pk, S.Due w pk → ¬ pk.From i →
    (i, pk) ∈ P ∨ S.Gone (w.nodes i) ∨ S.Taken (w.nodes i) pk
  taken : ∀ i pk, ¬ S.Gone (w.nodes i) → S.Taken (w.nodes i) pk → S.Due w pk
  left : ∀ j ∈ S.precommitting, S.Gone (w.nodes j) → S.Polka w j

variable {S}

theorem Due.mono {w w' : Cluster C n} {pk : Packet n} (h : S.Due w pk)
    (hpast : ∀ k, S.Past (w.nodes k) → S.Past (w'.nodes k))
    (hcast : ∀ k, S.Cast (w.nodes k) → S.Cast (w'.nodes k)) : S.Due w' pk := by
  cases pk with
  | proposal => trivial
  | prevote j => exact ⟨h.1, hpast j h.2⟩
  | precommit j => exact ⟨h.1, hcast j h.2⟩

theorem Polka.mono {w w' : Cluster C n} {j : Fin n} (h : S.Polka w j)
    (hpast : ∀ k, S.Past (w.nodes k) → S.Past (w'.nodes k)) : S.Polka w' j := by
  obtain ⟨A, hlead, hj, hcard, hA⟩ := h
  exact ⟨A, hlead, hj, hcard, fun k hk => hpast k (hA k hk)⟩

/-- Whoever has precommitted has seen a polka, and it is still there. -/
theorem OnTrack.polka {w : Cluster C n} {P : Multiset (Fin n × Packet n)}
    {F : Multiset (Fin n × ConsensusMessage)} (h : S.OnTrack w P F) {j : Fin n}
    (hj : j ∈ S.precommitting) (hcast : S.Cast (w.nodes j)) : S.Polka w j := by
  by_cases hg : S.Gone (w.nodes j)
  · exact h.left j hj hg
  have hv : S.Voting j (w.nodes j) := (h.settled j).resolve_left fun hl => hg hl.1
  have hquorum := (hv.machine.precommitted (hcast.resolve_left hg)).2
  have hfrom := hv.machine.from_followers
  refine ⟨Finset.univ.filter fun k => S.idOf k ∈ S.prevoters (w.nodes j).bft, ?_, ?_, ?_, ?_⟩
  · intro hmem
    obtain ⟨k, hk, -, heq⟩ := hfrom _ (Finset.mem_filter.mp hmem).2
    exact hk (S.idOf_injective heq).symm
  · intro hmem
    obtain ⟨k, -, hk, heq⟩ := hfrom _ (Finset.mem_filter.mp hmem).2
    exact hk (S.idOf_injective heq).symm
  · refine Nat.lt_of_lt_of_le hquorum (Nat.mul_le_mul_left 3 ?_)
    apply Opening.card_le_of_forall
    intro k hk
    obtain ⟨l, -, -, rfl⟩ := hfrom k hk
    exact ⟨l, Finset.mem_filter.mpr ⟨Finset.mem_univ l, hk⟩, rfl⟩
  · intro k hk
    exact (h.taken j (.prevote k) hg (Finset.mem_filter.mp hk).2).2

/-! ## A delivery -/

theorem mem_after {i k : Fin n} {pk q : Packet n} {P : Multiset (Fin n × Packet n)}
    {new : List (Packet n)} (h : (k, q) ∈ (i, pk) ::ₘ P) :
    (k, q) ∈ P + spread i new ∨ k = i ∧ q = pk := by
  rcases Multiset.mem_cons.mp h with heq | h
  · exact Or.inr ⟨congrArg Prod.fst heq, congrArg Prod.snd heq⟩
  · exact Or.inl (Multiset.mem_add.mpr (Or.inl h))

/-- A packet becomes due when it is sent. -/
theorem Answers.due_cases {w : Cluster C n} {i : Fin n} {pk q : Packet n} {nd' : Node C}
    {acts : List Action} {new : List (Packet n)} {rest : Multiset (Fin n × ConsensusMessage)}
    (ha : S.Answers i pk (w.nodes i) nd' acts new)
    (h : S.Due (w.answer sentMessages i rest nd' acts) q) : S.Due w q ∨ q ∈ new := by
  cases q with
  | proposal => exact Or.inl trivial
  | prevote j =>
    rcases Net.answer_cases h.2 with hold | ⟨rfl, hnew⟩
    · exact Or.inl ⟨h.1, hold⟩
    · exact (ha.voted hnew).imp_left fun hp => ⟨h.1, hp⟩
  | precommit j =>
    rcases Net.answer_cases h.2 with hold | ⟨rfl, hnew⟩
    · exact Or.inl ⟨h.1, hold⟩
    · exact (ha.precommitted h.1 hnew).imp_left fun hc => ⟨h.1, hc⟩

theorem Answers.from_of_mem {i : Fin n} {pk q : Packet n} {nd nd' : Node C}
    {acts : List Action} {new : List (Packet n)} (ha : S.Answers i pk nd nd' acts new)
    (hq : q ∈ new) : q.From i := by
  rcases ha.lawful q hq with ⟨rfl, -⟩ | ⟨rfl, -⟩
  · exact rfl
  · exact rfl

/-- **A packet is delivered**: the cluster stays on track. -/
theorem OnTrack.deliver {w : Cluster C n} {i : Fin n} {pk : Packet n}
    {P : Multiset (Fin n × Packet n)} {F : Multiset (Fin n × ConsensusMessage)}
    (h : S.OnTrack w ((i, pk) ::ₘ P) F) {nd' : Node C} {acts : List Action}
    {new : List (Packet n)} (ha : S.Answers i pk (w.nodes i) nd' acts new) :
    ∃ F', S.OnTrack
      (w.answer sentMessages i (P.map (Prod.map id S.msg) + F) nd' acts)
      (P + spread i new) F' := by
  obtain ⟨foreign, hsent, hforeign, hnext⟩ := ha.sent
  have hpast : ∀ k, S.Past (w.nodes k) → S.Past ((w.answer sentMessages i
      (P.map (Prod.map id S.msg) + F) nd' acts).nodes k) := fun k => Net.answer_keeps ha.past
  have hcast : ∀ k, S.Cast (w.nodes k) → S.Cast ((w.answer sentMessages i
      (P.map (Prod.map id S.msg) + F) nd' acts).nodes k) := fun k => Net.answer_keeps ha.cast
  refine ⟨F + spread i foreign, ?_⟩
  constructor
  case inFlight =>
    show P.map (Prod.map id S.msg) + F + spread i (sentMessages acts) = _
    rw [hsent, spread_append, spread_map, Multiset.map_add]
    exact add_add_add_comm _ _ _ _
  case foreign =>
    rintro ⟨k, msg⟩ hq
    rcases Multiset.mem_add.mp hq with hq | hq
    · exact h.foreign _ hq
    · exact hforeign msg (mem_spread.mp hq).2
  case alone =>
    intro hno
    have hnil : foreign = [] := by
      by_contra hsome
      exact hno (hnext hsome)
    rw [h.alone hno, hnil, spread_nil, add_zero]
  case settled =>
    intro k
    by_cases hk : k = i
    · subst hk
      rw [Net.answer_self]
      exact ha.settled
    · rw [Net.answer_of_ne hk]
      exact h.settled k
  case quiet =>
    intro k hk a hmem
    rcases Net.mem_answer_log.mp hmem with hold | ⟨rfl, hnew⟩
    · exact h.quiet k hk a hold
    · exact ha.quiet hk a hnew
  case committed =>
    intro k hg
    have hold := h.committed k
    rcases Net.answer_cases hg with hbefore | ⟨rfl, hnow⟩
    · obtain ⟨txs, hmem⟩ := hold hbefore
      exact ⟨txs, Net.mem_answer_log.mpr (Or.inl hmem)⟩
    · rcases ha.committed hnow with hbefore | ⟨txs, hmem⟩
      · obtain ⟨txs, hmem⟩ := hold hbefore
        exact ⟨txs, Net.mem_answer_log.mpr (Or.inl hmem)⟩
      · exact ⟨txs, Net.mem_answer_log.mpr (Or.inr ⟨rfl, hmem⟩)⟩
  case due =>
    intro k q hq
    rcases Multiset.mem_add.mp hq with hq | hq
    · obtain ⟨hdue, hfrom⟩ := h.due k q (Multiset.mem_cons_of_mem hq)
      exact ⟨hdue.mono hpast hcast, hfrom⟩
    · obtain ⟨hk, hq⟩ := mem_spread.mp hq
      rcases ha.lawful q hq with ⟨rfl, hlead, hp⟩ | ⟨rfl, hV, hc⟩
      · exact ⟨⟨hlead, by rw [Net.answer_self]; exact hp⟩, Ne.symm hk⟩
      · exact ⟨⟨hV, by rw [Net.answer_self]; exact hc⟩, Ne.symm hk⟩
  case tracked =>
    intro k q hdue hfrom
    by_cases hk : k = i
    · -- the node that took the packet keeps what it had, and has this one now
      subst hk
      have hdue := (ha.due_cases hdue).resolve_right fun hq => hfrom (ha.from_of_mem hq)
      rw [Net.answer_self]
      rcases ha.taken with hg | htaken
      · exact Or.inr (Or.inl hg)
      rcases h.tracked k q hdue hfrom with hmem | hg | ht
      · rcases mem_after hmem with hmem | ⟨-, heq⟩
        · exact Or.inl hmem
        · exact Or.inr (Or.inr ((htaken q).mpr (Or.inr heq)))
      · exact Or.inr (Or.inl (ha.gone hg))
      · exact Or.inr (Or.inr ((htaken q).mpr (Or.inl ht)))
    · rw [Net.answer_of_ne hk]
      rcases ha.due_cases hdue with hdue | hnew
      · exact (h.tracked k q hdue hfrom).imp_left fun hmem =>
          (mem_after hmem).resolve_right fun heq => hk heq.1
      · exact Or.inl (Multiset.mem_add.mpr (Or.inr (mem_spread.mpr ⟨hk, hnew⟩)))
  case taken =>
    intro k q hng ht
    refine Due.mono ?_ hpast hcast
    by_cases hk : k = i
    · subst hk
      rw [Net.answer_self] at hng ht
      rcases (ha.taken.resolve_left hng q).mp ht with ht | rfl
      · exact h.taken k q (fun hg => hng (ha.gone hg)) ht
      · exact (h.due k q (Multiset.mem_cons_self _ _)).1
    · rw [Net.answer_of_ne hk] at hng ht
      exact h.taken k q hng ht
  case left =>
    -- whoever leaves in this turn had precommitted before it
    intro j hj hg
    refine Polka.mono ?_ hpast
    rcases Net.answer_cases hg with hbefore | ⟨rfl, hnow⟩
    · exact h.left j hj hbefore
    · exact h.polka hj (ha.left hj hnow)

/-- Without the proposal in flight a node no longer waits for it. -/
theorem OnTrack.past {w : Cluster C n} {P : Multiset (Fin n × Packet n)}
    {F : Multiset (Fin n × ConsensusMessage)} (h : S.OnTrack w P F) {i : Fin n}
    (hi : (i, .proposal) ∉ P) : S.Past (w.nodes i) :=
  (h.tracked i .proposal trivial (fun hf => hf)).resolve_left hi

theorem OnTrack.takes {w : Cluster C n} {P : Multiset (Fin n × Packet n)}
    {F : Multiset (Fin n × ConsensusMessage)} (hC : C.SignatureCorrect) (h : S.OnTrack w P F)
    {i : Fin n} {pk : Packet n} (hmem : (i, pk) ∈ P)
    (hpast : pk ≠ .proposal → S.Past (w.nodes i)) (hready : S.Ready i (w.nodes i) pk)
    (env : Env) : S.Takes i pk (w.nodes i) env := by
  obtain ⟨hdue, hfrom⟩ := h.due i pk hmem
  refine (h.settled i).takes hC hfrom ?_ ?_ hpast hready env
  · rintro rfl
    exact hdue.1 rfl
  · rintro j rfl
    exact hdue.1

/-- **A packet can be delivered**, and what is in flight gets lighter. -/
theorem OnTrack.step {w : Cluster C n} {P : Multiset (Fin n × Packet n)}
    {F : Multiset (Fin n × ConsensusMessage)}
    {G : Cluster C n → Fin n → ConsensusMessage → Prop} (hC : C.SignatureCorrect)
    (h : S.OnTrack w P F) {i : Fin n} {pk : Packet n} (hmem : (i, pk) ∈ P)
    (hG : G w i (S.msg pk)) (hpast : pk ≠ .proposal → S.Past (w.nodes i))
    (hready : S.Ready i (w.nodes i) pk) :
    ∃ w' P' F', Delivers Node.Receives sentMessages G w w' ∧ S.OnTrack w' P' F' ∧
      load Packet.weight P' < load Packet.weight P := by
  obtain ⟨nd', acts, new, hturn, ha⟩ := h.takes hC hmem hpast hready Node.storedOrder
  obtain ⟨rest, rfl⟩ := Multiset.exists_cons_of_mem hmem
  obtain ⟨F', htrack⟩ := h.deliver ha
  have hfly : w.inFlight = (i, S.msg pk) ::ₘ (rest.map (Prod.map id S.msg) + F) := by
    rw [h.inFlight, Multiset.map_cons, Multiset.cons_add]
    rfl
  refine ⟨_, _, F', .mk i (S.msg pk) _ nd' acts hfly hG ⟨_, hturn⟩, htrack, ?_⟩
  -- what the turn sends to all others weighs less than what it took
  have hspread := load_spread_le Packet.weight i new
  have hlight := ha.lighter
  rw [load_add, load_cons]
  show load Packet.weight rest + _ < pk.weight + _
  omega

/-! ## The launch -/

theorem proposerIndex_fresh {i : Fin n} {nd : Node C} (h : nd.Fresh S.keys S.height i) :
    nd.bft.proposerIndex nd.bft.height nd.bft.round = S.leader.val := by
  have hn : n ≠ 0 := Nat.ne_of_gt (Nat.lt_of_le_of_lt (Nat.zero_le _) i.isLt)
  have hlen : (validatorIds C S.keys).length = n := List.length_ofFn
  unfold BftStateMachine.proposerIndex
  rw [h.validators, hlen, if_neg hn, h.height, h.round, ← S.leader_val]

theorem propose_follower {i : Fin n} {nd : Node C} (h : nd.Fresh S.keys S.height i)
    (hi : i ≠ S.leader) (env : Env) :
    nd.proposeIfProposer env S.height ⟨0⟩ = (nd, []) := by
  have hno : nd.bft.isProposer = false := by
    unfold BftStateMachine.isProposer
    rw [h.index, proposerIndex_fresh h]
    have : S.leader.val ≠ i.val := fun heq => hi (Fin.ext heq.symm)
    simpa using this
  unfold Node.proposeIfProposer
  rw [h.key, hno]
  rfl

theorem propose_leader {nd : Node C} (h : nd.Fresh S.keys S.height S.leader) (env : Env) :
    nd.proposeIfProposer env S.height ⟨0⟩ =
      nd.proposeBlock env (S.keys S.leader) S.height ⟨0⟩ nd.lastBlockHash := by
  have hyes : nd.bft.isProposer = true := by
    unfold BftStateMachine.isProposer
    rw [h.index, proposerIndex_fresh h]
    simp
  unfold Node.proposeIfProposer
  rw [h.key, hyes]
  rfl

variable (S) in
/-- Node `i` once the round has begun: the leader has voted for its own proposal and dropped the
vote, the others wait. -/
structure Launched (i : Fin n) (nd : Node C) : Prop where
  blank : S.Blank i nd.bft
  step : nd.bft.step = .propose ∧ nd.bft.lockedValue = none ∧ i ≠ S.leader ∨
    nd.bft.step = .prevote ∧ i = S.leader
  key : nd.signingKey = some (S.keys i)
  live : nd.feeMarket.Live

theorem blank_of_fresh {i : Fin n} {nd : Node C} (h : nd.Fresh S.keys S.height i) :
    S.Blank i nd.bft :=
  ⟨h.height, h.round, h.validators, h.index, by rw [h.roundState]; rfl,
    by rw [h.roundState]; rfl⟩

theorem launched_leader {nd : Node C} (h : nd.Fresh S.keys S.height S.leader) :
    S.Launched S.leader (nd.withBft (nd.bft.onProposal S.proposal (some S.block)).1) := by
  obtain ⟨m', v, heq, -, -, -, -, hs', hh', hr', hv', hi', hpre, hcom⟩ :=
    Opening.onProposal_fresh h.height h.round h.step h.validators h.unlocked
  have hblank := blank_of_fresh h
  rw [heq]
  exact ⟨⟨hh'.trans h.height, hr'.trans h.round, hv'.trans h.validators, hi'.trans h.index,
    hpre.trans hblank.prevotes, hcom.trans hblank.precommits⟩, Or.inr ⟨hs', rfl⟩, h.key, h.live⟩

theorem Launched.voting {i : Fin n} {nd : Node C} (h : S.Launched i nd) : S.Voting i nd :=
  ⟨h.blank.inRound (h.step.imp_right fun hs => hs.1), h.key, h.live⟩

theorem Launched.not_cast {i : Fin n} {nd : Node C} (h : S.Launched i nd) : ¬ S.Cast nd := by
  rintro (hg | hs)
  · exact h.voting.not_gone hg
  · rcases h.step with ⟨hs', -⟩ | ⟨hs', -⟩
    · rw [hs'] at hs; cases hs
    · rw [hs'] at hs; cases hs

theorem Launched.past_iff {i : Fin n} {nd : Node C} (h : S.Launched i nd) :
    nd.bft.step ≠ .propose ↔ i = S.leader := by
  rcases h.step with ⟨hs, -, hi⟩ | ⟨hs, hi⟩
  · exact iff_of_false (fun hne => hne hs) hi
  · exact iff_of_true (by rw [hs]; simp) hi

theorem launched_launch {nodes : Fin n → Node C} {env : Fin n → Env}
    (hfresh : ∀ i, (nodes i).Fresh S.keys S.height i)
    (hleader : (nodes S.leader).proposeIfProposer (env S.leader) S.height ⟨0⟩ =
      ((nodes S.leader).withBft ((nodes S.leader).bft.onProposal S.proposal (some S.block)).1,
        [.broadcast (S.msg .proposal)])) (i : Fin n) :
    S.Launched i ((Cluster.launch nodes env S.height).nodes i) := by
  show S.Launched i ((nodes i).proposeIfProposer (env i) S.height ⟨0⟩).1
  by_cases hi : i = S.leader
  · subst hi
    rw [hleader]
    exact launched_leader (hfresh _)
  · rw [propose_follower (hfresh i) hi]
    exact ⟨blank_of_fresh (hfresh i), Or.inl ⟨(hfresh i).step, (hfresh i).unlocked, hi⟩,
      (hfresh i).key, (hfresh i).live⟩

/-- **The launch is on track**, with the leader's proposal on its way to everyone. -/
theorem onTrack_launch {nodes : Fin n → Node C} {env : Fin n → Env}
    (hfresh : ∀ i, (nodes i).Fresh S.keys S.height i)
    (hpropose : (nodes S.leader).proposeBlock (env S.leader) (S.keys S.leader) S.height ⟨0⟩
        (nodes S.leader).lastBlockHash =
      ((nodes S.leader).withBft ((nodes S.leader).bft.onProposal S.proposal (some S.block)).1,
        [.broadcast (S.msg .proposal)])) :
    S.OnTrack (Cluster.launch nodes env S.height) (spread S.leader [.proposal]) 0 ∧
      .broadcast (S.msg .proposal) ∈ (Cluster.launch nodes env S.height).log S.leader := by
  have hleader := (propose_leader (hfresh S.leader) (env S.leader)).trans hpropose
  have hlaunched := launched_launch hfresh hleader
  refine ⟨?_, ?_⟩
  · constructor
    case inFlight =>
      show ∑ i, spread i (sentMessages ((nodes i).proposeIfProposer (env i) S.height ⟨0⟩).2) = _
      rw [Finset.sum_eq_single S.leader, hleader, ← spread_map, add_zero]
      · rfl
      · intro i _ hi
        rw [propose_follower (hfresh i) hi]
        exact spread_nil i
      · intro hno
        exact absurd (Finset.mem_univ _) hno
    case foreign => simp
    case alone => intro _; rfl
    case settled => exact fun i => Or.inr (hlaunched i).voting
    case quiet =>
      intro i _ a ha
      have ha : a ∈ ((nodes i).proposeIfProposer (env i) S.height ⟨0⟩).2 := ha
      exact (Node.proposeIfProposer_proposes _ _ _ _).quiet a ha
    case committed => exact fun i hg => absurd hg (hlaunched i).voting.not_gone
    case due =>
      intro i pk hmem
      rw [List.mem_singleton.mp (mem_spread.mp hmem).2]
      exact ⟨trivial, fun hf => hf⟩
    case tracked =>
      intro i pk hdue _
      cases pk with
      | proposal =>
        by_cases hi : i = S.leader
        · exact Or.inr (Or.inr ((hlaunched i).past_iff.mpr hi))
        · exact Or.inl (mem_spread.mpr ⟨hi, List.mem_singleton.mpr rfl⟩)
      | prevote j =>
        rcases hdue.2 with hg | hs
        · exact absurd hg (hlaunched j).voting.not_gone
        · exact absurd ((hlaunched j).past_iff.mp hs) hdue.1
      | precommit j => exact absurd hdue.2 (hlaunched j).not_cast
    case taken =>
      intro i pk _ ht
      cases pk with
      | proposal => trivial
      | prevote j =>
        have ht : S.idOf j ∈ S.prevoters _ := ht
        rw [(hlaunched i).blank.prevoters] at ht
        simp at ht
      | precommit j =>
        have ht : S.idOf j ∈ S.precommitters _ := ht
        rw [(hlaunched i).blank.precommitters] at ht
        simp at ht
    case left => exact fun j _ hg => absurd hg (hlaunched j).voting.not_gone
  · show _ ∈ ((nodes S.leader).proposeIfProposer (env S.leader) S.height ⟨0⟩).2
    rw [hleader]
    exact List.mem_singleton.mpr rfl

end Plan

end Trv1Chain
