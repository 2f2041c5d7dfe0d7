import Trv1Chain.Proof.HashChain

/-!
# Assemblies of nodes

An `Assembly` is a run of the event loop on orderly input for each of a set of honest nodes, tied
together by signatures alone. It says nothing about how many of the validators are honest, and
nothing about the blocks they are offered; a `Fleet` is an assembly with fewer than a third of its
validators Byzantine.

Inside each honest run there is a run of the node's machine (`Traced`), and a vote that any honest
node receives under an honest key was cast by that key's machine (`Assembly.authentic`). Results
about fleets and about forks are read off those two.
-/

set_option autoImplicit false

namespace Trv1Chain

open Lib BftStateMachine

namespace Node

variable {C : Crates}

/-! ## The machine of an orderly node -/

/-- A proposal of the node's own is at most one call. -/
theorem Proposes.silent {n n' : Node C} {env : Env} {acts : List Action}
    (hp : Proposes n env n' acts) :
    ∃ own, BftRun C Network.NodeGuard n.bft own n'.bft ∧ Silent own := by
  cases hp with
  | skip => exact ⟨[], .init, .nil⟩
  | propose sk height round _ _ =>
    let block := buildBlock C env height n.lastBlockHash ⟨C.verifyingKey sk⟩
      (n.mempool.getPendingOrdered env.proposePool 100) n.stateDb
    let p := signProposal C height round (block.hash C) sk
    have hs : n.bft.handle (.proposal p (some block)) =
        some ((n.bft.onProposal p (some block)).1, (n.bft.onProposal p (some block)).2) := rfl
    refine ⟨[⟨n.bft, .proposal p (some block), _, _⟩], .turn .init ?_ hs, ?_, ?_⟩
    · exact ⟨trivial, rfl, by intro t v hv; cases hv⟩
    · intro τ hτ
      rw [List.mem_singleton.mp hτ]
      rfl
    · intro h x hmem
      rw [outputs_cons, outputs_nil, List.append_nil] at hmem
      obtain ⟨-, ⟨it, v, heq⟩, -⟩ := (BftStateMachine.handle_moves hs).of_commitBlock hmem
      cases heq

/-- The advance after a commit turns no clock back. -/
theorem nodeGuard_advance {m : BftStateMachine C} {h : Height} (hh : m.height = h)
    (hfits : h.val.toNat + 1 < 2 ^ 64) : Network.NodeGuard m (.advanceHeight ⟨h.val + 1⟩) := by
  refine ⟨?_, trivial, by intro t v hv; cases hv⟩
  show m.height.val < h.val + 1
  rw [hh, UInt64.lt_iff_toNat_lt, toNat_add_of_fits hfits]
  exact Nat.lt_succ_self _

/-- **A turn of an orderly node is a segment of its machine's run.** -/
theorem Does.calls {n n' : Node C} {env : Env} {e : NodeEvent} {acts : List Action}
    (hd : Does n env e n' acts) (ho : n.Orderly (env, e)) :
    ∃ seg, BftRun C Network.NodeGuard n.bft seg n'.bft ∧ Segment e acts seg := by
  cases hd with
  | @answer _ be m' out hcall hte hs hno =>
    exact ⟨[⟨n.bft, be, m', out⟩], .turn .init (ho.nodeGuard hcall) hs,
      (Does.answer hcall hte hs hno).segment_call hcall hs hno
        (Action.commit?_of_quiet (sent_quiet _ _))⟩
  | @timeout te m' out hs hno =>
    have hprop := offerAfter_proposes (n.withBft m') env te
    have hcall : Calls env (.timeout te) (.timeout te) := .timeout te
    have hrun : BftRun C Network.NodeGuard n.bft [⟨n.bft, .timeout te, m', out⟩] m' :=
      .turn .init (ho.nodeGuard hcall) hs
    obtain ⟨own, hown, hsil⟩ := hprop.silent
    refine ⟨own ++ [⟨n.bft, .timeout te, m', out⟩], hrun.append hown, ?_⟩
    exact ((Does.timeout hs hno).segment_call hcall hs hno
      (Action.commit?_of_quiet (hprop.sent_quiet out))).own hsil
  | @commit _ be m' h x _ _ hcall hs hc =>
    -- the call, the advance to the next height, and perhaps a proposal
    obtain ⟨rfl, ⟨it, v, rfl⟩, -⟩ :=
      (BftStateMachine.handle_moves hs).of_commitBlock List.mem_cons_self
    have hheight : m'.height = n.bft.height := (BftStateMachine.handle_moves hs).height (by simp)
    have hfits : n.bft.height.val.toNat + 1 < 2 ^ 64 := by
      obtain ⟨rfl, -⟩ := hcall.vote rfl
      exact ho.1
    obtain ⟨n₁, txs, msgs, timers, ha, -, rfl, -⟩ := commitAndAdvance_spec hc
    have hprop := proposeIfProposer_proposes (n₁.advanced n.bft.height) env
      ⟨n.bft.height.val + 1⟩ ⟨0⟩
    have hbft : (n₁.advanced n.bft.height).bft =
        (m'.advanceHeight ⟨n.bft.height.val + 1⟩).1 := by
      unfold advanced
      rw [withBft_bft, (applyCommit_spec ha).2.2.2.1, withBft_bft]
    obtain ⟨own, hown, hsil⟩ := hprop.silent
    rw [hbft] at hown
    have hrun : BftRun C Network.NodeGuard n.bft
        [⟨m', .advanceHeight ⟨n.bft.height.val + 1⟩,
            (m'.advanceHeight ⟨n.bft.height.val + 1⟩).1,
            (m'.advanceHeight ⟨n.bft.height.val + 1⟩).2⟩,
          ⟨n.bft, .precommit it v, m', [.commitBlock n.bft.height x]⟩]
        (m'.advanceHeight ⟨n.bft.height.val + 1⟩).1 :=
      .turn (.turn .init (ho.nodeGuard hcall) hs) (nodeGuard_advance hheight hfits) rfl
    exact ⟨own ++ _, hrun.append hown, (segment_commit hcall hc).own hsil⟩
  | announced hc => exact ho.elim
  | pool e tx he => exact ⟨[], .init, .idle rfl rfl⟩
  | gossip tx => exact ⟨[], .init, .idle rfl rfl⟩
  | skip te => exact ⟨[], .init, .idle rfl rfl⟩

/-- The machine's run inside a node's run: it was handed the votes the node received, cast the
votes the node sent, and committed what the node committed. -/
structure Traced (m₀ : BftStateMachine C) (hist : NodeHistory C) (n : Node C)
    (inner : History C) : Prop where
  run : BftRun C Network.NodeGuard m₀ inner n.bft
  received : VotesReceived inner hist
  sent : ∀ v ∈ votesSent (outputs hist), Cast inner v.voteType v.height v.round v.blockHash
  commits : ∀ h x, .commitBlock h x ∈ outputs inner ↔ ∃ txs, (h, x, txs) ∈ Node.commits hist

/-- One more turn. -/
theorem Traced.turn {m₀ : BftStateMachine C} {hist : NodeHistory C} {n n' : Node C}
    {inner seg : History C} {e : Env × NodeEvent} {acts : List Action}
    (ht : Traced m₀ hist n inner) (hrun : BftRun C Network.NodeGuard n.bft seg n'.bft)
    (hseg : Segment e.2 acts seg) : Traced m₀ (⟨n, e, n', acts⟩ :: hist) n' (seg ++ inner) where
  run := ht.run.append hrun
  received := by
    intro τ hτ t v hv
    rcases List.mem_append.mp hτ with hτ | hτ
    · exact ⟨_, List.mem_cons_self, hseg.votes τ hτ t v hv⟩
    · exact (ht.received τ hτ t v hv).mono (List.subset_cons_self _ _)
  sent := by
    intro v hv
    rw [mem_votesSent, outputs_cons, List.mem_append] at hv
    rcases hv with hv | hv
    · obtain ⟨w, hw, rest⟩ := hseg.sent v (mem_votesSent.mpr hv)
      exact ⟨w, by rw [outputs_append]; exact List.mem_append_left _ hw, rest⟩
    · exact (ht.sent v (mem_votesSent.mpr hv)).append seg
  commits := by
    intro h x
    rw [outputs_append, List.mem_append, hseg.commits, ht.commits, commits_cons]
    simp only [List.mem_append, exists_or]
    exact or_comm

/-- **An orderly run of a node holds a run of its machine.** -/
theorem traced_of_run {validators : List ValidatorId} {idx : Option Nat} {sk : Option (Bytes 32)}
    {db : StateDb} {fm : FeeMarket} {env : Env} {hist : NodeHistory C} {n : Node C}
    (hr : NodeRun C Orderly ((genesis C validators idx sk db fm).start env).1 hist n) :
    ∃ inner, Traced ((BftStateMachine.new C ⟨0⟩ validators idx TimeoutConfig.default).startRound
      ⟨0⟩).1 hist n inner := by
  refine hr.invariant (I := fun hist n => ∃ inner, Traced ((BftStateMachine.new C ⟨0⟩ validators
    idx TimeoutConfig.default).startRound ⟨0⟩).1 hist n inner) ?_ ?_
  · have hprop := proposeIfProposer_proposes ((genesis C validators idx sk db fm).withBft
      ((genesis C validators idx sk db fm).bft.startRound ⟨0⟩).1) env ⟨0⟩ ⟨0⟩
    obtain ⟨own, hown, hsil⟩ := hprop.silent
    refine ⟨own, hown, ?_, by simp [votesSent], ?_⟩
    · intro τ hτ t v hv
      rw [hsil.votes τ hτ] at hv
      cases hv
    · intro h x
      exact iff_of_false (hsil.commits h x) (by simp [Node.commits])
  · rintro hist n ⟨env, e⟩ n' acts - ⟨inner, ht⟩ ho hs
    obtain ⟨seg, hrun, hseg⟩ := (handle_does hs).calls ho
    exact ⟨seg ++ inner, ht.turn hrun hseg⟩

end Node

open Node

/-! ## Assemblies -/

/-- A run of the event loop from genesis for every honest node, on `Orderly` input. A vote that
verifies under an honest key is one that key has signed; of the others nothing is assumed, and not
how many they are. -/
structure Assembly (C : Crates) where
  validators : List ValidatorId
  honest : Set ValidatorId
  index : ValidatorId → Option Nat
  signingKey : ValidatorId → Bytes 32
  stateDb : ValidatorId → StateDb
  feeMarket : ValidatorId → FeeMarket
  env : ValidatorId → Env
  hist : ValidatorId → NodeHistory C
  node : ValidatorId → Node C
  run : ∀ k ∈ honest, NodeRun C Orderly
    ((genesis C validators (index k) (some (signingKey k)) (stateDb k) (feeMarket k)).start
      (env k)).1 (hist k) (node k)
  unforged : ∀ i ∈ honest, ∀ v, Received (hist i) v → v.verify C = true →
    v.validator ∈ honest →
    Node.Signed (hist v.validator) (Vote.signBytes v.voteType v.height v.round v.blockHash)

namespace Assembly

variable {C : Crates}

def machine (A : Assembly C) (k : ValidatorId) : BftStateMachine C :=
  ((BftStateMachine.new C ⟨0⟩ A.validators (A.index k) TimeoutConfig.default).startRound ⟨0⟩).1

/-- The runs of the machines inside the honest nodes. -/
structure Traces (A : Assembly C) (log : ValidatorId → History C) : Prop where
  traced : ∀ k ∈ A.honest, Traced (A.machine k) (A.hist k) (A.node k) (log k)

theorem exists_traces (A : Assembly C) : ∃ log, A.Traces log := by
  classical
  choose inner hinner using fun k (hk : k ∈ A.honest) => traced_of_run (A.run k hk)
  refine ⟨fun k => if hk : k ∈ A.honest then inner k hk else [], ⟨fun k hk => ?_⟩⟩
  rw [dif_pos hk]
  exact hinner k hk

/-- A vote an honest node received under an honest key was sent by that key's node. -/
theorem sent_of_received (A : Assembly C) {i : ValidatorId} (hi : i ∈ A.honest) {v : Vote}
    (hrec : Received (A.hist i) v) (hver : v.verify C = true) (hv : v.validator ∈ A.honest) :
    ∃ v' ∈ votesSent (outputs (A.hist v.validator)), v'.voteType = v.voteType ∧
      v'.height = v.height ∧ v'.round = v.round ∧ v'.blockHash = v.blockHash := by
  rcases A.unforged i hi v hrec hver hv with ⟨v', hv', hbytes⟩ | ⟨h, r, b, hbytes⟩
  · obtain ⟨ht, hh, hr, hb⟩ := Vote.signBytes_inj hbytes
    exact ⟨v', hv', ht.symm, hh.symm, hr.symm, hb.symm⟩
  · exact absurd hbytes signBytes_ne_proposalMessage

/-- **What verifies was cast.** -/
theorem Traces.authentic {A : Assembly C} {log : ValidatorId → History C} (hl : A.Traces log)
    {i : ValidatorId} (hi : i ∈ A.honest) {v : Vote} (hrec : Received (A.hist i) v)
    (hver : v.verify C = true) (hv : v.validator ∈ A.honest) :
    Cast (log v.validator) v.voteType v.height v.round v.blockHash := by
  obtain ⟨v', hv', ht, hh, hr, hb⟩ := A.sent_of_received hi hrec hver hv
  rw [← ht, ← hh, ← hr, ← hb]
  exact (hl.traced v.validator hv).sent v' hv'

theorem machine_setsOk (A : Assembly C) (k : ValidatorId) : SetsOk [] (A.machine k) :=
  SetsOk.fresh _ rfl

/-- A certificate in an honest machine is made of votes its node received. -/
theorem Traces.received_of_signedVote {A : Assembly C} {log : ValidatorId → History C}
    (hl : A.Traces log) {i : ValidatorId} (hi : i ∈ A.honest) {t : VoteType} {h : Height}
    {r : Round} {b : Option BlockHash} {k : ValidatorId} (hs : SignedVote (log i) t h r b k) :
    ∃ v, Received (A.hist i) v ∧ v.validator = k ∧ v.verify C = true ∧ v.voteType = t ∧
      v.height = h ∧ v.round = r ∧ v.blockHash = b := by
  obtain ⟨v, ⟨τ, hτ, hev, -⟩, hrest⟩ := hs
  exact ⟨v, (hl.traced i hi).received τ hτ t v hev, hrest⟩

end Assembly

namespace Fleet

variable {C : Crates}

/-- A fleet, without the bound on its Byzantine validators. -/
def assembly (F : Fleet C) : Assembly C where
  validators := F.validators
  honest := { k | k ∉ F.byzantine }
  index := F.index
  signingKey := F.signingKey
  stateDb := F.stateDb
  feeMarket := F.feeMarket
  env := F.env
  hist := F.hist
  node := F.node
  run := F.run
  unforged := F.unforged

/-- The world of the machines inside the nodes, whatever they were offered; the Byzantine ones never
move. -/
theorem exists_traced_world (F : Fleet C) :
    ∃ w : World C, F.network.Consistent w ∧ (∀ k, k ∈ F.byzantine → w.log k = []) ∧
      F.assembly.Traces w.log := by
  classical
  obtain ⟨log, hlog⟩ := F.assembly.exists_traces
  let w : World C :=
    { node := fun k => if k ∈ F.byzantine then F.network.start C k else (F.node k).bft
      log := fun k => if k ∈ F.byzantine then [] else log k }
  have hbyz : ∀ k, k ∈ F.byzantine → w.log k = [] := fun k hk => if_pos hk
  have hhon : F.assembly.Traces w.log := by
    refine ⟨fun k hk => ?_⟩
    have hlogk : w.log k = log k := if_neg hk
    rw [hlogk]
    exact hlog.traced k hk
  refine ⟨w, ⟨?_, ?_⟩, hbyz, hhon⟩
  · intro u
    by_cases hu : u ∈ F.byzantine
    · have hnode : w.node u = F.network.start C u := if_pos hu
      rw [hbyz u hu, hnode]
      exact .init
    · have hnode : w.node u = (F.node u).bft := if_neg hu
      rw [hnode]
      exact (hhon.traced u hu).run
  · rintro u t v ⟨τ, hτ, hev, -, -⟩ hver hv
    have hu : u ∉ F.byzantine := by
      intro hu
      rw [hbyz u hu] at hτ
      exact absurd hτ (by simp)
    exact hhon.authentic hu ((hhon.traced u hu).received τ hτ t v hev) hver hv

end Fleet

end Trv1Chain
