import Trv1Chain.Lib.Quorum
import Trv1Chain.Proof.StepVotes
import Trv1Chain.Proof.VoteHistory
import Trv1Chain.Validator.Signing

/-!
# Agreement

Every honest node runs its own machine on whatever the network hands it: messages are lost,
duplicated, delayed, reordered and made up by the Byzantine validators. A world is the machine
and the history of each node, and a step of it is one call into one honest node's machine.

Signatures are what ties the nodes together. A vote that verifies under an honest key was signed
with it (`World.Signed`), and an honest node signs the votes its machine casts, and proposals.
So a certificate one node counted is, but for the Byzantine signers in it, a set of votes the
other nodes' machines really cast, and the abstract locking argument applies.
-/

set_option autoImplicit false

namespace Trv1Chain

open Lib

/-- A validator list with fewer than a third of it Byzantine, and how each node is started. -/
structure Network where
  validators : List ValidatorId
  byzantine : Finset ValidatorId
  few_byzantine : 3 * (validators.filter (· ∈ byzantine)).length < validators.length
  height : ValidatorId → Height
  validatorIndex : ValidatorId → Option Nat
  timeoutConfig : ValidatorId → TimeoutConfig

open BftStateMachine

/-- The machine of every node, and all that happened to it. -/
structure World (C : Crates) where
  node : ValidatorId → BftStateMachine C
  log : ValidatorId → History C

namespace World

variable {C : Crates}

def record (w : World C) (k : ValidatorId) (e : BftEvent) (m' : BftStateMachine C)
    (out : List ConsensusMessage) : World C where
  node := Function.update w.node k m'
  log := Function.update w.log k (⟨w.node k, e, m', out⟩ :: w.log k)

/-- One call into the machine of node `k`; `none` when it panics. -/
def act (w : World C) (k : ValidatorId) (e : BftEvent) : Option (World C) :=
  ((w.node k).handle e).map fun r => w.record k e r.1 r.2

/-- What the key of an honest node `k` has signed: the votes its machine cast, and proposals. -/
def Signed (w : World C) (k : ValidatorId) (msg : List UInt8) : Prop :=
  (∃ v, .castVote v ∈ outputs (w.log k) ∧
    msg = Vote.signBytes v.voteType v.height v.round v.blockHash) ∨
  ∃ h r b, msg = proposalMessage h r b

/-- Signed vote bytes are a vote the machine cast: no proposal has such bytes. -/
theorem Signed.cast {w : World C} {k : ValidatorId} {t : VoteType} {h : Height} {r : Round}
    {b : Option BlockHash} (hs : w.Signed k (Vote.signBytes t h r b)) :
    Cast (w.log k) t h r b := by
  rcases hs with ⟨v, hv, hb⟩ | ⟨h', r', b', hb⟩
  · obtain ⟨rfl, rfl, rfl, rfl⟩ := Vote.signBytes_inj hb
    exact ⟨v, hv, rfl, rfl, rfl, rfl⟩
  · exact absurd hb signBytes_ne_proposalMessage

theorem log_record (w : World C) (k u : ValidatorId) (e : BftEvent) (m' : BftStateMachine C)
    (out : List ConsensusMessage) :
    (w.record k e m' out).log u =
      if u = k then ⟨w.node k, e, m', out⟩ :: w.log k else w.log u := by
  unfold record
  simp only [Function.update_apply]

theorem cast_record {w : World C} {k u : ValidatorId} {e : BftEvent} {m' : BftStateMachine C}
    {out : List ConsensusMessage} {t : VoteType} {h : Height} {r : Round} {b : Option BlockHash}
    (hc : Cast (w.log u) t h r b) : Cast ((w.record k e m' out).log u) t h r b := by
  rw [log_record]
  split
  · rename_i hu
    subst hu
    exact hc.cons _
  · exact hc

end World

namespace Network

variable {C : Crates}

def start (C : Crates) (N : Network) (k : ValidatorId) : BftStateMachine C :=
  ((BftStateMachine.new C (N.height k) N.validators (N.validatorIndex k)
    (N.timeoutConfig k)).startRound ⟨0⟩).1

/-- What an honest node's machine may be called with: any message at all whose current votes are
by validators and whose proposals carry no `valid_round`, any timeout that does not wrap the
round number, and `advance_height` to a later height. -/
def NodeGuard (m : BftStateMachine C) (e : BftEvent) : Prop :=
  NoRewind m e ∧ PlainProposals m e ∧ ∀ t, VotesFromValidators t m e

/-- Unforgeability, at the moment of delivery: a vote that verifies under an honest key is over
bytes that key has signed. -/
def Unforged (N : Network) (w : World C) (e : BftEvent) : Prop :=
  ∀ t v, e.vote? = some (t, v) → v.verify C = true → v.validator ∉ N.byzantine →
    w.Signed v.validator (Vote.signBytes v.voteType v.height v.round v.blockHash)

/-- The worlds that can come about. -/
inductive Reachable (N : Network) : World C → Prop
  | init : Reachable N ⟨N.start C, fun _ => []⟩
  | act {w w' : World C} (k : ValidatorId) (e : BftEvent) : Reachable N w → k ∉ N.byzantine →
      NodeGuard (w.node k) e → N.Unforged w e → w.act k e = some w' → Reachable N w'

/-- Each node's part of a reachable world is a run of its machine. -/
theorem Reachable.run {N : Network} {w : World C} (hw : N.Reachable w) (u : ValidatorId) :
    BftRun C NodeGuard (N.start C u) (w.log u) (w.node u) := by
  induction hw with
  | init => exact .init
  | act k e _ _ hg _ hact ih =>
    obtain ⟨⟨m', out⟩, hs, rfl⟩ := Option.map_eq_some_iff.mp hact
    by_cases hu : u = k
    · subst hu
      simp only [World.record, Function.update_self]
      exact .turn ih hg hs
    · simp only [World.record, Function.update_of_ne hu]
      exact ih

/-- **What verifies was cast.** A delivered vote that verifies under an honest key was cast by
that key's machine. -/
theorem Reachable.authentic {N : Network} {w : World C} (hw : N.Reachable w) {u : ValidatorId}
    {t : VoteType} {v : Vote} (hd : Delivered (w.log u) t v) (hver : v.verify C = true)
    (hhon : v.validator ∉ N.byzantine) :
    Cast (w.log v.validator) v.voteType v.height v.round v.blockHash := by
  induction hw with
  | init =>
    obtain ⟨τ, hτ, -⟩ := hd
    exact absurd hτ (by simp)
  | act k e _ _ _ hun hact ih =>
    obtain ⟨⟨m', out⟩, hs, rfl⟩ := Option.map_eq_some_iff.mp hact
    apply World.cast_record
    obtain ⟨τ, hτ, hev, hrest⟩ := hd
    rw [World.log_record] at hτ
    split at hτ
    · rename_i hu
      subst hu
      rcases List.mem_cons.mp hτ with rfl | hold
      -- delivered just now, so the world's own assumption applies
      · exact (hun t v hev hver hhon).cast
      · exact ih ⟨τ, hold, hev, hrest⟩
    · exact ih ⟨τ, hτ, hev, hrest⟩

/-- What agreement rests on: each node's part of the world is a run of its machine, and a
delivered vote that verifies under an honest key was cast by that key's machine. In which order
the nodes took their turns does not matter any more. -/
structure Consistent (N : Network) (w : World C) : Prop where
  run : ∀ u, BftRun C NodeGuard (N.start C u) (w.log u) (w.node u)
  authentic : ∀ {u t v}, Delivered (w.log u) t v → v.verify C = true → v.validator ∉ N.byzantine →
    Cast (w.log v.validator) v.voteType v.height v.round v.blockHash

theorem Reachable.consistent {N : Network} {w : World C} (hw : N.Reachable w) : N.Consistent w :=
  ⟨hw.run, hw.authentic⟩

/-! ## The votes of a world keep the locking discipline -/

/-- The voters: the distinct keys of the list, counted against its length. -/
def electorate (N : Network) : Electorate ValidatorId where
  members := N.validators.toFinset
  total := N.validators.length
  faulty := (N.validators.filter (· ∈ N.byzantine)).toFinset
  card_le := List.toFinset_card_le _
  faulty_lt := by
    have hle := List.toFinset_card_le (N.validators.filter (· ∈ N.byzantine))
    have := N.few_byzantine
    omega

/-- A certificate in one node's history is a quorum of votes that the correct signers' own
machines cast. -/
theorem Consistent.votedBy {N : Network} {w : World C} (hw : N.Consistent w) {u : ValidatorId}
    {t : VoteType} {h : Height} {r : Round} {b : BlockHash}
    (hc : Certificate (w.log u) N.validators t h r b) :
    N.electorate.VotedBy fun k => Cast (w.log k) t h r (some b) := by
  obtain ⟨Q, hcard, hQ⟩ := hc
  refine ⟨Q, ⟨?_, hcard⟩, ?_⟩
  · intro k hk
    exact List.mem_toFinset.mpr (hQ k hk).1
  · intro k hk hcorrect
    obtain ⟨hmem, v, hd, rfl, hver, rfl, rfl, rfl, hb⟩ := hQ k hk
    -- the faulty voters are the Byzantine ones on the list
    have hhon : v.validator ∉ N.byzantine := by
      intro hbyz
      apply hcorrect
      simp only [electorate, List.mem_toFinset, List.mem_filter, decide_eq_true_eq]
      exact ⟨hmem, hbyz⟩
    rw [← hb]
    exact hw.authentic hd hver hhon

theorem start_setsOk (N : Network) (k : ValidatorId) : SetsOk [] (N.start C k) :=
  SetsOk.fresh _ rfl

/-- The votes of one height, as a locking discipline over rounds. -/
def Consistent.locking {N : Network} {w : World C} (hw : N.Consistent w) (h : Height) :
    Locking N.electorate Nat BlockHash where
  prevoted k r b := ∃ rd : Round, rd.val.toNat = r ∧ Cast (w.log k) .prevote h rd (some b)
  precommitted k r b := ∃ rd : Round, rd.val.toNat = r ∧ Cast (w.log k) .precommit h rd (some b)
  prevote_unique := by
    rintro k - r a b ⟨rd, hrd, v, hv, hvt, hvh, hvr, hva⟩ ⟨rd', hrd', v', hv', ht', hh', hr', hb'⟩
    have hround : rd = rd' := by
      cases rd; cases rd'
      exact congrArg Round.mk (UInt32.toNat_inj.mp (hrd.trans hrd'.symm))
    have := castVote_unique (fun _ _ hg => hg.1) (hw.run k) hv hv' (hvt.trans ht'.symm)
      (hvh.trans hh'.symm) (by rw [hvr, hr', hround])
    rw [this, hb'] at hva
    exact (Option.some.inj hva).symm
  precommit_polka := by
    rintro k - r a ⟨rd, hrd, hc⟩
    have hcert := hc.precommit_polka (fun _ _ hg => hg.2.2 .prevote) (N.start_setsOk k) (hw.run k)
    obtain ⟨Q, hq, hQ⟩ := hw.votedBy hcert
    exact ⟨Q, hq, fun u hu hcorrect => ⟨rd, hrd, hQ u hu hcorrect⟩⟩
  prevote_lock := by
    rintro k - r r' a b hlt ⟨rd, rfl, hpre⟩ ⟨rd', rfl, hprev⟩
    have hlock := voteLock_of_run (fun _ _ hg => ⟨hg.1, hg.2.1⟩) rfl (hw.run k)
    obtain ⟨s, hrs, hsr, hs⟩ := hlock.kept h rd rd' a b hlt hpre hprev
    exact ⟨s.val.toNat, hrs, hsr, s, rfl, hs⟩

theorem Consistent.commit_votedBy {N : Network} {w : World C} (hw : N.Consistent w)
    {k : ValidatorId} {h : Height} {b : BlockHash}
    (hc : .commitBlock h b ∈ outputs (w.log k)) :
    ∃ r, N.electorate.VotedBy fun u => (hw.locking h).precommitted u r b := by
  obtain ⟨rd, hcert⟩ := certificate_of_mem_outputs (fun _ _ hg => hg.2.2 .precommit)
    (N.start_setsOk k) (hw.run k) hc
  obtain ⟨Q, hq, hQ⟩ := hw.votedBy hcert
  exact ⟨rd.val.toNat, Q, hq, fun u hu hcorrect => ⟨rd, rfl, hQ u hu hcorrect⟩⟩

theorem Consistent.same_hash {N : Network} {w : World C} (hw : N.Consistent w) {i j : ValidatorId}
    {h : Height} {a b : BlockHash} (ha : .commitBlock h a ∈ outputs (w.log i))
    (hb : .commitBlock h b ∈ outputs (w.log j)) : a = b := by
  obtain ⟨r, hra⟩ := hw.commit_votedBy ha
  obtain ⟨r', hrb⟩ := hw.commit_votedBy hb
  exact (hw.locking h).agreement hra hrb

/-- **Agreement.** Two honest nodes of a reachable world that commit at one height commit one
hash, in whatever rounds they do. -/
theorem commits_agree {N : Network} {w : World C} (hw : N.Reachable w) {i j : ValidatorId}
    (_ : i ∉ N.byzantine) (_ : j ∉ N.byzantine) {h : Height} {a b : BlockHash}
    (ha : .commitBlock h a ∈ outputs (w.log i)) (hb : .commitBlock h b ∈ outputs (w.log j)) :
    a = b := hw.consistent.same_hash ha hb

/-! ## A world played from a list of calls -/

instance (m : BftStateMachine C) : ∀ e : BftEvent, Decidable (m.PlainProposals e)
  | .proposal p _ => inferInstanceAs (Decidable (p.validRound = none))
  | .startRound _ => inferInstanceAs (Decidable True)
  | .advanceHeight _ => inferInstanceAs (Decidable True)
  | .timeout _ => inferInstanceAs (Decidable True)
  | .prevote .. => inferInstanceAs (Decidable True)
  | .precommit .. => inferInstanceAs (Decidable True)

/-- A call the network may make. An honest validator's vote is one its machine has cast, which is
more than that its key has signed those bytes, and can be looked up. -/
structure MayCall (N : Network) (w : World C) (k : ValidatorId) (e : BftEvent) : Prop where
  honest : k ∉ N.byzantine
  noRewind : NoRewind (w.node k) e
  plain : PlainProposals (w.node k) e
  prevotes : VotesFromValidators .prevote (w.node k) e
  precommits : VotesFromValidators .precommit (w.node k) e
  cast : ∀ x ∈ e.vote?, x.2.validator ∉ N.byzantine →
    ∃ v ∈ votesIn (outputs (w.log x.2.validator)), v.voteType = x.2.voteType ∧
      v.height = x.2.height ∧ v.round = x.2.round ∧ v.blockHash = x.2.blockHash

instance (N : Network) (w : World C) (k : ValidatorId) (e : BftEvent) :
    Decidable (N.MayCall w k e) :=
  decidable_of_iff (k ∉ N.byzantine ∧ NoRewind (w.node k) e ∧ PlainProposals (w.node k) e ∧
      VotesFromValidators .prevote (w.node k) e ∧ VotesFromValidators .precommit (w.node k) e ∧
      ∀ x ∈ e.vote?, x.2.validator ∉ N.byzantine →
        ∃ v ∈ votesIn (outputs (w.log x.2.validator)), v.voteType = x.2.voteType ∧
          v.height = x.2.height ∧ v.round = x.2.round ∧ v.blockHash = x.2.blockHash)
    ⟨fun ⟨h₁, h₂, h₃, h₄, h₅, h₆⟩ => ⟨h₁, h₂, h₃, h₄, h₅, h₆⟩,
      fun ⟨h₁, h₂, h₃, h₄, h₅, h₆⟩ => ⟨h₁, h₂, h₃, h₄, h₅, h₆⟩⟩

theorem MayCall.unforged {N : Network} {w : World C} {k : ValidatorId} {e : BftEvent}
    (h : N.MayCall w k e) : N.Unforged w e := by
  intro t v hv _ hhonest
  obtain ⟨v', hmem, ht, hh, hr, hb⟩ := h.cast (t, v) hv hhonest
  refine Or.inl ⟨v', ?_, by rw [ht, hh, hr, hb]⟩
  obtain ⟨msg, hmsg, hcast⟩ := List.mem_filterMap.mp hmem
  cases msg with
  | castVote u =>
    cases hcast
    exact hmsg
  | _ => cases hcast

theorem MayCall.nodeGuard {N : Network} {w : World C} {k : ValidatorId} {e : BftEvent}
    (h : N.MayCall w k e) : NodeGuard (w.node k) e := by
  refine ⟨h.noRewind, h.plain, ?_⟩
  intro t
  cases t with
  | prevote => exact h.prevotes
  | precommit => exact h.precommits

/-- The world after the calls, if the network may make them. -/
def play (N : Network) : World C → List (ValidatorId × BftEvent) → Option (World C)
  | w, [] => some w
  | w, (k, e) :: calls =>
    if N.MayCall w k e then
      match w.act k e with
      | some w' => N.play w' calls
      | none => none
    else none

theorem Reachable.play {N : Network} {calls : List (ValidatorId × BftEvent)} :
    ∀ {w w' : World C}, N.Reachable w → N.play w calls = some w' → N.Reachable w' := by
  induction calls with
  | nil =>
    intro w w' hw hplay
    cases hplay
    exact hw
  | cons c calls ih =>
    intro w w' hw hplay
    unfold Network.play at hplay
    split at hplay
    · rename_i hmay
      split at hplay
      · rename_i w₁ hact
        exact ih (.act c.1 c.2 hw hmay.honest hmay.nodeGuard hmay.unforged hact) hplay
      · cases hplay
    · cases hplay

/-! ## Three honest nodes of four -/

def quadNetwork : Network where
  validators := quadKeys
  byzantine := {⟨Crates.sampleKey 1⟩}
  few_byzantine := by decide +kernel
  height _ := ⟨0⟩
  validatorIndex := quadKeys.idxOf?
  timeoutConfig _ := TimeoutConfig.default

def keysOf (bs : List UInt8) : List ValidatorId := bs.map fun b => ⟨Crates.sampleKey b⟩

/-- The proposer of round `r` proposes `quadHash` to some nodes. -/
def proposeTo (r : Round) (proposer : UInt8) (nodes : List UInt8) :
    List (ValidatorId × BftEvent) :=
  (keysOf nodes).map fun k =>
    (k, .proposal (signProposal Crates.sample ⟨0⟩ r quadHash (Crates.sampleKey proposer)) none)

/-- Votes of some validators for `quadHash` reach some nodes. -/
def votesTo (t : VoteType) (r : Round) (voters nodes : List UInt8) :
    List (ValidatorId × BftEvent) :=
  (keysOf nodes).flatMap fun k => voters.map fun b =>
    let v := signVote Crates.sample t ⟨0⟩ r (some quadHash) (Crates.sampleKey b)
    (k, match t with
      | .prevote => .prevote IterOrder.stored v
      | .precommit => .precommit IterOrder.stored v)

/-- The nodes 2, 3 and 4 lock on the hash in round 0, but only node 2 hears of their precommits.
The others go on to round 1, where the Byzantine validator's votes complete the quorum. -/
def quadCalls : List (ValidatorId × BftEvent) :=
  proposeTo ⟨0⟩ 1 [2, 3, 4] ++ votesTo .prevote ⟨0⟩ [2, 3, 4] [2, 3, 4] ++
    votesTo .precommit ⟨0⟩ [2, 3, 4] [2] ++
    (keysOf [3, 4]).map (fun k => (k, .timeout ⟨⟨0⟩, ⟨0⟩, .precommit⟩)) ++
    proposeTo ⟨1⟩ 2 [3, 4] ++ votesTo .prevote ⟨1⟩ [1, 3, 4] [3, 4] ++
    votesTo .precommit ⟨1⟩ [1, 3, 4] [3]

/-- Node 2 commits in round 0 and node 3 in round 1, and they agree. -/
theorem commits_agree_quad :
    ∃ w : World Crates.sample, quadNetwork.Reachable w ∧
      (w.node ⟨Crates.sampleKey 2⟩).round = ⟨0⟩ ∧ (w.node ⟨Crates.sampleKey 3⟩).round = ⟨1⟩ ∧
      ∃ a b, .commitBlock ⟨0⟩ a ∈ outputs (w.log ⟨Crates.sampleKey 2⟩) ∧
        .commitBlock ⟨0⟩ b ∈ outputs (w.log ⟨Crates.sampleKey 3⟩) ∧ a = b := by
  obtain ⟨w, hplay, hround, hround', ha, hb⟩ : ∃ w ∈ quadNetwork.play
      ⟨quadNetwork.start Crates.sample, fun _ => []⟩ quadCalls,
      (w.node ⟨Crates.sampleKey 2⟩).round = ⟨0⟩ ∧ (w.node ⟨Crates.sampleKey 3⟩).round = ⟨1⟩ ∧
      .commitBlock ⟨0⟩ quadHash ∈ outputs (w.log ⟨Crates.sampleKey 2⟩) ∧
      .commitBlock ⟨0⟩ quadHash ∈ outputs (w.log ⟨Crates.sampleKey 3⟩) := by
    decide +kernel
  have hw : quadNetwork.Reachable w := Reachable.init.play hplay
  exact ⟨w, hw, hround, hround', quadHash, quadHash, ha, hb,
    commits_agree hw (by decide +kernel) (by decide +kernel) ha hb⟩

end Network

end Trv1Chain
