import Trv1Chain.Lib.Record
import Trv1Chain.Proof.Assembly

/-!
# Forks convict

With a third or more of the validators Byzantine, two honest nodes can commit different blocks at
one height. The votes the honest nodes have received then convict more than a third of the
validators: each convicted one has signed two votes in a round, or precommitted without a polka, or
left a lock without one (`Lib.Record.Guilty`). No node that runs the code on orderly input is ever
convicted, however many Byzantine ones there are, so the convicted are all Byzantine.

The record is what the honest nodes together can show. A signed vote counts from wherever it
reached one of them, also when the node was at another height or round and its machine ignored it.
-/

set_option autoImplicit false

namespace Trv1Chain

open Lib BftStateMachine Node

namespace Assembly

variable {C : Crates}

/-- An honest node has received a correctly signed vote by `k` for `x`. -/
def OnRecord (A : Assembly C) (t : VoteType) (h : Height) (k : ValidatorId) (r : Nat)
    (x : BlockHash) : Prop :=
  ∃ i ∈ A.honest, ∃ v, Received (A.hist i) v ∧ v.validator = k ∧ v.verify C = true ∧
    v.voteType = t ∧ v.height = h ∧ v.round.val.toNat = r ∧ v.blockHash = some x

/-- The votes on record at a height. -/
def record (A : Assembly C) (h : Height) : Record ValidatorId Nat BlockHash where
  members := A.validators.toFinset
  total := A.validators.length
  card_le := List.toFinset_card_le _
  prevoted := A.OnRecord .prevote h
  precommitted := A.OnRecord .precommit h

variable {A : Assembly C} {log : ValidatorId → History C}

/-- A certificate in an honest machine is a quorum on record. -/
theorem Traces.shown (hl : A.Traces log) {i : ValidatorId} (hi : i ∈ A.honest) {t : VoteType}
    {h : Height} {r : Round} {x : BlockHash}
    (hc : Certificate (log i) A.validators t h r x) :
    (A.record h).Shown fun k => A.OnRecord t h k r.val.toNat x := by
  obtain ⟨Q, hcard, hQ⟩ := hc
  refine ⟨Q, fun k hk => List.mem_toFinset.mpr (hQ k hk).1, hcard, fun k hk => ?_⟩
  obtain ⟨v, hrec, hk, hver, ht, hh, rfl, hb⟩ := hl.received_of_signedVote hi (hQ k hk).2
  exact ⟨i, hi, v, hrec, hk, hver, ht, hh, rfl, hb⟩

/-- A vote on record under an honest key was cast by its machine. -/
theorem Traces.cast_of_onRecord (hl : A.Traces log) {t : VoteType} {h : Height} {k : ValidatorId}
    {r : Nat} {x : BlockHash} (hk : k ∈ A.honest) (ho : A.OnRecord t h k r x) :
    ∃ rd : Round, rd.val.toNat = r ∧ Cast (log k) t h rd (some x) := by
  obtain ⟨i, hi, v, hrec, rfl, hver, rfl, rfl, rfl, hb⟩ := ho
  refine ⟨v.round, rfl, ?_⟩
  rw [← hb]
  exact hl.authentic hi hrec hver hk

/-- A machine's precommit for a hash puts a polka for it on record. -/
theorem Traces.polka_of_cast (hl : A.Traces log) {k : ValidatorId} (hk : k ∈ A.honest)
    {h : Height} {rd : Round} {x : BlockHash} (hc : Cast (log k) .precommit h rd (some x)) :
    (A.record h).Polka rd.val.toNat x :=
  hl.shown hk (hc.precommit_polka (fun _ _ hg => hg.2.2 .prevote) (A.machine_setsOk k)
    (hl.traced k hk).run)

/-- A machine's votes of one kind in one round are for one hash. -/
theorem Traces.cast_unique (hl : A.Traces log) {k : ValidatorId} (hk : k ∈ A.honest)
    {t : VoteType} {h : Height} {rd rd' : Round} {x y : BlockHash}
    (hround : rd.val.toNat = rd'.val.toNat) (hx : Cast (log k) t h rd (some x))
    (hy : Cast (log k) t h rd' (some y)) : x = y := by
  obtain ⟨v, hv, ht, hh, hr, hb⟩ := hx
  obtain ⟨v', hv', ht', hh', hr', hb'⟩ := hy
  have hrd : v.round = v'.round := by
    rw [hr, hr']
    cases rd
    cases rd'
    exact congrArg Round.mk (UInt32.toNat_inj.mp hround)
  have hsame := castVote_unique (fun _ _ hg => hg.1) (hl.traced k hk).run hv hv'
    (ht.trans ht'.symm) (hh.trans hh'.symm) hrd
  rw [hsame, hb'] at hb
  exact (Option.some.inj hb).symm

/-- **No honest node is convicted.** One case for each way to be: its votes are unique, its
precommits rest on polkas it has received, and what it prevotes after a precommit it has
precommitted since, on a polka again. -/
theorem Traces.innocent (hl : A.Traces log) {k : ValidatorId} (hk : k ∈ A.honest) (h : Height) :
    ¬ (A.record h).Guilty k := by
  intro hg
  cases hg with
  | twoPrevotes r x y hne hx hy =>
    obtain ⟨rd, hrd, hcx⟩ := hl.cast_of_onRecord hk hx
    obtain ⟨rd', hrd', hcy⟩ := hl.cast_of_onRecord hk hy
    exact hne (hl.cast_unique hk (hrd.trans hrd'.symm) hcx hcy)
  | twoPrecommits r x y hne hx hy =>
    obtain ⟨rd, hrd, hcx⟩ := hl.cast_of_onRecord hk hx
    obtain ⟨rd', hrd', hcy⟩ := hl.cast_of_onRecord hk hy
    exact hne (hl.cast_unique hk (hrd.trans hrd'.symm) hcx hcy)
  | unfounded r x hx hnone =>
    obtain ⟨rd, rfl, hcast⟩ := hl.cast_of_onRecord hk hx
    exact hnone (hl.polka_of_cast hk hcast)
  | unlocked r s x y hne hlt hx hy hnone =>
    obtain ⟨rd, rfl, hpre⟩ := hl.cast_of_onRecord hk hx
    obtain ⟨rd', rfl, hprev⟩ := hl.cast_of_onRecord hk hy
    have hlock := voteLock_of_run (fun _ _ hg => ⟨hg.1, hg.2.1⟩) rfl (hl.traced k hk).run
    obtain ⟨t, hle, hlt', hcast⟩ := hlock.kept h rd rd' x y hlt hpre hprev
    exact hnone t.val.toNat hle hlt' (hl.polka_of_cast hk hcast)

/-- An honest node's commit is a quorum of precommits on record. -/
theorem Traces.shown_of_commit (hl : A.Traces log) {i : ValidatorId} (hi : i ∈ A.honest)
    {h : Height} {x : BlockHash} {txs : List Transaction}
    (hc : (h, x, txs) ∈ commits (A.hist i)) :
    ∃ r, (A.record h).Shown fun k => (A.record h).precommitted k r x := by
  have hout := ((hl.traced i hi).commits h x).mpr ⟨txs, hc⟩
  obtain ⟨rd, hcert⟩ := certificate_of_mem_outputs (fun _ _ hg => hg.2.2 .precommit)
    (A.machine_setsOk i) (hl.traced i hi).run hout
  exact ⟨rd.val.toNat, hl.shown hi hcert⟩

/-- **Fork accountability.** However many the other validators are, as long as the input of the
honest nodes is orderly: no honest node is convicted by the votes the honest nodes have received,
and when two honest nodes commit different hashes at one height, more than a third of the validators
are, none of them honest. An announced commit forks without a vote, and a `valid_round` sent along
makes an honest node leave its lock. -/
theorem fork_convicts (A : Assembly C) (h : Height) :
    (∀ k ∈ A.honest, ¬ (A.record h).Guilty k) ∧
      ∀ i ∈ A.honest, ∀ j ∈ A.honest, ∀ x y txs txs', (h, x, txs) ∈ commits (A.hist i) →
        (h, y, txs') ∈ commits (A.hist j) → x ≠ y →
          ∃ Q ⊆ A.validators.toFinset, A.validators.length < 3 * Q.card ∧
            ∀ k ∈ Q, k ∉ A.honest ∧ (A.record h).Guilty k := by
  obtain ⟨log, hl⟩ := A.exists_traces
  refine ⟨fun k hk => hl.innocent hk h, ?_⟩
  intro i hi j hj x y txs txs' hx hy hne
  obtain ⟨r, hrx⟩ := hl.shown_of_commit hi hx
  obtain ⟨s, hsy⟩ := hl.shown_of_commit hj hy
  obtain ⟨Q, hsub, hcard, hguilty⟩ := Record.accountable hne hrx hsy
  exact ⟨Q, hsub, hcard, fun k hk => ⟨fun hk' => hl.innocent hk' h (hguilty k hk), hguilty k hk⟩⟩

/-! ## Two of four fork the other two -/

/-- The block the second validator shows to node `k`. -/
def forkBlock (k : ValidatorId) : Block where
  header := ⟨⟨0⟩, 0, BlockHash.default, ⟨Crates.sampleKey 2⟩, k.asBytes, Bytes.fill 32 0⟩
  transactions := []

/-- Round 0 runs out. In round 1 the second validator shows each of the others a block of its own,
and with the third votes for both. -/
def forkScript (k : ValidatorId) : List (Env × NodeEvent) :=
  [quadTimeout .propose, quadTimeout .prevote, quadTimeout .precommit] ++
    quadDecides (forkBlock k) ⟨1⟩ [k, ⟨Crates.sampleKey 2⟩, ⟨Crates.sampleKey 3⟩]

def forkReplay (k : ValidatorId) : NodeHistory Crates.sample × Node Crates.sample :=
  (Run.replay Node.handle (quadStart k) [] (forkScript k)).getD ([], quadStart k)

def forkHonest : List ValidatorId := [⟨Crates.sampleKey 1⟩, ⟨Crates.sampleKey 4⟩]

theorem forkReplay_turns :
    ∀ k ∈ forkHonest, ∀ τ ∈ (forkReplay k).1, τ.before.Orderly τ.event := by
  decide +kernel

theorem forkReplay_run {k : ValidatorId} (hk : k ∈ forkHonest) :
    NodeRun Crates.sample Orderly (quadStart k) (forkReplay k).1 (forkReplay k).2 := by
  have ho := forkReplay_turns k hk
  unfold forkReplay at ho ⊢
  cases hr : Run.replay Node.handle (quadStart k) [] (forkScript k) with
  | none => exact .init
  | some r =>
    rw [hr] at ho
    exact Run.of_replay .init hr ho

theorem forkReplay_sent :
    ∀ i ∈ forkHonest, ∀ τ ∈ (forkReplay i).1, ∀ v ∈ τ.event.2.vote?, v.validator ∈ forkHonest →
      ∃ v' ∈ votesSent (outputs (forkReplay v.validator).1), v'.voteType = v.voteType ∧
        v'.height = v.height ∧ v'.round = v.round ∧ v'.blockHash = v.blockHash := by
  decide +kernel

def forkAssembly : Assembly Crates.sample where
  validators := quadKeys
  honest := { k | k ∈ forkHonest }
  index := quadKeys.idxOf?
  signingKey k := k.asBytes
  stateDb _ := genesisDb
  feeMarket _ := ⟨FeeConfig.default, 1⟩
  env _ := storedOrder
  hist k := (forkReplay k).1
  node k := (forkReplay k).2
  run _ hk := forkReplay_run hk
  unforged := by
    rintro i hi v ⟨τ, hτ, hev⟩ - hv
    obtain ⟨v', hv', ht, hh, hr, hb⟩ := forkReplay_sent i hi τ hτ v (by rw [hev]; rfl) hv
    exact Or.inl ⟨v', hv', by rw [ht, hh, hr, hb]⟩

/-- The two honest nodes commit different blocks at height 0, and two validators are convicted. -/
theorem fork_convicts_two_of_four :
    (∀ k ∈ forkHonest, (commits (forkAssembly.hist k)).map (fun c => (c.1, c.2.1)) =
        [(⟨0⟩, (forkBlock k).hash Crates.sample)]) ∧
      ∃ Q ⊆ forkAssembly.validators.toFinset, forkAssembly.validators.length < 3 * Q.card ∧
        ∀ k ∈ Q, k ∉ forkAssembly.honest ∧ (forkAssembly.record ⟨0⟩).Guilty k := by
  have hcommits : ∀ k ∈ forkHonest, (commits (forkAssembly.hist k)).map (fun c => (c.1, c.2.1)) =
      [(⟨0⟩, (forkBlock k).hash Crates.sample)] := by decide +kernel
  have hmem : ∀ k ∈ forkHonest, ∃ txs, ((⟨0⟩ : Height), (forkBlock k).hash Crates.sample, txs) ∈
      commits (forkAssembly.hist k) := by
    intro k hk
    have hone : ((⟨0⟩ : Height), (forkBlock k).hash Crates.sample) ∈
        (commits (forkAssembly.hist k)).map (fun c => (c.1, c.2.1)) := by
      rw [hcommits k hk]
      exact List.mem_cons_self
    obtain ⟨⟨h, x, txs⟩, hc, heq⟩ := List.mem_map.mp hone
    cases heq
    exact ⟨txs, hc⟩
  refine ⟨hcommits, ?_⟩
  obtain ⟨txs, hx⟩ := hmem ⟨Crates.sampleKey 1⟩ (by decide)
  obtain ⟨txs', hy⟩ := hmem ⟨Crates.sampleKey 4⟩ (by decide)
  exact (fork_convicts forkAssembly ⟨0⟩).2 ⟨Crates.sampleKey 1⟩ (by simp [forkAssembly, forkHonest])
    ⟨Crates.sampleKey 4⟩ (by simp [forkAssembly, forkHonest]) _ _ txs txs' hx hy (by decide +kernel)

end Assembly

end Trv1Chain
