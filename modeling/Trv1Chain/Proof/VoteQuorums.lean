import Trv1Chain.Bft.Vote
import Trv1Chain.Lib.Quorum
import Trv1Chain.Lib.Word

/-!
# Quorums of a vote set

What a vote set holds after any calls of `add_vote`, whatever the votes are: valid, badly signed,
for another round, repeated, or contradicting an earlier vote of the same key. A key counts for the
first valid vote it sent and for no other, so a set fed by no more keys than it was told of has at
most one quorum, and two such sets have quorums that overlap in more than a third.
-/

set_option autoImplicit false

namespace Trv1Chain

open Lib

/-- The vote is one of type `t` for `(h, r)`, and its signature verifies. -/
def Vote.validFor (C : Crates) (t : VoteType) (h : Height) (r : Round) (v : Vote) : Bool :=
  v.voteType = t && v.height = h && v.round = r && v.verify C

/-- What a key said, by the votes received: its first valid one. -/
def Vote.firstValid (C : Crates) (t : VoteType) (h : Height) (r : Round) (votes : List Vote)
    (key : Bytes 32) : Option Vote :=
  votes.find? fun v => v.validFor C t h r && v.validator.asBytes = key

namespace VoteSet

variable {C : Crates}

/-! ## Any calls of `add_vote` -/

def addVotes (s : VoteSet C) (votes : List Vote) : VoteSet C :=
  votes.foldl (fun s v => (s.addVote v).1) s

/-- What a new set makes of the votes. -/
def collect (C : Crates) (t : VoteType) (h : Height) (r : Round) (n : Nat) (votes : List Vote) :
    VoteSet C :=
  (new C t h r n).addVotes votes

/-- One call: a valid vote is stored unless its key has one. -/
theorem votes_addVote (s : VoteSet C) (v : Vote) :
    (s.addVote v).1.votes = if v.validFor C s.voteType s.height s.round then
      HashMap.orInsert s.votes v.validator.asBytes v else s.votes := by
  unfold addVote HashMap.orInsert
  by_cases hm : v.voteType ≠ s.voteType ∨ v.height ≠ s.height ∨ v.round ≠ s.round
  · have hinv : v.validFor C s.voteType s.height s.round = false := by
      unfold Vote.validFor
      rcases hm with h | h | h <;> simp [h]
    rw [dif_pos hm, hinv]
    rfl
  · rw [dif_neg hm]
    push Not at hm
    by_cases hv : v.verify C = false
    · have hinv : v.validFor C s.voteType s.height s.round = false := by
        simp [Vote.validFor, hv]
      rw [dif_pos hv, hinv]
      rfl
    · have hval : v.validFor C s.voteType s.height s.round = true := by
        simpa [Vote.validFor, hm] using hv
      rw [dif_neg hv, hval, if_pos rfl]
      split <;> rfl

theorem votes_addVotes : ∀ (votes : List Vote) (s : VoteSet C),
    (s.addVotes votes).votes = votes.foldl (fun m v =>
      if v.validFor C s.voteType s.height s.round then
        HashMap.orInsert m v.validator.asBytes v else m) s.votes := by
  intro votes
  induction votes with
  | nil => intro s; rfl
  | cons v votes ih =>
    intro s
    show ((s.addVote v).1.addVotes votes).votes = _
    rw [ih, votes_addVote, List.foldl_cons]
    simp only [addVote_voteType, addVote_height, addVote_round]

theorem totalValidators_addVotes : ∀ (votes : List Vote) (s : VoteSet C),
    (s.addVotes votes).totalValidators = s.totalValidators := by
  intro votes
  induction votes with
  | nil => intro s; rfl
  | cons v votes ih =>
    intro s
    exact (ih _).trans (s.addVote_totalValidators v)

section Collect

variable {t : VoteType} {h : Height} {r : Round} {n : Nat} {votes : List Vote}

@[simp] theorem totalValidators_collect : (collect C t h r n votes).totalValidators = n :=
  totalValidators_addVotes votes _

/-- **The first valid vote of a key is the one that is kept.** -/
theorem lookup_collect (key : Bytes 32) :
    (collect C t h r n votes).votes.lookup key = Vote.firstValid C t h r votes key := by
  unfold collect
  rw [votes_addVotes, HashMap.lookup_foldl_orInsert]
  exact Option.none_or

end Collect

/-! ## Who counts for what -/

theorem mem_voters_iff_lookup {s : VoteSet C} {b : Option BlockHash} {k : ValidatorId} :
    k ∈ s.voters b ↔ (s.votes.lookup k.asBytes).map (·.blockHash) = some b := by
  rw [mem_voters, Option.map_eq_some_iff]
  constructor
  · rintro ⟨v, hv, hb⟩
    exact ⟨v, AList.mem_lookup_iff.mpr hv, hb⟩
  · rintro ⟨v, hv, hb⟩
    exact ⟨v, AList.mem_lookup_iff.mp hv, hb⟩

/-- A key has one vote in a set. -/
theorem disjoint_voters {s : VoteSet C} {b b' : Option BlockHash} (hne : b ≠ b') :
    Disjoint (s.voters b) (s.voters b') := by
  apply Finset.disjoint_left.mpr
  intro k hk hk'
  rw [mem_voters_iff_lookup] at hk hk'
  exact hne (Option.some.inj (hk.symm.trans hk'))

/-- The keys whose first valid vote is for `b`. -/
theorem voters_collect {t : VoteType} {h : Height} {r : Round} {n : Nat} {votes : List Vote}
    {W : Finset ValidatorId} (hvotes : ∀ v ∈ votes, v.validator ∈ W) (b : Option BlockHash) :
    (collect C t h r n votes).voters b =
      W.filter fun k => (Vote.firstValid C t h r votes k.asBytes).map (·.blockHash) = some b := by
  ext k
  rw [mem_voters_iff_lookup, lookup_collect, Finset.mem_filter]
  refine ⟨fun hk => ⟨?_, hk⟩, And.right⟩
  obtain ⟨v, hv, -⟩ := Option.map_eq_some_iff.mp hk
  have hkey := List.find?_some hv
  rw [Bool.and_eq_true, decide_eq_true_eq] at hkey
  have hid : v.validator = k := congrArg ValidatorId.mk hkey.2
  rw [← hid]
  exact hvotes v (List.mem_of_find?_eq_some hv)

/-! ## Quorums -/

/-- There is a quorum for a block hash, or for nil. -/
def hasQuorum (s : VoteSet C) : Option BlockHash → Bool
  | some b => s.hasQuorumFor b
  | none => s.hasQuorumForNil

theorem hasQuorum_eq (s : VoteSet C) (b : Option BlockHash) :
    s.hasQuorum b = s.isQuorum (s.countFor b) := by
  cases b with
  | none => rfl
  | some b => rfl

theorem hasQuorum_iff {s : VoteSet C} {b : Option BlockHash} :
    s.hasQuorum b = true ↔ 2 * s.totalValidators < 3 * (s.voters b).card := by
  rw [hasQuorum_eq, isQuorum_countFor]

/-- The comparison in 64-bit words, while neither product passes their end. -/
theorem isQuorum_usize {s : VoteSet C} {count : Nat} (hcount : count * 3 < 2 ^ 64)
    (htotal : s.totalValidators * 2 < 2 ^ 64) :
    s.isQuorum count = decide (UInt64.ofNat count * 3 > UInt64.ofNat s.totalValidators * 2) := by
  have hthree : (UInt64.ofNat count * 3).toNat = count * 3 :=
    toNat_ofNat_mul_ofNat hcount
  have htwo : (UInt64.ofNat s.totalValidators * 2).toNat = s.totalValidators * 2 :=
    toNat_ofNat_mul_ofNat htotal
  unfold isQuorum
  rw [decide_eq_decide, gt_iff_lt, gt_iff_lt, UInt64.lt_iff_toNat_lt, hthree, htwo]

/-- **One quorum at most**, when no more keys have voted than there are validators. -/
theorem quorum_unique {s : VoteSet C} {W : Finset ValidatorId} (hW : ∀ b, s.voters b ⊆ W)
    (hcard : W.card ≤ s.totalValidators) {b b' : Option BlockHash} (hb : s.hasQuorum b = true)
    (hb' : s.hasQuorum b' = true) : b = b' := by
  by_contra hne
  have hshared := lt_three_mul_card_inter hcard (hW b) (hW b') (hasQuorum_iff.mp hb)
    (hasQuorum_iff.mp hb')
  rw [Finset.disjoint_iff_inter_eq_empty.mp (disjoint_voters hne)] at hshared
  simp at hshared

/-! ## The order of the loops -/

/-- `quorum_block` with an order for each of its two loops, the one that counts the votes and the
one that looks for a quorum among the counts. -/
def quorumBlockIn (s : VoteSet C) (itVotes : IterOrder (Sigma fun _ : Bytes 32 => Vote))
    (itCounts : IterOrder (Sigma fun _ : BlockHash => Nat)) : Option BlockHash :=
  let counts := HashMap.tally ((itVotes.enum s.votes.entries).filterMap fun e => e.2.blockHash)
  ((itCounts.enum counts.entries).find? fun e => s.isQuorum e.2).map (·.1)

/-- The order in which the votes are counted is no more than an order of the counts. -/
theorem exists_quorumBlock (s : VoteSet C)
    (itVotes : IterOrder (Sigma fun _ : Bytes 32 => Vote))
    (itCounts : IterOrder (Sigma fun _ : BlockHash => Nat)) :
    ∃ it, s.quorumBlockIn itVotes itCounts = s.quorumBlock it := by
  have hcounts := HashMap.tally_perm
    ((itVotes.perm s.votes.entries).filterMap fun e => e.2.blockHash)
  obtain ⟨it, hit⟩ := IterOrder.exists_enum ((itCounts.perm _).trans hcounts)
  refine ⟨it, ?_⟩
  unfold quorumBlock counts
  rw [hit]
  rfl

/-- `quorum_block` answers the one hash that has a quorum, in any order. -/
theorem quorumBlock_eq_some_iff {s : VoteSet C}
    (hone : ∀ b b', s.hasQuorum b = true → s.hasQuorum b' = true → b = b')
    {it : IterOrder (Sigma fun _ : BlockHash => Nat)} {b : BlockHash} :
    s.quorumBlock it = some b ↔ s.hasQuorumFor b = true := by
  refine ⟨quorumBlock_some, ?_⟩
  intro hb
  cases hq : s.quorumBlock it with
  | none => exact absurd (hb.symm.trans (quorumBlock_none hq b)) (by decide)
  | some b' => exact hone (some b') (some b) (quorumBlock_some hq) hb

/-! ## Sets fed by the validators -/

section Validators

variable {t : VoteType} {h : Height} {r : Round} {n : Nat} {votes : List Vote}
  {W : Finset ValidatorId}

theorem voters_collect_subset (hvotes : ∀ v ∈ votes, v.validator ∈ W) (b : Option BlockHash) :
    (collect C t h r n votes).voters b ⊆ W := by
  rw [voters_collect hvotes]
  exact Finset.filter_subset _ _

/-- The checks of such a set are those of 64-bit arithmetic: what it counts is no more than the
validators are, and three times the length of a list of keys fits in a word. -/
theorem hasQuorum_usize (hW : W.card ≤ n) (hvotes : ∀ v ∈ votes, v.validator ∈ W)
    (hn : 3 * n < 2 ^ 64) (b : Option BlockHash) :
    (collect C t h r n votes).hasQuorum b =
      decide (UInt64.ofNat ((collect C t h r n votes).countFor b) * 3 > UInt64.ofNat n * 2) := by
  have hle : (collect C t h r n votes).countFor b ≤ n := by
    rw [← card_voters]
    exact (Finset.card_le_card (voters_collect_subset hvotes b)).trans hW
  have htotal : (collect C t h r n votes).totalValidators = n := totalValidators_collect
  rw [hasQuorum_eq, isQuorum_usize (by omega) (by omega), htotal]

end Validators

/-- **The quorum of a vote set is unique and well defined.** A new set for `n` validators takes any
votes, of any kind and in any order, from at most `n` keys. Under each key it then holds the first
valid vote of that key, and what it counts for a value is the number of keys whose first valid vote
is for it. `quorum_block` answers a hash exactly if that hash has a quorum, in any order of the two
hash maps it goes through. At most one value has a quorum, a block hash or nil. And the quorums of
two such sets over the same validators share more than a third of these. -/
theorem vote_set_quorums {n : Nat} {W : Finset ValidatorId} (hW : W.card ≤ n) {t : VoteType}
    {h : Height} {r : Round} {votes : List Vote} (hvotes : ∀ v ∈ votes, v.validator ∈ W) :
    (∀ key, (collect C t h r n votes).votes.lookup key = Vote.firstValid C t h r votes key) ∧
      (∀ b, (collect C t h r n votes).countFor b = (W.filter fun k =>
        (Vote.firstValid C t h r votes k.asBytes).map (·.blockHash) = some b).card) ∧
      (∀ itVotes itCounts b, (collect C t h r n votes).quorumBlockIn itVotes itCounts = some b ↔
        (collect C t h r n votes).hasQuorumFor b = true) ∧
      (∀ b b', (collect C t h r n votes).hasQuorum b = true →
        (collect C t h r n votes).hasQuorum b' = true → b = b') ∧
      (∀ t' h' r' votes', (∀ v ∈ votes', v.validator ∈ W) → ∀ b b',
        (collect C t h r n votes).hasQuorum b = true →
        (collect C t' h' r' n votes').hasQuorum b' = true →
        ∃ shared ⊆ W, n < 3 * shared.card ∧
          shared ⊆ (collect C t h r n votes).voters b ∧
          shared ⊆ (collect C t' h' r' n votes').voters b') := by
  have hone : ∀ b b', (collect C t h r n votes).hasQuorum b = true →
      (collect C t h r n votes).hasQuorum b' = true → b = b' := by
    intro b b' hb hb'
    refine quorum_unique (voters_collect_subset hvotes) ?_ hb hb'
    rw [totalValidators_collect]
    exact hW
  refine ⟨lookup_collect, ?_, ?_, hone, ?_⟩
  · intro b
    rw [← card_voters, voters_collect hvotes]
  · intro itVotes itCounts b
    obtain ⟨it, hit⟩ := exists_quorumBlock (collect C t h r n votes) itVotes itCounts
    rw [hit]
    exact quorumBlock_eq_some_iff hone
  · intro t' h' r' votes' hvotes' b b' hb hb'
    rw [hasQuorum_iff, totalValidators_collect] at hb hb'
    have hsub := voters_collect_subset (C := C) (t := t) (h := h) (r := r) (n := n) hvotes b
    have hsub' := voters_collect_subset (C := C) (t := t') (h := h') (r := r') (n := n) hvotes' b'
    exact ⟨_, Finset.inter_subset_left.trans hsub,
      lt_three_mul_card_inter hW hsub hsub' hb hb', Finset.inter_subset_left,
      Finset.inter_subset_right⟩

/-- A prevote for round 0 of height 1. -/
def pollVote (b : Option BlockHash) (key : UInt8) : Vote :=
  Vote.new Crates.sample .prevote ⟨1⟩ ⟨0⟩ b (Crates.sampleKey key)

def pollHash (b : UInt8) : BlockHash := ⟨Bytes.fill 32 b⟩

def pollKeys : Finset ValidatorId :=
  {⟨Crates.sampleKey 1⟩, ⟨Crates.sampleKey 2⟩, ⟨Crates.sampleKey 3⟩, ⟨Crates.sampleKey 4⟩}

/-- Key 1 contradicts itself, key 2 repeats itself, and the first vote of key 3 was tampered
with. -/
def pollVotes : List Vote :=
  [pollVote (some (pollHash 0xAA)) 1, pollVote (some (pollHash 0xBB)) 1,
   pollVote (some (pollHash 0xAA)) 2, pollVote (some (pollHash 0xAA)) 2,
   { pollVote (some (pollHash 0xAA)) 3 with blockHash := some (pollHash 0xBB) },
   pollVote (some (pollHash 0xAA)) 3, pollVote none 4]

theorem vote_set_quorums_poll :
    pollKeys.card ≤ 4 ∧ (∀ v ∈ pollVotes, v.validator ∈ pollKeys) ∧
      ∀ itVotes itCounts, (collect Crates.sample .prevote ⟨1⟩ ⟨0⟩ 4 pollVotes).quorumBlockIn
        itVotes itCounts = some (pollHash 0xAA) := by
  have hW : pollKeys.card ≤ 4 := by decide +kernel
  have hvotes : ∀ v ∈ pollVotes, v.validator ∈ pollKeys := by decide +kernel
  have hquorum : (collect Crates.sample .prevote ⟨1⟩ ⟨0⟩ 4 pollVotes).hasQuorumFor
      (pollHash 0xAA) = true := by decide +kernel
  refine ⟨hW, hvotes, fun itVotes itCounts => ?_⟩
  exact ((vote_set_quorums hW hvotes).2.2.1 itVotes itCounts (pollHash 0xAA)).mpr hquorum

-- two votes for each of two hashes: all have voted, and nothing has a quorum
example :
    let s := collect Crates.sample .prevote ⟨1⟩ ⟨0⟩ 4
      [pollVote (some (pollHash 0xAA)) 1, pollVote (some (pollHash 0xAA)) 2,
       pollVote (some (pollHash 0xBB)) 3, pollVote (some (pollHash 0xBB)) 4]
    s.NoPolka ∧ s.hasTwoThirdsAny = true := by
  decide +kernel

end VoteSet

end Trv1Chain
