import Trv1Chain.Crates
import Mathlib.Data.Finset.Image
import Mathlib.Data.Finset.Card

/-!
# Votes and vote sets

`consensus/bft/src/vote.rs`. A `VoteSet` collects the votes of one type, height and round and
answers whether more than two thirds of `totalValidators` agree.

The Rust field `votes` is private and only `add_vote` writes it. `VoteSet.admitted` is what that
buys: every stored vote matches the set, carries a signature that verifies, and is stored under
its own signer's key. What it does **not** say, because `add_vote` does not check it, is that the
signer is a validator.
-/

set_option autoImplicit false

namespace Trv1Chain

open Lib

namespace Vote

def signBytes (voteType : VoteType) (height : Height) (round : Round)
    (blockHash : Option BlockHash) : List UInt8 :=
  (match voteType with
    | .prevote => 0x01
    | .precommit => 0x02) ::
  (leBytes 8 height.val.toNat ++ (leBytes 4 round.val.toNat ++
    match blockHash with
    | some h => 0x01 :: h.bytes.toList
    | none => [0x00]))

def verify (C : Crates) (v : Vote) : Bool :=
  C.verify v.validator.asBytes (signBytes v.voteType v.height v.round v.blockHash) v.signature

def new (C : Crates) (voteType : VoteType) (height : Height) (round : Round)
    (blockHash : Option BlockHash) (signingKey : Bytes 32) : Vote where
  voteType := voteType
  height := height
  round := round
  blockHash := blockHash
  validator := ⟨C.verifyingKey signingKey⟩
  signature := C.sign signingKey (signBytes voteType height round blockHash)

theorem verify_new {C : Crates} (hC : C.SignatureCorrect) (t : VoteType) (h : Height) (r : Round)
    (b : Option BlockHash) (sk : Bytes 32) : (new C t h r b sk).verify C = true := hC sk _

/-- **The signed bytes determine the vote**: the tag, the two fixed-width words and the marked
hash can each be read back. -/
theorem signBytes_inj {t t' : VoteType} {h h' : Height} {r r' : Round} {b b' : Option BlockHash}
    (he : signBytes t h r b = signBytes t' h' r' b') : t = t' ∧ h = h' ∧ r = r' ∧ b = b' := by
  unfold signBytes at he
  obtain ⟨htag, hrest⟩ := List.cons.inj he
  have ht : t = t' := by cases t <;> cases t' <;> first | rfl | exact absurd htag (by decide)
  obtain ⟨hh, hrest⟩ := List.append_inj hrest (by simp)
  obtain ⟨hr, hb⟩ := List.append_inj hrest (by simp)
  refine ⟨ht, ?_, ?_, ?_⟩
  · cases h; cases h'; exact congrArg Height.mk (leBytes_uint64_inj hh)
  · cases r; cases r'; exact congrArg Round.mk (leBytes_uint32_inj hr)
  · cases b with
    | none => cases b' with
      | none => rfl
      | some h₂ => exact absurd (List.cons.inj hb).1 (by decide)
    | some h₁ => cases b' with
      | none => exact absurd (List.cons.inj hb).1 (by decide)
      | some h₂ =>
        cases h₁; cases h₂
        exact congrArg (fun x => some (BlockHash.mk x)) (Bytes.toList_inj (List.cons.inj hb).2)

/-- What `add_vote` has checked of a vote it stores under `key`. -/
def Admitted (C : Crates) (t : VoteType) (h : Height) (r : Round) (key : Bytes 32)
    (v : Vote) : Prop :=
  v.voteType = t ∧ v.height = h ∧ v.round = r ∧ v.verify C = true ∧ v.validator.asBytes = key

end Vote

structure VoteSet (C : Crates) where
  voteType : VoteType
  height : Height
  round : Round
  totalValidators : Nat
  votes : HashMap (Bytes 32) Vote
  admitted : ∀ e ∈ votes.entries, Vote.Admitted C voteType height round e.1 e.2

namespace VoteSet

variable {C : Crates}

def new (C : Crates) (voteType : VoteType) (height : Height) (round : Round)
    (totalValidators : Nat) : VoteSet C where
  voteType := voteType
  height := height
  round := round
  totalValidators := totalValidators
  votes := ∅
  admitted := fun _ he => absurd he (by simp)

/-- Add a vote; the answer is whether it was newly added. Wrong height, round or type, an invalid
signature and a second vote of the same key are all refused. -/
def addVote (s : VoteSet C) (vote : Vote) : VoteSet C × Bool :=
  if hm : vote.voteType ≠ s.voteType ∨ vote.height ≠ s.height ∨ vote.round ≠ s.round then
    (s, false)
  else if hv : vote.verify C = false then (s, false)
  else if hk : vote.validator.asBytes ∈ s.votes then (s, false)
  else
    ({ s with
        votes := s.votes.insert vote.validator.asBytes vote
        admitted := by
          intro e he
          rw [AList.entries_insert_of_notMem hk, List.mem_cons] at he
          rcases he with rfl | he
          · push Not at hm
            exact ⟨hm.1, hm.2.1, hm.2.2, by simpa using hv, rfl⟩
          · exact s.admitted e he },
     true)

/-- `2/3+` means `count * 3 > total * 2`. -/
def isQuorum (s : VoteSet C) (count : Nat) : Bool := decide (count * 3 > s.totalValidators * 2)

def countFor (s : VoteSet C) (b : Option BlockHash) : Nat :=
  (s.votes.entries.filter fun e => e.2.blockHash = b).length

def hasQuorumFor (s : VoteSet C) (blockHash : BlockHash) : Bool :=
  s.isQuorum (s.countFor (some blockHash))

def hasQuorumForNil (s : VoteSet C) : Bool := s.isQuorum (s.countFor none)

/-- The votes for each block hash, counted: the map `quorum_block` builds. -/
def counts (s : VoteSet C) : HashMap BlockHash Nat :=
  HashMap.tally (s.votes.entries.filterMap fun e => e.2.blockHash)

/-- The first block hash with a quorum, in the order the loop over the counts meets them. -/
def quorumBlock (s : VoteSet C) (it : IterOrder (Sigma fun _ : BlockHash => Nat)) :
    Option BlockHash :=
  ((it.enum s.counts.entries).find? fun e => s.isQuorum e.2).map (·.1)

def count (s : VoteSet C) : Nat := s.votes.entries.length

def hasTwoThirdsAny (s : VoteSet C) : Bool := s.isQuorum s.count

/-! ## Counting -/

theorem count_filterMap (s : VoteSet C) (b : BlockHash) :
    (s.votes.entries.filterMap fun e => e.2.blockHash).count b = s.countFor (some b) := by
  unfold countFor
  induction s.votes.entries with
  | nil => rfl
  | cons e l ih =>
    cases hb : e.2.blockHash with
    | none => simp [hb, ih]
    | some b' =>
      by_cases h : b' = b
      · subst h; simp [hb, ih]
      · simp [hb, ih, h]

/-- What `quorum_block` answers has a quorum, whatever the order. -/
theorem quorumBlock_some {s : VoteSet C} {it : IterOrder (Sigma fun _ : BlockHash => Nat)}
    {b : BlockHash} (h : s.quorumBlock it = some b) : s.hasQuorumFor b = true := by
  unfold quorumBlock at h
  obtain ⟨e, he, rfl⟩ := Option.map_eq_some_iff.mp h
  obtain ⟨hmem, hq⟩ := IterOrder.find?_some he
  rw [HashMap.eq_count_of_mem_tally hmem, count_filterMap] at hq
  exact hq

theorem quorumBlock_none {s : VoteSet C} {it : IterOrder (Sigma fun _ : BlockHash => Nat)}
    (h : s.quorumBlock it = none) (b : BlockHash) : s.hasQuorumFor b = false := by
  unfold quorumBlock at h
  -- a hash without a vote has no entry in the counts, so it is a case of its own
  have hall := IterOrder.find?_none (Option.map_eq_none_iff.mp h)
  by_cases hb : b ∈ s.votes.entries.filterMap fun e => e.2.blockHash
  · have := hall _ (HashMap.mem_tally_entries hb)
    rwa [count_filterMap] at this
  · have hz : s.countFor (some b) = 0 := by
      rw [← count_filterMap, List.count_eq_zero]; exact hb
    rw [hasQuorumFor, hz, isQuorum]
    simp

/-- The signers of the stored votes for `b`. -/
def voters (s : VoteSet C) (b : Option BlockHash) : Finset ValidatorId :=
  ((s.votes.entries.filter fun e => e.2.blockHash = b).map fun e => (⟨e.1⟩ : ValidatorId)).toFinset

theorem mem_voters {s : VoteSet C} {b : Option BlockHash} {k : ValidatorId} :
    k ∈ s.voters b ↔ ∃ v : Vote,
      (⟨k.asBytes, v⟩ : Sigma fun _ : Bytes 32 => Vote) ∈ s.votes.entries ∧ v.blockHash = b := by
  unfold voters
  simp only [List.mem_toFinset, List.mem_map, List.mem_filter, decide_eq_true_eq]
  constructor
  · rintro ⟨⟨key, v⟩, ⟨hmem, hb⟩, rfl⟩
    exact ⟨v, hmem, hb⟩
  · intro ⟨v, hmem, hb⟩
    exact ⟨⟨k.asBytes, v⟩, ⟨hmem, hb⟩, rfl⟩

/-- **Each key is counted once**: the votes for `b` are as many as their signers. -/
theorem card_voters (s : VoteSet C) (b : Option BlockHash) : (s.voters b).card = s.countFor b := by
  unfold voters countFor
  rw [List.toFinset_card_of_nodup, List.length_map]
  have hsub : (s.votes.entries.filter fun e => e.2.blockHash = b).Sublist s.votes.entries :=
    List.filter_sublist
  have hnd : (s.votes.entries.filter fun e => e.2.blockHash = b).NodupKeys :=
    s.votes.nodupKeys.sublist hsub
  have hinj : Function.Injective (fun k : Bytes 32 => (⟨k⟩ : ValidatorId)) :=
    fun a b h => ValidatorId.mk.inj h
  have := List.Nodup.map hinj hnd
  rwa [List.keys, List.map_map] at this

/-- A quorum for `b` is more than two thirds of the total, counted in signers. -/
theorem isQuorum_countFor {s : VoteSet C} {b : Option BlockHash} :
    s.isQuorum (s.countFor b) = true ↔ 2 * s.totalValidators < 3 * (s.voters b).card := by
  rw [isQuorum, card_voters, decide_eq_true_eq]
  omega

/-! ## What `add_vote` does -/

/-- Either nothing changed, or the vote was admitted and stored under its signer's key, which had
no vote before. -/
theorem addVote_cases (s : VoteSet C) (v : Vote) :
    (s.addVote v).1 = s ∨
      Vote.Admitted C s.voteType s.height s.round v.validator.asBytes v ∧
      (s.addVote v).1.votes.entries = ⟨v.validator.asBytes, v⟩ :: s.votes.entries := by
  unfold addVote
  split
  · exact Or.inl rfl
  · split
    · exact Or.inl rfl
    · split
      · exact Or.inl rfl
      · rename_i hm hv hk
        refine Or.inr ⟨?_, AList.entries_insert_of_notMem hk⟩
        push Not at hm
        exact ⟨hm.1, hm.2.1, hm.2.2, by simpa using hv, rfl⟩

/-- Everything but the votes stays. -/
theorem addVote_frame (s : VoteSet C) (v : Vote) :
    (s.addVote v).1.voteType = s.voteType ∧ (s.addVote v).1.height = s.height ∧
      (s.addVote v).1.round = s.round ∧
      (s.addVote v).1.totalValidators = s.totalValidators := by
  unfold addVote
  split
  · exact ⟨rfl, rfl, rfl, rfl⟩
  · split
    · exact ⟨rfl, rfl, rfl, rfl⟩
    · split <;> exact ⟨rfl, rfl, rfl, rfl⟩

@[simp] theorem addVote_voteType (s : VoteSet C) (v : Vote) :
    (s.addVote v).1.voteType = s.voteType := (s.addVote_frame v).1

@[simp] theorem addVote_height (s : VoteSet C) (v : Vote) : (s.addVote v).1.height = s.height :=
  (s.addVote_frame v).2.1

@[simp] theorem addVote_round (s : VoteSet C) (v : Vote) : (s.addVote v).1.round = s.round :=
  (s.addVote_frame v).2.2.1

@[simp] theorem addVote_totalValidators (s : VoteSet C) (v : Vote) :
    (s.addVote v).1.totalValidators = s.totalValidators := (s.addVote_frame v).2.2.2

theorem mem_addVote {s : VoteSet C} {v : Vote} {e : Sigma fun _ : Bytes 32 => Vote}
    (h : e ∈ (s.addVote v).1.votes.entries) : e ∈ s.votes.entries ∨ e.2 = v := by
  rcases s.addVote_cases v with heq | ⟨_, heq⟩
  · rw [heq] at h; exact Or.inl h
  · rw [heq, List.mem_cons] at h
    rcases h with rfl | h
    · exact Or.inr rfl
    · exact Or.inl h

/-! ## Sets without a quorum -/

/-- No block hash has a quorum, and nil has none. -/
def NoPolka (s : VoteSet C) : Prop := (∀ b, s.hasQuorumFor b = false) ∧ s.hasQuorumForNil = false

/-- `quorum_block` tells, in any order. -/
theorem noPolka_iff {s : VoteSet C} (it : IterOrder (Sigma fun _ : BlockHash => Nat)) :
    s.NoPolka ↔ s.quorumBlock it = none ∧ s.hasQuorumForNil = false := by
  refine and_congr_left fun _ => ⟨?_, quorumBlock_none⟩
  intro hno
  cases hq : s.quorumBlock it with
  | none => rfl
  | some b =>
    have := quorumBlock_some hq
    rw [hno b] at this
    cases this

instance (s : VoteSet C) : Decidable s.NoPolka :=
  decidable_of_iff (s.quorumBlock IterOrder.stored = none ∧ s.hasQuorumForNil = false)
    (noPolka_iff IterOrder.stored).symm

theorem countFor_le_addVote (s : VoteSet C) (v : Vote) (b : Option BlockHash) :
    s.countFor b ≤ (s.addVote v).1.countFor b := by
  unfold countFor
  rcases s.addVote_cases v with heq | ⟨-, heq⟩
  · rw [heq]
  · rw [heq]
    exact ((List.sublist_cons_self _ _).filter _).length_le

theorem isQuorum_addVote {s : VoteSet C} {v : Vote} {b : Option BlockHash}
    (h : (s.addVote v).1.isQuorum ((s.addVote v).1.countFor b) = false) :
    s.isQuorum (s.countFor b) = false := by
  have hle := s.countFor_le_addVote v b
  simp only [isQuorum, addVote_totalValidators, decide_eq_false_iff_not] at h ⊢
  omega

/-- A quorum once there stays. -/
theorem NoPolka.of_addVote {s : VoteSet C} {v : Vote} (h : (s.addVote v).1.NoPolka) : s.NoPolka :=
  ⟨fun b => isQuorum_addVote (h.1 b), isQuorum_addVote h.2⟩

/-! ## Sets that agree -/

/-- All votes stored are for `x`. -/
def Unanimous (s : VoteSet C) (x : BlockHash) : Prop :=
  ∀ e ∈ s.votes.entries, e.2.blockHash = some x

theorem unanimous_new (t : VoteType) (h : Height) (r : Round) (total : Nat) (x : BlockHash) :
    (new C t h r total).Unanimous x := by
  intro e he
  simp [new] at he

theorem Unanimous.voters_eq_empty {s : VoteSet C} {x : BlockHash} (h : s.Unanimous x)
    {b : Option BlockHash} (hb : b ≠ some x) : s.voters b = ∅ := by
  rw [Finset.eq_empty_iff_forall_notMem]
  intro k hk
  obtain ⟨v, hmem, hvb⟩ := mem_voters.mp hk
  exact hb (hvb.symm.trans (h _ hmem))

theorem Unanimous.quorumBlock_some {s : VoteSet C} {x b : BlockHash}
    {it : IterOrder (Sigma fun _ : BlockHash => Nat)} (h : s.Unanimous x)
    (hq : s.quorumBlock it = some b) :
    b = x ∧ 2 * s.totalValidators < 3 * (s.voters (some x)).card := by
  have hcard := isQuorum_countFor.mp (VoteSet.quorumBlock_some hq)
  by_cases hb : b = x
  · rw [← hb]
    exact ⟨rfl, hcard⟩
  · rw [h.voters_eq_empty fun heq => hb (Option.some.inj heq)] at hcard
    simp at hcard

theorem quorumBlock_none_card {s : VoteSet C} {it : IterOrder (Sigma fun _ : BlockHash => Nat)}
    (hq : s.quorumBlock it = none) (x : BlockHash) :
    3 * (s.voters (some x)).card ≤ 2 * s.totalValidators := by
  by_contra hlt
  have := isQuorum_countFor.mpr (Nat.lt_of_not_le hlt)
  have hnone := quorumBlock_none hq x
  unfold hasQuorumFor at hnone
  rw [this] at hnone
  cases hnone

theorem Unanimous.hasQuorumForNil {s : VoteSet C} {x : BlockHash} (h : s.Unanimous x) :
    s.hasQuorumForNil = false := by
  unfold VoteSet.hasQuorumForNil
  rw [← card_voters, h.voters_eq_empty (by simp)]
  simp [isQuorum]

/-- **A matching vote is counted**: its signer is among the voters afterwards, whether the vote
was new or not. -/
theorem Unanimous.addVote {s : VoteSet C} {x : BlockHash} {v : Vote} (h : s.Unanimous x)
    (ht : v.voteType = s.voteType) (hh : v.height = s.height) (hr : v.round = s.round)
    (hver : v.verify C = true) (hx : v.blockHash = some x) :
    (s.addVote v).1.Unanimous x ∧
      (s.addVote v).1.voters (some x) = insert v.validator (s.voters (some x)) := by
  unfold VoteSet.addVote
  rw [dif_neg (by simp [ht, hh, hr]), dif_neg (by simp [hver])]
  by_cases hk : v.validator.asBytes ∈ s.votes
  · -- the key has voted, and for `x` as everyone has
    rw [dif_pos hk]
    refine ⟨h, ?_⟩
    obtain ⟨v', hv'⟩ := List.exists_of_mem_keys hk
    exact (Finset.insert_eq_of_mem (mem_voters.mpr ⟨v', hv', h _ hv'⟩)).symm
  · rw [dif_neg hk]
    constructor
    · intro e he
      rcases HashMap.mem_insert he with rfl | hold
      · exact hx
      · exact h e hold
    · unfold voters
      dsimp only
      rw [AList.entries_insert_of_notMem hk, List.filter_cons_of_pos (by simpa using hx),
        List.map_cons, List.toFinset_cons]

end VoteSet

end Trv1Chain
