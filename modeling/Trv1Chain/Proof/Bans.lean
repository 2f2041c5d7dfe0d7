import Trv1Chain.Net.Network

/-!
# What a ban is worth

The runner keeps scores and a threshold, but its loop never asks whether a peer is banned: what
decodes is sent on, whoever it comes from. So bans hold in a run exactly if no peer whose penalties
have sunk below the threshold sends anything that decodes (`bans_hold_iff`).

The table itself would know a part of it. While a peer stays connected its score is the sum of its
penalties (`isBanned_iff`), so whoever the table calls banned has earned it
(`outlawed_of_isBanned`). The converse is lost with the connection: the entry is dropped, and a new
one starts at zero.
-/

set_option autoImplicit false

namespace Trv1Chain

open Lib

namespace Network

variable {PeerId TopicHash : Type}

/-- The gossip message an event brings: where from, on which topic, which bytes. -/
def NetworkEvent.gossip : NetworkEvent PeerId TopicHash → Option (PeerId × TopicHash × List UInt8)
  | .message propagationSource topic data => some (propagationSource, topic, data)
  | _ => none

theorem NetworkEvent.eq_message {e : NetworkEvent PeerId TopicHash}
    {m : PeerId × TopicHash × List UInt8} (h : m ∈ e.gossip) : e = .message m.1 m.2.1 m.2.2 := by
  cases e with
  | message p topic data =>
    cases h
    rfl
  | _ => cases h

abbrev NetworkTurn (PeerId TopicHash : Type) :=
  Turn (NetworkRunner PeerId TopicHash) (NetworkEvent PeerId TopicHash) (NetworkOutput TopicHash)

variable [DecidableEq TopicHash]

/-- Every sequence of events. -/
def Served [DecidableEq PeerId] (codec : Codec PeerId) (r₀ : NetworkRunner PeerId TopicHash)
    (hist : List (NetworkTurn PeerId TopicHash)) (r : NetworkRunner PeerId TopicHash) : Prop :=
  Run (NetworkRunner.run codec) (fun _ _ => True) r₀ hist r

variable (codec : Codec PeerId)

namespace NetworkRunner

/-- A message on one of the two topics that decodes as what the topic carries. -/
def Readable (r : NetworkRunner PeerId TopicHash) (topic : TopicHash) (data : List UInt8) : Prop :=
  if topic = r.topic then (codec.decodeConsensusMessage data).isSome = true
  else topic = r.txTopic ∧ (codec.decodeTransaction data).isSome = true

/-- A message on one of the two topics that does not. -/
def Garbled (r : NetworkRunner PeerId TopicHash) (topic : TopicHash) (data : List UInt8) : Prop :=
  if topic = r.topic then (codec.decodeConsensusMessage data).isSome = false
  else topic = r.txTopic ∧ (codec.decodeTransaction data).isSome = false

instance (r : NetworkRunner PeerId TopicHash) (topic : TopicHash) (data : List UInt8) :
    Decidable (r.Readable codec topic data) :=
  inferInstanceAs (Decidable (if topic = r.topic then _ else _))

instance (r : NetworkRunner PeerId TopicHash) (topic : TopicHash) (data : List UInt8) :
    Decidable (r.Garbled codec topic data) :=
  inferInstanceAs (Decidable (if topic = r.topic then _ else _))

end NetworkRunner

/-- An answer that goes to the consensus loop. -/
def NetworkOutput.Forwarded : NetworkOutput TopicHash → Prop
  | .consensus _ | .transaction _ => True
  | .publish _ _ => False

instance : (o : NetworkOutput TopicHash) → Decidable o.Forwarded
  | .consensus _ | .transaction _ => isTrue trivial
  | .publish _ _ => isFalse id

variable {codec}

theorem NetworkRunner.Garbled.not_readable {r : NetworkRunner PeerId TopicHash}
    {topic : TopicHash} {data : List UInt8} (h : r.Garbled codec topic data) :
    ¬ r.Readable codec topic data := by
  unfold Garbled at h
  unfold Readable
  split at h
  · rename_i htopic
    rw [if_pos htopic, h]
    exact Bool.false_ne_true
  · rename_i htopic
    rw [if_neg htopic, h.2]
    exact fun hr => Bool.false_ne_true hr.2

variable [DecidableEq PeerId]

/-- **A gossip message** is sent on, or costs its sender a penalty, or is on neither topic. -/
theorem NetworkRunner.onMessage_cases {r r' : NetworkRunner PeerId TopicHash} {p : PeerId}
    {topic : TopicHash} {data : List UInt8} {out : List (NetworkOutput TopicHash)}
    (h : r.onMessage codec p topic data = some (r', out)) :
    (r.Readable codec topic data ∧ r' = r ∧ ∃ o, out = [o] ∧ o.Forwarded) ∨
    (r.Garbled codec topic data ∧ r' = r.penalise p ∧ out = []) ∨
    (¬ r.Readable codec topic data ∧ ¬ r.Garbled codec topic data ∧ r' = r ∧ out = []) := by
  unfold onMessage at h
  unfold Readable Garbled
  by_cases htopic : topic = r.topic
  · rw [if_pos htopic] at h
    simp only [if_pos htopic]
    cases hdec : codec.decodeConsensusMessage data with
    | none =>
      rw [hdec] at h
      cases h
      exact .inr (.inl ⟨rfl, rfl, rfl⟩)
    | some msg =>
      rw [hdec] at h
      cases hopen : r.msgOpen with
      | false => simp [hopen] at h
      | true =>
        simp only [hopen, if_true, Option.some.injEq, Prod.mk.injEq] at h
        obtain ⟨rfl, rfl⟩ := h
        exact .inl ⟨rfl, rfl, _, rfl, trivial⟩
  · rw [if_neg htopic] at h
    simp only [if_neg htopic]
    by_cases htx : topic = r.txTopic
    · rw [if_pos htx] at h
      cases hdec : codec.decodeTransaction data with
      | none =>
        rw [hdec] at h
        cases h
        exact .inr (.inl ⟨⟨htx, rfl⟩, rfl, rfl⟩)
      | some tx =>
        rw [hdec] at h
        cases hopen : r.txOpen with
        | false => simp [hopen] at h
        | true =>
          simp only [hopen, if_true, Option.some.injEq, Prod.mk.injEq] at h
          obtain ⟨rfl, rfl⟩ := h
          exact .inl ⟨⟨htx, rfl⟩, rfl, _, rfl, trivial⟩
    · rw [if_neg htx] at h
      cases h
      exact .inr (.inr ⟨fun hr => htx hr.1, fun hg => htx hg.1, rfl, rfl⟩)

/-! ## Penalties -/

variable (codec)

/-- In this turn the score of `p` went down. -/
def penalised (p : PeerId) (t : NetworkTurn PeerId TopicHash) : Bool :=
  t.event.gossip.any fun m =>
    decide (m.1 = p ∧ t.before.Garbled codec m.2.1 m.2.2) && (t.before.peerManager.score p).isSome

/-- The sum of the penalties a peer has received, over all its connections. -/
def penalties (p : PeerId) (hist : List (NetworkTurn PeerId TopicHash)) : Int :=
  (hist.map fun t => if penalised codec p t then (-10 : Int) else 0).sum

/-- The peer's penalties have sunk below the threshold. -/
def Outlawed (banThreshold : Int64) (p : PeerId) (hist : List (NetworkTurn PeerId TopicHash)) :
    Prop :=
  penalties codec p hist < banThreshold.toInt

instance (banThreshold : Int64) (p : PeerId) (hist : List (NetworkTurn PeerId TopicHash)) :
    Decidable (Outlawed codec banThreshold p hist) := inferInstanceAs (Decidable (_ < _))

/-- No message of an outlawed peer is sent on. -/
def BansHold (banThreshold : Int64) (hist : List (NetworkTurn PeerId TopicHash)) : Prop :=
  ∀ t past, t :: past <:+ hist → ∀ m ∈ t.event.gossip, Outlawed codec banThreshold m.1 past →
    ∀ o ∈ t.out, ¬ o.Forwarded

/-- An outlawed peer sends nothing that decodes. -/
def OutlawsKeepQuiet (banThreshold : Int64) (hist : List (NetworkTurn PeerId TopicHash)) : Prop :=
  ∀ t past, t :: past <:+ hist → ∀ m ∈ t.event.gossip, Outlawed codec banThreshold m.1 past →
    ¬ t.before.Readable codec m.2.1 m.2.2

instance (banThreshold : Int64) (hist : List (NetworkTurn PeerId TopicHash)) :
    Decidable (BansHold codec banThreshold hist) :=
  decidableForallSuffix (fun (t : NetworkTurn PeerId TopicHash) past => ∀ m ∈ t.event.gossip,
    Outlawed codec banThreshold m.1 past → ∀ o ∈ t.out, ¬ o.Forwarded) hist

instance (banThreshold : Int64) (hist : List (NetworkTurn PeerId TopicHash)) :
    Decidable (OutlawsKeepQuiet codec banThreshold hist) :=
  decidableForallSuffix (fun (t : NetworkTurn PeerId TopicHash) past => ∀ m ∈ t.event.gossip,
    Outlawed codec banThreshold m.1 past → ¬ t.before.Readable codec m.2.1 m.2.2) hist

variable {codec}

/-- A turn that takes up a message sends something on exactly if the message decodes. -/
theorem forwarded_iff {t : NetworkTurn PeerId TopicHash} {m : PeerId × TopicHash × List UInt8}
    (hm : m ∈ t.event.gossip) (hstep : t.before.run codec t.event = some (t.after, t.out)) :
    (∃ o ∈ t.out, o.Forwarded) ↔ t.before.Readable codec m.2.1 m.2.2 := by
  rw [NetworkEvent.eq_message hm] at hstep
  rcases NetworkRunner.onMessage_cases hstep with
    ⟨hreadable, -, o, hout, hfwd⟩ | ⟨hgarbled, -, hout⟩ | ⟨hunread, -, -, hout⟩
  · refine iff_of_true ⟨o, ?_, hfwd⟩ hreadable
    rw [hout]
    exact List.mem_cons_self
  · exact iff_of_false (by simp [hout]) hgarbled.not_readable
  · exact iff_of_false (by simp [hout]) hunread

/-! ## Bans -/

/-- **Bans hold exactly if they are not needed**: in every run, over any connections and any
messages, whatever the threshold. -/
theorem bans_hold_iff {r₀ r : NetworkRunner PeerId TopicHash}
    {hist : List (NetworkTurn PeerId TopicHash)} (hrun : Served codec r₀ hist r) :
    BansHold codec r₀.peerManager.banThreshold hist ↔
      OutlawsKeepQuiet codec r₀.peerManager.banThreshold hist := by
  constructor
  · intro hbans t past hsuf m hm hout hreadable
    obtain ⟨-, -, hstep⟩ := hrun.of_suffix hsuf
    obtain ⟨o, ho, hfwd⟩ := (forwarded_iff hm hstep).mpr hreadable
    exact hbans t past hsuf m hm hout o ho hfwd
  · intro hquiet t past hsuf m hm hout o ho hfwd
    obtain ⟨-, -, hstep⟩ := hrun.of_suffix hsuf
    exact hquiet t past hsuf m hm hout ((forwarded_iff hm hstep).mp ⟨o, ho, hfwd⟩)

/-- An empty message does not decode, and any other is one and the same transaction. -/
def oneTxCodec : Codec Nat where
  encodeConsensusMessage _ := none
  decodeConsensusMessage _ := none
  encodeTransaction _ := some [0]
  decodeTransaction data := if data = [] then none else some ⟨default, default, 1, 0, [], []⟩
  toBytes p := [UInt8.ofNat p]

def twoTopics (banThreshold : Int64) : NetworkRunner Nat Bool := .new true false banThreshold

/-- Every event of these is taken up. -/
def quietCalls : List (NetworkEvent Nat Bool) :=
  [.connectionEstablished 1 0, .connectionEstablished 2 0, .message 1 false [],
    .message 1 true [], .message 2 false [0]]

/-- The first garbled message outlaws peer 1, which sends another; a transaction of peer 2 is sent
on. -/
theorem bans_hold_iff_quiet : ∃ hist r, Served oneTxCodec (twoTopics (-5)) hist r ∧
    Outlawed oneTxCodec (-5) 1 hist ∧ outputs hist ≠ [] ∧ BansHold oneTxCodec (-5) hist := by
  obtain ⟨hist, r, hrun, houtlawed, hanswers, hquiet⟩ : ∃ hist r,
      Served oneTxCodec (twoTopics (-5)) hist r ∧ Outlawed oneTxCodec (-5) 1 hist ∧
        outputs hist ≠ [] ∧ OutlawsKeepQuiet oneTxCodec (-5) hist :=
    Run.exists_of_replay quietCalls (by decide +kernel)
  exact ⟨hist, r, hrun, houtlawed, hanswers, (bans_hold_iff hrun).mpr hquiet⟩

/-- Eleven garbled messages, and then a transaction. -/
def bannedCalls : List (NetworkEvent Nat Bool) :=
  .connectionEstablished 1 0 :: List.replicate 11 (.message 1 false []) ++ [.message 1 false [0]]

/-- The same, with a new connection before the transaction. -/
def returnedCalls : List (NetworkEvent Nat Bool) :=
  .connectionEstablished 1 0 :: List.replicate 11 (.message 1 false []) ++
    [.connectionClosed 1, .connectionEstablished 1 0, .message 1 false [0]]

/-- A transaction of a peer with a score of -110 is sent on while the table calls it banned; after a
new connection the table does not even do that. -/
theorem bans_hold_unheeded :
    (∃ hist r, Served oneTxCodec (twoTopics (-100)) hist r ∧
      ¬ BansHold oneTxCodec (-100) hist ∧ r.peerManager.isBanned 1 = true) ∧
    (∃ hist r, Served oneTxCodec (twoTopics (-100)) hist r ∧
      ¬ BansHold oneTxCodec (-100) hist ∧ Outlawed oneTxCodec (-100) 1 hist ∧
      r.peerManager.isBanned 1 = false) := by
  exact ⟨Run.exists_of_replay bannedCalls (by decide +kernel),
    Run.exists_of_replay returnedCalls (by decide +kernel)⟩

/-! ## What the table knows -/

variable (codec)

/-- The number of penalties a peer has received since it last connected. -/
def sinceJoined (p : PeerId) : List (NetworkTurn PeerId TopicHash) → Nat
  | [] => 0
  | t :: past => match t.event with
    | .connectionClosed q => if p = q then 0 else sinceJoined p past
    | _ => sinceJoined p past + if penalised codec p t then 1 else 0

/-- A peer's entry, if it has one, is ten points down for every penalty since it connected, as far
as the word goes. -/
def Recorded (p : PeerId) (hist : List (NetworkTurn PeerId TopicHash))
    (r : NetworkRunner PeerId TopicHash) : Prop :=
  (r.peerManager.score p = none ∧ sinceJoined codec p hist = 0) ∨
  ∃ score, r.peerManager.score p = some score ∧
    score.toInt = max (-2 ^ 63) (-10 * (sinceJoined codec p hist : Int))

variable {codec}

theorem Recorded.congr {p : PeerId} {hist hist' : List (NetworkTurn PeerId TopicHash)}
    {r r' : NetworkRunner PeerId TopicHash} (h : Recorded codec p hist r)
    (hscore : r'.peerManager.score p = r.peerManager.score p)
    (hsince : sinceJoined codec p hist' = sinceJoined codec p hist) :
    Recorded codec p hist' r' := by
  unfold Recorded
  rw [hscore, hsince]
  exact h

section
variable {p q : PeerId} {r r' : NetworkRunner PeerId TopicHash} {topic : TopicHash}
  {data : List UInt8} {out : List (NetworkOutput TopicHash)}
  {hist : List (NetworkTurn PeerId TopicHash)}

theorem sinceJoined_message :
    sinceJoined codec p (⟨r, .message q topic data, r', out⟩ :: hist) =
      sinceJoined codec p hist + if q = p ∧ r.Garbled codec topic data ∧
        (r.peerManager.score p).isSome = true then 1 else 0 := by
  show sinceJoined codec p hist + (if penalised codec p _ then 1 else 0) = _
  simp [penalised, NetworkEvent.gossip, and_assoc]

/-- A garbled message costs its sender, if it is connected, and nobody else. -/
theorem Recorded.garbled (h : Recorded codec p hist r) (hgarbled : r.Garbled codec topic data) :
    Recorded codec p (⟨r, .message q topic data, r.penalise q, out⟩ :: hist) (r.penalise q) := by
  have hscore := r.peerManager.score_adjustScore q (-10) p
  by_cases hpq : p = q
  · subst hpq
    rw [if_pos rfl] at hscore
    rcases h with ⟨hnone, hzero⟩ | ⟨score, hsome, hvalue⟩
    · left
      rw [hnone] at hscore
      refine ⟨hscore, ?_⟩
      rw [sinceJoined_message, hnone, hzero]
      simp
    · right
      rw [hsome] at hscore
      refine ⟨_, hscore, ?_⟩
      rw [sinceJoined_message, hsome, if_pos ⟨rfl, hgarbled, rfl⟩, toInt_saturatingAddI64,
        show (-10 : Int64).toInt = -10 from rfl]
      omega
  · rw [if_neg hpq] at hscore
    refine h.congr hscore ?_
    rw [sinceJoined_message, if_neg fun hq => hpq hq.1.symm, Nat.add_zero]

theorem recorded_step {e : NetworkEvent PeerId TopicHash} (h : Recorded codec p hist r)
    (hstep : r.run codec e = some (r', out)) :
    Recorded codec p (⟨r, e, r', out⟩ :: hist) r' := by
  cases e with
  | message q topic data =>
    rcases NetworkRunner.onMessage_cases hstep with
      ⟨hreadable, rfl, -⟩ | ⟨hgarbled, rfl, -⟩ | ⟨-, hnot, rfl, -⟩
    · refine h.congr rfl ?_
      rw [sinceJoined_message, if_neg fun hq => hq.2.1.not_readable hreadable, Nat.add_zero]
    · exact h.garbled hgarbled
    · refine h.congr rfl ?_
      rw [sinceJoined_message, if_neg fun hq => hnot hq.2.1, Nat.add_zero]
  | connectionEstablished q now =>
    cases hstep
    have hscore := r.peerManager.score_addPeer q none now p
    by_cases hpq : p = q
    · subst hpq
      rw [if_pos rfl] at hscore
      rcases h with ⟨hnone, hzero⟩ | ⟨score, hsome, hvalue⟩
      · -- A peer that was not there starts with nothing against it.
        rw [hnone] at hscore
        refine .inr ⟨0, hscore, ?_⟩
        show (0 : Int64).toInt = max (-2 ^ 63) (-10 * ((sinceJoined codec p hist : Nat) : Int))
        rw [hzero]
        rfl
      · rw [hsome] at hscore
        exact .inr ⟨score, hscore, hvalue⟩
    · rw [if_neg hpq] at hscore
      exact h.congr hscore rfl
  | connectionClosed q =>
    cases hstep
    have hscore := r.peerManager.score_removePeer q p
    by_cases hpq : p = q
    · rw [if_pos hpq] at hscore
      exact .inl ⟨hscore, if_pos hpq⟩
    · rw [if_neg hpq] at hscore
      exact h.congr hscore (if_neg hpq)
  | otherSwarmEvent => cases hstep; exact h.congr rfl rfl
  | broadcast msg => cases hstep; exact h.congr rfl rfl
  | broadcastTransaction tx => cases hstep; exact h.congr rfl rfl
  | dropMsgReceiver => cases hstep; exact h.congr rfl rfl
  | dropTxReceiver => cases hstep; exact h.congr rfl rfl

theorem banThreshold_step {e : NetworkEvent PeerId TopicHash}
    (hstep : r.run codec e = some (r', out)) :
    r'.peerManager.banThreshold = r.peerManager.banThreshold := by
  cases e with
  | message q topic data =>
    rcases NetworkRunner.onMessage_cases hstep with ⟨-, rfl, -⟩ | ⟨-, rfl, -⟩ | ⟨-, -, rfl, -⟩
    · rfl
    · exact r.peerManager.banThreshold_adjustScore q (-10)
    · rfl
  | _ => cases hstep; rfl

end

/-- **The table**, in every run: a peer is banned exactly if it is connected and its penalties since
it connected, as far as the word goes, are below the threshold. -/
theorem isBanned_iff {topic txTopic : TopicHash} {banThreshold : Int64}
    {hist : List (NetworkTurn PeerId TopicHash)} {r : NetworkRunner PeerId TopicHash}
    (hrun : Served codec (.new topic txTopic banThreshold) hist r) (p : PeerId) :
    r.peerManager.isBanned p = true ↔ (r.peerManager.score p).isSome = true ∧
      max (-2 ^ 63) (-10 * (sinceJoined codec p hist : Int)) < banThreshold.toInt := by
  have hrecorded : Recorded codec p hist r ∧ r.peerManager.banThreshold = banThreshold := by
    refine hrun.invariant (I := fun hist r => Recorded codec p hist r ∧
      r.peerManager.banThreshold = banThreshold) ⟨.inl ⟨rfl, rfl⟩, rfl⟩ ?_
    intro _ _ _ _ _ _ ih _ hstep
    exact ⟨recorded_step ih.1 hstep, (banThreshold_step hstep).trans ih.2⟩
  obtain ⟨⟨hnone, -⟩ | ⟨score, hsome, hvalue⟩, hthreshold⟩ := hrecorded
  · simp [PeerManager.isBanned_eq, hnone]
  · rw [← hvalue]
    simp [PeerManager.isBanned_eq, hsome, hthreshold, Int64.lt_iff_toInt_lt]

theorem sinceJoined_cons_le (p : PeerId) (t : NetworkTurn PeerId TopicHash)
    (past : List (NetworkTurn PeerId TopicHash)) :
    sinceJoined codec p (t :: past) ≤
      sinceJoined codec p past + if penalised codec p t then 1 else 0 := by
  rw [sinceJoined]
  split
  · split
    · exact Nat.zero_le _
    · exact Nat.le_add_right _ _
  · exact Nat.le_refl _

/-- Over all its connections a peer has received at least what it has over the last. -/
theorem penalties_le_sinceJoined (p : PeerId) (hist : List (NetworkTurn PeerId TopicHash)) :
    penalties codec p hist ≤ -10 * (sinceJoined codec p hist : Int) := by
  induction hist with
  | nil => simp [penalties, sinceJoined]
  | cons t past ih =>
    have hcons : sinceJoined codec p (t :: past) ≤ _ := sinceJoined_cons_le p t past
    unfold penalties at ih ⊢
    rw [List.map_cons, List.sum_cons]
    split at hcons <;> rename_i hpenalised
    · rw [if_pos hpenalised]
      omega
    · rw [if_neg hpenalised]
      omega

/-- **A banned peer has earned it.** -/
theorem outlawed_of_isBanned {topic txTopic : TopicHash} {banThreshold : Int64}
    {hist : List (NetworkTurn PeerId TopicHash)} {r : NetworkRunner PeerId TopicHash}
    (hrun : Served codec (.new topic txTopic banThreshold) hist r) {p : PeerId}
    (hbanned : r.peerManager.isBanned p = true) : Outlawed codec banThreshold p hist := by
  have hbelow := ((isBanned_iff hrun p).mp hbanned).2
  have hle : penalties codec p hist ≤ _ := penalties_le_sinceJoined p hist
  unfold Outlawed
  omega

end Network

end Trv1Chain
