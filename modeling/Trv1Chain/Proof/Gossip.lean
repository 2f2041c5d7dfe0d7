import Trv1Chain.Lib.Team
import Trv1Chain.Proof.Bans

/-!
# Gossip

The runners of several nodes on one gossip network, with any codec that reads back what it has
written. A peer that passes on nothing but what some runner has published is understood by every
other: each message it brings is handed to the consensus loop, and is one that the loop of some node
gave its runner to broadcast before (`gossip_faithful`). Such a peer never loses a point, whatever
the others send. The two topics carry different types, so it matters that nothing published on one
is delivered on the other.
-/

set_option autoImplicit false

namespace Trv1Chain

open Lib

namespace Network

variable {ι PeerId TopicHash : Type} [DecidableEq ι] [DecidableEq PeerId] [DecidableEq TopicHash]

/-- The runners, by node. -/
abbrev Mesh (ι PeerId TopicHash : Type) := ι → NetworkRunner PeerId TopicHash

/-- One runner takes a turn. -/
def Mesh.step (codec : Codec PeerId) :
    Mesh ι PeerId TopicHash → ι × NetworkEvent PeerId TopicHash →
    Option (Mesh ι PeerId TopicHash × List (ι × NetworkOutput TopicHash)) :=
  teamStep fun r e => r.run codec e

abbrev MeshHistory (ι PeerId TopicHash : Type) :=
  List (Turn (Mesh ι PeerId TopicHash) (ι × NetworkEvent PeerId TopicHash)
    (ι × NetworkOutput TopicHash))

/-- Every interleaving of the runners' turns. -/
def Mesh.Runs (codec : Codec PeerId) (w₀ : Mesh ι PeerId TopicHash)
    (hist : MeshHistory ι PeerId TopicHash) (w : Mesh ι PeerId TopicHash) : Prop :=
  Run (Mesh.step codec) (fun _ _ => True) w₀ hist w

/-- Runners at the start. -/
def Mesh.new (topic txTopic : TopicHash) (banThreshold : ι → Int64) :
    Mesh ι PeerId TopicHash := fun i => .new topic txTopic (banThreshold i)

/-- What the peers in `H` bring has been published, on the topic it comes on. -/
def Honest (H : Set PeerId) (hist : MeshHistory ι PeerId TopicHash) : Prop :=
  ∀ τ past, τ :: past <:+ hist → ∀ m ∈ τ.event.2.gossip, m.1 ∈ H →
    ∃ o ∈ outputs past, o.2 = .publish m.2.1 m.2.2

omit [DecidableEq ι] [DecidableEq PeerId] [DecidableEq TopicHash] in
theorem Honest.of_suffix {H : Set PeerId} {hist past : MeshHistory ι PeerId TopicHash}
    (h : Honest H hist) (hsuf : past <:+ hist) : Honest H past :=
  fun σ older hσ => h σ older (hσ.trans hsuf)

/-! ## One runner -/

namespace NetworkRunner

variable {codec : Codec PeerId} {r r' : NetworkRunner PeerId TopicHash}
  {e : NetworkEvent PeerId TopicHash} {out : List (NetworkOutput TopicHash)}

theorem run_topics (h : r.run codec e = some (r', out)) :
    r'.topic = r.topic ∧ r'.txTopic = r.txTopic := by
  cases e with
  | message p topic data =>
    rcases onMessage_cases h with ⟨-, rfl, -⟩ | ⟨-, rfl, -⟩ | ⟨-, -, rfl, -⟩
    · exact ⟨rfl, rfl⟩
    · exact ⟨rfl, rfl⟩
    · exact ⟨rfl, rfl⟩
  | _ => cases h; exact ⟨rfl, rfl⟩

/-- What a runner publishes is what its loop gave it. -/
theorem run_publishes (h : r.run codec e = some (r', out)) {topic : TopicHash}
    {data : List UInt8} (hpub : .publish topic data ∈ out) :
    (∃ msg, e = .broadcast msg ∧ topic = r.topic ∧
        codec.encodeConsensusMessage msg = some data) ∨
      ∃ tx, e = .broadcastTransaction tx ∧ topic = r.txTopic ∧
        codec.encodeTransaction tx = some data := by
  cases e with
  | message p topic data =>
    rcases onMessage_cases h with ⟨-, -, o, rfl, hfwd⟩ | ⟨-, -, rfl⟩ | ⟨-, -, -, rfl⟩
    · rw [List.mem_singleton] at hpub
      rw [← hpub] at hfwd
      exact hfwd.elim
    · cases hpub
    · cases hpub
  | broadcast msg =>
    cases h
    obtain ⟨data', hdata, heq⟩ := Option.map_eq_some_iff.mp (Option.mem_toList.mp hpub)
    cases heq
    exact .inl ⟨msg, rfl, rfl, hdata⟩
  | broadcastTransaction tx =>
    cases h
    obtain ⟨data', hdata, heq⟩ := Option.map_eq_some_iff.mp (Option.mem_toList.mp hpub)
    cases heq
    exact .inr ⟨tx, rfl, rfl, hdata⟩
  | _ => cases h; cases hpub

/-- A consensus message that can be read is handed on. -/
theorem onMessage_decoded {p : PeerId} {data : List UInt8} {msg : ConsensusMessage}
    (hdec : codec.decodeConsensusMessage data = some msg)
    (h : r.onMessage codec p r.topic data = some (r', out)) :
    r' = r ∧ out = [.consensus ⟨codec.toBytes p, msg⟩] := by
  unfold onMessage at h
  rw [if_pos rfl, hdec] at h
  dsimp only at h
  split at h
  · cases h
    exact ⟨rfl, rfl⟩
  · cases h

/-- And so is a transaction. -/
theorem onMessage_decodedTransaction {p : PeerId} {data : List UInt8} {tx : Transaction}
    (hdec : codec.decodeTransaction data = some tx) (hne : r.txTopic ≠ r.topic)
    (h : r.onMessage codec p r.txTopic data = some (r', out)) :
    r' = r ∧ out = [.transaction tx] := by
  unfold onMessage at h
  rw [if_neg hne, if_pos rfl, hdec] at h
  dsimp only at h
  split at h
  · cases h
    exact ⟨rfl, rfl⟩
  · cases h

/-- A point is lost to a message that does not decode, and to nothing else. -/
theorem run_score {p : PeerId}
    (hzero : ∀ s ∈ r.peerManager.score p, s = 0) (h : r.run codec e = some (r', out))
    (hfine : ∀ topic data, e = .message p topic data → r' = r) :
    ∀ s ∈ r'.peerManager.score p, s = 0 := by
  cases e with
  | message q topic data =>
    rcases onMessage_cases h with ⟨-, rfl, -⟩ | ⟨-, hr, -⟩ | ⟨-, -, rfl, -⟩
    · exact hzero
    · by_cases hpq : p = q
      · subst hpq
        rw [hfine topic data rfl]
        exact hzero
      · have hscore := r.peerManager.score_adjustScore q (-10) p
        rw [if_neg hpq] at hscore
        rw [hr]
        show ∀ s ∈ (r.peerManager.adjustScore q (-10)).1.score p, s = 0
        rw [hscore]
        exact hzero
    · exact hzero
  | connectionEstablished q now =>
    cases h
    show ∀ s ∈ (r.peerManager.addPeer q none now).score p, s = 0
    rw [r.peerManager.score_addPeer q none now p]
    split
    · rename_i hpq
      subst hpq
      cases hs : r.peerManager.score p with
      | none => simp
      | some s =>
        rw [hs] at hzero
        simpa using hzero
    · exact hzero
  | connectionClosed q =>
    cases h
    show ∀ s ∈ (r.peerManager.removePeer q).1.score p, s = 0
    rw [r.peerManager.score_removePeer q p]
    split
    · simp
    · exact hzero
  | _ => cases h; exact hzero

end NetworkRunner

/-! ## The mesh -/

section Mesh

variable {codec : Codec PeerId} {H : Set PeerId} {topic txTopic : TopicHash}
  {hist : MeshHistory ι PeerId TopicHash} {w : Mesh ι PeerId TopicHash}

/-- The loop of some node has given its runner this to broadcast. -/
def Given (e : NetworkEvent PeerId TopicHash) (hist : MeshHistory ι PeerId TopicHash) : Prop :=
  ∃ τ ∈ hist, ∃ j, τ.event = (j, e)

omit [DecidableEq ι] [DecidableEq PeerId] [DecidableEq TopicHash] in
theorem Given.cons {e : NetworkEvent PeerId TopicHash} (h : Given e hist) (τ) :
    Given e (τ :: hist) := by
  obtain ⟨σ, hσ, j, he⟩ := h
  exact ⟨σ, List.mem_cons_of_mem _ hσ, j, he⟩

/-- What was published is the encoding of something that was given. -/
def Published (codec : Codec PeerId) (topic txTopic : TopicHash)
    (hist : MeshHistory ι PeerId TopicHash) : Prop :=
  ∀ j t data, (j, .publish t data) ∈ outputs hist →
    (t = topic ∧ ∃ msg, codec.encodeConsensusMessage msg = some data ∧
        Given (.broadcast msg) hist) ∨
      (t = txTopic ∧ ∃ tx, codec.encodeTransaction tx = some data ∧
        Given (.broadcastTransaction tx) hist)

/-- The state of the mesh: the topics are the common ones, what was published is known, and the
peers in `H` have lost no points. -/
structure Tidy (codec : Codec PeerId) (H : Set PeerId) (topic txTopic : TopicHash)
    (hist : MeshHistory ι PeerId TopicHash) (w : Mesh ι PeerId TopicHash) : Prop where
  topics : ∀ i, (w i).topic = topic ∧ (w i).txTopic = txTopic
  published : Published codec topic txTopic hist
  scores : ∀ i, ∀ p ∈ H, ∀ s ∈ (w i).peerManager.score p, s = 0

omit [DecidableEq ι] in
/-- What an honest peer brings is handed on, and was given before. -/
theorem Tidy.message (ht : Tidy codec H topic txTopic hist w) (hcodec : codec.ReadsBack)
    (hne : txTopic ≠ topic) {i : ι} {p : PeerId} {t : TopicHash}
    {data : List UInt8} (hrelayed : ∃ o ∈ outputs hist, o.2 = .publish t data)
    {r : NetworkRunner PeerId TopicHash} {out : List (NetworkOutput TopicHash)}
    (h : (w i).run codec (.message p t data) = some (r, out)) :
    r = w i ∧ ((∃ msg, out = [.consensus ⟨codec.toBytes p, msg⟩] ∧ Given (.broadcast msg) hist) ∨
      ∃ tx, out = [.transaction tx] ∧ Given (.broadcastTransaction tx) hist) := by
  obtain ⟨⟨j, o⟩, hpub, rfl⟩ := hrelayed
  obtain ⟨htopic, htxTopic⟩ := ht.topics i
  rcases ht.published j t data hpub with ⟨rfl, msg, henc, hgiven⟩ | ⟨rfl, tx, henc, hgiven⟩
  · rw [← htopic] at h
    obtain ⟨hr, hout⟩ := NetworkRunner.onMessage_decoded (hcodec.consensusMessage henc) h
    exact ⟨hr, .inl ⟨msg, hout, hgiven⟩⟩
  · rw [← htopic, ← htxTopic] at hne
    rw [← htxTopic] at h
    obtain ⟨hr, hout⟩ := NetworkRunner.onMessage_decodedTransaction (hcodec.transaction henc) hne h
    exact ⟨hr, .inr ⟨tx, hout, hgiven⟩⟩

/-- **One turn of one runner.** -/
theorem Tidy.step (ht : Tidy codec H topic txTopic hist w) (hcodec : codec.ReadsBack)
    (hne : txTopic ≠ topic) {e : ι × NetworkEvent PeerId TopicHash} {w' : Mesh ι PeerId TopicHash}
    {out : List (ι × NetworkOutput TopicHash)}
    (hstep : w.step codec e = some (w', out))
    (hh : Honest H (⟨w, e, w', out⟩ :: hist)) :
    Tidy codec H topic txTopic (⟨w, e, w', out⟩ :: hist) w' := by
  obtain ⟨i, e⟩ := e
  obtain ⟨r, out, hrun, rfl, rfl⟩ := teamStep_some hstep
  have hfine : ∀ p ∈ H, ∀ t data, e = .message p t data → r = w i := by
    rintro p hp t data rfl
    have hrelayed := hh _ hist List.suffix_rfl (p, t, data) rfl hp
    exact (ht.message hcodec hne hrelayed hrun).1
  refine ⟨fun k => ?_, ?_, fun k p hp => ?_⟩
  · by_cases hk : k = i
    · subst hk
      rw [Function.update_self, (NetworkRunner.run_topics hrun).1,
        (NetworkRunner.run_topics hrun).2]
      exact ht.topics k
    · rw [Function.update_of_ne hk]
      exact ht.topics k
  · intro j t data hpub
    rw [outputs_cons, List.mem_append] at hpub
    rcases hpub with hnew | hold
    · obtain ⟨o, ho, heq⟩ := List.mem_map.mp hnew
      obtain ⟨rfl, rfl⟩ := Prod.mk.inj heq
      rcases NetworkRunner.run_publishes hrun ho with
        ⟨msg, rfl, htopic, hdata⟩ | ⟨tx, rfl, htopic, hdata⟩
      · exact .inl ⟨htopic.trans (ht.topics i).1, msg, hdata, _, List.mem_cons_self, i, rfl⟩
      · exact .inr ⟨htopic.trans (ht.topics i).2, tx, hdata, _, List.mem_cons_self, i, rfl⟩
    · rcases ht.published j t data hold with ⟨htopic, msg, hdata, hg⟩ | ⟨htopic, tx, hdata, hg⟩
      · exact .inl ⟨htopic, msg, hdata, hg.cons _⟩
      · exact .inr ⟨htopic, tx, hdata, hg.cons _⟩
  · by_cases hk : k = i
    · subst hk
      rw [Function.update_self]
      exact NetworkRunner.run_score (ht.scores k p hp) hrun (hfine p hp)
    · rw [Function.update_of_ne hk]
      exact ht.scores k p hp

theorem tidy_of_runs {banThreshold : ι → Int64} (hcodec : codec.ReadsBack)
    (hne : txTopic ≠ topic) (hr : Mesh.Runs codec (.new topic txTopic banThreshold) hist w)
    (hh : Honest H hist) : Tidy codec H topic txTopic hist w := by
  refine hr.invariant (I := fun hist w => Honest H hist → Tidy codec H topic txTopic hist w)
    ?_ ?_ hh
  · intro _
    refine ⟨fun _ => ⟨rfl, rfl⟩, ?_, ?_⟩
    · intro j t data hpub
      cases hpub
    · intro i p _ s hs
      cases hs
  · intro hist w e w' out _ ih _ hstep hh
    exact (ih (hh.of_suffix (List.suffix_cons _ _))).step hcodec hne hstep hh

/-- **Gossip is faithful.** With a codec that reads back what it has written, in every interleaving
of the runners' turns, each message that an honest peer brings is handed to the consensus loop, and
is one that the loop of some node gave its runner before. An honest peer's score stays zero at every
runner it is connected to, whatever other peers send. -/
theorem gossip_faithful {banThreshold : ι → Int64} (hcodec : codec.ReadsBack)
    (hne : txTopic ≠ topic) (hr : Mesh.Runs codec (.new topic txTopic banThreshold) hist w)
    (hh : Honest H hist) :
    (∀ τ past, τ :: past <:+ hist → ∀ i p t data, τ.event = (i, .message p t data) → p ∈ H →
      (∃ msg, τ.out = [(i, .consensus ⟨codec.toBytes p, msg⟩)] ∧ Given (.broadcast msg) past) ∨
        ∃ tx, τ.out = [(i, .transaction tx)] ∧ Given (.broadcastTransaction tx) past) ∧
    ∀ i, ∀ p ∈ H, ∀ s ∈ (w i).peerManager.score p, s = 0 := by
  refine ⟨fun τ past hsuf i p t data he hp => ?_, (tidy_of_runs hcodec hne hr hh).scores⟩
  obtain ⟨hpast, -, hstep⟩ := hr.of_suffix hsuf
  have hhonest := hh.of_suffix ((List.suffix_cons τ past).trans hsuf)
  have hrelayed := hh τ past hsuf (p, t, data) (by rw [he]; rfl) hp
  rw [he] at hstep
  obtain ⟨r, out, hrun, -, hout⟩ := teamStep_some hstep
  obtain ⟨-, hcases⟩ := (tidy_of_runs hcodec hne hpast hhonest).message hcodec hne hrelayed hrun
  rw [hout]
  rcases hcases with ⟨msg, rfl, hgiven⟩ | ⟨tx, rfl, hgiven⟩
  · exact .inl ⟨msg, rfl, hgiven⟩
  · exact .inr ⟨tx, rfl, hgiven⟩

end Mesh

/-! ## A network of two -/

/-- Two messages that can be written, and one transaction. -/
def twoMessages : List ConsensusMessage := [.commitBlock ⟨4⟩ .default, .commitBlock ⟨5⟩ .default]

def oneTransaction : Transaction := ⟨Bytes.fill 32 1, Bytes.fill 32 2, 10, 0, [], [4, 2]⟩

def listedCodec : Codec Nat := .listed twoMessages [oneTransaction] fun p => leBytes 8 p

/-- One node announces a commit and gossips a transaction. The other hears both from peer 7, and
between them bytes from peer 8 that are no message. -/
def twoRunners : List (Bool × NetworkEvent Nat Bool) :=
  [(true, .connectionEstablished 7 100), (true, .connectionEstablished 8 101),
    (false, .broadcast (.commitBlock ⟨5⟩ .default)), (false, .broadcastTransaction oneTransaction),
    (true, .message 7 true [0]), (true, .message 8 true [1, 2, 3]), (true, .message 7 false [])]

theorem gossip_faithful_two :
    ∃ hist w, Mesh.Runs listedCodec (.new true false fun _ => -100) hist w ∧ hist.length = 7 ∧
      (w true).peerManager.score 8 = some (-10) ∧
      (∀ τ past, τ :: past <:+ hist → ∀ i p t data, τ.event = (i, .message p t data) → p = 7 →
        (∃ msg, τ.out = [(i, .consensus ⟨leBytes 8 7, msg⟩)] ∧ Given (.broadcast msg) past) ∨
          ∃ tx, τ.out = [(i, .transaction tx)] ∧ Given (.broadcastTransaction tx) past) ∧
      (∀ s ∈ (w true).peerManager.score 7, s = 0) ∧
      (w true).peerManager.score 7 ≠ none := by
  obtain ⟨hist, w, hr, hlen, hbad, hthere, hrelayed⟩ : ∃ hist w,
      Mesh.Runs listedCodec (.new true false fun _ => -100) hist w ∧
      hist.length = 7 ∧ (w true).peerManager.score 8 = some (-10) ∧
      (w true).peerManager.score 7 ≠ none ∧
      ∀ τ past, τ :: past <:+ hist → ∀ m ∈ τ.event.2.gossip, m.1 = 7 →
        ∃ o ∈ outputs past, o.2 = .publish m.2.1 m.2.2 :=
    Run.exists_of_replay twoRunners (by decide +kernel)
  have hhonest : Honest {7} hist := hrelayed
  obtain ⟨hheard, hscores⟩ :=
    gossip_faithful (Codec.listed_readsBack _ _ _) (by decide) hr hhonest
  refine ⟨hist, w, hr, hlen, hbad, ?_, hscores true 7 rfl, hthere⟩
  rintro τ past hsuf i p t data he rfl
  exact hheard τ past hsuf i 7 t data he rfl

end Network

end Trv1Chain
