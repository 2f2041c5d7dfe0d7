import Mathlib.Data.Finset.Max
import Mathlib.Data.Finset.Powerset
import Trv1Chain.Proof.OpeningCluster

/-!
# A round without faults

A node counts at most the votes of the others, and a follower not the leader's prevote either: that
leaves it `n - 2` prevotes. With six validators or fewer these are no quorum, and no follower ever
precommits.

With seven or more the round commits if no message is overtaken (`Plan.Open.gone`): a node that sees
a quorum of precommits has by then counted the prevotes behind them, and so has precommitted
itself. In other orders it need not commit (`Plan.Stalls`). We hold back the prevotes to all but a
smallest quorum of nodes; these precommit, the others commit on their precommits and are gone before
their own prevotes arrive, and each node of the quorum is left one precommit short.
-/

set_option autoImplicit false

namespace Trv1Chain

open Lib

variable {C : Crates} {n : Nat}

def Packet.phase : Packet n → Nat
  | .proposal => 0
  | .prevote _ => 1
  | .precommit _ => 2

namespace Plan

/-- No packet in flight to `i` is of an earlier phase. -/
def First (P : Multiset (Fin n × Packet n)) (i : Fin n) (pk : Packet n) : Prop :=
  ∀ q, (i, q) ∈ P → pk.phase ≤ q.phase

variable {S : Plan C n} {w : Cluster C n} {P : Multiset (Fin n × Packet n)}
  {F : Multiset (Fin n × ConsensusMessage)}

theorem msg_height (pk : Packet n) : (S.msg pk).height = S.height := by
  cases pk with
  | proposal => exact S.proposal_height
  | prevote j => rfl
  | precommit j => rfl

theorem msg_phase (pk : Packet n) : (S.msg pk).phase = pk.phase := by
  cases pk with
  | proposal => rfl
  | prevote j => rfl
  | precommit j => rfl

/-! ## Deliveries in order -/

theorem OnTrack.mem_inFlight (h : S.OnTrack w P F) {k : Fin n} {msg : ConsensusMessage} :
    (k, msg) ∈ w.inFlight ∧ msg.height = S.height ↔ ∃ pk, (k, pk) ∈ P ∧ S.msg pk = msg := by
  rw [h.inFlight, Multiset.mem_add, Multiset.mem_map]
  constructor
  · rintro ⟨⟨⟨l, pk⟩, hmem, heq⟩ | hmem, hheight⟩
    · cases heq
      exact ⟨pk, hmem, rfl⟩
    · exact absurd hheight (h.foreign _ hmem)
  · rintro ⟨pk, hmem, rfl⟩
    exact ⟨Or.inl ⟨(k, pk), hmem, rfl⟩, msg_height pk⟩

theorem OnTrack.inOrder_iff (h : S.OnTrack w P F) {i : Fin n} (pk : Packet n) :
    Cluster.InOrder S.height w i (S.msg pk) ↔ First P i pk := by
  constructor
  · intro hin q hq
    obtain ⟨hmem, hheight⟩ := h.mem_inFlight.mpr ⟨q, hq, rfl⟩
    have hle := (hin i _ hmem hheight).2 rfl
    rwa [msg_phase, msg_phase] at hle
  · intro hfirst k msg hmem hheight
    obtain ⟨q, hq, rfl⟩ := h.mem_inFlight.mp ⟨hmem, hheight⟩
    refine ⟨msg_height pk, ?_⟩
    rintro rfl
    rw [msg_phase, msg_phase]
    exact hfirst q hq

theorem OnTrack.roundOver_iff (h : S.OnTrack w P F) :
    Cluster.RoundOver S.height w ↔ P = 0 := by
  rw [Multiset.eq_zero_iff_forall_notMem]
  constructor
  · rintro hover ⟨i, pk⟩ hmem
    obtain ⟨hfly, hheight⟩ := h.mem_inFlight.mpr ⟨pk, hmem, rfl⟩
    exact hover _ hfly hheight
  · rintro hnone ⟨i, msg⟩ hfly hheight
    obtain ⟨pk, hmem, -⟩ := h.mem_inFlight.mp ⟨hfly, hheight⟩
    exact hnone _ hmem

/-- Whoever is handed a vote in order has the proposal. -/
theorem OnTrack.past_of_first (h : S.OnTrack w P F) {i : Fin n} {pk : Packet n}
    (hfirst : First P i pk) (hpk : pk ≠ .proposal) : S.Past (w.nodes i) := by
  apply h.past
  intro hmem
  have hle : pk.phase ≤ 0 := hfirst .proposal hmem
  cases pk with
  | proposal => exact hpk rfl
  | prevote j => cases hle
  | precommit j => cases hle

variable (S) in
/-- What is delivered in order finds its node ready. -/
def ReadyInOrder : Prop :=
  ∀ {w : Cluster C n} {P F i pk}, S.OnTrack w P F → (i, pk) ∈ P → First P i pk →
    S.Ready i (w.nodes i) pk

/-- **A run in order stays on track** until the round is over. -/
theorem OnTrack.delivers (hC : C.SignatureCorrect) (hS : S.ReadyInOrder) (h : S.OnTrack w P F)
    {w' : Cluster C n}
    (hd : Delivers Node.Receives sentMessages (Cluster.InOrder S.height) w w') :
    P = 0 ∨ ∃ P' F', S.OnTrack w' P' F' := by
  cases hd with
  | mk i msg rest nd' acts hfly hin hrecv =>
    by_cases hheight : msg.height = S.height
    · right
      have hmsg : (i, msg) ∈ w.inFlight := by rw [hfly]; exact Multiset.mem_cons_self _ _
      obtain ⟨pk, hmem, rfl⟩ := h.mem_inFlight.mp ⟨hmsg, hheight⟩
      have hfirst := (h.inOrder_iff pk).mp hin
      obtain ⟨env, hturn⟩ := hrecv
      obtain ⟨nd'', acts'', new, hturn', ha⟩ :=
        h.takes hC hmem (h.past_of_first hfirst) (hS h hmem hfirst) env
      cases hturn.symm.trans hturn'
      obtain ⟨P', rfl⟩ := Multiset.exists_cons_of_mem hmem
      have hrest : P'.map (Prod.map id S.msg) + F = rest := by
        have heq := h.inFlight.symm.trans hfly
        rw [Multiset.map_cons, Multiset.cons_add] at heq
        exact (Multiset.cons_inj_right _).mp heq
      obtain ⟨F', htrack⟩ := h.deliver ha
      rw [hrest] at htrack
      exact ⟨_, F', htrack⟩
    · -- a message of another height is in order only when the round is over
      left
      apply h.roundOver_iff.mp
      rintro ⟨k, msg'⟩ hmem hheight'
      exact hheight (hin k msg' hmem hheight').1

/-- **Some order ends the round**, if there is always a packet to go on with. -/
theorem OnTrack.exhaust {G : Cluster C n → Fin n → ConsensusMessage → Prop}
    (hC : C.SignatureCorrect)
    (hnext : ∀ {w : Cluster C n} {P F}, S.OnTrack w P F → P ≠ 0 → ∃ i pk, (i, pk) ∈ P ∧
      G w i (S.msg pk) ∧ (pk ≠ .proposal → S.Past (w.nodes i)) ∧ S.Ready i (w.nodes i) pk)
    (h : S.OnTrack w P F) :
    ∃ w' F', Reaches Node.Receives sentMessages G w w' ∧ S.OnTrack w' 0 F' := by
  have hprogress : ∀ w l, (∃ P F, S.OnTrack w P F ∧ load Packet.weight P = l) →
      (∃ F, S.OnTrack w 0 F) ∨ ∃ w' l', Delivers Node.Receives sentMessages G w w' ∧
        (∃ P F, S.OnTrack w' P F ∧ load Packet.weight P = l') ∧ l' < l := by
    rintro w l ⟨P, F, htrack, rfl⟩
    by_cases hP : P = 0
    · subst hP
      exact Or.inl ⟨F, htrack⟩
    · obtain ⟨i, pk, hmem, hG, hpast, hready⟩ := hnext htrack hP
      obtain ⟨w', P', F', hstep, htrack', hlt⟩ := htrack.step hC hmem hG hpast hready
      exact Or.inr ⟨w', _, hstep, ⟨P', F', htrack', rfl⟩, hlt⟩
  obtain ⟨w', -, hreach, ⟨F', hdone⟩, -⟩ := exists_done hprogress _ w ⟨P, F, h, rfl⟩
  exact ⟨w', F', hreach, hdone⟩

/-- One such order takes the earlier phases first. -/
theorem OnTrack.exhaust_inOrder (hC : C.SignatureCorrect) (hS : S.ReadyInOrder)
    (h : S.OnTrack w P F) :
    ∃ w' F', Reaches Node.Receives sentMessages (Cluster.InOrder S.height) w w' ∧
      S.OnTrack w' 0 F' := by
  refine h.exhaust hC ?_
  intro w P F h hP
  obtain ⟨⟨i, pk⟩, hmem, hmin⟩ := P.exists_min_image (fun q => q.2.phase) hP
  have hfirst : First P i pk := fun q hq => hmin (i, q) hq
  exact ⟨i, pk, hmem, (h.inOrder_iff pk).mpr hfirst, h.past_of_first hfirst,
    hS h hmem hfirst⟩

/-! ## Seven validators or more -/

/-- In a cluster of seven the prevotes of the other followers are a quorum. -/
theorem OnTrack.cast (h : S.OnTrack w P F) (hn : 7 ≤ n) (hpast : ∀ k, S.Past (w.nodes k))
    {i : Fin n} (hnone : ∀ j, (i, .prevote j) ∉ P) : S.Cast (w.nodes i) := by
  by_cases hg : S.Gone (w.nodes i)
  · exact Or.inl hg
  have hv : S.Voting i (w.nodes i) := (h.settled i).resolve_left fun hl => hg hl.1
  rcases hv.machine.steps with hs | hs | hs
  · exact absurd hs ((hpast i).resolve_left hg)
  · exfalso
    have hshort := hv.machine.prevoting hs
    have hle : ((Finset.univ.erase S.leader).erase i).card ≤
        (S.prevoters (w.nodes i).bft).card := by
      apply Opening.le_card_of_forall
      intro k hk
      simp only [Finset.mem_erase, Finset.mem_univ, and_true] at hk
      rcases h.tracked i (.prevote k) ⟨hk.2, hpast k⟩ hk.1 with hmem | hg' | hcounted
      · exact absurd hmem (hnone k)
      · exact absurd hg' hg
      · exact hcounted
    -- `n - 2` of them, which is more than two thirds from seven on
    have h₁ := Finset.pred_card_le_card_erase (s := Finset.univ.erase S.leader) (a := i)
    have h₂ := Finset.pred_card_le_card_erase (s := Finset.univ) (a := S.leader)
    rw [Finset.card_univ, Fintype.card_fin] at h₂
    omega
  · exact Or.inr hs

theorem Cast.past {nd : Node C} (h : S.Cast nd) : S.Past nd := by
  refine h.imp_right ?_
  intro hs
  rw [hs]
  simp

variable (S) in
/-- The plan that holds nobody back. -/
structure Open : Prop where
  precommitting : ∀ i, i ∈ S.precommitting
  leaving : ∀ i, i ∈ S.leaving
  large : 7 ≤ n

/-- A quorum of precommits has one of a follower among them. -/
theorem OnTrack.exists_follower (h : S.OnTrack w P F) (hn : 7 ≤ n) {i j : Fin n}
    (hmem : (i, .precommit j) ∈ P) (hv : S.Voting i (w.nodes i))
    (hquorum : 2 * n < 3 * (insert (S.idOf j) (S.precommitters (w.nodes i).bft)).card) :
    ∃ l, l ≠ S.leader ∧ l ≠ i ∧ l ∈ S.precommitting ∧ S.Cast (w.nodes l) := by
  obtain ⟨hdue, hfrom⟩ := h.due i _ hmem
  have hknown : ∀ k ∈ insert (S.idOf j) (S.precommitters (w.nodes i).bft),
      ∃ l, l ≠ i ∧ S.Due w (.precommit l) ∧ k = S.idOf l := by
    intro k hk
    rcases Finset.mem_insert.mp hk with rfl | hk
    · exact ⟨j, hfrom, hdue, rfl⟩
    · obtain ⟨l, -, hl, rfl⟩ := hv.machine.from_precommitted k hk
      exact ⟨l, hl, h.taken i (.precommit l) hv.not_gone hk, rfl⟩
  by_contra hno
  push Not at hno
  have hle := Opening.card_le_of_forall (S := S.toOpening) (T := {S.leader}) fun k hk => by
    obtain ⟨l, hl, hdue, rfl⟩ := hknown k hk
    refine ⟨l, ?_, rfl⟩
    by_contra hne
    exact hno l (fun heq => hne (by rw [heq]; exact Finset.mem_singleton_self _)) hl hdue.1
      hdue.2
  rw [Finset.card_singleton] at hle
  omega

/-- A node to which no prevote is in flight has counted every polka, its own vote in it or not. -/
theorem OnTrack.polka_counted (h : S.OnTrack w P F) {i l : Fin n} (hlead : l ≠ S.leader)
    (hli : l ≠ i) (hl : l ∈ S.precommitting) (hcast : S.Cast (w.nodes l))
    (hv : S.Voting i (w.nodes i)) (hnone : ∀ k, (i, .prevote k) ∉ P) :
    2 * n < 3 * (S.prevoters (w.nodes i).bft).card := by
  obtain ⟨A, hleadA, hlA, hcard, hA⟩ := h.polka hl hcast
  -- the vote of `l` stands in for that of `i`
  have hle : (insert l (A.erase i)).card ≤ (S.prevoters (w.nodes i).bft).card := by
    apply Opening.le_card_of_forall
    intro k hk
    have hk : k ≠ S.leader ∧ S.Past (w.nodes k) ∧ k ≠ i := by
      rcases Finset.mem_insert.mp hk with rfl | hk
      · exact ⟨hlead, hcast.past, hli⟩
      · obtain ⟨hki, hk⟩ := Finset.mem_erase.mp hk
        refine ⟨?_, hA k hk, hki⟩
        rintro rfl
        exact hleadA hk
    rcases h.tracked i (.prevote k) ⟨hk.1, hk.2.1⟩ hk.2.2 with hmem | hg | hcounted
    · exact absurd hmem (hnone k)
    · exact absurd hg hv.not_gone
    · exact hcounted
  rw [Finset.card_insert_of_notMem fun hmem => hlA (Finset.mem_of_mem_erase hmem)] at hle
  have := Finset.pred_card_le_card_erase (s := A) (a := i)
  omega

theorem Open.readyInOrder (hS : S.Open) : S.ReadyInOrder := by
  intro w P F i pk h hmem hfirst
  cases pk with
  | proposal => trivial
  | prevote j => exact Or.inl (hS.precommitting i)
  | precommit j =>
    intro hv hquorum
    refine ⟨hS.leaving i, ?_⟩
    intro _
    obtain ⟨l, hlead, hli, hl, hcast⟩ := h.exists_follower hS.large hmem hv hquorum
    have hcounted := h.polka_counted hlead hli hl hcast hv fun k hk => by
      have hle : 2 ≤ 1 := hfirst (.prevote k) hk
      omega
    rcases hv.machine.steps with hs | hs | hs
    · have hpast := h.past_of_first hfirst (by simp)
      exact absurd hs (hpast.resolve_left hv.not_gone)
    · have hshort := hv.machine.prevoting hs
      omega
    · exact hs

/-- **When the open round is over, everyone has committed.** -/
theorem Open.gone (hS : S.Open) (h : S.OnTrack w 0 F) (i : Fin n) : S.Gone (w.nodes i) := by
  have hn := hS.large
  have hpast : ∀ k, S.Past (w.nodes k) := fun k => h.past (Multiset.notMem_zero _)
  by_contra hg
  have hv : S.Voting i (w.nodes i) := (h.settled i).resolve_left fun hl => hg hl.1
  have hle : (Finset.univ.erase i).card ≤ (S.precommitters (w.nodes i).bft).card := by
    apply Opening.le_card_of_forall
    intro j hj
    have hcast : S.Cast (w.nodes j) := h.cast hn hpast fun k => Multiset.notMem_zero _
    rcases h.tracked i (.precommit j) ⟨hS.precommitting j, hcast⟩ (Finset.ne_of_mem_erase hj)
      with hmem | hg' | hcounted
    · exact absurd hmem (Multiset.notMem_zero _)
    · exact absurd hg' hg
    · exact hcounted
  have hcard := Finset.pred_card_le_card_erase (s := Finset.univ) (a := i)
  rw [Finset.card_univ, Fintype.card_fin] at hcard
  have hshort := hv.machine.uncommitted
  omega

theorem Open.allCommitted (hS : S.Open) (h : S.OnTrack w 0 F) {w₀ : Cluster C n}
    (hproposed : .broadcast (S.msg .proposal) ∈ w₀.log S.leader) :
    Cluster.AllCommitted w₀ w S.height := by
  intro i
  obtain ⟨txs, hmem⟩ := h.committed i (hS.gone h i)
  exact ⟨S.leader, S.proposal, some S.block, txs, hproposed, hmem⟩

/-! ## An order that stalls -/

variable (S) in
/-- The plan that stalls a smallest quorum, with both proposers in it. -/
structure Stalls : Prop where
  leaving : ∀ i, i ∈ S.leaving ↔ i ∉ S.precommitting
  next : S.next ∈ S.precommitting
  quorum : 2 * n < 3 * S.precommitting.card
  tight : 3 * (S.precommitting.card - 1) ≤ 2 * n

/-- A node of the quorum counts one precommit too few. -/
theorem Stalls.ready_precommit (hS : S.Stalls) {i j : Fin n} {nd : Node C}
    (hj : j ∈ S.precommitting) (hij : j ≠ i) : S.Ready i nd (.precommit j) := by
  intro hv hquorum
  have hi : i ∉ S.precommitting := by
    intro hi
    have hle := Opening.card_le_of_forall (S := S.toOpening) (T := S.precommitting.erase i)
      fun k hk => by
        rcases Finset.mem_insert.mp hk with rfl | hk
        · exact ⟨j, Finset.mem_erase.mpr ⟨hij, hj⟩, rfl⟩
        · obtain ⟨l, hl, hli, rfl⟩ := hv.machine.from_precommitted k hk
          exact ⟨l, Finset.mem_erase.mpr ⟨hli, hl⟩, rfl⟩
    rw [Finset.card_erase_of_mem hi] at hle
    have htight := hS.tight
    omega
  exact ⟨(hS.leaving i).mpr hi, fun hi' => absurd hi' hi⟩

/-- In a small cluster the quorum stalls in order. -/
theorem Stalls.readyInOrder (hS : S.Stalls) (hn : n < 7) : S.ReadyInOrder := by
  intro w P F i pk h hmem _
  cases pk with
  | proposal => trivial
  | prevote j =>
    right; right
    omega
  | precommit j =>
    obtain ⟨hdue, hfrom⟩ := h.due i _ hmem
    exact hS.ready_precommit hdue.1 hfrom

/-- Once the quorum has all its prevotes and everyone its precommits, whoever is not in the quorum
is gone. -/
theorem Stalls.late (hS : S.Stalls) (hn : 7 ≤ n) (h : S.OnTrack w P F)
    (hpast : ∀ k, S.Past (w.nodes k))
    (hprevotes : ∀ i ∈ S.precommitting, ∀ j, (i, .prevote j) ∉ P)
    (hprecommits : ∀ i j, (i, .precommit j) ∉ P) {i : Fin n} (hi : i ∉ S.precommitting) :
    S.Gone (w.nodes i) := by
  by_contra hg
  have hv : S.Voting i (w.nodes i) := (h.settled i).resolve_left fun hl => hg hl.1
  have hle : S.precommitting.card ≤ (S.precommitters (w.nodes i).bft).card := by
    apply Opening.le_card_of_forall
    intro j hj
    have hcast : S.Cast (w.nodes j) := h.cast hn hpast (hprevotes j hj)
    have hne : j ≠ i := by
      rintro rfl
      exact hi hj
    rcases h.tracked i (.precommit j) ⟨hj, hcast⟩ hne with hmem | hg' | hcounted
    · exact absurd hmem (hprecommits i j)
    · exact absurd hg' hg
    · exact hcounted
  have hshort := hv.machine.uncommitted
  have hquorum := hS.quorum
  omega

/-- **In a large one there is an order in which it does**: the proposal first, then the prevotes to
the quorum, then the precommits, and the other prevotes last. -/
theorem Stalls.exhaust (hS : S.Stalls) (hn : 7 ≤ n) (hC : C.SignatureCorrect)
    (h : S.OnTrack w P F) :
    ∃ w' F', Reaches Node.Receives sentMessages (fun _ _ _ => True) w w' ∧
      S.OnTrack w' 0 F' := by
  refine h.exhaust hC ?_
  intro w P F h hP
  by_cases hproposal : ∃ i, (i, .proposal) ∈ P
  · obtain ⟨i, hmem⟩ := hproposal
    exact ⟨i, .proposal, hmem, trivial, fun hne => absurd rfl hne, trivial⟩
  have hpast : ∀ k, S.Past (w.nodes k) := fun k => h.past fun hk => hproposal ⟨k, hk⟩
  by_cases hprevotes : ∃ i ∈ S.precommitting, ∃ j, (i, .prevote j) ∈ P
  · obtain ⟨i, hi, j, hmem⟩ := hprevotes
    exact ⟨i, .prevote j, hmem, trivial, fun _ => hpast i, Or.inl hi⟩
  by_cases hprecommits : ∃ i j, (i, .precommit j) ∈ P
  · obtain ⟨i, j, hmem⟩ := hprecommits
    obtain ⟨hdue, hfrom⟩ := h.due i _ hmem
    exact ⟨i, .precommit j, hmem, trivial, fun _ => hpast i, hS.ready_precommit hdue.1 hfrom⟩
  push Not at hproposal hprevotes hprecommits
  obtain ⟨⟨i, pk⟩, hmem⟩ := Multiset.exists_mem_of_ne_zero hP
  refine ⟨i, pk, hmem, trivial, fun _ => hpast i, ?_⟩
  cases pk with
  | proposal => trivial
  | prevote j =>
    -- prevotes to nodes outside the quorum, which are gone
    right; left
    exact hS.late hn h hpast hprevotes hprecommits fun hi => hprevotes i hi j hmem
  | precommit j => exact absurd hmem (hprecommits i j)

/-- A stalled round is over with nothing in flight and nothing committed by the leader. -/
theorem Stalls.not_allCommitted (hS : S.Stalls) (h : S.OnTrack w 0 F) (w₀ : Cluster C n) :
    w.inFlight = 0 ∧ ¬ Cluster.AllCommitted w₀ w S.height := by
  have hstuck : ∀ i ∈ S.precommitting, i ∉ S.leaving := fun i hi hl => (hS.leaving i).mp hl hi
  refine ⟨?_, ?_⟩
  · rw [h.inFlight, h.alone (hstuck _ hS.next), Multiset.map_zero, add_zero]
  · intro hall
    obtain ⟨_, _, _, _, _, hmem⟩ := hall S.leader
    exact h.quiet S.leader (hstuck _ S.leader_precommitting) _ hmem

end Plan

/-! ## Every cluster -/

def proposerAt (hn : 0 < n) (h : Height) : Fin n :=
  ⟨(h.val + (0 : UInt32).toUInt64).toNat % n, Nat.mod_lt _ hn⟩

namespace Cluster

section Launch

variable (hn : 0 < n) {keys : Fin n → Bytes 32}
  (hkeys : Function.Injective fun i => C.verifyingKey (keys i)) (h : Height)
  (nodes : Fin n → Node C) (env : Fin n → Env)

/-- The round that a launch opens, with what its proposer proposes. -/
def opening : Opening C n :=
  let leader := proposerAt hn h
  let nd := nodes leader
  let block := buildBlock C (env leader) h nd.lastBlockHash ⟨C.verifyingKey (keys leader)⟩
    (nd.mempool.getPendingOrdered (env leader).proposePool 100) nd.stateDb
  { keys := keys, height := h, leader := leader, next := proposerAt hn ⟨h.val + 1⟩
    proposal := signProposal C h ⟨0⟩ (block.hash C) (keys leader), block := block
    distinct := hkeys, leader_val := rfl, next_val := rfl
    proposal_height := rfl, proposal_round := rfl, proposal_proposer := rfl, block_hash := rfl }

def plan (V W : Finset (Fin n)) (hV : proposerAt hn h ∈ V) : Plan C n :=
  { opening hn hkeys h nodes env with
    precommitting := V, leaving := W, leader_precommitting := hV }

variable {h nodes}

theorem plan_onTrack (V W : Finset (Fin n)) (hV : proposerAt hn h ∈ V)
    (hfresh : ∀ i, (nodes i).Fresh keys h i) :
    let S := plan hn hkeys h nodes env V W hV
    S.OnTrack (launch nodes env h) (spread S.leader [.proposal]) 0 ∧
      .broadcast (S.msg .proposal) ∈ (launch nodes env h).log S.leader :=
  Plan.onTrack_launch (S := plan hn hkeys h nodes env V W hV) hfresh rfl

variable (h nodes) in
/-- A smallest quorum around the two proposers. -/
theorem exists_stalls : ∃ V W hV, (plan hn hkeys h nodes env V W hV).Stalls := by
  have htwo : ({proposerAt hn h, proposerAt hn ⟨h.val + 1⟩} : Finset (Fin n)).card ≤ 2 :=
    Finset.card_le_two
  have huniv := Finset.card_le_univ ({proposerAt hn h, proposerAt hn ⟨h.val + 1⟩} : Finset (Fin n))
  rw [Fintype.card_fin] at huniv
  obtain ⟨V, hsub, hcard⟩ := Finset.exists_superset_card_eq
    (s := {proposerAt hn h, proposerAt hn ⟨h.val + 1⟩}) (n := 2 * n / 3 + 1) (by omega)
    (by rw [Fintype.card_fin]; omega)
  refine ⟨V, Vᶜ, hsub (by simp), ?_⟩
  constructor
  case leaving => exact fun i => Finset.mem_compl
  case next => exact hsub (by simp [plan, opening])
  case quorum => show 2 * n < 3 * V.card; omega
  case tight => show 3 * (V.card - 1) ≤ 2 * n; omega

theorem inOrderCommits (hC : C.SignatureCorrect) {S : Plan C n} (hS : S.Open)
    {w₀ : Cluster C n} {P : Multiset (Fin n × Packet n)}
    {F : Multiset (Fin n × ConsensusMessage)} (h₀ : S.OnTrack w₀ P F)
    (hproposed : .broadcast (S.msg .proposal) ∈ w₀.log S.leader) :
    InOrderCommits w₀ S.height := by
  intro w hreach hover
  have hinv : AllCommitted w₀ w S.height ∨ ∃ P F, S.OnTrack w P F := by
    refine hreach.invariant (I := fun w => AllCommitted w₀ w S.height ∨ ∃ P F, S.OnTrack w P F)
      (Or.inr ⟨P, F, h₀⟩) ?_
    intro w w' hI hd
    have hkeep : AllCommitted w₀ w S.height → AllCommitted w₀ w' S.height := by
      intro hall i
      obtain ⟨j, p, b, txs, hmem, hcommit⟩ := hall i
      exact ⟨j, p, b, txs, hmem, hd.log_subset i hcommit⟩
    rcases hI with hall | ⟨P, F, htrack⟩
    · exact Or.inl (hkeep hall)
    · rcases htrack.delivers hC hS.readyInOrder hd with rfl | hnext
      · exact Or.inl (hkeep (hS.allCommitted htrack hproposed))
      · exact Or.inr hnext
  rcases hinv with hall | ⟨P, F, htrack⟩
  · exact hall
  · cases htrack.roundOver_iff.mp hover
    exact hS.allCommitted htrack hproposed

end Launch

/-- **A round without faults.** From the launch of round 0 at any height, with any pools, accounts
and blocks, some order of deliveries leaves nothing in flight and not everyone committed. If nothing
is overtaken the round still ends, and then everyone has committed exactly when there are seven
validators or more. -/
theorem fault_free_round (hn : 0 < n) (hC : C.SignatureCorrect) {keys : Fin n → Bytes 32}
    (hkeys : Function.Injective fun i => C.verifyingKey (keys i)) {h : Height}
    {nodes : Fin n → Node C} (hfresh : ∀ i, (nodes i).Fresh keys h i) (env : Fin n → Env) :
    ¬ RoundCommits (launch nodes env h) h ∧
      (∃ w, Reaches Node.Receives sentMessages (InOrder h) (launch nodes env h) w ∧
        RoundOver h w) ∧
      (InOrderCommits (launch nodes env h) h ↔ 7 ≤ n) := by
  obtain ⟨V, W, hV, hstalls⟩ := exists_stalls hn hkeys h nodes env
  have hstart := (plan_onTrack hn hkeys env V W hV hfresh).1
  by_cases hlarge : 7 ≤ n
  · let S := plan hn hkeys h nodes env Finset.univ Finset.univ (Finset.mem_univ _)
    have hopen : S.Open := ⟨fun i => Finset.mem_univ i, fun i => Finset.mem_univ i, hlarge⟩
    obtain ⟨hstart', hproposed⟩ := plan_onTrack hn hkeys env Finset.univ Finset.univ
      (Finset.mem_univ _) hfresh
    refine ⟨?_, ?_, iff_of_true (inOrderCommits hC hopen hstart' hproposed) hlarge⟩
    · intro hcommits
      obtain ⟨w, F, hreach, htrack⟩ := hstalls.exhaust hlarge hC hstart
      obtain ⟨hquiet, hnot⟩ := hstalls.not_allCommitted htrack (launch nodes env h)
      exact hnot (hcommits w hreach hquiet)
    · obtain ⟨w, F, hreach, htrack⟩ := hstart'.exhaust_inOrder hC hopen.readyInOrder
      exact ⟨w, hreach, htrack.roundOver_iff.mpr rfl⟩
  · obtain ⟨w, F, hreach, htrack⟩ :=
      hstart.exhaust_inOrder hC (hstalls.readyInOrder (Nat.lt_of_not_le hlarge))
    obtain ⟨hquiet, hnot⟩ := hstalls.not_allCommitted htrack (launch nodes env h)
    have hover : RoundOver h w := htrack.roundOver_iff.mpr rfl
    refine ⟨?_, ⟨w, hreach, hover⟩, iff_of_false ?_ hlarge⟩
    · intro hcommits
      exact hnot (hcommits w (hreach.weaken fun _ _ _ _ => trivial) hquiet)
    · intro hcommits
      exact hnot (hcommits w hreach hover)

/-! ## Clusters at launch -/

def sampleKeys (i : Fin n) : Bytes 32 := Crates.sampleKey (UInt8.ofNat (i.val + 1))

def launched (i : Fin n) : Node Crates.sample :=
  Node.atLaunch Crates.sample sampleKeys i StateDb.new ⟨FeeConfig.default, 1⟩

theorem launched_fresh (i : Fin n) : (launched i).Fresh sampleKeys ⟨0⟩ i := by
  refine Node.fresh_atLaunch sampleKeys i StateDb.new ?_
  show FeeConfig.default.targetGasPerBlock.toNat * FeeConfig.default.elasticityMultiplier.toNat ≠ 0
  decide

/-- Seven validators, none of them faulty. -/
theorem fault_free_round_seven :
    let w₀ := launch (launched (n := 7)) (fun _ => Node.storedOrder) ⟨0⟩
    ¬ RoundCommits w₀ ⟨0⟩ ∧ InOrderCommits w₀ ⟨0⟩ := by
  intro w₀
  have hkeys : Function.Injective fun i : Fin 7 =>
      Crates.sample.verifyingKey (sampleKeys i) := by
    show ∀ i j : Fin 7, sampleKeys i = sampleKeys j → i = j
    decide +kernel
  obtain ⟨hnot, -, hiff⟩ := fault_free_round (by decide) Crates.sample_signatureCorrect hkeys
    launched_fresh fun _ => Node.storedOrder
  exact ⟨hnot, hiff.mpr (Nat.le_refl 7)⟩

theorem launch_alone (nodes : Fin 1 → Node C) (env : Fin 1 → Env) (h : Height) :
    (launch nodes env h).inFlight = 0 := by
  show ∑ i, spread i (sentMessages ((nodes i).proposeIfProposer (env i) h ⟨0⟩).2) = 0
  exact Finset.sum_eq_zero fun i _ => spread_alone i _

/-- **A lone validator never commits.** It proposes a block and nothing is in flight: its own vote
was dropped, and no other will come. -/
theorem lone_validator_stalls :
    let w₀ := launch (launched (n := 1)) (fun _ => Node.storedOrder) ⟨0⟩
    (∃ p b, .broadcast (.proposeBlock p b) ∈ w₀.log 0) ∧ w₀.inFlight = 0 ∧
      ¬ RoundCommits w₀ ⟨0⟩ := by
  intro w₀
  have hproposer : (launched (0 : Fin 1)).bft.isProposer = true := by decide +kernel
  have hlog : w₀.log 0 = ((launched (0 : Fin 1)).proposeBlock Node.storedOrder
      (sampleKeys (0 : Fin 1)) ⟨0⟩ ⟨0⟩ (launched (0 : Fin 1)).lastBlockHash).2 := by
    show ((launched (0 : Fin 1)).proposeIfProposer Node.storedOrder ⟨0⟩ ⟨0⟩).2 = _
    unfold Node.proposeIfProposer
    rw [hproposer]
    rfl
  have hquiet : w₀.inFlight = 0 := launch_alone _ _ _
  refine ⟨⟨_, _, by rw [hlog]; exact List.mem_singleton.mpr rfl⟩, hquiet, ?_⟩
  intro hcommits
  obtain ⟨_, _, _, _, _, hmem⟩ := hcommits w₀ .refl hquiet 0
  rw [hlog] at hmem
  cases List.mem_singleton.mp hmem

end Cluster

end Trv1Chain
