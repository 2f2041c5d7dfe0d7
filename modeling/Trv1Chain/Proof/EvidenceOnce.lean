import Trv1Chain.Proof.Duplicates
import Trv1Chain.Proof.EvidenceOrder

/-!
# Evidence is acted on once

Three structures are written when a record is processed: the mark in the pool, the history of the
offender and the list that is returned. The pool ties them together. What has led to an event is
marked, and the loop of `process_all_evidence` takes only what is not, each hash once.
-/

set_option autoImplicit false

namespace Trv1Chain

open Lib Staking ValidatorSet

namespace Slashing

/-! ## Records and events -/

/-- What a record and the event it leads to have in common. -/
structure Charge where
  offender : PublicKey
  offense : SlashingOffense
  height : UInt64
  evidenceHash : Bytes 32

def EvidenceRecord.charge (C : Crates) (e : EvidenceRecord) : Charge :=
  ⟨e.offender, e.offense, e.height, e.hash C⟩

def SlashEvent.charge (event : SlashEvent) : Charge :=
  ⟨event.offender, event.offense, event.height, event.evidenceHash⟩

theorem charge_eq_of_report (C : Crates) {e e' : EvidenceRecord} (h : e.report = e'.report) :
    e.charge C = e'.charge C := by
  show e.report.charge C = e'.report.charge C
  rw [h]

/-- The events among the answers of `process_all_evidence`. -/
def Answer.processedEvents : Answer → List SlashEvent
  | .processed events => events
  | _ => []

def processedEvents (hist : List (Turn Economy Call Answer)) : List SlashEvent :=
  (chronicle hist).flatMap Answer.processedEvents

theorem processedEvents_cons (τ : Turn Economy Call Answer)
    (hist : List (Turn Economy Call Answer)) :
    processedEvents (τ :: hist) = processedEvents hist ++ τ.out.flatMap Answer.processedEvents := by
  unfold processedEvents
  rw [chronicle_cons, List.flatMap_append]

theorem Slashes.charges {C : Crates} {s s' : Economy} {e : EvidenceRecord}
    {event : Option SlashEvent} (h : Slashes C s e s' event) :
    (event.toList.map SlashEvent.charge).Sublist [e.charge C] := by
  cases h with
  | unknown _ => exact List.nil_sublist _
  | nothing _ _ => exact List.nil_sublist _
  | slashed _ _ _ => exact List.Sublist.refl _

/-- The loop returns events of the records it meets, in their order. -/
theorem charges_processEvidence (C : Crates) : ∀ (pending : List EvidenceRecord) (s : Economy),
    ((s.processEvidence C pending).2.map SlashEvent.charge).Sublist
      (pending.map fun e => e.charge C) := by
  intro pending
  induction pending with
  | nil => intro s; exact List.Sublist.refl _
  | cons e pending ih =>
    intro s
    rw [Economy.processEvidence_cons, List.map_append, List.map_cons]
    exact (processSingleEvidence_slashes C s e).charges.append (ih _)

/-! ## What is marked -/

/-- The events are of marked records, no two of one. -/
structure Settled (C : Crates) (records : HashMap (Bytes 32) EvidenceRecord)
    (events : List SlashEvent) : Prop where
  marked : ∀ event ∈ events, ∃ e, records.lookup event.evidenceHash = some e ∧
    e.processed = true ∧ event.charge = e.charge C
  once : (events.map SlashEvent.evidenceHash).Nodup

section Pending

variable {C : Crates} {s : Economy} {acc : List EvidenceRecord} {it : EvidenceOrder}

theorem mem_pending {e : EvidenceRecord}
    (h : e ∈ s.engine.evidencePool.getPendingEvidence it) :
    (∃ k, s.engine.evidencePool.records.lookup k = some e) ∧ e.processed = false := by
  obtain ⟨hmem, hopen⟩ := List.mem_filter.mp h
  exact ⟨HashMap.mem_values.mp (it.mem_enum.mp hmem), by simpa using hopen⟩

/-- A stored record is under its own hash. -/
theorem Stored.hash_eq (h : Stored C s.engine.evidencePool.records acc) {k : Bytes 32}
    {e : EvidenceRecord} (he : s.engine.evidencePool.records.lookup k = some e) :
    e.hash C = k := by
  obtain ⟨e₀, -, hhash, hreport⟩ := h.origin he
  rw [← hash_eq_of_report C hreport]
  exact hhash

theorem Stored.pending_nodup (h : Stored C s.engine.evidencePool.records acc) :
    ((s.engine.evidencePool.getPendingEvidence it).map fun e => e.hash C).Nodup := by
  have hkeys : (s.engine.evidencePool.records.values.map fun e => e.hash C) =
      s.engine.evidencePool.records.entries.map Sigma.fst := by
    unfold HashMap.values
    rw [List.map_map]
    apply List.map_congr_left
    intro x hx
    exact h.hash_eq (AList.mem_lookup_iff.mpr hx)
  have hall : (s.engine.evidencePool.records.values.map fun e => e.hash C).Nodup := by
    rw [hkeys]
    exact s.engine.evidencePool.records.nodupKeys
  have hperm := (it.perm s.engine.evidencePool.records.values).map fun e => e.hash C
  exact (hperm.nodup_iff.mpr hall).sublist (List.filter_sublist.map _)

/-- **After the loop nothing is pending.** -/
theorem Stored.none_pending (h : Stored C s.engine.evidencePool.records acc)
    (it it' : EvidenceOrder) :
    (s.processAllEvidence C it).1.engine.evidencePool.getPendingEvidence it' = [] := by
  apply List.eq_nil_iff_forall_not_mem.mpr
  intro e he
  obtain ⟨⟨k, hk⟩, hopen⟩ := mem_pending he
  have hlookup := Economy.lookup_processEvidence C k (s.engine.evidencePool.getPendingEvidence it) s
  obtain ⟨e₀, he₀, rfl⟩ := Option.map_eq_some_iff.mp (hlookup.symm.trans hk)
  unfold Economy.markedIn at hopen
  split at hopen
  · cases hopen
  · -- not met, so marked before; but then it is no longer open
    rename_i hmiss
    refine hmiss ⟨e₀, ?_, h.hash_eq he₀⟩
    refine List.mem_filter.mpr ⟨it.mem_enum.mpr (HashMap.mem_values.mpr ⟨k, he₀⟩), ?_⟩
    rw [hopen]
    rfl

end Pending

/-! ## Over a run -/

section Settled

variable {C : Crates} {s : Economy} {acc : List EvidenceRecord} {events : List SlashEvent}

theorem Settled.insert {records : HashMap (Bytes 32) EvidenceRecord}
    (h : Settled C records events) {k : Bytes 32} (hfresh : records.lookup k = none)
    (e : EvidenceRecord) : Settled C (records.insert k e) events where
  marked := by
    intro event hevent
    obtain ⟨e', he', hmarked⟩ := h.marked event hevent
    have hne : event.evidenceHash ≠ k := by
      intro heq
      rw [heq, hfresh] at he'
      cases he'
    refine ⟨e', ?_, hmarked⟩
    rw [AList.lookup_insert_ne hne]
    exact he'
  once := h.once

/-- **One round of processing**: the events are of records that were open, and are marked now. -/
theorem Settled.processAllEvidence (h : Settled C s.engine.evidencePool.records events)
    (hstored : Stored C s.engine.evidencePool.records acc) (it : EvidenceOrder) :
    Settled C (s.processAllEvidence C it).1.engine.evidencePool.records
      (events ++ (s.processAllEvidence C it).2) := by
  have hlookup := fun k => Economy.lookup_processEvidence C k
    (s.engine.evidencePool.getPendingEvidence it) s
  have hcharges := charges_processEvidence C (s.engine.evidencePool.getPendingEvidence it) s
  have hopen : ∀ event ∈ (s.processAllEvidence C it).2, ∃ e ∈
      s.engine.evidencePool.getPendingEvidence it, e.charge C = event.charge := by
    intro event hevent
    exact List.mem_map.mp (hcharges.subset (List.mem_map_of_mem hevent))
  constructor
  · rw [List.forall_mem_append]
    constructor
    · intro event hevent
      obtain ⟨e, he, hmark, hcharge⟩ := h.marked event hevent
      have hreport := Economy.report_markedIn C (s.engine.evidencePool.getPendingEvidence it)
        event.evidenceHash e
      refine ⟨_, (hlookup _).trans (congrArg (Option.map _) he), ?_,
        hcharge.trans (charge_eq_of_report C hreport).symm⟩
      unfold Economy.markedIn
      split
      · rfl
      · exact hmark
    · intro event hevent
      obtain ⟨e, he, hcharge⟩ := hopen event hevent
      have hhash : e.hash C = event.evidenceHash := congrArg Charge.evidenceHash hcharge
      obtain ⟨⟨k, hk⟩, -⟩ := mem_pending he
      have hkey := hstored.hash_eq hk
      rw [hkey] at hhash
      subst hhash
      refine ⟨_, (hlookup _).trans (congrArg (Option.map _) hk), ?_, ?_⟩
      · unfold Economy.markedIn
        rw [if_pos ⟨e, he, hkey⟩]
      · rw [← hcharge]
        exact charge_eq_of_report C (Economy.report_markedIn C _ _ e).symm
  · rw [List.map_append]
    refine List.Nodup.append h.once ?_ ?_
    · have hsub := hcharges.map Charge.evidenceHash
      rw [List.map_map, List.map_map] at hsub
      exact hstored.pending_nodup.sublist hsub
    · -- an old event's record is marked, a new event's was open
      intro k hold hnew
      obtain ⟨event, hevent, rfl⟩ := List.mem_map.mp hold
      obtain ⟨event', hevent', hsame⟩ := List.mem_map.mp hnew
      obtain ⟨e, he, hmark, -⟩ := h.marked event hevent
      obtain ⟨e', he', hcharge⟩ := hopen event' hevent'
      obtain ⟨⟨k, hk⟩, hfalse⟩ := mem_pending he'
      have hhash : e'.hash C = event'.evidenceHash := congrArg Charge.evidenceHash hcharge
      rw [hstored.hash_eq hk, hsame] at hhash
      rw [hhash, he] at hk
      cases hk
      rw [hmark] at hfalse
      cases hfalse

end Settled

theorem settled_of_run {C : Crates} {G : Economy → Call → Prop} {config : SlashingConfig}
    {vs : ValidatorSetManager} {pool : StakingPool} {hist : List (Turn Economy Call Answer)}
    {s : Economy} (hr : Run (Economy.slashStep C) G ⟨.withConfig config, vs, pool⟩ hist s) :
    Settled C s.engine.evidencePool.records (processedEvents hist) := by
  refine hr.invariant
    (I := fun hist s => Settled C s.engine.evidencePool.records (processedEvents hist))
    ⟨by simp [processedEvents], List.nodup_nil⟩ ?_
  intro hist s c s' out hrun ih _ hs
  cases hs
  rw [processedEvents_cons, List.flatMap_singleton]
  cases c with
  | submitEvidence e =>
    show Settled C (s.engine.evidencePool.submitEvidence C e).1.records (processedEvents hist ++ [])
    rw [List.append_nil]
    rcases submitEvidence_cases C s.engine.evidencePool e with
      ⟨reason, hsub, -⟩ | ⟨hsub, -, -⟩ | ⟨hsub, hfresh, -⟩
    · rw [hsub]
      exact ih
    · rw [hsub]
      exact ih
    · rw [hsub]
      exact ih.insert hfresh e
  | processAllEvidence it => exact ih.processAllEvidence (stored_of_run hrun) it
  | slashValidator k offense height =>
    show Settled C (s.slashValidator C k offense height).1.engine.evidencePool.records
      (processedEvents hist ++ [])
    rw [List.append_nil, Economy.slashValidator_pool]
    exact ih

/-- **Evidence is acted on once.** Over any calls of an engine: every event of
`process_all_evidence` is of an accepted record, and no two events, as no two accepted records, have
the same hash, so each record leads to one event at most. After `process_all_evidence` nothing is
pending, whatever the order of enumeration; an accepted record is rejected from then on, marked or
not; and the history of a key is what was returned for it. -/
theorem evidence_acted_on_once {C : Crates} {config : SlashingConfig} {vs : ValidatorSetManager}
    {pool : StakingPool} {hist : List (Turn Economy Call Answer)} {s : Economy}
    (hr : Run (Economy.slashStep C) (fun _ _ => True) ⟨.withConfig config, vs, pool⟩ hist s) :
    (∀ event ∈ processedEvents hist, ∃ e ∈ accepted hist, event.charge = e.charge C) ∧
      ((processedEvents hist).map SlashEvent.evidenceHash).Nodup ∧
      ((accepted hist).map fun e => e.hash C).Nodup ∧
      (∀ it it', (s.processAllEvidence C it).1.engine.evidencePool.getPendingEvidence it' = []) ∧
      (∀ e ∈ accepted hist, ∀ processed,
        (s.submitEvidence C { e with processed := processed }).2 = .error .duplicateEvidence) ∧
      ∀ k, s.engine.getSlashHistory k =
        (Economy.eventsOf hist).filter fun event => event.offender = k := by
  have hstored := stored_of_run hr
  have hsettled := settled_of_run hr
  refine ⟨?_, hsettled.once, hstored.distinct, hstored.none_pending, ?_,
    getSlashHistory_of_run rfl hr⟩
  · intro event hevent
    obtain ⟨e, he, -, hcharge⟩ := hsettled.marked event hevent
    obtain ⟨e₀, hmem, -, hreport⟩ := hstored.origin he
    exact ⟨e₀, hmem, hcharge.trans (charge_eq_of_report C hreport).symm⟩
  · intro e he processed
    have hdata : e.data ≠ [] := by
      intro hnil
      have hfull := hstored.data e he
      rw [hnil] at hfull
      cases hfull
    have hdup := hstored.duplicate_iff (e := { e with processed := processed }) hdata
    exact hdup.mpr ⟨e, he, rfl⟩

/-- Two rounds of processing, with the same record in between: the second finds nothing. -/
def onceCalls : List Call :=
  slashCalls ++ [.submitEvidence (doubleSign 1), .processAllEvidence .stored]

theorem evidence_acted_on_once_twice :
    ∃ hist s, Run (Economy.slashStep Crates.sample) (fun _ _ => True) delegatedEconomy hist s ∧
      (processedEvents hist).map (·.slashAmount) = [500] ∧
      ((processedEvents hist).map SlashEvent.evidenceHash).Nodup ∧
      ∀ it it',
        (s.processAllEvidence Crates.sample it).1.engine.evidencePool.getPendingEvidence it' =
          [] := by
  obtain ⟨hist, s, hr, hamounts⟩ : ∃ hist s,
      Run (Economy.slashStep Crates.sample) (fun _ _ => True) delegatedEconomy hist s ∧
        (processedEvents hist).map (·.slashAmount) = [500] :=
    Run.exists_of_replay onceCalls (by decide +kernel)
  obtain ⟨-, honce, -, hnone, -⟩ := evidence_acted_on_once hr
  exact ⟨hist, s, hr, hamounts, honce, hnone⟩

end Slashing

end Trv1Chain
