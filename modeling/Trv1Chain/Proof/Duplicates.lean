import Trv1Chain.Lib.Framing
import Trv1Chain.Proof.SlashHistory

/-!
# Duplicate evidence

The pool knows a record by the 32 bytes of `EvidenceRecord::hash`, which folds the JSON text of the
record with an exclusive or and an addition in each place. A record is a duplicate when its hash is
there, so the pool rejects only duplicates exactly as far as no two records collide; and the text of
the offender's key alone is long enough for two keys to collide under every report.
-/

set_option autoImplicit false

namespace Trv1Chain

open Lib Staking ValidatorSet

namespace Slashing

/-! ## Accepted records -/

/-- What a record reports: the offender, the height, the data and the offense. Whether it was acted
on is no part of it. -/
def EvidenceRecord.report (e : EvidenceRecord) : EvidenceRecord := { e with processed := false }

theorem hash_eq_of_report (C : Crates) {e e' : EvidenceRecord} (h : e.report = e'.report) :
    e.hash C = e'.hash C := by
  show e.report.hash C = e'.report.hash C
  rw [h]

/-- The record a turn added to the pool. -/
def acceptedBy : Turn Economy Call Answer → Option EvidenceRecord
  | ⟨_, .submitEvidence e, _, [.submitted (.ok _)]⟩ => some e
  | _ => none

/-- The records a run added to the pool, newest first. -/
def accepted (hist : List (Turn Economy Call Answer)) : List EvidenceRecord :=
  hist.filterMap acceptedBy

theorem accepted_cons (τ : Turn Economy Call Answer) (hist : List (Turn Economy Call Answer)) :
    accepted (τ :: hist) = (acceptedBy τ).toList ++ accepted hist := by
  unfold accepted
  rw [List.filterMap_cons]
  cases acceptedBy τ with
  | none => rfl
  | some e => rfl

/-- The pool holds the accepted records, each under its own hash. -/
structure Stored (C : Crates) (records : HashMap (Bytes 32) EvidenceRecord)
    (accepted : List EvidenceRecord) : Prop where
  origin : ∀ {k e}, records.lookup k = some e →
    ∃ e₀ ∈ accepted, e₀.hash C = k ∧ e₀.report = e.report
  kept : ∀ e ∈ accepted, (records.lookup (e.hash C)).isSome = true
  distinct : (accepted.map fun e => e.hash C).Nodup
  data : ∀ e ∈ accepted, e.data.isEmpty = false

section Stored

variable {C : Crates} {records : HashMap (Bytes 32) EvidenceRecord} {acc : List EvidenceRecord}

theorem stored_empty (C : Crates) : Stored C ∅ [] where
  origin h := by cases h
  kept := by simp
  distinct := List.nodup_nil
  data := by simp

theorem Stored.insert (h : Stored C records acc) {e : EvidenceRecord}
    (hfresh : records.lookup (e.hash C) = none) (hdata : e.data.isEmpty = false) :
    Stored C (records.insert (e.hash C) e) (e :: acc) where
  origin := by
    intro k e' hl
    by_cases hk : k = e.hash C
    · subst hk
      rw [AList.lookup_insert] at hl
      cases hl
      exact ⟨e, List.mem_cons_self, rfl, rfl⟩
    · rw [AList.lookup_insert_ne hk] at hl
      obtain ⟨e₀, hmem, horigin⟩ := h.origin hl
      exact ⟨e₀, List.mem_cons_of_mem _ hmem, horigin⟩
  kept := by
    rw [List.forall_mem_cons]
    refine ⟨by rw [AList.lookup_insert]; rfl, fun e' he' => ?_⟩
    by_cases hk : e'.hash C = e.hash C
    · rw [hk, AList.lookup_insert]
      rfl
    · rw [AList.lookup_insert_ne hk]
      exact h.kept e' he'
  distinct := by
    rw [List.map_cons, List.nodup_cons]
    refine ⟨fun hmem => ?_, h.distinct⟩
    obtain ⟨e', he', heq⟩ := List.mem_map.mp hmem
    have hkept := h.kept e' he'
    rw [heq, hfresh] at hkept
    cases hkept
  data := List.forall_mem_cons.mpr ⟨hdata, h.data⟩

/-- Marks on the records change nothing of it. -/
theorem Stored.marks (h : Stored C records acc) {records' : HashMap (Bytes 32) EvidenceRecord}
    {f : Bytes 32 → EvidenceRecord → EvidenceRecord} (hf : ∀ k e, (f k e).report = e.report)
    (hl : ∀ k, records'.lookup k = (records.lookup k).map (f k)) : Stored C records' acc where
  origin := by
    intro k e he
    rw [hl] at he
    obtain ⟨e', he', rfl⟩ := Option.map_eq_some_iff.mp he
    rw [hf]
    exact h.origin he'
  kept := by
    intro e he
    rw [hl, Option.isSome_map]
    exact h.kept e he
  distinct := h.distinct
  data := h.data

end Stored

/-! ## The pool over a run -/

theorem submitEvidence_cases (C : Crates) (pool : EvidencePool) (e : EvidenceRecord) :
    (∃ reason, pool.submitEvidence C e = (pool, .error (.invalidEvidence reason)) ∧
        e.data.isEmpty = true) ∨
      (pool.submitEvidence C e = (pool, .error .duplicateEvidence) ∧
        (pool.records.lookup (e.hash C)).isSome = true ∧ e.data.isEmpty = false) ∨
      (pool.submitEvidence C e = (⟨pool.records.insert (e.hash C) e⟩, .ok (e.hash C)) ∧
        pool.records.lookup (e.hash C) = none ∧ e.data.isEmpty = false) := by
  unfold EvidencePool.submitEvidence
  cases hdata : e.data.isEmpty with
  | true => exact Or.inl ⟨_, if_pos rfl, rfl⟩
  | false =>
    right
    rw [if_neg Bool.false_ne_true]
    cases hl : pool.records.lookup (e.hash C) with
    | none => exact Or.inr ⟨if_neg (by rw [hl]; exact Bool.false_ne_true), rfl, rfl⟩
    | some e' => exact Or.inl ⟨if_pos (by rw [hl]; rfl), rfl, rfl⟩

theorem Slashes.evidencePool {C : Crates} {s s' : Economy} {e : EvidenceRecord}
    {event : Option SlashEvent} (h : Slashes C s e s' event) :
    s'.engine.evidencePool = s.engine.evidencePool := by
  cases h with
  | unknown _ => rfl
  | nothing _ _ => rfl
  | slashed _ _ _ => rfl

namespace Economy

theorem slashValidator_pool (C : Crates) (s : Economy) (k : PublicKey) (offense : SlashingOffense)
    (height : UInt64) :
    (s.slashValidator C k offense height).1.engine.evidencePool = s.engine.evidencePool := by
  rw [(slashValidator_eq C s k offense height).1]
  exact (processSingleEvidence_slashes C s _).evidencePool

/-- A record under `k` after the loop: marked, if the loop met a record with that hash. -/
def markedIn (C : Crates) (met : List EvidenceRecord) (k : Bytes 32) (e : EvidenceRecord) :
    EvidenceRecord :=
  if ∃ e' ∈ met, e'.hash C = k then { e with processed := true } else e

theorem report_markedIn (C : Crates) (met : List EvidenceRecord) (k : Bytes 32)
    (e : EvidenceRecord) : (markedIn C met k e).report = e.report := by
  unfold markedIn
  split
  · rfl
  · rfl

theorem lookup_processEvidence (C : Crates) (k : Bytes 32) :
    ∀ (pending : List EvidenceRecord) (s : Economy),
    (s.processEvidence C pending).1.engine.evidencePool.records.lookup k =
      (s.engine.evidencePool.records.lookup k).map (markedIn C pending k) := by
  intro pending
  induction pending with
  | nil => intro s; exact Option.map_id'.symm
  | cons e pending ih =>
    intro s
    rw [processEvidence_cons]
    refine (ih _).trans ?_
    show ((((s.processSingleEvidence C e).1.engine.evidencePool).markProcessed
      (e.hash C)).records.lookup k).map _ = _
    rw [(processSingleEvidence_slashes C s e).evidencePool]
    unfold EvidencePool.markProcessed
    rw [HashMap.lookup_modify]
    by_cases hk : k = e.hash C
    · subst hk
      rw [if_pos rfl, Option.map_map]
      congr 1
      funext e'
      simp [markedIn]
    · rw [if_neg hk]
      congr 1
      funext e'
      simp [markedIn, Ne.symm hk]

end Economy

/-- **The pool over a run** holds what was accepted. -/
theorem stored_of_run {C : Crates} {G : Economy → Call → Prop} {config : SlashingConfig}
    {vs : ValidatorSetManager} {pool : StakingPool} {hist : List (Turn Economy Call Answer)}
    {s : Economy} (hr : Run (Economy.slashStep C) G ⟨.withConfig config, vs, pool⟩ hist s) :
    Stored C s.engine.evidencePool.records (accepted hist) := by
  refine hr.invariant (I := fun hist s => Stored C s.engine.evidencePool.records (accepted hist))
    (stored_empty C) ?_
  intro hist s c s' out _ ih _ hs
  cases hs
  rw [accepted_cons]
  cases c with
  | submitEvidence e =>
    show Stored C (s.engine.evidencePool.submitEvidence C e).1.records
      ((acceptedBy ⟨s, .submitEvidence e, _,
        [.submitted (s.engine.evidencePool.submitEvidence C e).2]⟩).toList ++ accepted hist)
    rcases submitEvidence_cases C s.engine.evidencePool e with
      ⟨reason, hsub, -⟩ | ⟨hsub, -, -⟩ | ⟨hsub, hfresh, hdata⟩
    · rw [hsub]
      exact ih
    · rw [hsub]
      exact ih
    · rw [hsub]
      exact ih.insert hfresh hdata
  | processAllEvidence it =>
    exact ih.marks (Economy.report_markedIn C _) fun k => Economy.lookup_processEvidence C k _ s
  | slashValidator k offense height =>
    show Stored C (s.slashValidator C k offense height).1.engine.evidencePool.records _
    rw [Economy.slashValidator_pool]
    exact ih

theorem Stored.duplicate_iff {C : Crates} {s : Economy} {acc : List EvidenceRecord}
    (h : Stored C s.engine.evidencePool.records acc) {e : EvidenceRecord} (hdata : e.data ≠ []) :
    (s.submitEvidence C e).2 = .error .duplicateEvidence ↔ ∃ e₀ ∈ acc, e₀.hash C = e.hash C := by
  show (s.engine.evidencePool.submitEvidence C e).2 = _ ↔ _
  rcases submitEvidence_cases C s.engine.evidencePool e with
    ⟨reason, -, hempty⟩ | ⟨hsub, hthere, -⟩ | ⟨hsub, hfresh, -⟩
  · exact absurd (List.isEmpty_iff.mp hempty) hdata
  · rw [hsub]
    obtain ⟨e', he'⟩ := Option.isSome_iff_exists.mp hthere
    obtain ⟨e₀, hmem, hhash, -⟩ := h.origin he'
    exact iff_of_true rfl ⟨e₀, hmem, hhash⟩
  · rw [hsub]
    refine iff_of_false (by simp) ?_
    rintro ⟨e₀, hmem, hhash⟩
    have hkept := h.kept e₀ hmem
    rw [hhash, hfresh] at hkept
    cases hkept

/-- **What the pool takes for a duplicate.** After any calls of an engine, for any record with data:
`submit_evidence` rejects it as a duplicate exactly when its report was accepted before, if and only
if no accepted record with another report has its hash. -/
theorem duplicates_exact_iff {C : Crates} {config : SlashingConfig} {vs : ValidatorSetManager}
    {pool : StakingPool} {hist : List (Turn Economy Call Answer)} {s : Economy}
    (hr : Run (Economy.slashStep C) (fun _ _ => True) ⟨.withConfig config, vs, pool⟩ hist s)
    {e : EvidenceRecord} (hdata : e.data ≠ []) :
    ((s.submitEvidence C e).2 = .error .duplicateEvidence ↔
        ∃ e₀ ∈ accepted hist, e₀.report = e.report) ↔
      ∀ e₀ ∈ accepted hist, e₀.hash C = e.hash C → e₀.report = e.report := by
  have h := stored_of_run hr
  rw [h.duplicate_iff hdata]
  constructor
  · intro hexact e₀ hmem hhash
    -- accepted records with one hash are one record
    obtain ⟨e₁, hmem₁, hreport⟩ := hexact.mp ⟨e₀, hmem, hhash⟩
    have hsame := List.inj_on_of_nodup_map h.distinct hmem hmem₁
      (hhash.trans (hash_eq_of_report C hreport).symm)
    rw [hsame]
    exact hreport
  · intro hfree
    constructor
    · rintro ⟨e₀, hmem, hhash⟩
      exact ⟨e₀, hmem, hfree e₀ hmem hhash⟩
    · rintro ⟨e₀, hmem, hreport⟩
      exact ⟨e₀, hmem, hash_eq_of_report C hreport⟩

/-- Two double signs of one key are told apart. -/
theorem duplicates_exact_iff_pair :
    ∃ hist s, Run (Economy.slashStep Crates.sample) (fun _ _ => True) delegatedEconomy hist s ∧
      accepted hist = [doubleSign 2, doubleSign 1] ∧
      ((s.submitEvidence Crates.sample ⟨.doubleSign, Bytes.fill 32 1, 8, [1], false⟩).2 =
          .error .duplicateEvidence ↔
        ∃ e₀ ∈ accepted hist,
          e₀.report = ⟨.doubleSign, Bytes.fill 32 1, 8, [1], false⟩) := by
  obtain ⟨hist, s, hr, hacc⟩ : ∃ hist s,
      Run (Economy.slashStep Crates.sample) (fun _ _ => True) delegatedEconomy hist s ∧
        accepted hist = [doubleSign 2, doubleSign 1] :=
    Run.exists_of_replay slashCalls (by decide +kernel)
  refine ⟨hist, s, hr, hacc, (duplicates_exact_iff hr (by simp)).mpr ?_⟩
  rw [hacc]
  decide +kernel

/-! ## Keys that collide -/

/-- How the text of a record begins: with the key of the offender. -/
def opening (k : PublicKey) : List UInt8 :=
  91 :: (k.toList.map fun b => decimal b.toNat).flatMap fun x => x ++ [44]

/-- The text of what a record has after the key. -/
def closing (e : EvidenceRecord) : List UInt8 :=
  List.intercalate [44] ((leBytes 8 e.height.toNat ++ (e.data ++ [e.offense.discriminant])).map
    fun b => decimal b.toNat) ++ [93]

theorem json_bytes (e : EvidenceRecord) :
    Crates.jsonArray e.bytes = opening e.offender ++ closing e := by
  unfold Crates.jsonArray EvidenceRecord.bytes opening closing
  rw [List.append_assoc, List.append_assoc, List.map_append, intercalate_append _ (by simp)]
  simp only [List.cons_append, List.append_assoc]

/-- The hash goes over the key first, and then on from there. -/
theorem hash_eq {C : Crates} (hjson : C.jsonBytes = Crates.jsonArray) (e : EvidenceRecord) :
    e.hash C = ((closing e).zipIdx (opening e.offender).length).foldl
      (fun out b => mixByte out b.2 b.1)
      ((opening e.offender).zipIdx.foldl (fun out b => mixByte out b.2 b.1) (Bytes.fill 32 0)) := by
  unfold EvidenceRecord.hash
  rw [hjson, json_bytes, List.zipIdx_append, List.foldl_append, Nat.zero_add]

/-- A key, and one that differs from it in two bytes whose digits stand 32 characters apart. -/
def targetKey : PublicKey := Bytes.fill 32 100

def twinKey : PublicKey := ⟨(targetKey.toList.set 7 104).set 15 104, rfl⟩

/-- **Twins.** Two keys collide in every report: whatever the offense, the height and the data, the
evidence against one has the hash of the same evidence against the other. -/
theorem twins_collide {C : Crates} (hjson : C.jsonBytes = Crates.jsonArray)
    (offense : SlashingOffense) (height : UInt64) (data : List UInt8) (processed : Bool) :
    EvidenceRecord.hash C ⟨offense, twinKey, height, data, processed⟩ =
      EvidenceRecord.hash C ⟨offense, targetKey, height, data, processed⟩ := by
  have hlength : (opening twinKey).length = (opening targetKey).length := by decide +kernel
  have hmix : (opening twinKey).zipIdx.foldl (fun out b => mixByte out b.2 b.1) (Bytes.fill 32 0) =
      (opening targetKey).zipIdx.foldl (fun out b => mixByte out b.2 b.1) (Bytes.fill 32 0) := by
    decide +kernel
  rw [hash_eq hjson, hash_eq hjson]
  dsimp only
  rw [hlength, hmix]
  rfl

/-- An engine with the default percentages, and the target as its only validator. -/
def targetEconomy : Economy where
  engine := .withConfig .default
  validatorSet :=
    ((ValidatorSetManager.withConfig .default).registerValidator targetKey 1000000 0 0).1
  stakingPool := (StakingPool.new.stake targetKey 1000000 .delegator).1

/-- The evidence of a double sign against one of the two keys. -/
def twinEvidence (k : PublicKey) : EvidenceRecord := ⟨.doubleSign, k, 7, [1], false⟩

/-- The evidence names the twin first and the target then. -/
def twinCalls : List Call :=
  [.submitEvidence (twinEvidence twinKey), .submitEvidence (twinEvidence targetKey),
    .processAllEvidence .stored]

/-- **Evidence that vanishes.** The twin's record is accepted, the target's own is rejected as a
duplicate of it, and processing all evidence leaves the target with its stake, and Active. -/
theorem evidence_vanishes :
    ∃ hist s, Run (Economy.slashStep Crates.sample) (fun _ _ => True) targetEconomy hist s ∧
      accepted hist = [twinEvidence twinKey] ∧
      (twinEvidence twinKey).report ≠ (twinEvidence targetKey).report ∧
      (s.submitEvidence Crates.sample (twinEvidence targetKey)).2 = .error .duplicateEvidence ∧
      Economy.eventsOf hist = [] ∧
      (s.validatorSet.getValidator targetKey).map (fun v => (v.stake, v.status)) =
        some (1000000, .active) := by
  obtain ⟨hist, s, hr, hacc, hevents, htarget⟩ : ∃ hist s,
      Run (Economy.slashStep Crates.sample) (fun _ _ => True) targetEconomy hist s ∧
        accepted hist = [twinEvidence twinKey] ∧ Economy.eventsOf hist = [] ∧
        (s.validatorSet.getValidator targetKey).map (fun v => (v.stake, v.status)) =
          some (1000000, .active) :=
    Run.exists_of_replay twinCalls (by decide +kernel)
  refine ⟨hist, s, hr, hacc, by decide +kernel, ?_, hevents, htarget⟩
  rw [(stored_of_run hr).duplicate_iff (by simp [twinEvidence]), hacc]
  exact ⟨_, List.mem_singleton_self _, twins_collide rfl .doubleSign 7 [1] false⟩

end Slashing

end Trv1Chain
