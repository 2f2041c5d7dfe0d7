import Trv1Chain.Crates
import Trv1Chain.ValidatorSet.Manager

/-!
# The slashing engine

`runtime/slashing/src/{types,evidence,engine}.rs`. A slash writes to three places: the recorded
stake and the status in the validator set, the offender's own entries in the staking pool, and the
engine's treasury. The engine's methods get the first two by reference, so they are functions of an
`Economy`, the three together.

Pending evidence is enumerated from a hash map, in an order that is an argument here.
-/

set_option autoImplicit false

namespace Trv1Chain

open Lib Staking ValidatorSet

namespace Slashing

inductive SlashingOffense where
  | doubleSign
  | downtime
  | invalidBlock
  deriving DecidableEq

/-- `offense as u8`. -/
def SlashingOffense.discriminant : SlashingOffense → UInt8
  | .doubleSign => 0
  | .downtime => 1
  | .invalidBlock => 2

structure SlashEvent where
  offender : PublicKey
  offense : SlashingOffense
  slashAmount : UInt64
  height : UInt64
  evidenceHash : Bytes 32
  deriving DecidableEq

/-- Slash percentages in basis points. -/
structure SlashingConfig where
  doubleSignSlashBps : UInt64
  downtimeSlashBps : UInt64
  invalidBlockSlashBps : UInt64

def SlashingConfig.default : SlashingConfig where
  doubleSignSlashBps := 500
  downtimeSlashBps := 100
  invalidBlockSlashBps := 1000

def SlashingConfig.slashBps (config : SlashingConfig) : SlashingOffense → UInt64
  | .doubleSign => config.doubleSignSlashBps
  | .downtime => config.downtimeSlashBps
  | .invalidBlock => config.invalidBlockSlashBps

inductive SlashingError where
  | validatorNotFound (pubkey : PublicKey)
  | duplicateEvidence
  | invalidEvidence (reason : String)
  deriving DecidableEq

/-! ## Evidence -/

structure EvidenceRecord where
  offense : SlashingOffense
  offender : PublicKey
  height : UInt64
  data : List UInt8
  processed : Bool
  deriving DecidableEq

/-- One round of the fold: the byte at `i` is mixed into two neighbouring places. -/
def mixByte (out : Bytes 32) (i : Nat) (b : UInt8) : Bytes 32 :=
  let here : Fin 32 := Fin.ofNat 32 i
  let next : Fin 32 := Fin.ofNat 32 (i + 1)
  let out := out.set here (out.get here ^^^ b)
  out.set next (out.get next + b * 31)

namespace EvidenceRecord

def bytes (e : EvidenceRecord) : List UInt8 :=
  e.offender.toList ++ leBytes 8 e.height.toNat ++ e.data ++ [e.offense.discriminant]

def hash (C : Crates) (e : EvidenceRecord) : Bytes 32 :=
  (C.jsonBytes e.bytes).zipIdx.foldl (fun out b => mixByte out b.2 b.1) (Bytes.fill 32 0)

end EvidenceRecord

structure EvidencePool where
  records : HashMap (Bytes 32) EvidenceRecord

abbrev EvidenceOrder := IterOrder EvidenceRecord

namespace EvidencePool

def new : EvidencePool := ⟨∅⟩

def submitEvidence (C : Crates) (pool : EvidencePool) (evidence : EvidenceRecord) :
    EvidencePool × Except SlashingError (Bytes 32) :=
  if evidence.data.isEmpty then
    (pool, .error (.invalidEvidence "evidence data must not be empty"))
  else
    let hash := evidence.hash C
    if (pool.records.lookup hash).isSome then (pool, .error .duplicateEvidence)
    else (⟨pool.records.insert hash evidence⟩, .ok hash)

def getPendingEvidence (it : EvidenceOrder) (pool : EvidencePool) : List EvidenceRecord :=
  (it.enum pool.records.values).filter fun e => !e.processed

def markProcessed (pool : EvidencePool) (hash : Bytes 32) : EvidencePool :=
  ⟨HashMap.modify (fun e => { e with processed := true }) hash pool.records⟩

end EvidencePool

/-! ## The engine -/

structure SlashingEngine where
  config : SlashingConfig
  evidencePool : EvidencePool
  slashHistory : HashMap PublicKey (List SlashEvent)
  /-- Accumulated treasury balance from slashed stake. -/
  treasury : UInt64

def SlashingEngine.withConfig (config : SlashingConfig) : SlashingEngine :=
  ⟨config, EvidencePool.new, ∅, 0⟩

def SlashingEngine.getSlashHistory (engine : SlashingEngine) (pubkey : PublicKey) :
    List SlashEvent :=
  (engine.slashHistory.lookup pubkey).getD []

/-- The engine with the validator set and the staking pool its methods work on. -/
structure Economy where
  engine : SlashingEngine
  validatorSet : ValidatorSetManager
  stakingPool : StakingPool

/-- The percentage of a stake, in 128 bits, cut to 64. -/
def slashAmount (stake bps : UInt64) : UInt64 :=
  UInt64.ofNat (stake.toNat * bps.toNat / 10000)

namespace Economy

/-- Slash and jail the offender of one record. The result of `unstake` is ignored. -/
def processSingleEvidence (C : Crates) (s : Economy) (evidence : EvidenceRecord) :
    Economy × Option SlashEvent :=
  match s.validatorSet.getValidator evidence.offender with
  | none => (s, none)
  | some validator =>
    let amount := slashAmount validator.stake (s.engine.config.slashBps evidence.offense)
    if amount = 0 then (s, none)
    else
      let newStake := saturatingSub validator.stake amount
      match s.validatorSet.updateStake evidence.offender newStake with
      | (validatorSet, .error _) => ({ s with validatorSet := validatorSet }, none)
      | (validatorSet, .ok _) =>
        let stakingPool := (s.stakingPool.unstake evidence.offender amount).1
        let treasury := saturatingAdd s.engine.treasury amount
        let validatorSet := (validatorSet.jail evidence.offender).1
        let event : SlashEvent :=
          ⟨evidence.offender, evidence.offense, amount, evidence.height, evidence.hash C⟩
        let slashHistory := s.engine.slashHistory.insert evidence.offender
          ((s.engine.slashHistory.lookup evidence.offender).getD [] ++ [event])
        (⟨{ s.engine with slashHistory := slashHistory, treasury := treasury }, validatorSet,
          stakingPool⟩, some event)

def markProcessed (C : Crates) (s : Economy) (evidence : EvidenceRecord) : Economy :=
  { s with
    engine := { s.engine with
      evidencePool := s.engine.evidencePool.markProcessed (evidence.hash C) } }

/-- The loop over the pending records. -/
def processEvidence (C : Crates) (s : Economy) :
    List EvidenceRecord → Economy × List SlashEvent
  | [] => (s, [])
  | evidence :: pending =>
    let (s, event) := s.processSingleEvidence C evidence
    let (s, events) := (s.markProcessed C evidence).processEvidence C pending
    (s, event.toList ++ events)

def processAllEvidence (C : Crates) (it : EvidenceOrder) (s : Economy) :
    Economy × List SlashEvent :=
  s.processEvidence C (s.engine.evidencePool.getPendingEvidence it)

/-- The evidence of a direct slash: its data is `b"direct_slash"`. -/
def directEvidence (pubkey : PublicKey) (offense : SlashingOffense) (height : UInt64) :
    EvidenceRecord :=
  ⟨offense, pubkey, height,
    ascii ['d', 'i', 'r', 'e', 'c', 't', '_', 's', 'l', 'a', 's', 'h'], false⟩

def slashValidator (C : Crates) (s : Economy) (pubkey : PublicKey) (offense : SlashingOffense)
    (height : UInt64) : Economy × Except SlashingError SlashEvent :=
  match s.processSingleEvidence C (directEvidence pubkey offense height) with
  | (s, some event) => (s, .ok event)
  | (s, none) => (s, .error (.validatorNotFound pubkey))

def submitEvidence (C : Crates) (s : Economy) (evidence : EvidenceRecord) :
    Economy × Except SlashingError (Bytes 32) :=
  let (evidencePool, result) := s.engine.evidencePool.submitEvidence C evidence
  ({ s with engine := { s.engine with evidencePool := evidencePool } }, result)

end Economy

/-! ## Calls -/

/-- One call of the engine's methods. -/
inductive Call where
  | submitEvidence (evidence : EvidenceRecord)
  | processAllEvidence (it : EvidenceOrder)
  | slashValidator (pubkey : PublicKey) (offense : SlashingOffense) (height : UInt64)

inductive Answer where
  | submitted (result : Except SlashingError (Bytes 32))
  | processed (events : List SlashEvent)
  | slashed (result : Except SlashingError SlashEvent)

/-- The events among the answers. -/
def Answer.events : Answer → List SlashEvent
  | .submitted _ => []
  | .processed events => events
  | .slashed (.ok event) => [event]
  | .slashed (.error _) => []

def Economy.slash (C : Crates) (s : Economy) : Call → Economy × Answer
  | .submitEvidence evidence =>
    let (s, r) := s.submitEvidence C evidence
    (s, .submitted r)
  | .processAllEvidence it =>
    let (s, events) := s.processAllEvidence C it
    (s, .processed events)
  | .slashValidator pubkey offense height =>
    let (s, r) := s.slashValidator C pubkey offense height
    (s, .slashed r)

/-! ## What a slash does -/

/-- Everything that processing one record can come to. -/
inductive Slashes (C : Crates) (s : Economy) (e : EvidenceRecord) :
    Economy → Option SlashEvent → Prop
  | unknown : s.validatorSet.validators.lookup e.offender = none → Slashes C s e s none
  | nothing {v : ValidatorInfo} : s.validatorSet.validators.lookup e.offender = some v →
      slashAmount v.stake (s.engine.config.slashBps e.offense) = 0 → Slashes C s e s none
  | slashed {v : ValidatorInfo} {amount : UInt64}
      {history : HashMap PublicKey (List SlashEvent)} :
      s.validatorSet.validators.lookup e.offender = some v →
      slashAmount v.stake (s.engine.config.slashBps e.offense) = amount → amount ≠ 0 →
      Slashes C s e
        ⟨{ s.engine with
            slashHistory := history
            treasury := saturatingAdd s.engine.treasury amount },
          { s.validatorSet with
            validators := setStatus .jailed e.offender
              (HashMap.modify (fun w => { w with stake := saturatingSub v.stake amount })
                e.offender s.validatorSet.validators) },
          (s.stakingPool.unstake e.offender amount).1⟩
        (some ⟨e.offender, e.offense, amount, e.height, e.hash C⟩)

theorem processSingleEvidence_slashes (C : Crates) (s : Economy) (e : EvidenceRecord) :
    Slashes C s e (s.processSingleEvidence C e).1 (s.processSingleEvidence C e).2 := by
  unfold Economy.processSingleEvidence ValidatorSetManager.getValidator
  cases hl : s.validatorSet.validators.lookup e.offender with
  | none => exact .unknown hl
  | some v =>
    dsimp only
    split
    · rename_i hzero
      exact .nothing hl hzero
    · rename_i hne
      -- the offender is registered, so neither the update nor the jailing is refused
      have hmod (stake : UInt64) : (HashMap.modify (fun w => { w with stake := stake }) e.offender
          s.validatorSet.validators).lookup e.offender = some { v with stake := stake } := by
        rw [HashMap.lookup_modify, if_pos rfl, hl]
        rfl
      unfold ValidatorSetManager.updateStake
      rw [hl]
      dsimp only
      unfold ValidatorSetManager.jail ValidatorSet.jail
      dsimp only
      rw [hmod]
      exact .slashed hl rfl hne

end Slashing

end Trv1Chain
