import Trv1Chain.Genesis.Files
import Trv1Chain.Lib.Format
import Trv1Chain.Proof.SavedState

/-!
# What the commands make of a genesis

To its operators a genesis is a name, a time and a list of validators added one by one: a `Draft`.
The commands keep drafts in files. A file that commands have written holds its draft and the hash of
it, loads, and is valid; a command is refused exactly if the draft does not admit it, and then
changes nothing (`genesis_commands_refine`).

So a validator whose genesis file comes from the commands starts from the draft. One whose file is
missing starts from the default testnet instead, and does not exit.
-/

set_option autoImplicit false

namespace Trv1Chain

open Lib

namespace Genesis

/-! ## Validity -/

/-- What the loop over the validators asks of each of them. -/
def GenesisValidator.Sound (v : GenesisValidator) : Prop :=
  v.initialStake ≠ 0 ∧ v.commissionRate ≤ 10000

instance (v : GenesisValidator) : Decidable v.Sound := inferInstanceAs (Decidable (_ ∧ _))

theorem checkValidators_ok_iff : ∀ {validators : List GenesisValidator} {seen : List (Bytes 32)}
    {i : Nat}, checkValidators seen i validators = .ok () ↔
      (validators.map (·.pubkey)).Nodup ∧ (∀ v ∈ validators, v.pubkey ∉ seen) ∧
        ∀ v ∈ validators, v.Sound := by
  intro validators
  induction validators with
  | nil => intro seen i; simp [checkValidators]
  | cons v validators ih =>
    intro seen i
    unfold checkValidators
    rw [List.map_cons, List.nodup_cons, List.forall_mem_cons, List.forall_mem_cons]
    by_cases hseen : v.pubkey ∈ seen
    · simp [hseen]
    rw [if_neg hseen]
    by_cases hstake : v.initialStake = 0
    · simp [hstake, GenesisValidator.Sound]
    rw [if_neg hstake]
    by_cases hrate : v.commissionRate > 10000
    · simp [hrate, GenesisValidator.Sound]
    rw [if_neg hrate, ih]
    have hsound : v.Sound := ⟨hstake, UInt16.not_lt.mp hrate⟩
    constructor
    · rintro ⟨hnodup, hnew, hall⟩
      refine ⟨⟨fun hmem => ?_, hnodup⟩, ⟨hseen, fun w hw hmem => ?_⟩, hsound, hall⟩
      · obtain ⟨w, hw, heq⟩ := List.mem_map.mp hmem
        exact hnew w hw (heq ▸ List.mem_cons_self)
      · exact hnew w hw (List.mem_cons_of_mem _ hmem)
    · rintro ⟨⟨hfresh, hnodup⟩, ⟨-, hnew⟩, -, hall⟩
      refine ⟨hnodup, fun w hw hmem => ?_, hall⟩
      rcases List.mem_cons.mp hmem with heq | hmem
      · exact hfresh (List.mem_map.mpr ⟨w, hw, heq⟩)
      · exact hnew w hw hmem

theorem FullConfig.validate_ok_iff {c : FullConfig}
    (hparams : c.chainParams.toChainParams = .default) :
    c.validate = .ok () ↔
      c.validators ≠ [] ∧ (c.validators.map (·.pubkey)).Nodup ∧ ∀ v ∈ c.validators, v.Sound := by
  have hdefault : ChainParams.check .default = .ok () := by decide
  have hcheck : checkValidators [] 0 c.validators = .ok () ↔
      (c.validators.map (·.pubkey)).Nodup ∧ ∀ v ∈ c.validators, v.Sound := by
    rw [checkValidators_ok_iff]
    simp
  unfold FullConfig.validate GenesisConfig.validate FullConfig.config
  dsimp only
  rw [hparams, hdefault]
  by_cases hempty : c.validators = []
  · simp [hempty]
  rw [if_neg (by simpa using hempty), ← hcheck]
  cases checkValidators [] 0 c.validators with
  | error e => simp
  | ok u => simp [hempty]

/-- The hash is not looked at. -/
theorem FullConfig.validate_hashed {C : Crates} {F : FileCrates} {J : JsonCrates}
    {c : FullConfig} : (c.hashed C F J).validate = c.validate := rfl

/-! ## Through a file and back -/

/-- What is assumed of `serde_json`: it writes every genesis, and reads what it wrote. -/
structure JsonCrates.Reliable (J : JsonCrates) (F : FileCrates) : Prop where
  reads : ∀ j, ∃ text, J.toStringPretty j = .ok text ∧ F.isUtf8 text = true ∧
    J.fromStr text = .ok j

section

variable {C : Crates} {F : FileCrates} {J : JsonCrates}

theorem readKey_hexEncode (hF : F.Reliable) (k : Bytes 32) :
    readKey F (F.hexEncode k.toList) = .ok k := by
  unfold readKey
  rw [hF.hexEncode, hF.hexDecode]
  dsimp only
  rw [dif_pos k.toList_length]
  rfl

/-- A list each of whose elements is read back is read back. -/
theorem mapM_map {α β ε : Type} {write : α → β} {read : β → Except ε α}
    (h : ∀ a, read (write a) = .ok a) : ∀ l : List α, (l.map write).mapM read = .ok l
  | [] => rfl
  | a :: l => by
    rw [List.map_cons, List.mapM_cons, h, mapM_map h l]
    rfl

theorem read_json (hF : F.Reliable) (c : FullConfig) : (c.json F).read F = .ok c := by
  have hvalidators : ∀ v : GenesisValidator, (v.json F).read F = .ok v := by
    intro v
    unfold JsonValidator.read GenesisValidator.json
    rw [readKey_hexEncode hF]
    rfl
  have haccounts : ∀ a : GenesisAccount, (a.json F).read F = .ok a := by
    intro a
    unfold JsonAccount.read GenesisAccount.json
    rw [readKey_hexEncode hF]
    rfl
  unfold JsonGenesis.read FullConfig.json FullConfig.canonical
  dsimp only
  rw [mapM_map hvalidators, mapM_map haccounts, readKey_hexEncode hF]
  rfl

/-- The file at `path` is the text of `c`. -/
def Written (F : FileCrates) (J : JsonCrates) (fs : Storage.FileSystem) (path : Storage.Path)
    (c : FullConfig) : Prop :=
  ∃ text, fs.lookup path = some text ∧ J.toStringPretty (c.json F) = .ok text

theorem Written.fromFile (hF : F.Reliable) (hJ : J.Reliable F) {fs : Storage.FileSystem}
    {path : Storage.Path} {c : FullConfig} (h : Written F J fs path c) :
    FullConfig.fromFile C F J fs path = .ok (c.hashed C F J) := by
  obtain ⟨text, hfile, htext⟩ := h
  obtain ⟨text', htext', hutf8, hread⟩ := hJ.reads (c.json F)
  rw [htext'] at htext
  cases htext
  unfold FullConfig.fromFile
  rw [hfile]
  dsimp only
  rw [hutf8, if_neg (by simp), hread]
  dsimp only
  rw [read_json hF]

theorem toFile_written (hJ : J.Reliable F) (c : FullConfig) (fs : Storage.FileSystem)
    (path : Storage.Path) :
    ∃ fs', c.toFile F J fs path = .ok fs' ∧ Written F J fs' path c ∧
      ∀ other, other ≠ path → fs'.lookup other = fs.lookup other := by
  obtain ⟨text, htext, -⟩ := hJ.reads (c.json F)
  refine ⟨fs.insert path text, ?_, ⟨text, AList.lookup_insert fs, htext⟩, fun other hne => ?_⟩
  · unfold FullConfig.toFile
    rw [htext]
  · exact AList.lookup_insert_ne hne

/-! ## Drafts -/

/-- A genesis, as the one who makes it sees it. -/
structure Draft where
  chainId : Text
  genesisTime : DateTime
  added : List GenesisValidator

namespace Draft

/-- The four of the testnet come first. -/
def validators (d : Draft) : List GenesisValidator := testnetValidators ++ d.added

/-- The validator is new, has a stake, and takes no more than everything. -/
def Admits (d : Draft) (v : GenesisValidator) : Prop :=
  v.pubkey ∉ d.validators.map (·.pubkey) ∧ v.Sound

instance (d : Draft) (v : GenesisValidator) : Decidable (d.Admits v) :=
  inferInstanceAs (Decidable (_ ∧ _))

def add (d : Draft) (v : GenesisValidator) : Draft := { d with added := d.added ++ [v] }

variable (C F J) in
/-- The configuration a draft stands for, with its hash. -/
def config (d : Draft) : FullConfig :=
  FullConfig.hashed C F J
    ⟨d.chainId, d.genesisTime, .named d.chainId, d.validators, testnetAccounts, Bytes.fill 32 0⟩

/-- The validators are distinct, and each is sound. -/
def Valid (d : Draft) : Prop :=
  (d.validators.map (·.pubkey)).Nodup ∧ ∀ v ∈ d.validators, v.Sound

theorem config_validate {d : Draft} : (d.config C F J).validate = .ok () ↔ d.Valid := by
  rw [FullConfig.validate_ok_iff rfl]
  exact and_iff_right (List.append_ne_nil_of_left_ne_nil (List.cons_ne_nil _ _) _)

theorem valid_add {d : Draft} (h : d.Valid) {v : GenesisValidator} :
    (d.add v).Valid ↔ d.Admits v := by
  have happend : (d.add v).validators = d.validators ++ [v] := (List.append_assoc ..).symm
  unfold Valid Admits
  rw [happend, List.map_append, List.map_singleton, ← List.concat_eq_append, List.nodup_concat,
    List.forall_mem_append, List.forall_mem_singleton]
  exact ⟨fun hv => ⟨hv.1.1, hv.2.2⟩, fun hv => ⟨⟨hv.1, h.1⟩, h.2, hv.2⟩⟩

/-- Adding to the configuration is adding to the draft. -/
theorem config_add {d : Draft} {v : GenesisValidator} :
    FullConfig.hashed C F J
        { d.config C F J with validators := (d.config C F J).validators ++ [v] } =
      (d.add v).config C F J := by
  have happend : (d.add v).validators = (d.config C F J).validators ++ [v] :=
    (List.append_assoc ..).symm
  unfold config
  rw [happend]
  rfl

theorem valid_new (chainId : Text) (time : DateTime) : Valid ⟨chainId, time, []⟩ := by
  have hall : (testnetValidators.map (·.pubkey)).Nodup ∧ ∀ v ∈ testnetValidators, v.Sound := by
    decide
  unfold Valid validators
  rw [List.append_nil]
  exact hall

end Draft

theorem build_initBuilder (chainId : Text) (now later : DateTime) :
    (initBuilder chainId (.defaultTestnet C F J now) later).build C F J =
      .ok (Draft.config C F J ⟨chainId, now, []⟩) := by
  have hconfig : (initBuilder chainId (.defaultTestnet C F J now) later).config.hashed C F J =
      Draft.config C F J ⟨chainId, now, []⟩ := rfl
  have hvalid :
      (initBuilder chainId (.defaultTestnet C F J now) later).config.validate = .ok () := by
    rw [← FullConfig.validate_hashed (C := C) (F := F) (J := J), hconfig]
    exact Draft.config_validate.mpr (Draft.valid_new chainId now)
  unfold GenesisBuilder.build
  rw [hvalid, hconfig]

/-- Drafts, by where they are kept. -/
abbrev Drafts := Storage.Path → Option Draft

namespace Drafts

variable (F) in
/-- What a command is for. `none` is a refusal. -/
def apply (ds : Drafts) : Command → Option Drafts
  | .init chainId output now _ => some (Function.update ds output (some ⟨chainId, now, []⟩))
  | .addValidator genesis pubkey stake commission =>
    (ds genesis).bind fun d => (readKey F pubkey).toOption.bind fun k =>
      if d.Admits ⟨k, stake, commission⟩ then
        some (Function.update ds genesis (some (d.add ⟨k, stake, commission⟩)))
      else none

variable (F) in
def runCommands : Drafts → List Command → Drafts × List Bool
  | ds, [] => (ds, [])
  | ds, c :: cs => match ds.apply F c with
    | none => ((runCommands ds cs).1, false :: (runCommands ds cs).2)
    | some ds => ((runCommands ds cs).1, true :: (runCommands ds cs).2)

variable (C F J) in
/-- The files hold the drafts, and nothing else that could be loaded. -/
structure Filed (fs : Storage.FileSystem) (ds : Drafts) : Prop where
  written : ∀ {path d}, ds path = some d → Written F J fs path (d.config C F J) ∧ d.Valid
  nothing : ∀ {path}, ds path = none → ∃ e, FullConfig.fromFile C F J fs path = .error e

theorem Filed.fromFile (hF : F.Reliable) (hJ : J.Reliable F) {fs : Storage.FileSystem}
    {ds : Drafts} (h : Filed C F J fs ds) {path : Storage.Path} {d : Draft}
    (hd : ds path = some d) : FullConfig.fromFile C F J fs path = .ok (d.config C F J) :=
  (h.written hd).1.fromFile hF hJ

/-- Writing a valid draft over whatever the file held. -/
theorem Filed.toFile (hJ : J.Reliable F) {fs : Storage.FileSystem} {ds : Drafts}
    (h : Filed C F J fs ds) (path : Storage.Path) {d : Draft} (hd : d.Valid) :
    ∃ fs', (d.config C F J).toFile F J fs path = .ok fs' ∧
      Filed C F J fs' (Function.update ds path (some d)) := by
  obtain ⟨fs', hfile, hwritten, hother⟩ := toFile_written hJ (d.config C F J) fs path
  refine ⟨fs', hfile, ?_, ?_⟩
  · intro other d' hd'
    by_cases hpath : other = path
    · subst hpath
      rw [Function.update_self] at hd'
      cases hd'
      exact ⟨hwritten, hd⟩
    · rw [Function.update_of_ne hpath] at hd'
      obtain ⟨⟨text, htext, hjson⟩, hvalid⟩ := h.written hd'
      exact ⟨⟨text, (hother other hpath).trans htext, hjson⟩, hvalid⟩
  · intro other hnone
    by_cases hpath : other = path
    · subst hpath
      rw [Function.update_self] at hnone
      cases hnone
    · rw [Function.update_of_ne hpath] at hnone
      obtain ⟨e, he⟩ := h.nothing hnone
      refine ⟨e, ?_⟩
      rw [← he]
      unfold FullConfig.fromFile
      rw [hother other hpath]

/-- **`genesis init`** writes an empty draft. -/
theorem Filed.init (hJ : J.Reliable F) {fs : Storage.FileSystem} {ds : Drafts}
    (h : Filed C F J fs ds) (chainId : Text) (output : Storage.Path) (now later : DateTime) :
    ∃ fs', cmdGenesisInit C F J chainId output now later fs = .ok fs' ∧
      Filed C F J fs' (Function.update ds output (some ⟨chainId, now, []⟩)) := by
  obtain ⟨fs', hfile, hfiled⟩ := h.toFile hJ output (Draft.valid_new chainId now)
  refine ⟨fs', ?_, hfiled⟩
  unfold cmdGenesisInit
  rw [build_initBuilder]
  dsimp only
  rw [hfile]

/-- **`genesis add-validator`** adds to a draft what it admits, and is refused otherwise. -/
theorem Filed.addValidator (hF : F.Reliable) (hJ : J.Reliable F) {fs : Storage.FileSystem}
    {ds : Drafts} (h : Filed C F J fs ds) (genesis : Storage.Path) (pubkey : Text)
    (stake : UInt64) (commission : UInt16) :
    (∃ e, cmdGenesisAddValidator C F J genesis pubkey stake commission fs = .error e ∧
      ds.apply F (.addValidator genesis pubkey stake commission) = none) ∨
    ∃ fs' ds', cmdGenesisAddValidator C F J genesis pubkey stake commission fs = .ok fs' ∧
      ds.apply F (.addValidator genesis pubkey stake commission) = some ds' ∧
      Filed C F J fs' ds' := by
  unfold cmdGenesisAddValidator apply
  dsimp only
  cases hd : ds genesis with
  | none =>
    obtain ⟨e, he⟩ := h.nothing hd
    rw [he]
    exact .inl ⟨_, rfl, rfl⟩
  | some d =>
    obtain ⟨-, hvalid⟩ := h.written hd
    rw [h.fromFile hF hJ hd, Option.bind_some]
    dsimp only
    unfold readKey
    cases F.hexDecode pubkey with
    | error e => exact .inl ⟨_, rfl, rfl⟩
    | ok bytes =>
      dsimp only
      by_cases hlen : bytes.length = 32
      · rw [dif_pos hlen, dif_pos hlen]
        dsimp only [Except.toOption, Option.bind_some]
        rw [Draft.config_add]
        by_cases hadmits : d.Admits ⟨toArray bytes hlen, stake, commission⟩
        · obtain ⟨fs', hfile, hfiled⟩ := h.toFile hJ genesis ((Draft.valid_add hvalid).mpr hadmits)
          rw [Draft.config_validate.mpr ((Draft.valid_add hvalid).mpr hadmits), if_pos hadmits]
          dsimp only
          rw [hfile]
          exact .inr ⟨fs', _, rfl, rfl, hfiled⟩
        · rw [if_neg hadmits]
          cases hcheck :
              ((d.add ⟨toArray bytes hlen, stake, commission⟩).config C F J).validate with
          | error e => exact .inl ⟨_, rfl, rfl⟩
          | ok u =>
            have hadded := Draft.config_validate.mp hcheck
            exact absurd ((Draft.valid_add hvalid).mp hadded) hadmits
      · rw [dif_neg hlen, dif_neg hlen]
        exact .inl ⟨_, rfl, rfl⟩

/-- **One command.** -/
theorem Filed.run (hF : F.Reliable) (hJ : J.Reliable F) {fs : Storage.FileSystem} {ds : Drafts}
    (h : Filed C F J fs ds) (c : Command) :
    (∃ e, c.run C F J fs = .error e ∧ ds.apply F c = none) ∨
      ∃ fs' ds', c.run C F J fs = .ok fs' ∧ ds.apply F c = some ds' ∧ Filed C F J fs' ds' := by
  cases c with
  | init chainId output now later =>
    obtain ⟨fs', hok, hfiled⟩ := h.init hJ chainId output now later
    exact .inr ⟨fs', _, hok, rfl, hfiled⟩
  | addValidator genesis pubkey stake commission =>
    exact h.addValidator hF hJ genesis pubkey stake commission

theorem Filed.runCommands (hF : F.Reliable) (hJ : J.Reliable F) :
    ∀ {fs : Storage.FileSystem} {ds : Drafts} (_ : Filed C F J fs ds) (cs : List Command),
    (Genesis.runCommands C F J fs cs).2 = (ds.runCommands F cs).2 ∧
      Filed C F J (Genesis.runCommands C F J fs cs).1 (ds.runCommands F cs).1 := by
  intro fs ds h cs
  induction cs generalizing fs ds with
  | nil => exact ⟨rfl, h⟩
  | cons c cs ih =>
    unfold Genesis.runCommands Drafts.runCommands
    rcases h.run hF hJ c with ⟨e, hrun, happly⟩ | ⟨fs', ds', hrun, happly, hfiled⟩
    · rw [hrun, happly]
      exact ⟨congrArg (false :: ·) (ih h).1, (ih h).2⟩
    · rw [hrun, happly]
      exact ⟨congrArg (true :: ·) (ih hfiled).1, (ih hfiled).2⟩

end Drafts

/-! ## Starting from a file -/

theorem defaultTestnet_valid (now : DateTime) :
    (FullConfig.defaultTestnet C F J now).validate = .ok () := by
  have hdraft : FullConfig.defaultTestnet C F J now =
      Draft.config C F J ⟨testnetName, now, []⟩ := rfl
  rw [hdraft]
  exact Draft.config_validate.mpr (Draft.valid_new _ _)

theorem loadGenesis_missing {fs : Storage.FileSystem} {path : Storage.Path} {now : DateTime}
    {e : FileError} (h : FullConfig.fromFile C F J fs path = .error e) :
    loadGenesis C F J fs path now = .ok (.defaultTestnet C F J now) := by
  unfold loadGenesis
  rw [h]
  dsimp only
  rw [defaultTestnet_valid]

/-- **The commands keep drafts in files.** Where no file holds a genesis at the start, after any
commands at any paths: a command has been refused exactly if the draft it was for did not admit it;
a path with a draft holds the text of the draft's configuration, the right hash in it, and a
validator starts from just that; and at any other path a validator starts from the default
testnet. -/
theorem genesis_commands_refine (hF : F.Reliable) (hJ : J.Reliable F) {fs₀ : Storage.FileSystem}
    (hnone : ∀ path, ∃ e, FullConfig.fromFile C F J fs₀ path = .error e) (cs : List Command) :
    (runCommands C F J fs₀ cs).2 = (Drafts.runCommands F (fun _ => none) cs).2 ∧
    (∀ path d, (Drafts.runCommands F (fun _ => none) cs).1 path = some d →
      Written F J (runCommands C F J fs₀ cs).1 path (d.config C F J) ∧ d.Valid ∧
        ∀ now, loadGenesis C F J (runCommands C F J fs₀ cs).1 path now =
          .ok (d.config C F J)) ∧
    ∀ path, (Drafts.runCommands F (fun _ => none) cs).1 path = none →
      ∀ now, loadGenesis C F J (runCommands C F J fs₀ cs).1 path now =
        .ok (.defaultTestnet C F J now) := by
  have hstart : Drafts.Filed C F J fs₀ fun _ => none := by
    refine ⟨?_, fun _ => hnone _⟩
    intro path d hd
    cases hd
  obtain ⟨hresults, hfiled⟩ := hstart.runCommands hF hJ cs
  refine ⟨hresults, fun path d hd => ?_, fun path hd now => ?_⟩
  · obtain ⟨hwritten, hvalid⟩ := hfiled.written hd
    refine ⟨hwritten, hvalid, fun now => ?_⟩
    unfold loadGenesis
    rw [hfiled.fromFile hF hJ hd]
    dsimp only
    rw [Draft.config_validate.mpr hvalid]
  · obtain ⟨e, he⟩ := hfiled.nothing hd
    exact loadGenesis_missing he

/-! ## The hash -/

/-- The hash of a configuration that was loaded is its own, whatever the file says. -/
theorem fromFile_genesisHash {fs : Storage.FileSystem} {path : Storage.Path} {c : FullConfig}
    (h : FullConfig.fromFile C F J fs path = .ok c) :
    c.genesisHash = c.computeGenesisHash C F J := by
  unfold FullConfig.fromFile at h
  split at h
  · cases h
  split at h
  · cases h
  split at h
  · cases h
  split at h
  · cases h
  · cases h
    rfl

theorem json_inj (hF : F.Reliable) {k k' : Bytes 32}
    (h : F.hexEncode k.toList = F.hexEncode k'.toList) : k = k' := by
  rw [hF.hexEncode, hF.hexEncode] at h
  exact StateDb.toHex_key_inj h

/-- The canonical form leaves out the hash and nothing else. -/
theorem canonical_inj (hF : F.Reliable) {c c' : FullConfig} (h : c.canonical F = c'.canonical F)
    (hhash : c.genesisHash = c'.genesisHash) : c = c' := by
  have hvalidators : Function.Injective fun v : GenesisValidator => v.json F := by
    intro v v' hv
    obtain ⟨hkey, hstake, hrate⟩ := JsonValidator.mk.inj hv
    cases v
    cases v'
    cases json_inj hF hkey
    cases hstake
    cases hrate
    rfl
  have haccounts : Function.Injective fun a : GenesisAccount => a.json F := by
    intro a a' ha
    obtain ⟨hkey, hbalance⟩ := JsonAccount.mk.inj ha
    cases a
    cases a'
    cases json_inj hF hkey
    cases hbalance
    rfl
  obtain ⟨hid, htime, hparams, hvs, has⟩ := CanonicalGenesis.mk.inj h
  have hvs := List.map_injective_iff.mpr hvalidators hvs
  have has := List.map_injective_iff.mpr haccounts has
  cases c
  cases c'
  cases hid
  cases htime
  cases hparams
  cases hvs
  cases has
  cases hhash
  rfl

/-- **The hash tells a genesis.** Two validators that have loaded files, whoever wrote them, log the
same genesis hash exactly if they start from the same configuration. -/
theorem genesis_hash_tells (hF : F.Reliable) (hJ : Function.Injective J.toString)
    {fs fs' : Storage.FileSystem} {path path' : Storage.Path} {c c' : FullConfig}
    (hC : C.CollisionFree {J.toString (c.canonical F), J.toString (c'.canonical F)})
    (h : FullConfig.fromFile C F J fs path = .ok c)
    (h' : FullConfig.fromFile C F J fs' path' = .ok c') :
    c.genesisHash = c'.genesisHash ↔ c = c' := by
  refine ⟨fun hhash => canonical_inj hF (hJ (hC ?_ ?_ ?_)) hhash, fun heq => heq ▸ rfl⟩
  · exact Set.mem_insert _ _
  · exact Set.mem_insert_of_mem _ rfl
  · rw [fromFile_genesisHash h, fromFile_genesisHash h'] at hhash
    exact hhash

end

/-! ## An instance

Formats in place of `serde_json`, to apply the results to. -/

namespace JsonCrates

def readCount : List UInt8 → Option (Nat × List UInt8)
  | [] => none
  | b :: text =>
    if b = 0 then some (0, text)
    else if b = 1 then (readCount text).map fun r => (r.1 + 1, r.2) else none

theorem readCount_iff : ∀ {text : List UInt8} {n : Nat} {rest : List UInt8},
    readCount text = some (n, rest) ↔ True ∧ text = List.replicate n 1 ++ [0] ++ rest := by
  intro text
  induction text with
  | nil => intro n rest; simp [readCount]
  | cons b text ih =>
    intro n rest
    unfold readCount
    split
    · rename_i hb
      subst hb
      cases n <;> simp [List.replicate_succ]
    split
    · rename_i hb
      subst hb
      rw [Option.map_eq_some_iff]
      constructor
      · rintro ⟨⟨m, rest'⟩, hread, heq⟩
        cases heq
        obtain ⟨-, rfl⟩ := ih.mp hread
        exact ⟨trivial, rfl⟩
      · rintro ⟨-, htext⟩
        cases n with
        | zero => simp at htext
        | succ n =>
          refine ⟨(n, rest), ih.mpr ⟨trivial, ?_⟩, rfl⟩
          rw [List.replicate_succ] at htext
          exact (List.cons.inj htext).2
    · cases n <;> simp_all [List.replicate_succ]

/-- A number as so many ones. -/
def count : Format UInt8 Nat := ⟨fun n => List.replicate n 1 ++ [0], readCount, _, readCount_iff⟩

def text : Format UInt8 Text := .list count .symbol

def time : Format UInt8 DateTime :=
  (Format.u64.pair Format.u32).imap
    ⟨fun t => (t.secs.toUInt64, t.nanos), fun p => ⟨⟨p.1⟩, p.2⟩, fun _ => rfl, fun _ => rfl⟩

/-- The four parts of a fee split. -/
def shares : Format UInt8 (UInt64 × UInt64 × UInt64 × UInt64) :=
  Format.u64.pair (Format.u64.pair (Format.u64.pair Format.u64))

def paramsEquiv : FullParams ≃
    (UInt64 × UInt64 × Nat × UInt64) × (UInt64 × UInt64 × UInt64 × UInt64) ×
      (UInt64 × UInt64 × UInt64 × UInt64) × Text × (UInt64 × UInt64 × UInt64 × UInt64) where
  toFun p :=
    ((p.epochLength, p.blockTimeMs, p.maxValidators, p.baseFeeFloor),
      (p.feeLaunchBurnBps, p.feeLaunchValidatorBps, p.feeLaunchTreasuryBps,
        p.feeLaunchDeveloperBps),
      (p.feeMaturityBurnBps, p.feeMaturityValidatorBps, p.feeMaturityTreasuryBps,
        p.feeMaturityDeveloperBps),
      p.chainId,
      (p.feeTransitionEpochs, p.slashDoubleSignBps, p.slashDowntimeBps, p.stakingBaseApy))
  invFun
    | ((a, b, c, d), (e, f, g, h), (i, j, k, l), m, (n, o, p, q)) =>
      ⟨⟨a, b, c, d, e, f, g, h, i, j, k, l⟩, m, n, o, p, q⟩
  left_inv _ := rfl
  right_inv _ := rfl

def params : Format UInt8 FullParams :=
  Format.imap ((Format.u64.pair (Format.u64.pair (count.pair Format.u64))).pair
    (shares.pair (shares.pair (text.pair shares)))) paramsEquiv

def validator : Format UInt8 JsonValidator :=
  Format.imap (text.pair (Format.u64.pair Format.u16))
    ⟨fun v => (v.pubkey, v.initialStake, v.commissionRate), fun p => ⟨p.1, p.2.1, p.2.2⟩,
      fun _ => rfl, fun _ => rfl⟩

def account : Format UInt8 JsonAccount :=
  Format.imap (text.pair Format.u64)
    ⟨fun a => (a.pubkey, a.balance), fun p => ⟨p.1, p.2⟩, fun _ => rfl, fun _ => rfl⟩

def canonical : Format UInt8 CanonicalGenesis :=
  Format.imap (text.pair (time.pair (params.pair
      ((Format.list count validator).pair (Format.list count account)))))
    ⟨fun g => (g.chainId, g.genesisTime, g.chainParams, g.validators, g.accounts),
      fun p => ⟨p.1, p.2.1, p.2.2.1, p.2.2.2.1, p.2.2.2.2⟩, fun _ => rfl, fun _ => rfl⟩

def genesis : Format UInt8 JsonGenesis :=
  Format.imap (canonical.pair text)
    ⟨fun g => (g.toCanonicalGenesis, g.genesisHash), fun p => ⟨p.1, p.2⟩, fun _ => rfl,
      fun _ => rfl⟩

theorem text_fits (t : Text) : text.Fits t := ⟨trivial, fun _ _ => trivial⟩

theorem canonical_fits (g : CanonicalGenesis) : canonical.Fits g := by
  have hcount : ∀ n, count.Fits n := fun _ => trivial
  simp [canonical, time, params, shares, validator, account, text_fits, hcount]

theorem genesis_fits (g : JsonGenesis) : genesis.Fits g := by
  simp [genesis, canonical_fits, text_fits]

def sample : JsonCrates where
  toStringPretty g := .ok (genesis.write g)
  fromStr t := match genesis.read t with
    | some (g, _) => .ok g
    | none => .error "invalid genesis"
  toString := canonical.write

theorem sample_reliable : sample.Reliable .sample where
  reads g := by
    have hread := genesis.read_write (genesis_fits g) []
    rw [List.append_nil] at hread
    refine ⟨genesis.write g, rfl, rfl, ?_⟩
    dsimp only [sample]
    rw [hread]

theorem sample_toString_injective : Function.Injective sample.toString := by
  intro g g' h
  have hread := canonical.read_write (canonical_fits g) []
  have hread' := canonical.read_write (canonical_fits g') []
  have h : canonical.write g = canonical.write g' := h
  rw [h, hread'] at hread
  cases hread
  rfl

end JsonCrates

/-- Init, then a new validator, then the same one again and one that no hex digits name. -/
def someCommands : List Command :=
  [.init testnetName [] ⟨5, 0⟩ ⟨6, 0⟩,
    .addValidator [] (toHex (Bytes.fill 32 9).toList) 2000000 300,
    .addValidator [] (toHex (Bytes.fill 32 9).toList) 1000000 300,
    .addValidator [] [1] 1000000 300]

theorem genesis_commands_refine_some :
    (runCommands .sample .sample .sample ∅ someCommands).2 = [true, true, false, false] ∧
      ∀ now, (loadGenesis .sample .sample .sample
        (runCommands .sample .sample .sample ∅ someCommands).1 [] now).map (·.validators) =
          .ok (testnetValidators ++ [⟨Bytes.fill 32 9, 2000000, 300⟩]) := by
  have hspec : (Drafts.runCommands .sample (fun _ => none) someCommands).2 =
        [true, true, false, false] ∧
      (Drafts.runCommands .sample (fun _ => none) someCommands).1 [] =
        some ⟨testnetName, ⟨5, 0⟩, [⟨Bytes.fill 32 9, 2000000, 300⟩]⟩ := by
    constructor
    · decide +kernel
    · rfl
  have hnone : ∀ path, ∃ e, FullConfig.fromFile .sample .sample .sample ∅ path = .error e :=
    fun _ => ⟨_, rfl⟩
  obtain ⟨hresults, hdraft, -⟩ := genesis_commands_refine FileCrates.sample_reliable
    JsonCrates.sample_reliable hnone someCommands
  refine ⟨hresults.trans hspec.1, fun now => ?_⟩
  rw [(hdraft [] _ hspec.2).2.2 now]
  rfl

/-- The hashes of two files with different names for the chain differ. -/
theorem genesis_hash_tells_two :
    ∃ fs fs' c c', FullConfig.fromFile .sample .sample .sample fs [] = .ok c ∧
      FullConfig.fromFile .sample .sample .sample fs' [] = .ok c' ∧
        c.genesisHash ≠ c'.genesisHash := by
  have hload : ∀ d : Draft, ∃ fs, FullConfig.fromFile .sample .sample .sample fs [] =
      .ok (d.config .sample .sample .sample) := by
    intro d
    obtain ⟨fs, -, hwritten, -⟩ := toFile_written JsonCrates.sample_reliable
      (d.config .sample .sample .sample) ∅ []
    exact ⟨fs, hwritten.fromFile FileCrates.sample_reliable JsonCrates.sample_reliable⟩
  obtain ⟨fs, hfs⟩ := hload ⟨[], ⟨0, 0⟩, []⟩
  obtain ⟨fs', hfs'⟩ := hload ⟨[1], ⟨0, 0⟩, []⟩
  refine ⟨fs, fs', _, _, hfs, hfs', fun hhash => ?_⟩
  have hC : Crates.sample.CollisionFree
      {JsonCrates.sample.toString ((Draft.config .sample .sample .sample
          ⟨[], ⟨0, 0⟩, []⟩).canonical .sample),
        JsonCrates.sample.toString ((Draft.config .sample .sample .sample
          ⟨[1], ⟨0, 0⟩, []⟩).canonical .sample)} := by
    apply Set.injOn_pair.mpr
    intro heq
    exact absurd heq (by decide +kernel)
  have heq := (genesis_hash_tells FileCrates.sample_reliable
    JsonCrates.sample_toString_injective hC hfs hfs').mp hhash
  exact absurd (congrArg FullConfig.chainId heq) (by decide)

end Genesis

end Trv1Chain
