import Trv1Chain.Genesis.Config
import Trv1Chain.State.Files

/-!
# Genesis files

The rest of `genesis/src/{types,config,builder}.rs`, the two commands of `cli/src/main.rs` that
write a genesis file, and the lines of `validator/src/main.rs` that read one.

`Genesis.GenesisConfig` has the fields the start-up code reads. A `FullConfig` has all of them, the
chain's name, its time and the genesis hash included. In a file the keys and the hash are hex
digits, which is the work of the two modules `hex_serde` and `hex_bytes` of the source; the JSON
around them is `serde_json`'s. A command that exits with an error has written nothing, and a write
does not fail.
-/

set_option autoImplicit false

namespace Trv1Chain

open Lib

namespace Genesis

/-- `DateTime<Utc>`. The program copies it and has it serialised. -/
structure DateTime where
  secs : Int64
  nanos : UInt32
  deriving DecidableEq

structure FullParams extends ChainParams where
  chainId : Text
  feeTransitionEpochs : UInt64
  slashDoubleSignBps : UInt64
  slashDowntimeBps : UInt64
  stakingBaseApy : UInt64

/-- `ChainParams { chain_id, ..ChainParams::default() }`. -/
def FullParams.named (chainId : Text) : FullParams where
  toChainParams := .default
  chainId := chainId
  feeTransitionEpochs := 1825
  slashDoubleSignBps := 5000
  slashDowntimeBps := 100
  stakingBaseApy := 500

structure FullConfig where
  chainId : Text
  genesisTime : DateTime
  chainParams : FullParams
  validators : List GenesisValidator
  accounts : List GenesisAccount
  genesisHash : Bytes 32

/-- The part the validator starts from. -/
def FullConfig.config (c : FullConfig) : GenesisConfig :=
  ⟨c.chainParams.toChainParams, c.validators, c.accounts⟩

def FullConfig.validate (c : FullConfig) : Except GenesisError Unit := c.config.validate

/-! ## As JSON -/

structure JsonValidator where
  pubkey : Text
  initialStake : UInt64
  commissionRate : UInt16

structure JsonAccount where
  pubkey : Text
  balance : UInt64

/-- `CanonicalGenesis`: everything but the hash. -/
structure CanonicalGenesis where
  chainId : Text
  genesisTime : DateTime
  chainParams : FullParams
  validators : List JsonValidator
  accounts : List JsonAccount

structure JsonGenesis extends CanonicalGenesis where
  genesisHash : Text

/-- What `serde_json` does with a genesis. -/
structure JsonCrates where
  toStringPretty : JsonGenesis → Except String Text
  fromStr : Text → Except String JsonGenesis
  /-- `serde_json::to_string`, which is expected not to fail. -/
  toString : CanonicalGenesis → Text

/-- `arr.copy_from_slice(&bytes)`, once the length has been checked. -/
def toArray (bytes : List UInt8) (h : bytes.length = 32) : Bytes 32 := ⟨bytes, h⟩

/-- `hex_serde::deserialize`, and `hex_bytes::deserialize`. -/
def readKey (F : FileCrates) (text : Text) : Except String (Bytes 32) :=
  match F.hexDecode text with
  | .error e => .error e
  | .ok bytes =>
    if h : bytes.length = 32 then .ok (toArray bytes h)
    else .error s!"expected 32 bytes, got {bytes.length}"

def GenesisValidator.json (F : FileCrates) (v : GenesisValidator) : JsonValidator :=
  ⟨F.hexEncode v.pubkey.toList, v.initialStake, v.commissionRate⟩

def GenesisAccount.json (F : FileCrates) (a : GenesisAccount) : JsonAccount :=
  ⟨F.hexEncode a.pubkey.toList, a.balance⟩

def FullConfig.canonical (F : FileCrates) (c : FullConfig) : CanonicalGenesis where
  chainId := c.chainId
  genesisTime := c.genesisTime
  chainParams := c.chainParams
  validators := c.validators.map (·.json F)
  accounts := c.accounts.map (·.json F)

def FullConfig.json (F : FileCrates) (c : FullConfig) : JsonGenesis where
  toCanonicalGenesis := c.canonical F
  genesisHash := F.hexEncode c.genesisHash.toList

def JsonValidator.read (F : FileCrates) (v : JsonValidator) : Except String GenesisValidator :=
  (readKey F v.pubkey).map fun k => ⟨k, v.initialStake, v.commissionRate⟩

def JsonAccount.read (F : FileCrates) (a : JsonAccount) : Except String GenesisAccount :=
  (readKey F a.pubkey).map fun k => ⟨k, a.balance⟩

def JsonGenesis.read (F : FileCrates) (j : JsonGenesis) : Except String FullConfig := do
  let validators ← j.validators.mapM (·.read F)
  let accounts ← j.accounts.mapM (·.read F)
  let genesisHash ← readKey F j.genesisHash
  pure ⟨j.chainId, j.genesisTime, j.chainParams, validators, accounts, genesisHash⟩

/-! ## Files -/

/-- The errors of `GenesisError` that have to do with files. -/
inductive FileError where
  | io (error : String)
  | json (error : String)

section

variable (C : Crates) (F : FileCrates) (J : JsonCrates)

/-- A hash of the canonical JSON. -/
def FullConfig.computeGenesisHash (c : FullConfig) : Bytes 32 :=
  C.sha256 (J.toString (c.canonical F))

/-- `config.genesis_hash = config.compute_genesis_hash()`. -/
def FullConfig.hashed (c : FullConfig) : FullConfig :=
  { c with genesisHash := c.computeGenesisHash C F J }

/-- Load a genesis config. The hash in the file has to be one, and is replaced. -/
def FullConfig.fromFile (fs : Storage.FileSystem) (path : Storage.Path) :
    Except FileError FullConfig :=
  match fs.lookup path with
  | none => .error (.io F.notFound)
  | some data =>
    if F.isUtf8 data = false then .error (.io F.notUtf8)
    else match J.fromStr data with
      | .error e => .error (.json e)
      | .ok j => match j.read F with
        | .error e => .error (.json e)
        | .ok c => .ok (c.hashed C F J)

/-- Save a genesis config. An error of the write itself is not modelled. -/
def FullConfig.toFile (c : FullConfig) (fs : Storage.FileSystem) (path : Storage.Path) :
    Except FileError Storage.FileSystem :=
  match J.toStringPretty (c.json F) with
  | .error e => .error (.json e)
  | .ok json => .ok (fs.insert path json)

/-- The key `[i, 0, .., 0]`. -/
def testnetKey (i : UInt8) : Bytes 32 := ⟨i :: List.replicate 31 0, rfl⟩

def testnetName : Text :=
  ascii ['t', 'r', 'v', '1', '-', 't', 'e', 's', 't', 'n', 'e', 't', '-', '1']

def testnetValidators : List GenesisValidator :=
  [1, 2, 3, 4].map fun i => ⟨testnetKey i, 10000000, 500⟩

def testnetAccounts : List GenesisAccount :=
  [1, 2, 3, 4].map fun i => ⟨testnetKey i, 100000000⟩

/-- A default testnet configuration with 4 validators. -/
def FullConfig.defaultTestnet (now : DateTime) : FullConfig :=
  FullConfig.hashed C F J
    ⟨testnetName, now, .named testnetName, testnetValidators, testnetAccounts, Bytes.fill 32 0⟩

/-! ## The builder -/

structure GenesisBuilder where
  chainId : Text
  genesisTime : DateTime
  chainParams : FullParams
  validators : List GenesisValidator
  accounts : List GenesisAccount

namespace GenesisBuilder

def new (chainId : Text) (now : DateTime) : GenesisBuilder :=
  ⟨chainId, now, .named chainId, [], []⟩

def withGenesisTime (b : GenesisBuilder) (time : DateTime) : GenesisBuilder :=
  { b with genesisTime := time }

def withValidator (b : GenesisBuilder) (pubkey : Bytes 32) (stake : UInt64)
    (commissionRate : UInt16) : GenesisBuilder :=
  { b with validators := b.validators ++ [⟨pubkey, stake, commissionRate⟩] }

def withAccount (b : GenesisBuilder) (pubkey : Bytes 32) (balance : UInt64) : GenesisBuilder :=
  { b with accounts := b.accounts ++ [⟨pubkey, balance⟩] }

/-- The configuration, before it has its hash. -/
def config (b : GenesisBuilder) : FullConfig :=
  ⟨b.chainId, b.genesisTime, b.chainParams, b.validators, b.accounts, Bytes.fill 32 0⟩

/-- Build the final genesis configuration. -/
def build (b : GenesisBuilder) : Except GenesisError FullConfig :=
  match b.config.validate with
  | .error e => .error e
  | .ok () => .ok (b.config.hashed C F J)

end GenesisBuilder

/-! ## The commands -/

/-- Why a command exits with an error. -/
inductive CliError where
  | building (error : GenesisError)
  | reading (error : FileError)
  | invalidPubkeyHex (error : String)
  | pubkeyLength (length : Nat)
  | validationFailed (error : GenesisError)
  | writing (error : FileError)

/-- The calls `genesis init` makes on a builder, for the time and the keys of another config. -/
def initBuilder (chainId : Text) (config : FullConfig) (now : DateTime) : GenesisBuilder :=
  let builder := (GenesisBuilder.new chainId now).withGenesisTime config.genesisTime
  let builder := config.validators.foldl (fun b v => b.withValidator v.pubkey 10000000 500) builder
  config.accounts.foldl (fun b a => b.withAccount a.pubkey 100000000) builder

/-- `trv1 genesis init`: the default testnet under another name. The clock is read twice. -/
def cmdGenesisInit (chainId : Text) (output : Storage.Path) (now later : DateTime)
    (fs : Storage.FileSystem) : Except CliError Storage.FileSystem :=
  match (initBuilder chainId (.defaultTestnet C F J now) later).build C F J with
  | .error e => .error (.building e)
  | .ok config => match config.toFile F J fs output with
    | .error e => .error (.writing e)
    | .ok fs => .ok fs

/-- `trv1 genesis add-validator`. -/
def cmdGenesisAddValidator (genesisPath : Storage.Path) (pubkeyHex : Text) (stake : UInt64)
    (commission : UInt16) (fs : Storage.FileSystem) : Except CliError Storage.FileSystem :=
  match FullConfig.fromFile C F J fs genesisPath with
  | .error e => .error (.reading e)
  | .ok config => match F.hexDecode pubkeyHex with
    | .error e => .error (.invalidPubkeyHex e)
    | .ok pubkey =>
      if h : pubkey.length = 32 then
        let config := FullConfig.hashed C F J
          { config with validators := config.validators ++ [⟨toArray pubkey h, stake, commission⟩] }
        match config.validate with
        | .error e => .error (.validationFailed e)
        | .ok () => match config.toFile F J fs genesisPath with
          | .error e => .error (.writing e)
          | .ok fs => .ok fs
      else .error (.pubkeyLength pubkey.length)

inductive Command where
  | init (chainId : Text) (output : Storage.Path) (now later : DateTime)
  | addValidator (genesis : Storage.Path) (pubkey : Text) (stake : UInt64) (commission : UInt16)

def Command.run (fs : Storage.FileSystem) : Command → Except CliError Storage.FileSystem
  | .init chainId output now later => cmdGenesisInit C F J chainId output now later fs
  | .addValidator genesis pubkey stake commission =>
    cmdGenesisAddValidator C F J genesis pubkey stake commission fs

/-- Commands one after the other: what is on the disk in the end, and what each of them came to. -/
def runCommands : Storage.FileSystem → List Command → Storage.FileSystem × List Bool
  | fs, [] => (fs, [])
  | fs, c :: cs => match c.run C F J fs with
    | .error _ => ((runCommands fs cs).1, false :: (runCommands fs cs).2)
    | .ok fs => ((runCommands fs cs).1, true :: (runCommands fs cs).2)

/-- What a validator starts from: a file that cannot be loaded gives way to the default testnet,
and a genesis that is not valid ends the program. -/
def loadGenesis (fs : Storage.FileSystem) (path : Storage.Path) (now : DateTime) :
    Except GenesisError FullConfig :=
  let genesis := match FullConfig.fromFile C F J fs path with
    | .ok genesis => genesis
    | .error _ => FullConfig.defaultTestnet C F J now
  match genesis.validate with
  | .error e => .error e
  | .ok () => .ok genesis

end

end Genesis

end Trv1Chain
