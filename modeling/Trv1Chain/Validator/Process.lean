import Trv1Chain.Lib.Run
import Trv1Chain.Proof.GenesisSupply
import Trv1Chain.State.Files
import Trv1Chain.Validator.Registry

/-!
# The validator process

`validator/src/main.rs` around its loop: what a start finds in the data directory, and what the end
of the process leaves there. Only the accounts are ever written, to one file, when the loop is left
in order; consensus, the pool and the block store begin anew with every start.

A process that is killed, or that panics in its loop, writes nothing. The write at the end succeeds,
and no kill falls into it.
-/

set_option autoImplicit false

namespace Trv1Chain

open Lib Genesis ValidatorSet

/-- What stays the same from one start to the next: the crates, the genesis file, and the name of
`state.json`. -/
structure Site where
  files : FileCrates
  genesis : GenesisConfig
  stateFile : Storage.Path

/-- The data directory, and the process while there is one. -/
structure Process (C : Crates) where
  fs : Storage.FileSystem
  running : Option (ValidatorNode C)

namespace Site

/-- The accounts a start finds: those of the file, or those of the genesis if there is no file or it
cannot be loaded. -/
def restore (site : Site) (it : TextOrder) (fs : Storage.FileSystem) : StateDb :=
  if (fs.lookup site.stateFile).isSome then
    match StateDb.loadFromFile site.files it fs site.stateFile with
    | .ok loaded => loaded
    | .error _ => site.genesis.stateDb
  else site.genesis.stateDb

/-- The save on the way out; a failure is only logged. -/
def save (site : Site) (it : AccountOrder) (itHex : TextOrder) (db : StateDb)
    (fs : Storage.FileSystem) : Storage.FileSystem :=
  match db.saveToFile site.files it itHex fs site.stateFile with
  | .ok fs => fs
  | .error _ => fs

/-- Whether that save writes the file. -/
def Saves (site : Site) (it : AccountOrder) (itHex : TextOrder) (db : StateDb)
    (fs : Storage.FileSystem) : Prop :=
  (db.saveToFile site.files it itHex fs site.stateFile).isOk = true

instance (site : Site) (it : AccountOrder) (itHex : TextOrder) (db : StateDb)
    (fs : Storage.FileSystem) : Decidable (site.Saves it itHex db fs) :=
  inferInstanceAs (Decidable (_ = true))

end Site

/-- What happens to a process. -/
inductive ProcessEvent where
  | launch (env : Env) (it : TextOrder) (signingKey : Option (Bytes 32))
  | turn (e : RotationOrder × Env × NodeEvent)
  | shutdown (it : AccountOrder) (itHex : TextOrder)
  | kill

namespace Process

variable {C : Crates}

/-- `main` up to its loop; it ends early if the genesis is not valid or the fee market refuses its
configuration. -/
def launch (site : Site) (p : Process C) (env : Env) (it : TextOrder)
    (signingKey : Option (Bytes 32)) : Process C × List Action :=
  match site.genesis.validate with
  | .error _ => (p, [])
  | .ok () =>
    match ValidatorNode.boot C env site.genesis signingKey (site.restore it p.fs) with
    | none => (p, [])
    | some (v, acts) => ({ p with running := some v }, acts)

/-- One event. One process at a time has the directory, and only a running one has turns. -/
def step (site : Site) (p : Process C) : ProcessEvent → Option (Process C × List Action)
  | .launch env it signingKey =>
    match p.running with
    | some _ => none
    | none => some (p.launch site env it signingKey)
  | .turn e =>
    match p.running with
    | none => none
    | some v =>
      match v.handle e with
      | some (v, acts) => some ({ p with running := some v }, acts)
      | none => some ({ p with running := none }, [])
  | .shutdown it itHex =>
    match p.running with
    | none => none
    | some v => some (⟨site.save it itHex v.node.stateDb p.fs, none⟩, [])
  | .kill => some ({ p with running := none }, [])

abbrev ProcessHistory (C : Crates) := List (Turn (Process C) ProcessEvent Action)

end Process

end Trv1Chain
