import Trv1Chain.State.StateDb
import Trv1Chain.Storage.Tiered

/-!
# The state in a file

`save_to_file` and `load_from_file` of `runtime/state/src/state_db.rs`. The accounts go through a
second map, keyed by the hex digits of their keys, into JSON and back; three maps are enumerated on
the way, each in an order of its own.

The file system is that of `Storage.Tiered`: a write does not fail. A file that is missing, or that
is no text, cannot be read.
-/

set_option autoImplicit false

namespace Trv1Chain

open Lib

/-- A string, by its bytes. -/
abbrev Text := List UInt8

/-- What saving and loading call: the `hex` crate, `serde_json` at maps from strings to accounts,
and the standard library's reading of a file as text. An error is its message. -/
structure FileCrates where
  hexEncode : List UInt8 → Text
  hexDecode : Text → Except String (List UInt8)
  /-- The entries, as the map enumerates them, to JSON. -/
  toStringPretty : List (Sigma fun _ : Text => AccountState) → Except String Text
  fromStr : Text → Except String (HashMap Text AccountState)
  isUtf8 : List UInt8 → Bool
  notFound : String
  notUtf8 : String

abbrev TextOrder := IterOrder (Sigma fun _ : Text => AccountState)

namespace StateDb

/-- The map with hex keys, collected from the accounts. -/
def hexMap (F : FileCrates) (it : AccountOrder) (db : StateDb) : HashMap Text AccountState :=
  (it.enum db.accounts.entries).foldl (fun m e => m.insert (F.hexEncode e.1.toList) e.2) ∅

/-- Save the accounts. An error of the write itself is not modelled. -/
def saveToFile (F : FileCrates) (it : AccountOrder) (itHex : TextOrder) (db : StateDb)
    (fs : Storage.FileSystem) (path : Storage.Path) : Except StateError Storage.FileSystem :=
  match F.toStringPretty (itHex.enum (hexMap F it db).entries) with
  | .error e => .error (.json e)
  | .ok json => .ok (fs.insert path json)

/-- The loop over the map with hex keys. -/
def loadEntries (F : FileCrates) (accounts : HashMap (Bytes 32) AccountState) :
    List (Sigma fun _ : Text => AccountState) → Except StateError (HashMap (Bytes 32) AccountState)
  | [] => .ok accounts
  | e :: l =>
    match F.hexDecode e.1 with
    | .error msg => .error (.json msg)
    | .ok bytes =>
      if h : bytes.length = 32 then loadEntries F (accounts.insert ⟨bytes, h⟩ e.2) l
      else .error (.json s!"invalid key length: expected 32 bytes, got {bytes.length}")

def loadFromFile (F : FileCrates) (itHex : TextOrder) (fs : Storage.FileSystem)
    (path : Storage.Path) : Except StateError StateDb :=
  match fs.lookup path with
  | none => .error (.io F.notFound)
  | some data =>
    if F.isUtf8 data = false then .error (.io F.notUtf8)
    else match F.fromStr data with
      | .error e => .error (.json e)
      | .ok hexMap =>
        match loadEntries F ∅ (itHex.enum hexMap.entries) with
        | .error e => .error e
        | .ok accounts => .ok ⟨accounts⟩

end StateDb

end Trv1Chain
