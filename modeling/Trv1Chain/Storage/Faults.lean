import Trv1Chain.Storage.Tiered

/-!
# Archiving when I/O fails

`archive_key` and `archive_keys` of `tiered.rs` with the errors of the file system in them. An
archived key takes three steps on the disk: the warm file is read, it is removed, the cold file is
written. `Faults` says which of them fail if they are tried; a step that fails changes nothing, and
`?` ends the call. Without a fault the two functions are those of the store.
-/

set_option autoImplicit false

namespace Trv1Chain

open Lib

namespace Storage

/-- The step that failed. -/
inductive IoError where
  | read
  | remove
  | write
  deriving DecidableEq

/-- The steps on the files of one key that fail when they are tried. -/
structure Faults where
  read : Bool
  remove : Bool
  write : Bool

def Faults.none : Faults := ⟨false, false, false⟩

/-- `WarmStore::remove`: an absent file is no error, any other failure is. -/
def WarmStore.tryRemove (C : Crates) (s : WarmStore) (fs : FileSystem) (key : StorageKey)
    (faults : Faults) : FileSystem × Except IoError (Option StorageValue) :=
  if faults.read then (fs, .error .read)
  else match readFile fs (keyPath C s.baseDir key) with
    | some value =>
      if faults.remove then (fs, .error .remove)
      else (fs.erase (keyPath C s.baseDir key), .ok (some value))
    | none => (fs, .ok none)

def ColdArchive.tryArchive (C : Crates) (s : ColdArchive) (fs : FileSystem) (key : StorageKey)
    (value : StorageValue) (faults : Faults) : FileSystem × Except IoError Unit :=
  if faults.write then (fs, .error .write) else (s.archive C fs key value, .ok ())

namespace TieredStorage

def tryArchiveKey (C : Crates) (st : TieredStorage) (key : StorageKey) (faults : Faults) :
    TieredStorage × Except IoError Bool :=
  match st.warm.tryRemove C st.fs key faults with
  | (fs, .error e) => ({ st with fs := fs }, .error e)
  | (fs, .ok none) => ({ st with fs := fs }, .ok false)
  | (fs, .ok (some value)) =>
    match st.cold.tryArchive C fs key value faults with
    | (fs, .error e) => ({ st with fs := fs }, .error e)
    | (fs, .ok ()) => ({ st with fs := fs }, .ok true)

/-- Evict a key from the hot tier. -/
def evict (st : TieredStorage) (key : StorageKey) : TieredStorage :=
  { st with hot := (st.hot.remove key).1 }

/-- The loop over the keys, each with what fails when it comes to it. -/
def tryArchiveKeys (C : Crates) :
    TieredStorage → List (StorageKey × Faults) → UInt64 → TieredStorage × Except IoError UInt64
  | st, [], count => (st, .ok count)
  | st, (key, faults) :: keys, count =>
    match (st.evict key).tryArchiveKey C key faults with
    | (st, .error e) => (st, .error e)
    | (st, .ok moved) => tryArchiveKeys C st keys (if moved then count + 1 else count)

section Loop

variable {C : Crates} {st st₁ : TieredStorage} {key : StorageKey} {faults : Faults}

theorem tryArchiveKeys_failed {e : IoError}
    (h : (st.evict key).tryArchiveKey C key faults = (st₁, .error e))
    (keys : List (StorageKey × Faults)) (count : UInt64) :
    tryArchiveKeys C st ((key, faults) :: keys) count = (st₁, .error e) := by
  rw [tryArchiveKeys, h]

theorem tryArchiveKeys_passed {moved : Bool}
    (h : (st.evict key).tryArchiveKey C key faults = (st₁, .ok moved))
    (keys : List (StorageKey × Faults)) (count : UInt64) :
    tryArchiveKeys C st ((key, faults) :: keys) count =
      tryArchiveKeys C st₁ keys (if moved then count + 1 else count) := by
  rw [tryArchiveKeys, h]

end Loop

/-! ## Without faults -/

theorem tryArchiveKey_none (C : Crates) (st : TieredStorage) (key : StorageKey) :
    st.tryArchiveKey C key .none = ((st.archiveKey C key).1, .ok (st.archiveKey C key).2) := by
  unfold tryArchiveKey archiveKey WarmStore.tryRemove WarmStore.remove takeFile
  dsimp only [Faults.none]
  cases readFile st.fs (keyPath C st.warm.baseDir key) with
  | none => rfl
  | some value => rfl

theorem tryArchiveKeys_none (C : Crates) :
    ∀ (keys : List StorageKey) (st : TieredStorage) (count : UInt64),
    tryArchiveKeys C st (keys.map fun key => (key, .none)) count =
      ((archiveKeys C st keys count).1, .ok (archiveKeys C st keys count).2) := by
  intro keys
  induction keys with
  | nil => intro st count; rfl
  | cons key keys ih =>
    intro st count
    rw [List.map_cons, tryArchiveKeys_passed (tryArchiveKey_none C (st.evict key) key)]
    exact ih _ _

/-! ## What an attempt comes to -/

/-- Everything an attempt at one key can do. -/
inductive Attempts (C : Crates) (st : TieredStorage) (key : StorageKey) (faults : Faults) :
    TieredStorage × Except IoError Bool → Prop
  /-- The read or the removal fails. -/
  | blocked (e : IoError) : faults.read = true ∨ faults.remove = true →
      Attempts C st key faults (st, .error e)
  | absent : readFile st.fs (keyPath C st.warm.baseDir key) = none →
      Attempts C st key faults (st, .ok false)
  | moved {value : StorageValue} : readFile st.fs (keyPath C st.warm.baseDir key) = some value →
      Attempts C st key faults
        ({ st with
            fs := writeFile (takeFile st.fs (keyPath C st.warm.baseDir key)).1
              (keyPath C st.cold.baseDir key) value }, .ok true)
  /-- The file is removed, and the write fails. -/
  | dropped {value : StorageValue} : ¬ (faults.read = true ∨ faults.remove = true) →
      readFile st.fs (keyPath C st.warm.baseDir key) = some value →
      Attempts C st key faults
        ({ st with fs := (takeFile st.fs (keyPath C st.warm.baseDir key)).1 }, .error .write)

theorem tryArchiveKey_attempts (C : Crates) (st : TieredStorage) (key : StorageKey)
    (faults : Faults) : Attempts C st key faults (st.tryArchiveKey C key faults) := by
  unfold tryArchiveKey WarmStore.tryRemove
  by_cases hread : faults.read = true
  · rw [if_pos hread]
    exact .blocked _ (Or.inl hread)
  rw [if_neg hread]
  cases hfile : readFile st.fs (keyPath C st.warm.baseDir key) with
  | none => exact .absent hfile
  | some value =>
    dsimp only
    by_cases hremove : faults.remove = true
    · rw [if_pos hremove]
      exact .blocked _ (Or.inr hremove)
    rw [if_neg hremove]
    have htake : (takeFile st.fs (keyPath C st.warm.baseDir key)).1 =
        st.fs.erase (keyPath C st.warm.baseDir key) := by
      unfold takeFile
      rw [hfile]
    unfold ColdArchive.tryArchive
    dsimp only
    rw [← htake]
    by_cases hwrite : faults.write = true
    · rw [if_pos hwrite]
      exact .dropped (fun h => h.elim hread hremove) hfile
    · rw [if_neg hwrite]
      exact .moved hfile

end TieredStorage

end Storage

end Trv1Chain
