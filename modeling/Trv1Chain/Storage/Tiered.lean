import Trv1Chain.Crates
import Trv1Chain.Lib.Lru

/-!
# The tiered store

`runtime/storage/src/{types,lru_cache,nvme,archive,tiered}.rs`: a cache in memory over a directory
of files over a second directory of files. The `lru` crate's cache is `Lib.LruCache`.

The file system is a map from paths to contents that answers every call, and the two directories
are part of one: nothing says that they differ. Directories themselves are not modelled
(`create_dir_all`). Here no call fails; `Storage.Faults` has archiving with calls that do.
-/

set_option autoImplicit false

namespace Trv1Chain

open Lib

namespace Storage

structure StorageKey where
  bytes : List UInt8
  deriving DecidableEq

structure StorageValue where
  bytes : List UInt8
  deriving DecidableEq

structure StorageConfig where
  lruCapacity : Nat
  nvmePath : List (List UInt8)
  archivePath : List (List UInt8)

inductive StorageTier where
  | hot
  | warm
  | cold
  deriving DecidableEq

structure StorageStats where
  hotHits : UInt64
  hotMisses : UInt64
  warmHits : UInt64
  warmMisses : UInt64
  coldHits : UInt64
  coldMisses : UInt64
  promotions : UInt64
  evictions : UInt64

def StorageStats.default : StorageStats := ⟨0, 0, 0, 0, 0, 0, 0, 0⟩

/-! ## Files -/

/-- A path by its components. -/
abbrev Path := List (List UInt8)

abbrev FileSystem := HashMap Path (List UInt8)

/-- SHA-256 of a key, in hex. -/
def hashKey (C : Crates) (key : StorageKey) : List UInt8 :=
  C.hexEncode (C.sha256 key.bytes).toList

/-- The file of a key: its hash, the first two digits as a directory. -/
def keyPath (C : Crates) (baseDir : Path) (key : StorageKey) : Path :=
  baseDir ++ [(hashKey C key).take 2, (hashKey C key).drop 2]

def readFile (fs : FileSystem) (path : Path) : Option StorageValue :=
  (fs.lookup path).map StorageValue.mk

def writeFile (fs : FileSystem) (path : Path) (value : StorageValue) : FileSystem :=
  fs.insert path value.bytes

/-- Read a file and remove it, if it is there. -/
def takeFile (fs : FileSystem) (path : Path) : FileSystem × Option StorageValue :=
  match readFile fs path with
  | some value => (fs.erase path, some value)
  | none => (fs, none)

/-- The warm tier. -/
structure WarmStore where
  baseDir : Path

namespace WarmStore

def get (C : Crates) (s : WarmStore) (fs : FileSystem) (key : StorageKey) : Option StorageValue :=
  readFile fs (keyPath C s.baseDir key)

def put (C : Crates) (s : WarmStore) (fs : FileSystem) (key : StorageKey) (value : StorageValue) :
    FileSystem :=
  writeFile fs (keyPath C s.baseDir key) value

def remove (C : Crates) (s : WarmStore) (fs : FileSystem) (key : StorageKey) :
    FileSystem × Option StorageValue :=
  takeFile fs (keyPath C s.baseDir key)

def contains (C : Crates) (s : WarmStore) (fs : FileSystem) (key : StorageKey) : Bool :=
  (fs.lookup (keyPath C s.baseDir key)).isSome

end WarmStore

/-- The cold tier, the same over another directory. -/
structure ColdArchive where
  baseDir : Path

namespace ColdArchive

def archive (C : Crates) (s : ColdArchive) (fs : FileSystem) (key : StorageKey)
    (value : StorageValue) : FileSystem :=
  writeFile fs (keyPath C s.baseDir key) value

def retrieve (C : Crates) (s : ColdArchive) (fs : FileSystem) (key : StorageKey) :
    Option StorageValue :=
  readFile fs (keyPath C s.baseDir key)

def remove (C : Crates) (s : ColdArchive) (fs : FileSystem) (key : StorageKey) :
    FileSystem × Option StorageValue :=
  takeFile fs (keyPath C s.baseDir key)

def contains (C : Crates) (s : ColdArchive) (fs : FileSystem) (key : StorageKey) : Bool :=
  (fs.lookup (keyPath C s.baseDir key)).isSome

end ColdArchive

/-! ## Memory -/

/-- The hot tier. -/
structure HotCache where
  inner : LruCache (List UInt8) StorageValue
  capacity : Nat
  /-- The cache was made with this capacity. -/
  sized : inner.cap = capacity

namespace HotCache

/-- `none` is the panic on capacity zero. -/
def new (capacity : Nat) : Option HotCache :=
  if h : 0 < capacity then some ⟨LruCache.new _ _ capacity h, capacity, rfl⟩ else none

/-- Retrieve a value, promoting it to most-recently-used. -/
def get (cache : HotCache) (key : StorageKey) : HotCache × Option StorageValue :=
  (⟨(cache.inner.get key.bytes).1, cache.capacity, (LruCache.cap_get _ _).trans cache.sized⟩,
    (cache.inner.get key.bytes).2)

/-- Insert or update a pair; the second part is what the eviction callback is called with. -/
def put (cache : HotCache) (key : StorageKey) (value : StorageValue) :
    HotCache × Option (StorageKey × StorageValue) :=
  if cache.inner.contains key.bytes then
    (⟨cache.inner.put key.bytes value, cache.capacity,
      (LruCache.cap_put _ _ _).trans cache.sized⟩, none)
  else if cache.inner.len ≥ cache.capacity then
    (⟨cache.inner.popLru.1.put key.bytes value, cache.capacity,
      (LruCache.cap_put _ _ _).trans ((LruCache.cap_popLru _).trans cache.sized)⟩,
      cache.inner.popLru.2.map fun e => (⟨e.1⟩, e.2))
  else
    (⟨cache.inner.put key.bytes value, cache.capacity,
      (LruCache.cap_put _ _ _).trans cache.sized⟩, none)

def remove (cache : HotCache) (key : StorageKey) : HotCache × Option StorageValue :=
  (⟨(cache.inner.pop key.bytes).1, cache.capacity, (LruCache.cap_pop _ _).trans cache.sized⟩,
    (cache.inner.pop key.bytes).2)

def contains (cache : HotCache) (key : StorageKey) : Bool := cache.inner.contains key.bytes

end HotCache

/-! ## The three tiers -/

/-- The store, with the file system it works on. -/
structure TieredStorage where
  hot : HotCache
  warm : WarmStore
  cold : ColdArchive
  stats : StorageStats
  fs : FileSystem

namespace TieredStorage

def new (config : StorageConfig) (fs : FileSystem) : Option TieredStorage :=
  (HotCache.new config.lruCapacity).map fun hot =>
    ⟨hot, ⟨config.nvmePath⟩, ⟨config.archivePath⟩, StorageStats.default, fs⟩

/-- `hot.put`, with the callback that flushes what it evicts to the warm tier. -/
def hotPut (C : Crates) (st : TieredStorage) (key : StorageKey) (value : StorageValue) :
    TieredStorage :=
  match st.hot.put key value with
  | (hot, none) => { st with hot := hot }
  | (hot, some (evictedKey, evictedValue)) =>
    { st with
      hot := hot
      fs := st.warm.put C st.fs evictedKey evictedValue
      stats := { st.stats with evictions := st.stats.evictions + 1 } }

/-- Get a value, checking hot, then warm, then cold. Promotes to hot on access. -/
def get (C : Crates) (st : TieredStorage) (key : StorageKey) :
    TieredStorage × Option StorageValue :=
  match st.hot.get key with
  | (hot, some value) =>
    ({ st with hot := hot, stats := { st.stats with hotHits := st.stats.hotHits + 1 } },
      some value)
  | (hot, none) =>
    let st := { st with
      hot := hot, stats := { st.stats with hotMisses := st.stats.hotMisses + 1 } }
    match st.warm.get C st.fs key with
    | some value =>
      let st := { st with stats := { st.stats with warmHits := st.stats.warmHits + 1 } }
      let st := st.hotPut C key value
      ({ st with stats := { st.stats with promotions := st.stats.promotions + 1 } }, some value)
    | none =>
      let st := { st with stats := { st.stats with warmMisses := st.stats.warmMisses + 1 } }
      match st.cold.retrieve C st.fs key with
      | some value =>
        let st := { st with stats := { st.stats with coldHits := st.stats.coldHits + 1 } }
        let st := st.hotPut C key value
        ({ st with stats := { st.stats with promotions := st.stats.promotions + 1 } }, some value)
      | none =>
        ({ st with stats := { st.stats with coldMisses := st.stats.coldMisses + 1 } }, none)

/-- Put a value: to the warm tier for durability, and to the hot cache. -/
def put (C : Crates) (st : TieredStorage) (key : StorageKey) (value : StorageValue) :
    TieredStorage :=
  ({ st with fs := st.warm.put C st.fs key value }).hotPut C key value

/-- Remove a value from all tiers. -/
def remove (C : Crates) (st : TieredStorage) (key : StorageKey) :
    TieredStorage × Option StorageValue :=
  let (hot, hotVal) := st.hot.remove key
  let (fs, warmVal) := st.warm.remove C st.fs key
  let (fs, coldVal) := st.cold.remove C fs key
  ({ st with hot := hot, fs := fs }, (hotVal.or warmVal).or coldVal)

/-- Move a pair from the warm store into the archive. -/
def archiveKey (C : Crates) (st : TieredStorage) (key : StorageKey) : TieredStorage × Bool :=
  match st.warm.remove C st.fs key with
  | (fs, some value) => ({ st with fs := st.cold.archive C fs key value }, true)
  | (fs, none) => ({ st with fs := fs }, false)

/-- Archive a list of keys, each evicted from the hot tier first. -/
def archiveKeys (C : Crates) : TieredStorage → List StorageKey → UInt64 → TieredStorage × UInt64
  | st, [], count => (st, count)
  | st, key :: keys, count =>
    let (hot, _) := st.hot.remove key
    let (st, moved) := ({ st with hot := hot }).archiveKey C key
    archiveKeys C st keys (if moved then count + 1 else count)

/-- Locate which tier a key resides in (if any). -/
def locate (C : Crates) (st : TieredStorage) (key : StorageKey) : Option StorageTier :=
  if st.hot.contains key then some .hot
  else if st.warm.contains C st.fs key then some .warm
  else if st.cold.contains C st.fs key then some .cold
  else none

end TieredStorage

/-- One call of the store. -/
inductive Call where
  | put (key : StorageKey) (value : StorageValue)
  | get (key : StorageKey)
  | remove (key : StorageKey)
  | archiveKey (key : StorageKey)
  | archiveKeys (keys : List StorageKey)

inductive Answer where
  | done
  | value (v : Option StorageValue)
  | moved (b : Bool)
  | count (n : UInt64)
  deriving DecidableEq

def TieredStorage.call (C : Crates) (st : TieredStorage) : Call → TieredStorage × Answer
  | .put key value => (st.put C key value, .done)
  | .get key => ((st.get C key).1, .value (st.get C key).2)
  | .remove key => ((st.remove C key).1, .value (st.remove C key).2)
  | .archiveKey key => ((st.archiveKey C key).1, .moved (st.archiveKey C key).2)
  | .archiveKeys keys =>
    ((TieredStorage.archiveKeys C st keys 0).1, .count (TieredStorage.archiveKeys C st keys 0).2)

end Storage

end Trv1Chain
