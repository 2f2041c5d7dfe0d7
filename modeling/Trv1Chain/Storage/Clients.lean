import Mathlib.Logic.Function.Basic
import Trv1Chain.Lib.Run
import Trv1Chain.Storage.Tiered

/-!
# The tiered store under several clients

`TieredStorage` is shared through `Arc`s and takes no lock of its own: a call is a sequence of
operations on single tiers, and between two of them other clients run. Here each such operation is
one step, with the counters updated next to it, and a client is the point it has reached in its
call (`Pc`).

`HotCache::put` alone is more than one step. It holds the cache's write lock while the eviction
callback writes to the warm tier, so other clients may use the files meanwhile but not the cache.

Without other clients a call takes the steps of `TieredStorage.call` (`solo_call`).
-/

set_option autoImplicit false

namespace Trv1Chain

open Lib

namespace Storage

/-! ## A write to the cache, in two halves -/

namespace HotCache

/-- Make room for a key: what goes if the key is new and the cache is full. -/
def evict (cache : HotCache) (key : StorageKey) : HotCache × Option (StorageKey × StorageValue) :=
  if cache.inner.contains key.bytes then (cache, none)
  else if cache.inner.len ≥ cache.capacity then
    (⟨cache.inner.popLru.1, cache.capacity, (LruCache.cap_popLru _).trans cache.sized⟩,
      cache.inner.popLru.2.map fun e => (⟨e.1⟩, e.2))
  else (cache, none)

theorem sized_put (cache : HotCache) (key : StorageKey) (value : StorageValue) :
    (cache.inner.put key.bytes value).cap = cache.capacity :=
  (LruCache.cap_put _ _ _).trans cache.sized

/-- The write itself. -/
def insert (cache : HotCache) (key : StorageKey) (value : StorageValue) : HotCache :=
  ⟨cache.inner.put key.bytes value, cache.capacity, sized_put cache key value⟩

theorem put_eq (cache : HotCache) (key : StorageKey) (value : StorageValue) :
    cache.put key value = ((cache.evict key).1.insert key value, (cache.evict key).2) := by
  unfold put evict insert
  split
  · rfl
  · split
    · rfl
    · rfl

end HotCache

/-! ## Calls, step by step -/

/-- A call of a client. -/
inductive Request where
  | get (key : StorageKey)
  | put (key : StorageKey) (value : StorageValue)
  | remove (key : StorageKey)
  deriving DecidableEq

def Request.key : Request → StorageKey
  | .get key | .put key _ | .remove key => key

def Request.call : Request → Call
  | .get key => .get key
  | .put key value => .put key value
  | .remove key => .remove key

/-- The call that a write to the cache completes. -/
inductive After where
  | put
  | promote
  deriving DecidableEq

/-- The point a client has reached: what it does next. -/
inductive Pc where
  | idle
  | getHot (key : StorageKey)
  | getWarm (key : StorageKey)
  | getCold (key : StorageKey)
  | putWarm (key : StorageKey) (value : StorageValue)
  | hotPut (key : StorageKey) (value : StorageValue) (after : After)
  /-- The callback, with the evicted entry; the cache is locked. -/
  | flush (evictedKey : StorageKey) (evictedValue : StorageValue) (key : StorageKey)
      (value : StorageValue) (after : After)
  /-- The write after the callback; the cache is locked. -/
  | insert (key : StorageKey) (value : StorageValue) (after : After)
  | removeHot (key : StorageKey)
  | removeWarm (key : StorageKey) (hotVal : Option StorageValue)
  | removeCold (key : StorageKey) (hotVal warmVal : Option StorageValue)

namespace Pc

def start : Request → Pc
  | .get key => .getHot key
  | .put key value => .putWarm key value
  | .remove key => .removeHot key

/-- The call a client is in. -/
def request : Pc → Option Request
  | .idle => none
  | .getHot key | .getWarm key | .getCold key => some (.get key)
  | .putWarm key value => some (.put key value)
  | .hotPut key value .put | .flush _ _ key value .put | .insert key value .put =>
    some (.put key value)
  | .hotPut key _ .promote | .flush _ _ key _ .promote | .insert key _ .promote =>
    some (.get key)
  | .removeHot key | .removeWarm key _ | .removeCold key _ _ => some (.remove key)

/-- The next step takes the cache's lock. -/
def locks : Pc → Bool
  | .getHot _ | .hotPut _ _ _ | .removeHot _ => true
  | _ => false

/-- The client is inside `HotCache::put`, with the lock. -/
def holds : Pc → Bool
  | .flush _ _ _ _ _ | .insert _ _ _ => true
  | _ => false

/-- The entry the next step writes to the warm tier as evicted. -/
def evicts : Pc → Option (StorageKey × StorageValue)
  | .flush evictedKey evictedValue _ _ _ => some (evictedKey, evictedValue)
  | _ => none

end Pc

/-- Where a step leads. -/
inductive Next where
  | goto (pc : Pc)
  | ret (answer : Answer)

def Next.pc : Next → Pc
  | .goto pc => pc
  | .ret _ => .idle

namespace After

/-- A promotion is counted. -/
def store (st : TieredStorage) : After → TieredStorage
  | .put => st
  | .promote => { st with stats := { st.stats with promotions := st.stats.promotions + 1 } }

def answer (value : StorageValue) : After → Answer
  | .put => .done
  | .promote => .value (some value)

/-- The end of a `put`, or of a promotion and its `get`. -/
def finish (st : TieredStorage) (value : StorageValue) (after : After) : TieredStorage × Next :=
  (after.store st, .ret (after.answer value))

end After

/-- One step of a call. -/
def Pc.run (C : Crates) (st : TieredStorage) : Pc → TieredStorage × Next
  | .idle => (st, .goto .idle)
  | .getHot key =>
    match st.hot.get key with
    | (hot, some value) =>
      ({ st with hot := hot, stats := { st.stats with hotHits := st.stats.hotHits + 1 } },
        .ret (.value (some value)))
    | (hot, none) =>
      ({ st with hot := hot, stats := { st.stats with hotMisses := st.stats.hotMisses + 1 } },
        .goto (.getWarm key))
  | .getWarm key =>
    match st.warm.get C st.fs key with
    | some value =>
      ({ st with stats := { st.stats with warmHits := st.stats.warmHits + 1 } },
        .goto (.hotPut key value .promote))
    | none =>
      ({ st with stats := { st.stats with warmMisses := st.stats.warmMisses + 1 } },
        .goto (.getCold key))
  | .getCold key =>
    match st.cold.retrieve C st.fs key with
    | some value =>
      ({ st with stats := { st.stats with coldHits := st.stats.coldHits + 1 } },
        .goto (.hotPut key value .promote))
    | none =>
      ({ st with stats := { st.stats with coldMisses := st.stats.coldMisses + 1 } },
        .ret (.value none))
  | .putWarm key value =>
    ({ st with fs := st.warm.put C st.fs key value }, .goto (.hotPut key value .put))
  | .hotPut key value after =>
    match st.hot.evict key with
    | (hot, none) => after.finish { st with hot := hot.insert key value } value
    | (hot, some (evictedKey, evictedValue)) =>
      ({ st with hot := hot }, .goto (.flush evictedKey evictedValue key value after))
  | .flush evictedKey evictedValue key value after =>
    ({ st with
      fs := st.warm.put C st.fs evictedKey evictedValue
      stats := { st.stats with evictions := st.stats.evictions + 1 } },
      .goto (.insert key value after))
  | .insert key value after => after.finish { st with hot := st.hot.insert key value } value
  | .removeHot key =>
    ({ st with hot := (st.hot.remove key).1 }, .goto (.removeWarm key (st.hot.remove key).2))
  | .removeWarm key hotVal =>
    ({ st with fs := (st.warm.remove C st.fs key).1 },
      .goto (.removeCold key hotVal (st.warm.remove C st.fs key).2))
  | .removeCold key hotVal warmVal =>
    ({ st with fs := (st.cold.remove C st.fs key).1 },
      .ret (.value ((hotVal.or warmVal).or (st.cold.remove C st.fs key).2)))

/-! ## Alone -/

/-- A call without other clients: its steps one after another. -/
def solo (C : Crates) : Nat → TieredStorage → Pc → Option (TieredStorage × Answer)
  | 0, _, _ => none
  | n + 1, st, pc => match pc.run C st with
    | (st', .ret answer) => some (st', answer)
    | (st', .goto pc') => solo C n st' pc'

/-- The last steps of `put` and of a promotion are `hotPut`. -/
theorem solo_hotPut (C : Crates) (n : Nat) (st : TieredStorage) (key : StorageKey)
    (value : StorageValue) (after : After) :
    solo C (n + 3) st (.hotPut key value after) =
      some (after.store (st.hotPut C key value), after.answer value) := by
  unfold TieredStorage.hotPut
  rw [HotCache.put_eq]
  rcases hevict : st.hot.evict key with ⟨hot, _ | ⟨evictedKey, evictedValue⟩⟩
  · simp only [solo, Pc.run, hevict, After.finish]
  · simp only [solo, Pc.run, hevict, After.finish]

/-- **Without other clients** the steps of a call make up the call. -/
theorem solo_call (C : Crates) (st : TieredStorage) (req : Request) :
    solo C 6 st (.start req) = some (st.call C req.call) := by
  cases req with
  | get key =>
    unfold Request.call TieredStorage.call TieredStorage.get
    simp only [Pc.start]
    rcases hhot : st.hot.get key with ⟨hot, _ | value⟩
    · rw [solo, Pc.run, hhot]
      dsimp only
      cases hwarm : st.warm.get C st.fs key with
      | some value =>
        rw [solo, Pc.run]
        simp only [hwarm]
        exact solo_hotPut C 1 _ key value .promote
      | none =>
        rw [solo, Pc.run]
        simp only [hwarm]
        cases hcold : st.cold.retrieve C st.fs key with
        | some value =>
          rw [solo, Pc.run]
          simp only [hcold]
          exact solo_hotPut C 0 _ key value .promote
        | none => simp only [solo, Pc.run, hcold]
    · simp only [solo, Pc.run, hhot]
  | put key value =>
    exact solo_hotPut C 2 { st with fs := st.warm.put C st.fs key value } key value .put
  | remove key => rfl

/-! ## Together -/

/-- The store, the cache's write lock and where each client is. -/
structure Shared (Client : Type) where
  store : TieredStorage
  /-- Who is inside `HotCache::put`. -/
  lock : Option Client
  pc : Client → Pc

inductive Move (Client : Type) where
  /-- A client begins a call. -/
  | invoke (client : Client) (req : Request)
  /-- A client takes the next step of its call. -/
  | step (client : Client)
  deriving DecidableEq

inductive Report (Client : Type) where
  | returned (client : Client) (req : Request) (answer : Answer)
  /-- An evicted entry was written to the warm tier. -/
  | evicted (client : Client) (key : StorageKey) (value : StorageValue)
  deriving DecidableEq

namespace Shared

variable {Client : Type} [DecidableEq Client]

def new (store : TieredStorage) : Shared Client := ⟨store, none, fun _ => .idle⟩

/-- What a client is told, or the log is, by a step. -/
def reports (client : Client) (pc : Pc) (next : Next) : List (Report Client) :=
  (pc.evicts.map fun e => Report.evicted client e.1 e.2).toList ++
    match next, pc.request with
    | .ret answer, some req => [.returned client req answer]
    | _, _ => []

/-- The next step of a client; `none` if it has no call or must wait for the lock. -/
def advance (C : Crates) (s : Shared Client) (client : Client) :
    Option (Shared Client × List (Report Client)) :=
  let pc := s.pc client
  if pc.request = none ∨ pc.locks = true ∧ s.lock ≠ none then none
  else
    let (store, next) := pc.run C s.store
    some (⟨store,
      if next.pc.holds then some client else if pc.holds then none else s.lock,
      Function.update s.pc client next.pc⟩, reports client pc next)

def step (C : Crates) (s : Shared Client) :
    Move Client → Option (Shared Client × List (Report Client))
  | .invoke client req =>
    if (s.pc client).request = none then
      some ({ s with pc := Function.update s.pc client (.start req) }, [])
    else none
  | .step client => s.advance C client

end Shared

end Storage

end Trv1Chain
