import Trv1Chain.Proof.TieredMap
import Trv1Chain.Storage.Clients

/-!
# Steps of the store's clients

What one step of one client can do, said once: to the cache (`Pc.run_cache`), to a file of the warm
tier (`Pc.run_warmFile`), to the lock and to the client itself. The results about interleavings
rest on these and on `Orderly`, which says who has the lock and that who has it has made room.
-/

set_option autoImplicit false

namespace Trv1Chain

open Lib

namespace Storage

variable {C : Crates} {K : Set StorageKey} {k : StorageKey}

/-! ## The cache and the warm tier -/

namespace HotCache

/-- A write of the key finds room. -/
def Room (cache : HotCache) (key : StorageKey) : Prop :=
  cache.inner.contains key.bytes = true ∨ cache.inner.len < cache.inner.cap

theorem peek_insert {cache : HotCache} {key : StorageKey} (hroom : cache.Room key)
    (value : StorageValue) (k : StorageKey) :
    (cache.insert key value).peek k = if k = key then some value else cache.peek k := by
  simp only [← bytes_inj (k := key)]
  exact LruCache.peek_put hroom value k.bytes

/-- Making room takes out one entry, of another key, or there was room. -/
theorem evict_cases (cache : HotCache) (key : StorageKey) :
    (cache.evict key = (cache, none) ∧ cache.Room key) ∨
    ∃ cache' evictedKey evictedValue,
      cache.evict key = (cache', some (evictedKey, evictedValue)) ∧ evictedKey ≠ key ∧
      cache.peek evictedKey = some evictedValue ∧ cache'.inner.len < cache'.inner.cap ∧
      ∀ k, cache'.peek k = if k = evictedKey then none else cache.peek k := by
  unfold evict
  split
  · rename_i hin
    exact .inl ⟨rfl, .inl hin⟩
  rename_i hout
  split
  · rename_i hfull
    cases hpop : cache.inner.popLru.2 with
    | none =>
      -- a full cache has an entry to take out
      obtain ⟨-, hlt⟩ := LruCache.popLru_none (Prod.ext rfl hpop)
      rw [cache.sized] at hlt
      exact absurd hfull (Nat.not_le.mpr hlt)
    | some e =>
      obtain ⟨hheld, hinner, hlt⟩ := LruCache.popLru_some (Prod.ext rfl hpop)
      refine .inr ⟨_, ⟨e.1⟩, e.2, rfl, ?_, hheld, hlt, ?_⟩
      · rintro rfl
        apply hout
        rw [LruCache.contains, hheld]
        rfl
      · intro k
        simp only [← bytes_inj (k := ⟨e.1⟩)]
        exact (congrArg (fun c => c.peek k.bytes) hinner).trans (cache.inner.peek_pop e.1 k.bytes)
  · rename_i hlen
    refine .inl ⟨rfl, .inr ?_⟩
    rw [cache.sized]
    exact Nat.not_le.mp hlen

end HotCache

namespace TieredStorage

/-- The warm tier's file of a key. -/
def warmFile (C : Crates) (st : TieredStorage) (key : StorageKey) : Option StorageValue :=
  st.warm.get C st.fs key

end TieredStorage

section Files

variable {fs : FileSystem} {dir : Path} {key : StorageKey}

theorem readFile_put (hK : Distinct C K) (hk : k ∈ K) (hkey : key ∈ K) (value : StorageValue) :
    readFile (writeFile fs (keyPath C dir key) value) (keyPath C dir k) =
      if k = key then some value else readFile fs (keyPath C dir k) := by
  rw [readFile_writeFile]
  by_cases h : k = key
  · subst h
    rw [if_pos rfl, if_pos rfl]
  · rw [if_neg h, if_neg fun heq => h (keyPath_inj hK hk hkey heq).2]

/-- Removing a key leaves the file of another, also from another directory. -/
theorem readFile_remove (hK : Distinct C K) (hk : k ∈ K) (hkey : key ∈ K) (hne : key ≠ k)
    (dir' : Path) :
    readFile (takeFile fs (keyPath C dir' key)).1 (keyPath C dir k) =
      readFile fs (keyPath C dir k) := by
  rw [readFile_takeFile, if_neg fun heq => hne (keyPath_inj hK hk hkey heq).2.symm]

end Files

/-! ## Calls and the lock -/

namespace Pc

/-- The keys a client works on, the evicted one included. -/
def keys : Pc → List StorageKey
  | .idle => []
  | .getHot key | .getWarm key | .getCold key | .putWarm key _ | .hotPut key _ _
  | .insert key _ _ | .removeHot key | .removeWarm key _ | .removeCold key _ _ => [key]
  | .flush evictedKey _ key _ _ => [evictedKey, key]

theorem next_getHot (C : Crates) (st : TieredStorage) (key : StorageKey) :
    ((getHot key).run C st).2 =
      (st.hot.peek key).elim (.goto (.getWarm key)) fun value => .ret (.value (some value)) := by
  rw [← (st.hot.get_spec key).1, run]
  rcases st.hot.get key with ⟨hot, _ | value⟩ <;> rfl

theorem next_getWarm (C : Crates) (st : TieredStorage) (key : StorageKey) :
    ((getWarm key).run C st).2 = (st.warmFile C key).elim (.goto (.getCold key))
      fun value => .goto (.hotPut key value .promote) := by
  rw [run, TieredStorage.warmFile]
  cases st.warm.get C st.fs key <;> rfl

theorem next_getCold (C : Crates) (st : TieredStorage) (key : StorageKey) :
    ((getCold key).run C st).2 = (st.cold.retrieve C st.fs key).elim (.ret (.value none))
      fun value => .goto (.hotPut key value .promote) := by
  rw [run]
  cases st.cold.retrieve C st.fs key <;> rfl

/-- A client has the lock only inside `HotCache::put`. -/
theorem holds_run {pc : Pc} {st : TieredStorage} (h : (pc.run C st).2.pc.holds = true) :
    (∃ key value after, pc = .hotPut key value after) ∨
      ∃ evictedKey evictedValue key value after,
        pc = .flush evictedKey evictedValue key value after := by
  cases pc with
  | getHot key =>
    rw [next_getHot] at h
    cases hheld : st.hot.peek key <;> rw [hheld] at h <;> cases h
  | getWarm key =>
    rw [next_getWarm] at h
    cases hfile : st.warmFile C key <;> rw [hfile] at h <;> cases h
  | getCold key =>
    rw [next_getCold] at h
    cases hfile : st.cold.retrieve C st.fs key <;> rw [hfile] at h <;> cases h
  | hotPut key value after => exact .inl ⟨key, value, after, rfl⟩
  | flush evictedKey evictedValue key value after =>
    exact .inr ⟨evictedKey, evictedValue, key, value, after, rfl⟩
  | _ => cases h

/-- Without the lock the cache is not touched. -/
theorem run_hot {pc : Pc} (hlocks : pc.locks = false) (hholds : pc.holds = false)
    (st : TieredStorage) : (pc.run C st).1.hot = st.hot := by
  cases pc with
  | getHot key | hotPut key value after | removeHot key => cases hlocks
  | flush evictedKey evictedValue key value after | insert key value after => cases hholds
  | getWarm key =>
    rw [run]
    split <;> rfl
  | getCold key =>
    rw [run]
    split <;> rfl
  | _ => rfl

/-- The client has room for what it is about to write. -/
def HasRoom (pc : Pc) (st : TieredStorage) : Prop :=
  pc.holds = true → st.hot.inner.len < st.hot.inner.cap

/-- **What a step does to the cache**: nothing, or a write that is the last step of its call, or an
eviction before it, or a removal. -/
theorem run_cache (C : Crates) {pc : Pc} {st : TieredStorage} (hroom : pc.HasRoom st) :
    (∀ k, (pc.run C st).1.hot.peek k = st.hot.peek k) ∨
    (∃ key value after, (pc = .hotPut key value after ∨ pc = .insert key value after) ∧
      (pc.run C st).2 = .ret (after.answer value) ∧
      ∀ k, (pc.run C st).1.hot.peek k = if k = key then some value else st.hot.peek k) ∨
    (∃ key value after evictedKey evictedValue, pc = .hotPut key value after ∧
      (pc.run C st).2 = .goto (.flush evictedKey evictedValue key value after) ∧
      st.hot.peek evictedKey = some evictedValue ∧
      ∀ k, (pc.run C st).1.hot.peek k = if k = evictedKey then none else st.hot.peek k) ∨
    (∃ key, pc = .removeHot key ∧
      ∀ k, (pc.run C st).1.hot.peek k = if k = key then none else st.hot.peek k) := by
  cases pc with
  | getHot key =>
    left
    intro k
    rw [← (st.hot.get_spec key).2 k, run]
    rcases st.hot.get key with ⟨hot, _ | value⟩ <;> rfl
  | hotPut key value after =>
    right
    rcases st.hot.evict_cases key with ⟨heq, hfits⟩ |
        ⟨hot, evictedKey, evictedValue, heq, -, hheld, -, hpeek⟩
    · left
      refine ⟨key, value, after, .inl rfl, ?_, ?_⟩
      · rw [run, heq]
        rfl
      · intro k
        rw [run, heq, ← HotCache.peek_insert hfits value k]
        cases after <;> rfl
    · right; left
      refine ⟨key, value, after, evictedKey, evictedValue, rfl, ?_, hheld, ?_⟩
      · rw [run, heq]
      · intro k
        rw [run, heq]
        exact hpeek k
  | insert key value after =>
    right; left
    refine ⟨key, value, after, .inr rfl, rfl, fun k => ?_⟩
    rw [run, ← HotCache.peek_insert (.inr (hroom rfl)) value k]
    cases after <;> rfl
  | removeHot key => exact .inr (.inr (.inr ⟨key, rfl, (st.hot.remove_spec key).2⟩))
  | flush evictedKey evictedValue key value after => exact .inl fun _ => rfl
  | _ => exact .inl fun k => congrArg (fun hot => hot.peek k) (run_hot rfl rfl st)

/-- What a step leaves in the cache was there or is under a key of the client. -/
theorem peek_run (C : Crates) {pc : Pc} {st : TieredStorage} (hroom : pc.HasRoom st)
    {key : StorageKey} {value : StorageValue}
    (h : (pc.run C st).1.hot.peek key = some value) :
    st.hot.peek key = some value ∨ key ∈ pc.keys := by
  rcases run_cache C hroom with hsame | ⟨key', value', after, hpc, -, hpeek⟩ |
      ⟨_, _, _, evictedKey, _, -, -, -, hpeek⟩ | ⟨key', -, hpeek⟩
  · rw [hsame] at h
    exact .inl h
  · rw [hpeek] at h
    split at h
    · rename_i hkey
      subst hkey
      rcases hpc with rfl | rfl <;> exact .inr List.mem_cons_self
    · exact .inl h
  · rw [hpeek] at h
    split at h
    · cases h
    · exact .inl h
  · rw [hpeek] at h
    split at h
    · cases h
    · exact .inl h

/-- A flushed entry is in the warm tier. -/
theorem run_evicts (hK : Distinct C K) (hk : k ∈ K) {pc : Pc} {value : StorageValue}
    (h : pc.evicts = some (k, value)) (st : TieredStorage) :
    (pc.run C st).1.warmFile C k = some value := by
  cases pc with
  | flush evictedKey evictedValue key value' after =>
    cases h
    exact (readFile_put hK hk hk value).trans (if_pos rfl)
  | _ => cases h

/-- **What a step does to a file of the warm tier**: nothing, or it belongs to a write of the key,
or it is the flush of an evicted entry. -/
theorem run_warmFile (hK : Distinct C K) (hk : k ∈ K) {pc : Pc} (hkeys : ∀ key ∈ pc.keys, key ∈ K)
    (st : TieredStorage) :
    (pc.run C st).1.warmFile C k = st.warmFile C k ∨
    (∃ value, pc.evicts = some (k, value)) ∨ (∃ value, pc = .putWarm k value) ∨
    (∃ hotVal, pc = .removeWarm k hotVal) ∨
    ∃ hotVal warmVal, pc = .removeCold k hotVal warmVal := by
  cases pc with
  | getHot key =>
    left
    rw [run]
    rcases st.hot.get key with ⟨hot, _ | value⟩ <;> rfl
  | getWarm key =>
    left
    rw [run]
    split <;> rfl
  | getCold key =>
    left
    rw [run]
    split <;> rfl
  | hotPut key value after =>
    left
    rw [run]
    rcases st.hot.evict key with ⟨hot, _ | e⟩
    · cases after <;> rfl
    · rfl
  | insert key value after =>
    left
    cases after <;> rfl
  | putWarm key value =>
    by_cases hkey : key = k
    · exact .inr (.inr (.inl ⟨value, by rw [hkey]⟩))
    · refine .inl ((readFile_put hK hk (hkeys key List.mem_cons_self) value).trans ?_)
      exact if_neg fun h => hkey h.symm
  | flush evictedKey evictedValue key value after =>
    by_cases hkey : k = evictedKey
    · subst hkey
      exact .inr (.inl ⟨evictedValue, rfl⟩)
    · refine .inl ((readFile_put hK hk (hkeys evictedKey List.mem_cons_self) evictedValue).trans ?_)
      exact if_neg hkey
  | removeWarm key hotVal =>
    by_cases hkey : key = k
    · exact .inr (.inr (.inr (.inl ⟨hotVal, by rw [hkey]⟩)))
    · exact .inl (readFile_remove hK hk (hkeys key List.mem_cons_self) hkey _)
  | removeCold key hotVal warmVal =>
    by_cases hkey : key = k
    · exact .inr (.inr (.inr (.inr ⟨hotVal, warmVal, by rw [hkey]⟩)))
    · exact .inl (readFile_remove hK hk (hkeys key List.mem_cons_self) hkey _)
  | _ => exact .inl rfl

/-- The keys of a client are those of its call, and the one it evicts. -/
theorem keys_run (C : Crates) {pc : Pc} {st : TieredStorage} {key : StorageKey}
    (h : key ∈ (pc.run C st).2.pc.keys) :
    key ∈ pc.keys ∨ ∃ value, st.hot.peek key = some value := by
  cases pc with
  | getHot key' =>
    rw [next_getHot] at h
    cases hheld : st.hot.peek key' with
    | none =>
      rw [hheld] at h
      exact .inl h
    | some value =>
      rw [hheld] at h
      cases h
  | getWarm key' =>
    rw [next_getWarm] at h
    cases hfile : st.warmFile C key' <;> rw [hfile] at h <;> exact .inl h
  | getCold key' =>
    rw [next_getCold] at h
    cases hfile : st.cold.retrieve C st.fs key' with
    | none =>
      rw [hfile] at h
      cases h
    | some value =>
      rw [hfile] at h
      exact .inl h
  | hotPut key' value after =>
    rcases st.hot.evict_cases key' with ⟨heq, -⟩ | ⟨hot, evictedKey, evictedValue, heq, -, hheld, -⟩
    · rw [run, heq] at h
      cases h
    · rw [run, heq] at h
      rcases List.mem_cons.mp h with rfl | hmem
      · exact .inr ⟨evictedValue, hheld⟩
      · exact .inl hmem
  | flush evictedKey evictedValue key' value after => exact .inl (List.mem_cons_of_mem _ h)
  | putWarm key' value | removeHot key' | removeWarm key' hotVal => exact .inl h
  | _ => cases h

theorem key_mem_keys {pc : Pc} {req : Request} (h : pc.request = some req) : req.key ∈ pc.keys := by
  cases pc with
  | idle => cases h
  | hotPut key value after => cases after <;> cases h <;> exact List.mem_cons_self
  | flush evictedKey evictedValue key value after =>
    cases after <;> cases h <;> exact List.mem_cons_of_mem _ List.mem_cons_self
  | insert key value after => cases after <;> cases h <;> exact List.mem_cons_self
  | _ => cases h; exact List.mem_cons_self

/-- Who has the lock after a step has room. -/
theorem room_run (C : Crates) {pc : Pc} {st : TieredStorage} (hroom : pc.HasRoom st)
    (h : (pc.run C st).2.pc.holds = true) :
    (pc.run C st).1.hot.inner.len < (pc.run C st).1.hot.inner.cap := by
  rcases holds_run h with ⟨key, value, after, rfl⟩ | ⟨_, _, _, _, _, rfl⟩
  · rcases st.hot.evict_cases key with ⟨heq, -⟩ |
        ⟨hot, evictedKey, evictedValue, heq, -, -, hlen, -⟩
    · rw [run, heq] at h
      cases h
    · rw [run, heq]
      exact hlen
  · exact hroom rfl

end Pc

namespace Shared

variable {Client : Type} {s s' : Shared Client} {c : Client} {out : List (Report Client)}

/-- Who has the lock and what the keys are, in every reachable state. -/
structure Orderly (K : Set StorageKey) (s : Shared Client) : Prop where
  lock : ∀ c, s.lock = some c ↔ (s.pc c).holds = true
  keys : ∀ c, ∀ key ∈ (s.pc c).keys, key ∈ K
  cached : ∀ key value, s.store.hot.peek key = some value → key ∈ K
  /-- Who has the lock has made room. -/
  room : ∀ c, (s.pc c).holds = true → s.store.hot.inner.len < s.store.hot.inner.cap

/-- Nobody else has the lock when a client takes it or has it. -/
theorem Orderly.owner (ho : s.Orderly K) (hfree : (s.pc c).locks = true → s.lock = none)
    {d : Client} (hd : (s.pc d).holds = true)
    (hc : (s.pc c).locks = true ∨ (s.pc c).holds = true) : d = c := by
  rcases hc with hc | hc
  · rw [(ho.lock d).mpr hd] at hfree
    cases hfree hc
  · exact Option.some.inj (((ho.lock d).mpr hd).symm.trans ((ho.lock c).mpr hc))

theorem orderly_new {config : StorageConfig} {fs : FileSystem} {st : TieredStorage}
    (hnew : TieredStorage.new config fs = some st) : (Shared.new st : Shared Client).Orderly K := by
  have hempty : ∀ key, st.hot.peek key = none := by
    unfold TieredStorage.new HotCache.new at hnew
    split at hnew
    · cases hnew
      exact fun _ => rfl
    · cases hnew
  refine ⟨fun c => iff_of_false (Option.some_ne_none c).symm Bool.false_ne_true, ?_, ?_, ?_⟩
  · exact fun c key hmem => absurd hmem List.not_mem_nil
  · intro key value hheld
    exact absurd ((hempty key).symm.trans hheld) (Option.some_ne_none value).symm
  · exact fun c hholds => absurd hholds Bool.false_ne_true

theorem returned_mem_reports {d : Client} {pc : Pc} {next : Next} {req : Request}
    {answer : Answer} :
    Report.returned d req answer ∈ reports c pc next ↔
      d = c ∧ pc.request = some req ∧ next = .ret answer := by
  unfold reports
  rw [List.mem_append]
  constructor
  · rintro (hmem | hmem)
    · cases pc.evicts <;> simp at hmem
    · split at hmem
      · rename_i hreq
        cases List.mem_singleton.mp hmem
        exact ⟨rfl, hreq, rfl⟩
      · cases hmem
  · rintro ⟨rfl, hreq, rfl⟩
    rw [hreq]
    exact .inr List.mem_cons_self

theorem evicted_mem_reports {d : Client} {pc : Pc} {next : Next} {key : StorageKey}
    {value : StorageValue} :
    Report.evicted d key value ∈ reports c pc next ↔ d = c ∧ pc.evicts = some (key, value) := by
  unfold reports
  rw [List.mem_append]
  constructor
  · rintro (hmem | hmem)
    · cases hevicts : pc.evicts with
      | none =>
        rw [hevicts] at hmem
        cases hmem
      | some e =>
        rw [hevicts] at hmem
        cases List.mem_singleton.mp hmem
        exact ⟨rfl, rfl⟩
    · split at hmem
      · cases List.mem_singleton.mp hmem
      · cases hmem
  · rintro ⟨rfl, hevicts⟩
    rw [hevicts]
    exact .inl List.mem_cons_self

variable [DecidableEq Client]

/-- **What a step does**, said once. -/
theorem advance_some (h : s.advance C c = some (s', out)) :
    (s.pc c).request ≠ none ∧ ((s.pc c).locks = true → s.lock = none) ∧
    s'.store = ((s.pc c).run C s.store).1 ∧
    s'.lock = (if ((s.pc c).run C s.store).2.pc.holds then some c
      else if (s.pc c).holds then none else s.lock) ∧
    s'.pc = Function.update s.pc c ((s.pc c).run C s.store).2.pc ∧
    out = reports c (s.pc c) ((s.pc c).run C s.store).2 := by
  unfold advance at h
  dsimp only at h
  split at h
  · cases h
  · rename_i hready
    rw [not_or, not_and, not_not] at hready
    cases h
    exact ⟨hready.1, hready.2, rfl, rfl, rfl, rfl⟩

theorem Orderly.lock_step (ho : s.Orderly K) (h : s.advance C c = some (s', out)) (d : Client) :
    s'.lock = some d ↔ (s'.pc d).holds = true := by
  obtain ⟨-, hfree, -, hlock, hpc, -⟩ := advance_some h
  rw [hlock, hpc]
  by_cases hnext : ((s.pc c).run C s.store).2.pc.holds = true
  · rw [if_pos hnext]
    by_cases hdc : d = c
    · subst hdc
      rw [Function.update_self]
      exact iff_of_true rfl hnext
    · rw [Function.update_of_ne hdc]
      refine iff_of_false (fun heq => hdc (Option.some.inj heq).symm) fun hd => ?_
      refine hdc (ho.owner hfree hd ?_)
      rcases Pc.holds_run hnext with ⟨_, _, _, hc⟩ | ⟨_, _, _, _, _, hc⟩
      · exact .inl (by rw [hc]; rfl)
      · exact .inr (by rw [hc]; rfl)
  · rw [if_neg hnext]
    by_cases hdc : d = c
    · subst hdc
      rw [Function.update_self]
      refine iff_of_false ?_ hnext
      split
      · exact (Option.some_ne_none _).symm
      · rename_i hholds
        exact fun heq => hholds ((ho.lock d).mp heq)
    · rw [Function.update_of_ne hdc]
      split
      · rename_i hholds
        exact iff_of_false (Option.some_ne_none _).symm fun hd =>
          hdc (ho.owner hfree hd (.inr hholds))
      · exact ho.lock d

theorem Orderly.step (ho : s.Orderly K) (h : s.advance C c = some (s', out)) : s'.Orderly K := by
  refine ⟨ho.lock_step h, ?_, ?_, ?_⟩
  · obtain ⟨-, -, -, -, hpc, -⟩ := advance_some h
    intro d key hkey
    rw [hpc] at hkey
    by_cases hdc : d = c
    · subst hdc
      rw [Function.update_self] at hkey
      rcases Pc.keys_run C hkey with hold | ⟨value, hheld⟩
      · exact ho.keys d key hold
      · exact ho.cached key value hheld
    · rw [Function.update_of_ne hdc] at hkey
      exact ho.keys d key hkey
  · obtain ⟨-, -, hstore, -, -, -⟩ := advance_some h
    intro key value hheld
    rw [hstore] at hheld
    rcases Pc.peek_run C (ho.room c) hheld with hold | hmem
    · exact ho.cached key value hold
    · exact ho.keys c key hmem
  · obtain ⟨-, hfree, hstore, -, hpc, -⟩ := advance_some h
    intro d hd
    rw [hpc] at hd
    rw [hstore]
    by_cases hdc : d = c
    · subst hdc
      rw [Function.update_self] at hd
      exact Pc.room_run C (ho.room d) hd
    · rw [Function.update_of_ne hdc] at hd
      have hno : ¬ ((s.pc c).locks = true ∨ (s.pc c).holds = true) :=
        fun hc => hdc (ho.owner hfree hd hc)
      rw [not_or, Bool.not_eq_true, Bool.not_eq_true] at hno
      rw [Pc.run_hot hno.1 hno.2]
      exact ho.room d hd

/-! ## Runs -/

theorem eq_idle_of_request {pc : Pc} (h : pc.request = none) : pc = .idle := by
  cases pc with
  | idle => rfl
  | hotPut key value after => cases after <;> cases h
  | flush evictedKey evictedValue key value after => cases after <;> cases h
  | insert key value after => cases after <;> cases h
  | _ => cases h

theorem invoke_some {req : Request} (h : s.step C (.invoke c req) = some (s', out)) :
    s.pc c = .idle ∧ s' = { s with pc := Function.update s.pc c (.start req) } ∧ out = [] := by
  unfold step at h
  dsimp only at h
  split at h
  · rename_i hidle
    cases h
    exact ⟨eq_idle_of_request hidle, rfl, rfl⟩
  · cases h

/-- A call begins without the lock. -/
theorem holds_start (req : Request) : (Pc.start req).holds = false := by
  cases req <;> rfl

theorem Orderly.invoke (ho : s.Orderly K) {req : Request} (hkey : req.key ∈ K)
    (h : s.step C (.invoke c req) = some (s', out)) : s'.Orderly K := by
  obtain ⟨hidle, rfl, -⟩ := invoke_some h
  have hholds : ∀ d, (Function.update s.pc c (.start req) d).holds = (s.pc d).holds := by
    intro d
    by_cases hdc : d = c
    · rw [hdc, Function.update_self, hidle, holds_start]
      rfl
    · rw [Function.update_of_ne hdc]
  refine ⟨fun d => ?_, fun d key hmem => ?_, ho.cached, fun d hd => ?_⟩
  · rw [hholds d]
    exact ho.lock d
  · by_cases hdc : d = c
    · subst hdc
      change key ∈ (Function.update s.pc d (.start req) d).keys at hmem
      rw [Function.update_self] at hmem
      cases req <;> (rw [List.mem_singleton.mp hmem]; exact hkey)
    · change key ∈ (Function.update s.pc c (.start req) d).keys at hmem
      rw [Function.update_of_ne hdc] at hmem
      exact ho.keys d key hmem
  · exact ho.room d ((hholds d).symm.trans hd)

/-- The keys of the calls are in `K`. -/
def Keyed (K : Set StorageKey) (_ : Shared Client) : Move Client → Prop
  | .invoke _ req => req.key ∈ K
  | .step _ => True

instance (K : Set StorageKey) [DecidablePred (· ∈ K)] (s : Shared Client) :
    (m : Move Client) → Decidable (Keyed K s m)
  | .invoke _ req => inferInstanceAs (Decidable (req.key ∈ K))
  | .step _ => isTrue trivial

abbrev SharedTurn (Client : Type) := Turn (Shared Client) (Move Client) (Report Client)

/-- Any number of clients, any calls on the keys of `K`, in any interleaving. -/
def Interleaved (C : Crates) (K : Set StorageKey) (s₀ : Shared Client)
    (hist : List (SharedTurn Client)) (s : Shared Client) : Prop :=
  Run (step C) (Keyed K) s₀ hist s

theorem Orderly.turn (ho : s.Orderly K) {m : Move Client} (hm : Keyed K s m)
    (h : s.step C m = some (s', out)) : s'.Orderly K := by
  cases m with
  | invoke c req => exact ho.invoke hm h
  | step c => exact ho.step h

theorem Orderly.run {s₀ : Shared Client} (ho : s₀.Orderly K) {hist : List (SharedTurn Client)}
    (hrun : Interleaved C K s₀ hist s) : s.Orderly K :=
  hrun.invariant (I := fun _ s => s.Orderly K) ho fun _ ih hm hstep => ih.turn hm hstep

end Shared

end Storage

end Trv1Chain
