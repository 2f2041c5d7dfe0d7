import Trv1Chain.Lib.Run
import Trv1Chain.Storage.Tiered

/-!
# The tiered store is a map

A key may have a value in the cache, a file in the warm directory and a file in the cold one, and
the cold file may be an old one. `stored` is what the files say about a key: the warm file if there
is one, else the cold one. Two facts carry everything: `stored` is the last value put, and the cache
holds nothing else. A cold file is out of date only under a warm file, so it is never read; an
eviction writes what was there already.

The result is for any two directories, one and the same among them, and for the keys the digest
tells apart.
-/

set_option autoImplicit false

namespace Trv1Chain

open Lib

namespace Storage

variable {C : Crates} {K : Set StorageKey}

/-! ## Files -/

/-- The keys in `K` have different file names: SHA-256 tells them apart, and `hex::encode` its
digests. -/
structure Distinct (C : Crates) (K : Set StorageKey) : Prop where
  sha256 : C.CollisionFree (Set.image StorageKey.bytes K)
  hexEncode : Function.Injective C.hexEncode

theorem hashKey_inj (hK : Distinct C K) {k k' : StorageKey} (hk : k ∈ K) (hk' : k' ∈ K)
    (h : hashKey C k = hashKey C k') : k = k' := by
  have hsha : C.sha256 k.bytes = C.sha256 k'.bytes := Bytes.toList_inj (hK.hexEncode h)
  have hbytes := hK.sha256 (Set.mem_image_of_mem _ hk) (Set.mem_image_of_mem _ hk') hsha
  cases k
  cases k'
  exact congrArg StorageKey.mk hbytes

/-- Two files are the same if the directories and the digests are. -/
theorem keyPath_eq_iff {k k' : StorageKey} {dir dir' : Path} :
    keyPath C dir k = keyPath C dir' k' ↔ dir = dir' ∧ hashKey C k = hashKey C k' := by
  constructor
  · intro h
    unfold keyPath at h
    obtain ⟨hdir, hname⟩ := List.append_inj' h rfl
    obtain ⟨hshard, hrest⟩ := List.cons.inj hname
    refine ⟨hdir, ?_⟩
    rw [← List.take_append_drop 2 (hashKey C k), ← List.take_append_drop 2 (hashKey C k'), hshard,
      (List.cons.inj hrest).1]
  · rintro ⟨rfl, hhash⟩
    unfold keyPath
    rw [hhash]

/-- Two keys share a file only if they are the same key in the same directory. -/
theorem keyPath_inj (hK : Distinct C K) {k k' : StorageKey} (hk : k ∈ K) (hk' : k' ∈ K)
    {dir dir' : Path} (h : keyPath C dir k = keyPath C dir' k') : dir = dir' ∧ k = k' := by
  obtain ⟨hdir, hhash⟩ := keyPath_eq_iff.mp h
  exact ⟨hdir, hashKey_inj hK hk hk' hhash⟩

theorem readFile_writeFile (fs : FileSystem) (path path' : Path) (value : StorageValue) :
    readFile (writeFile fs path value) path' =
      if path' = path then some value else readFile fs path' := by
  unfold readFile writeFile
  split
  · rename_i h
    subst h
    rw [AList.lookup_insert]
    rfl
  · rename_i h
    rw [AList.lookup_insert_ne h]

theorem takeFile_value (fs : FileSystem) (path : Path) :
    (takeFile fs path).2 = readFile fs path := by
  unfold takeFile
  split
  · rename_i h
    exact h.symm
  · rename_i h
    exact h.symm

theorem readFile_takeFile (fs : FileSystem) (path path' : Path) :
    readFile (takeFile fs path).1 path' = if path' = path then none else readFile fs path' := by
  unfold takeFile
  split
  · split
    · rename_i h
      subst h
      unfold readFile
      rw [AList.lookup_erase]
      rfl
    · rename_i h
      unfold readFile
      rw [AList.lookup_erase_ne h]
  · rename_i hnone
    split
    · rename_i h
      rw [h]
      exact hnone
    · rfl

/-- What the files say about a key. -/
def stored (C : Crates) (warm cold : Path) (fs : FileSystem) (k : StorageKey) :
    Option StorageValue :=
  (readFile fs (keyPath C warm k)).or (readFile fs (keyPath C cold k))

section Stored

variable {warm cold : Path} {fs : FileSystem} {k : StorageKey}

theorem stored_put (hK : Distinct C K) (hk : k ∈ K) (value : StorageValue) {k' : StorageKey}
    (hk' : k' ∈ K) :
    stored C warm cold (writeFile fs (keyPath C warm k) value) k' =
      if k' = k then some value else stored C warm cold fs k' := by
  unfold stored
  rw [readFile_writeFile, readFile_writeFile]
  by_cases h : k' = k
  · subst h
    rw [if_pos rfl, if_pos rfl]
    rfl
  · have hne : ∀ dir, keyPath C dir k' ≠ keyPath C warm k :=
      fun dir heq => h (keyPath_inj hK hk' hk heq).2
    rw [if_neg (hne warm), if_neg (hne cold), if_neg h]

variable (cold) in
/-- A file that moves from the warm directory to the cold one says the same there, also about
another key it may be the file of. -/
theorem stored_archive {value : StorageValue}
    (hv : readFile fs (keyPath C warm k) = some value) (k' : StorageKey) :
    stored C warm cold
        (writeFile (takeFile fs (keyPath C warm k)).1 (keyPath C cold k) value) k' =
      stored C warm cold fs k' := by
  unfold stored
  rw [readFile_writeFile, readFile_writeFile, readFile_takeFile, readFile_takeFile]
  by_cases h : hashKey C k' = hashKey C k
  · have hpath : ∀ dir, keyPath C dir k' = keyPath C dir k :=
      fun dir => keyPath_eq_iff.mpr ⟨rfl, h⟩
    rw [hpath, hpath, if_pos rfl, if_pos rfl, hv]
    split
    · rfl
    · rfl
  · have hne : ∀ dir dir', keyPath C dir k' ≠ keyPath C dir' k :=
      fun dir dir' heq => h (keyPath_eq_iff.mp heq).2
    rw [if_neg (hne _ _), if_neg (hne _ _), if_neg (hne _ _), if_neg (hne _ _)]

theorem stored_remove (hK : Distinct C K) (hk : k ∈ K) {k' : StorageKey} (hk' : k' ∈ K) :
    stored C warm cold
        (takeFile (takeFile fs (keyPath C warm k)).1 (keyPath C cold k)).1 k' =
      if k' = k then none else stored C warm cold fs k' := by
  unfold stored
  rw [readFile_takeFile, readFile_takeFile, readFile_takeFile, readFile_takeFile]
  by_cases h : k' = k
  · subst h
    rw [if_pos rfl, if_pos rfl, if_pos rfl]
    split
    · rfl
    · rfl
  · have hne : ∀ dir dir', keyPath C dir k' ≠ keyPath C dir' k :=
      fun dir dir' heq => h (keyPath_inj hK hk' hk heq).2
    rw [if_neg (hne _ _), if_neg (hne _ _), if_neg (hne _ _), if_neg (hne _ _), if_neg h]

/-- The two removals answer what was stored: in one directory the second finds nothing. -/
theorem takeFile_stored (C : Crates) (warm cold : Path) (fs : FileSystem) (k : StorageKey) :
    (takeFile fs (keyPath C warm k)).2.or
        (takeFile (takeFile fs (keyPath C warm k)).1 (keyPath C cold k)).2 =
      stored C warm cold fs k := by
  unfold stored
  rw [takeFile_value, takeFile_value, readFile_takeFile]
  split
  · rename_i h
    rw [h]
    cases readFile fs (keyPath C warm k) with
    | none => rfl
    | some v => rfl
  · rfl

end Stored

/-! ## The cache -/

namespace HotCache

/-- What the cache holds under a key. -/
def peek (cache : HotCache) (k : StorageKey) : Option StorageValue := cache.inner.peek k.bytes

theorem get_spec (cache : HotCache) (k : StorageKey) :
    (cache.get k).2 = cache.peek k ∧ ∀ k', (cache.get k).1.peek k' = cache.peek k' := by
  obtain ⟨hvalue, hsame⟩ := cache.inner.get_spec k.bytes
  exact ⟨hvalue, fun k' => hsame k'.bytes⟩

theorem bytes_inj {k k' : StorageKey} : k'.bytes = k.bytes ↔ k' = k := by
  cases k
  cases k'
  simp

theorem remove_spec (cache : HotCache) (k : StorageKey) :
    (cache.remove k).2 = cache.peek k ∧
      ∀ k', (cache.remove k).1.peek k' = if k' = k then none else cache.peek k' := by
  refine ⟨rfl, fun k' => ?_⟩
  simp only [← bytes_inj (k := k)]
  exact cache.inner.peek_pop k.bytes k'.bytes

/-- A write leaves the other keys alone, but for the entry it evicts. -/
theorem put_spec (cache : HotCache) (k : StorageKey) (v : StorageValue) :
    (∀ k' v', (cache.put k v).1.peek k' = some v' →
        k' = k ∧ v' = v ∨ k' ≠ k ∧ cache.peek k' = some v') ∧
      ∀ k₀ v₀, (cache.put k v).2 = some (k₀, v₀) → k₀ ≠ k ∧ cache.peek k₀ = some v₀ := by
  -- a write into a cache with room, which holds no more than this one
  have hroom : ∀ c : LruCache (List UInt8) StorageValue,
      (c.contains k.bytes = true ∨ c.len < c.cap) →
      (∀ key v', c.peek key = some v' → cache.inner.peek key = some v') →
      ∀ k' v', (c.put k.bytes v).peek (StorageKey.bytes k') = some v' →
        k' = k ∧ v' = v ∨ k' ≠ k ∧ cache.peek k' = some v' := by
    intro c hr hsub k' v' h
    rw [LruCache.peek_put hr] at h
    by_cases heq : k' = k
    · rw [if_pos (bytes_inj.mpr heq)] at h
      exact Or.inl ⟨heq, (Option.some.inj h).symm⟩
    · rw [if_neg (fun hb => heq (bytes_inj.mp hb))] at h
      exact Or.inr ⟨heq, hsub _ _ h⟩
  unfold put
  split
  · rename_i hin
    exact ⟨hroom cache.inner (Or.inl hin) (fun _ _ h => h), by simp⟩
  rename_i hout
  split
  · show (∀ k' v', (cache.inner.popLru.1.put k.bytes v).peek (StorageKey.bytes k') = some v' → _) ∧
      ∀ k₀ v₀, (cache.inner.popLru.2.map fun e => (StorageKey.mk e.1, e.2)) = some (k₀, v₀) → _
    rcases hpop : cache.inner.popLru with ⟨c, _ | ⟨key₀, v₀⟩⟩
    · obtain ⟨rfl, hlt⟩ := LruCache.popLru_none hpop
      exact ⟨hroom cache.inner (Or.inr hlt) (fun _ _ h => h), by simp⟩
    · obtain ⟨hheld, rfl, hlt⟩ := LruCache.popLru_some hpop
      refine ⟨hroom _ (Or.inr hlt) ?_, ?_⟩
      · intro key v' h
        rw [LruCache.peek_pop] at h
        split at h
        · cases h
        · exact h
      · intro k₁ v₁ h
        obtain ⟨rfl, rfl⟩ := Prod.mk.inj (Option.some.inj h)
        refine ⟨?_, hheld⟩
        rintro rfl
        apply hout
        rw [LruCache.contains, hheld]
        rfl
  · rename_i hlen
    refine ⟨hroom cache.inner (Or.inr ?_) (fun _ _ h => h), by simp⟩
    rw [cache.sized]
    exact Nat.not_le.mp hlen

end HotCache

/-! ## The store -/

namespace TieredStorage

/-- The files of a store about a key. -/
def below (C : Crates) (st : TieredStorage) (k : StorageKey) : Option StorageValue :=
  stored C st.warm.baseDir st.cold.baseDir st.fs k

/-- The store holds the map `m` on the keys in `K`: the files say `m`, and so does the cache as far
as it goes. -/
structure Represents (C : Crates) (K : Set StorageKey) (st : TieredStorage)
    (m : StorageKey → Option StorageValue) : Prop where
  files : ∀ k ∈ K, st.below C k = m k
  cached : ∀ k v, st.hot.peek k = some v → k ∈ K ∧ m k = some v

variable {st : TieredStorage} {m : StorageKey → Option StorageValue} {k : StorageKey}

/-- A write to the cache of what the files say. The cache may be out of date at the key itself. -/
theorem represents_hotPut (hK : Distinct C K) (hk : k ∈ K) {v : StorageValue} (hv : m k = some v)
    (files : ∀ k' ∈ K, st.below C k' = m k')
    (cached : ∀ k' v', k' ≠ k → st.hot.peek k' = some v' → k' ∈ K ∧ m k' = some v') :
    (st.hotPut C k v).Represents C K m := by
  obtain ⟨hpeek, hevict⟩ := st.hot.put_spec k v
  unfold hotPut
  rcases hput : st.hot.put k v with ⟨hot, _ | ⟨k₀, v₀⟩⟩ <;> rw [hput] at hpeek hevict
  all_goals
    have hcached : ∀ k' v', hot.peek k' = some v' → k' ∈ K ∧ m k' = some v' := by
      intro k' v' h
      rcases hpeek k' v' h with ⟨rfl, rfl⟩ | ⟨hne, hold⟩
      · exact ⟨hk, hv⟩
      · exact cached k' v' hne hold
  · exact ⟨files, hcached⟩
  · refine ⟨?_, hcached⟩
    obtain ⟨hne, hheld⟩ := hevict k₀ v₀ rfl
    obtain ⟨hk₀, hm₀⟩ := cached k₀ v₀ hne hheld
    intro k' hk'
    show stored C st.warm.baseDir st.cold.baseDir
      (writeFile st.fs (keyPath C st.warm.baseDir k₀) v₀) k' = m k'
    rw [stored_put hK hk₀ v₀ hk']
    split
    · rename_i heq
      rw [heq, hm₀]
    · exact files k' hk'

theorem Represents.hotPut (hK : Distinct C K) (h : st.Represents C K m) (hk : k ∈ K)
    {v : StorageValue} (hv : m k = some v) : (st.hotPut C k v).Represents C K m :=
  represents_hotPut hK hk hv h.files fun k' v' _ => h.cached k' v'

/-- The counters are nobody's business. -/
theorem Represents.stats (h : st.Represents C K m) (stats : StorageStats) :
    ({ st with stats := stats }).Represents C K m := ⟨h.files, h.cached⟩

/-- **A read** answers the map and leaves it, whatever it promotes and evicts. -/
theorem Represents.get (hK : Distinct C K) (h : st.Represents C K m) (hk : k ∈ K) :
    (st.get C k).2 = m k ∧ (st.get C k).1.Represents C K m := by
  obtain ⟨hvalue, hsame⟩ := st.hot.get_spec k
  have hfiles := h.files k hk
  unfold below stored at hfiles
  unfold TieredStorage.get
  rcases hget : st.hot.get k with ⟨hot, _ | v⟩ <;> rw [hget] at hvalue hsame
  · have hmiss : ∀ stats, ({ st with hot := hot, stats := stats }).Represents C K m := by
      intro stats
      refine ⟨h.files, fun k' v' hv' => h.cached k' v' ?_⟩
      rw [← hsame k']
      exact hv'
    unfold WarmStore.get ColdArchive.retrieve
    dsimp only
    cases hwarm : readFile st.fs (keyPath C st.warm.baseDir k) with
    | some v =>
      rw [hwarm, Option.some_or] at hfiles
      exact ⟨hfiles, Represents.stats ((hmiss _).hotPut hK hk hfiles.symm) _⟩
    | none =>
      rw [hwarm, Option.none_or] at hfiles
      dsimp only
      cases hcold : readFile st.fs (keyPath C st.cold.baseDir k) with
      | some v =>
        rw [hcold] at hfiles
        exact ⟨hfiles, Represents.stats ((hmiss _).hotPut hK hk hfiles.symm) _⟩
      | none =>
        rw [hcold] at hfiles
        exact ⟨hfiles, hmiss _⟩
  · refine ⟨(h.cached k v hvalue.symm).2.symm, h.files, fun k' v' hv' => h.cached k' v' ?_⟩
    rw [← hsame k']
    exact hv'

theorem Represents.put (hK : Distinct C K) (h : st.Represents C K m) (hk : k ∈ K)
    (v : StorageValue) :
    (st.put C k v).Represents C K fun k' => if k' = k then some v else m k' := by
  unfold TieredStorage.put
  apply represents_hotPut hK hk (if_pos rfl)
  · intro k' hk'
    show stored C st.warm.baseDir st.cold.baseDir
      (writeFile st.fs (keyPath C st.warm.baseDir k) v) k' = _
    rw [stored_put hK hk v hk']
    split
    · rfl
    · exact h.files k' hk'
  · intro k' v' hne hheld
    rw [if_neg hne]
    exact h.cached k' v' hheld

theorem Represents.remove (hK : Distinct C K) (h : st.Represents C K m) (hk : k ∈ K) :
    (st.remove C k).2 = m k ∧
      (st.remove C k).1.Represents C K fun k' => if k' = k then none else m k' := by
  obtain ⟨hvalue, hgone⟩ := st.hot.remove_spec k
  constructor
  · show ((st.hot.remove k).2.or (takeFile st.fs (keyPath C st.warm.baseDir k)).2).or
      (takeFile (takeFile st.fs (keyPath C st.warm.baseDir k)).1
        (keyPath C st.cold.baseDir k)).2 = m k
    rw [Option.or_assoc, takeFile_stored, hvalue]
    cases hhot : st.hot.peek k with
    | none => exact h.files k hk
    | some v => exact (h.cached k v hhot).2.symm
  · refine ⟨?_, ?_⟩
    · intro k' hk'
      refine (stored_remove hK hk hk').trans ?_
      split
      · rfl
      · exact h.files k' hk'
    · intro k' v' hheld
      have hheld : (st.hot.remove k).1.peek k' = some v' := hheld
      rw [hgone k'] at hheld
      split at hheld
      · cases hheld
      · rename_i hne
        rw [if_neg hne]
        exact h.cached k' v' hheld

theorem Represents.archiveKey (h : st.Represents C K m) (k : StorageKey) :
    (st.archiveKey C k).1.Represents C K m := by
  have hvalue := takeFile_value st.fs (keyPath C st.warm.baseDir k)
  unfold TieredStorage.archiveKey WarmStore.remove
  rcases htake : takeFile st.fs (keyPath C st.warm.baseDir k) with ⟨fs, _ | v⟩
  · -- nothing to move, and the removal did nothing
    have hfs : fs = st.fs := by
      unfold takeFile at htake
      split at htake
      · cases htake
      · exact (Prod.mk.inj htake).1.symm
    subst hfs
    exact ⟨h.files, h.cached⟩
  · rw [htake] at hvalue
    refine ⟨?_, h.cached⟩
    intro k' hk'
    have hmoved := stored_archive st.cold.baseDir hvalue.symm k'
    rw [htake] at hmoved
    exact hmoved.trans (h.files k' hk')

/-- The files alone hold the map, so the cache may forget a key. -/
theorem Represents.forget (h : st.Represents C K m) (k : StorageKey) :
    ({ st with hot := (st.hot.remove k).1 }).Represents C K m := by
  refine ⟨h.files, fun k' v' hheld => h.cached k' v' ?_⟩
  have hheld : (st.hot.remove k).1.peek k' = some v' := hheld
  rw [(st.hot.remove_spec k).2 k'] at hheld
  split at hheld
  · cases hheld
  · exact hheld

theorem Represents.archiveKeys {keys : List StorageKey} :
    ∀ {st : TieredStorage} {count : UInt64}, st.Represents C K m →
      (TieredStorage.archiveKeys C st keys count).1.Represents C K m := by
  induction keys with
  | nil => intro st count h; exact h
  | cons k keys ih =>
    intro st count h
    exact ih ((h.forget k).archiveKey k)

/-- A key is somewhere exactly if the map has it. -/
theorem Represents.locate (h : st.Represents C K m) (hk : k ∈ K) :
    (st.locate C k).isSome = (m k).isSome := by
  have hread : ∀ path, (st.fs.lookup path).isSome = (readFile st.fs path).isSome := by
    intro path
    unfold readFile
    rw [Option.isSome_map]
  have hfiles := h.files k hk
  unfold below stored at hfiles
  unfold TieredStorage.locate WarmStore.contains ColdArchive.contains
  rw [hread, hread, ← hfiles]
  split
  · rename_i hhot
    obtain ⟨v, hv⟩ := Option.isSome_iff_exists.mp hhot
    rw [hfiles, (h.cached k v hv).2]
    rfl
  · cases readFile st.fs (keyPath C st.warm.baseDir k) with
    | some v => rfl
    | none => cases readFile st.fs (keyPath C st.cold.baseDir k) <;> rfl

end TieredStorage

/-! ## Any sequence of calls -/

/-- The keys a call is about. -/
def Call.keys : Call → List StorageKey
  | .put key _ => [key]
  | .get key => [key]
  | .remove key => [key]
  | .archiveKey key => [key]
  | .archiveKeys keys => keys

def step (C : Crates) (st : TieredStorage) (c : Call) : Option (TieredStorage × List Answer) :=
  some ((st.call C c).1, [(st.call C c).2])

/-- What the calls so far, newest first, leave under a key: the last value put, unless a removal
came after it. -/
def latest (k : StorageKey) : List (Turn TieredStorage Call Answer) → Option StorageValue
  | [] => none
  | t :: past => match t.event with
    | .put key value => if k = key then some value else latest k past
    | .remove key => if k = key then none else latest k past
    | _ => latest k past

/-- No key in `K` has a file in either directory. -/
def Unused (C : Crates) (K : Set StorageKey) (config : StorageConfig) (fs : FileSystem) : Prop :=
  ∀ k ∈ K, readFile fs (keyPath C config.nvmePath k) = none ∧
    readFile fs (keyPath C config.archivePath k) = none

namespace TieredStorage

theorem represents_new {config : StorageConfig} {fs : FileSystem} {st : TieredStorage}
    (hfs : Unused C K config fs) (hnew : new config fs = some st) :
    st.Represents C K fun _ => none := by
  unfold new HotCache.new at hnew
  split at hnew
  · cases hnew
    refine ⟨?_, ?_⟩
    · intro k hk
      obtain ⟨hwarm, hcold⟩ := hfs k hk
      unfold below stored
      rw [hwarm, hcold]
      rfl
    · intro k v hheld
      cases hheld
  · cases hnew

/-- One call, on a store that holds what the calls before it left. -/
theorem represents_step (hK : Distinct C K) {st st' : TieredStorage} {c : Call}
    {out : List Answer} {past : List (Turn TieredStorage Call Answer)}
    (h : st.Represents C K fun k => latest k past) (hc : ∀ k ∈ c.keys, k ∈ K)
    (hs : step C st c = some (st', out)) :
    st'.Represents C K (fun k => latest k (⟨st, c, st', out⟩ :: past)) ∧
      ∀ k, c = .get k ∨ c = .remove k → out = [.value (latest k past)] := by
  cases hs
  cases c with
  | put key value => exact ⟨h.put hK (hc key (by simp [Call.keys])) value, by simp⟩
  | get key =>
    obtain ⟨hvalue, hst⟩ := h.get hK (hc key (by simp [Call.keys]))
    refine ⟨hst, ?_⟩
    intro k hk
    obtain rfl : key = k := by simpa using hk
    exact congrArg (fun v => [Answer.value v]) hvalue
  | remove key =>
    obtain ⟨hvalue, hst⟩ := h.remove hK (hc key (by simp [Call.keys]))
    refine ⟨hst, ?_⟩
    intro k hk
    obtain rfl : key = k := by simpa using hk
    exact congrArg (fun v => [Answer.value v]) hvalue
  | archiveKey key => exact ⟨h.archiveKey key, by simp⟩
  | archiveKeys keys => exact ⟨h.archiveKeys, by simp⟩

/-- **The tiered store is a map.** A store of any capacity from one on, over two directories without
files for the keys, answers every read and every removal with the last value put and not removed
since, and locates a key exactly if there is such a value, whatever was evicted, promoted and
archived in between. -/
theorem tiered_refines_map (hK : Distinct C K) {config : StorageConfig} {fs : FileSystem}
    (hcap : 1 ≤ config.lruCapacity) (hfs : Unused C K config fs) :
    ∃ st₀, new config fs = some st₀ ∧ ∀ {hist st},
      Run (step C) (fun _ c => ∀ k ∈ c.keys, k ∈ K) st₀ hist st →
        (∀ τ past k, τ :: past <:+ hist → τ.event = .get k ∨ τ.event = .remove k →
          τ.out = [.value (latest k past)]) ∧
        ∀ k ∈ K, (st.locate C k).isSome = true ↔ ∃ v, latest k hist = some v := by
  have hnew : ∃ st₀, new config fs = some st₀ := by
    unfold new HotCache.new
    split
    · exact ⟨_, rfl⟩
    · contradiction
  obtain ⟨st₀, hnew⟩ := hnew
  refine ⟨st₀, hnew, ?_⟩
  have hrun : ∀ {hist st}, Run (step C) (fun _ c => ∀ k ∈ c.keys, k ∈ K) st₀ hist st →
      st.Represents C K fun k => latest k hist := by
    intro hist st hr
    apply hr.invariant (I := fun hist st => st.Represents C K fun k => latest k hist)
    · exact represents_new hfs hnew
    · intro past st c st' out _ ih hc hs
      exact (represents_step hK ih hc hs).1
  intro hist st hr
  constructor
  · intro τ past k hsuf hcall
    obtain ⟨hpast, hc, hs⟩ := hr.of_suffix hsuf
    exact (represents_step hK (hrun hpast) hc hs).2 k hcall
  · intro k hk
    rw [(hrun hr).locate hk, Option.isSome_iff_exists]

/-! ## A cache for one -/

def keyA : StorageKey := ⟨[1]⟩
def keyB : StorageKey := ⟨[2]⟩

def oneEntry : StorageConfig := ⟨1, [[119]], [[99]]⟩

/-- The first key is archived and put anew, with the old file in the archive; it is evicted by the
second, archived with it, read back and removed. -/
def archiveCalls : List Call :=
  [.put keyA ⟨[10]⟩, .archiveKey keyA, .put keyA ⟨[11]⟩, .put keyB ⟨[20]⟩, .get keyA,
    .archiveKeys [keyA, keyB], .get keyB, .get keyA, .remove keyA, .get keyA]

theorem distinct_sample : Distinct Crates.sample {k | k ∈ [keyA, keyB]} := by
  have hall : ∀ k ∈ [keyA, keyB], ∀ k' ∈ [keyA, keyB],
      Crates.sample.sha256 k.bytes = Crates.sample.sha256 k'.bytes → k.bytes = k'.bytes := by
    decide +kernel
  refine ⟨?_, fun _ _ h => toHex_inj h⟩
  rintro _ ⟨k, hk, rfl⟩ _ ⟨k', hk', rfl⟩ h
  exact hall k hk k' hk' h

theorem oneEntry_new : (new oneEntry ∅).isSome = true := by decide +kernel

theorem archiveCalls_replay : (Run.replay (step Crates.sample)
    ((new oneEntry ∅).get oneEntry_new) [] archiveCalls).isSome = true := by
  decide +kernel

theorem tiered_refines_map_one :
    ∃ st₀ hist st, new oneEntry ∅ = some st₀ ∧
      Run (step Crates.sample) (fun _ c => ∀ k ∈ c.keys, k ∈ [keyA, keyB]) st₀ hist st ∧
      (chronicle hist).filter (fun a => a != .done) =
        [.moved true, .value (some ⟨[11]⟩), .count 2, .value (some ⟨[20]⟩), .value (some ⟨[11]⟩),
          .value (some ⟨[11]⟩), .value none] ∧
      st.locate Crates.sample keyA = none ∧ (st.locate Crates.sample keyB).isSome = true := by
  have hunused : Unused Crates.sample {k | k ∈ [keyA, keyB]} oneEntry ∅ := fun _ _ => ⟨rfl, rfl⟩
  obtain ⟨st₀, hnew, hrefines⟩ := tiered_refines_map distinct_sample (by decide) hunused
  obtain rfl : (new oneEntry ∅).get oneEntry_new = st₀ := by simp [hnew]
  have hr := Run.of_replay_get (G := fun _ c => ∀ k ∈ c.keys, k ∈ [keyA, keyB])
    archiveCalls_replay (by decide +kernel)
  refine ⟨_, _, _, hnew, hr, by decide +kernel, by decide +kernel, ?_⟩
  exact ((hrefines hr).2 keyB (by simp)).mpr ⟨⟨[20]⟩, by decide +kernel⟩

end TieredStorage

end Storage

end Trv1Chain
