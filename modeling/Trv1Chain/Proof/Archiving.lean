import Trv1Chain.Proof.TieredMap
import Trv1Chain.Storage.Faults

/-!
# What a failed archiving leaves

Archiving moves a file by removing it and writing it again. When the read or the removal fails
nothing has happened to the files; when the write fails the value is in neither directory, and a
`get` finds it only in the cache or in an older cold file. `archive_keys` has besides evicted from
the cache every key it came to, so that for those the files have to say what the cache said.

Nothing is assumed of the store, the two directories or the digest: keys of one digest share their
files, and share their fate.
-/

set_option autoImplicit false

namespace Trv1Chain

open Lib

namespace Storage

variable {C : Crates}

/-! ## Files without one -/

/-- Once the warm file of a key is gone, the keys of its digest are left with the cold file, if that
is another one. -/
theorem stored_takeFile (warm cold : Path) (fs : FileSystem) (key k : StorageKey) :
    stored C warm cold (takeFile fs (keyPath C warm key)).1 k =
      if hashKey C k = hashKey C key then
        if cold = warm then none else readFile fs (keyPath C cold key)
      else stored C warm cold fs k := by
  unfold stored
  rw [readFile_takeFile, readFile_takeFile]
  by_cases hhash : hashKey C k = hashKey C key
  · have hpath : ∀ dir, keyPath C dir k = keyPath C dir key :=
      fun dir => keyPath_eq_iff.mpr ⟨rfl, hhash⟩
    rw [if_pos hhash, hpath, hpath, if_pos rfl, Option.none_or]
    by_cases hdir : cold = warm
    · rw [hdir, if_pos rfl, if_pos rfl]
    · rw [if_neg hdir, if_neg fun heq => hdir (keyPath_eq_iff.mp heq).1]
  · have hne : ∀ dir, keyPath C dir k ≠ keyPath C warm key :=
      fun dir heq => hhash (keyPath_eq_iff.mp heq).2
    rw [if_neg hhash, if_neg (hne warm), if_neg (hne cold)]

namespace TieredStorage

/-! ## What a read answers -/

theorem get_value (C : Crates) (st : TieredStorage) (k : StorageKey) :
    (st.get C k).2 = (st.hot.peek k).or (st.below C k) := by
  obtain ⟨hvalue, -⟩ := st.hot.get_spec k
  unfold TieredStorage.get below stored
  rcases hget : st.hot.get k with ⟨hot, _ | v⟩ <;> rw [hget] at hvalue
  · rw [← hvalue, Option.none_or]
    unfold WarmStore.get ColdArchive.retrieve
    dsimp only
    cases readFile st.fs (keyPath C st.warm.baseDir k) with
    | some v => rfl
    | none =>
      dsimp only
      cases readFile st.fs (keyPath C st.cold.baseDir k) with
      | some v => rfl
      | none => rfl
  · rw [← hvalue]
    rfl

/-- What the files say about `k` when the attempt at `key` has failed: all they said, unless it was
the write that failed. -/
def left (C : Crates) (st : TieredStorage) (key : StorageKey) (faults : Faults) (k : StorageKey) :
    Option StorageValue :=
  if faults.read = true ∨ faults.remove = true then st.below C k
  else stored C st.warm.baseDir st.cold.baseDir
    (takeFile st.fs (keyPath C st.warm.baseDir key)).1 k

/-- Nothing is lost with the attempt at `key`: what was only in the files still is, and of the keys
that were evicted the files say what the cache said. -/
structure Keeps (C : Crates) (st : TieredStorage) (evicted : List StorageKey) (key : StorageKey)
    (faults : Faults) : Prop where
  files : ∀ k, st.hot.peek k = none → st.left C key faults k = st.below C k
  cache : ∀ k ∈ evicted, ∀ v, st.hot.peek k = some v → st.left C key faults k = some v

/-- A store with the keys evicted and the files left reads as before exactly if nothing is lost. -/
theorem keeps_iff {st st' : TieredStorage} {evicted : List StorageKey} {key : StorageKey}
    {faults : Faults}
    (hhot : ∀ k, st'.hot.peek k = if k ∈ evicted then none else st.hot.peek k)
    (hleft : ∀ k, st'.below C k = st.left C key faults k) :
    (∀ k, (st'.get C k).2 = (st.get C k).2) ↔ st.Keeps C evicted key faults := by
  have hread : ∀ k, (st'.get C k).2 = (st.get C k).2 ↔
      (st.hot.peek k = none → st.left C key faults k = st.below C k) ∧
        (k ∈ evicted → ∀ v, st.hot.peek k = some v → st.left C key faults k = some v) := by
    intro k
    rw [get_value, get_value, hhot, hleft]
    cases hpeek : st.hot.peek k with
    | none => simp
    | some v =>
      by_cases hk : k ∈ evicted
      · simp [hk]
      · simp [hk]
  constructor
  · intro h
    exact ⟨fun k => ((hread k).mp (h k)).1, fun k => ((hread k).mp (h k)).2⟩
  · intro h k
    exact (hread k).mpr ⟨h.files k, h.cache k⟩

/-- A failed attempt at one key leaves the cache, and what it leaves of the files. -/
theorem Attempts.failed {st st' : TieredStorage} {key : StorageKey} {faults : Faults}
    {e : IoError} (h : Attempts C st key faults (st', .error e)) :
    st'.hot = st.hot ∧ ∀ k, st'.below C k = st.left C key faults k := by
  cases h with
  | blocked _ hfault => exact ⟨rfl, fun _ => (if_pos hfault).symm⟩
  | dropped hfault _ => exact ⟨rfl, fun _ => (if_neg hfault).symm⟩

/-! ## The keys before it -/

/-- What a loop without an error does to the store: the keys are out of the cache, and the files say
the same about every key. A warm file that is still there was not touched, nor the cold file of the
same key. -/
structure Archived (C : Crates) (st st' : TieredStorage) (keys : List StorageKey) : Prop where
  warm : st'.warm = st.warm
  cold : st'.cold = st.cold
  hot : ∀ k, st'.hot.peek k = if k ∈ keys then none else st.hot.peek k
  below : ∀ k, st'.below C k = st.below C k
  untouched : st.cold.baseDir ≠ st.warm.baseDir → ∀ k,
    readFile st'.fs (keyPath C st.warm.baseDir k) = none ∨
      readFile st'.fs (keyPath C st.warm.baseDir k) = readFile st.fs (keyPath C st.warm.baseDir k) ∧
      readFile st'.fs (keyPath C st.cold.baseDir k) = readFile st.fs (keyPath C st.cold.baseDir k)

theorem Archived.refl (C : Crates) (st : TieredStorage) : Archived C st st [] where
  warm := rfl
  cold := rfl
  hot k := by rw [if_neg List.not_mem_nil]
  below _ := rfl
  untouched _ _ := Or.inr ⟨rfl, rfl⟩

theorem evict_hot (st : TieredStorage) (key k : StorageKey) :
    (st.evict key).hot.peek k = if k = key then none else st.hot.peek k :=
  (st.hot.remove_spec key).2 k

/-- One key. -/
theorem archived_attempt {st st' : TieredStorage} {key : StorageKey} {faults : Faults}
    {moved : Bool} (h : Attempts C (st.evict key) key faults (st', .ok moved)) :
    Archived C st st' [key] := by
  have hhot : ∀ k, (st.evict key).hot.peek k = if k ∈ [key] then none else st.hot.peek k := by
    intro k
    rw [evict_hot]
    simp
  cases h with
  | absent _ => exact ⟨rfl, rfl, hhot, fun _ => rfl, fun _ _ => Or.inr ⟨rfl, rfl⟩⟩
  | @moved value hvalue =>
    refine ⟨rfl, rfl, hhot, stored_archive _ hvalue, fun hdir k => ?_⟩
    have hread : ∀ path, readFile (writeFile (takeFile st.fs (keyPath C st.warm.baseDir key)).1
        (keyPath C st.cold.baseDir key) value) path =
        if path = keyPath C st.cold.baseDir key then some value
        else if path = keyPath C st.warm.baseDir key then none else readFile st.fs path := by
      intro path
      rw [readFile_writeFile, readFile_takeFile]
    show readFile (writeFile _ _ value) _ = none ∨
      readFile (writeFile _ _ value) _ = _ ∧ readFile (writeFile _ _ value) _ = _
    by_cases hhash : hashKey C k = hashKey C key
    · -- the file that moved
      refine Or.inl ((hread _).trans ?_)
      rw [if_neg fun heq => hdir (keyPath_eq_iff.mp heq).1.symm,
        if_pos (keyPath_eq_iff.mpr ⟨rfl, hhash⟩)]
    · have hne : ∀ dir dir', keyPath C dir k ≠ keyPath C dir' key :=
        fun dir dir' heq => hhash (keyPath_eq_iff.mp heq).2
      refine Or.inr ⟨(hread _).trans ?_, (hread _).trans ?_⟩
      · rw [if_neg (hne _ _), if_neg (hne _ _)]
      · rw [if_neg (hne _ _), if_neg (hne _ _)]

theorem Archived.trans {st st₁ st₂ : TieredStorage} {keys keys' : List StorageKey}
    (h : Archived C st st₁ keys) (h' : Archived C st₁ st₂ keys') :
    Archived C st st₂ (keys ++ keys') where
  warm := h'.warm.trans h.warm
  cold := h'.cold.trans h.cold
  hot k := by
    rw [h'.hot, h.hot]
    by_cases hk : k ∈ keys'
    · simp [hk]
    · simp [hk]
  below k := (h'.below k).trans (h.below k)
  untouched hdir k := by
    have hlater := h'.untouched (by rw [h.warm, h.cold]; exact hdir) k
    rw [h.warm, h.cold] at hlater
    rcases hlater with hgone | ⟨hwarm', hcold'⟩
    · exact Or.inl hgone
    rcases h.untouched hdir k with hgone | ⟨hwarm, hcold⟩
    · exact Or.inl (hwarm'.trans hgone)
    · exact Or.inr ⟨hwarm'.trans hwarm, hcold'.trans hcold⟩

/-- The loop, as far as it goes without an error. -/
theorem archived_tryArchiveKeys {keys : List (StorageKey × Faults)} :
    ∀ {st st' : TieredStorage} {count count' : UInt64},
    tryArchiveKeys C st keys count = (st', .ok count') → Archived C st st' (keys.map Prod.fst) := by
  induction keys with
  | nil =>
    intro st st' count count' h
    cases h
    exact .refl C st
  | cons x keys ih =>
    obtain ⟨key, faults⟩ := x
    intro st st' count count' h
    have hattempt := tryArchiveKey_attempts C (st.evict key) key faults
    rcases hstep : (st.evict key).tryArchiveKey C key faults with ⟨st₁, e | moved⟩
    · rw [tryArchiveKeys_failed hstep] at h
      cases h
    · rw [tryArchiveKeys_passed hstep] at h
      rw [hstep] at hattempt
      exact (archived_attempt hattempt).trans (ih h)

theorem tryArchiveKeys_append {keys rest : List (StorageKey × Faults)} :
    ∀ {st st₁ : TieredStorage} {count count₁ : UInt64},
    tryArchiveKeys C st keys count = (st₁, .ok count₁) →
      tryArchiveKeys C st (keys ++ rest) count = tryArchiveKeys C st₁ rest count₁ := by
  induction keys with
  | nil =>
    intro st st₁ count count₁ h
    cases h
    rfl
  | cons x keys ih =>
    obtain ⟨key, faults⟩ := x
    intro st st₁ count count₁ h
    rcases hstep : (st.evict key).tryArchiveKey C key faults with ⟨st', e | moved⟩
    · rw [tryArchiveKeys_failed hstep] at h
      cases h
    · rw [tryArchiveKeys_passed hstep] at h
      rw [List.cons_append, tryArchiveKeys_passed hstep]
      exact ih h

/-- A loop that ends in an error went well up to some key and failed there. -/
theorem exists_failing {keys : List (StorageKey × Faults)} :
    ∀ {st st' : TieredStorage} {count : UInt64} {e : IoError},
    tryArchiveKeys C st keys count = (st', .error e) →
      ∃ done key faults rest st₁ count₁, keys = done ++ (key, faults) :: rest ∧
        tryArchiveKeys C st done count = (st₁, .ok count₁) ∧
        (st₁.evict key).tryArchiveKey C key faults = (st', .error e) := by
  induction keys with
  | nil => intro st st' count e h; cases h
  | cons x keys ih =>
    obtain ⟨key, faults⟩ := x
    intro st st' count e h
    rcases hstep : (st.evict key).tryArchiveKey C key faults with ⟨st₁, e₁ | moved⟩
    · rw [tryArchiveKeys_failed hstep] at h
      cases h
      exact ⟨[], key, faults, keys, st, count, rfl, rfl, hstep⟩
    · rw [tryArchiveKeys_passed hstep] at h
      obtain ⟨done, key', faults', rest, st₂, count₂, hkeys, hdone, hfail⟩ := ih h
      refine ⟨(key, faults) :: done, key', faults', rest, st₂, count₂, ?_, ?_, hfail⟩
      · rw [hkeys]
        rfl
      · rw [tryArchiveKeys_passed hstep]
        exact hdone

/-- What an attempt leaves is the same, whether the files are those of the start or those the loop
found. -/
theorem Archived.left {st st₁ st' : TieredStorage} {keys : List StorageKey} {key : StorageKey}
    {faults : Faults} {e : IoError} (h : Archived C st st₁ keys)
    (hfail : Attempts C (st₁.evict key) key faults (st', .error e)) (k : StorageKey) :
    (st₁.evict key).left C key faults k = st.left C key faults k := by
  cases hfail with
  | blocked _ hfault => exact (if_pos hfault).trans ((h.below k).trans (if_pos hfault).symm)
  | @dropped value hfault hvalue =>
    refine (if_neg hfault).trans (Eq.trans ?_ (if_neg hfault).symm)
    have hwarm : (st₁.evict key).warm = st.warm := h.warm
    have hcold : (st₁.evict key).cold = st.cold := h.cold
    rw [hwarm] at hvalue
    rw [stored_takeFile, stored_takeFile, hwarm, hcold]
    split
    · split
      · rfl
      · -- the warm file is still there, so the cold one is what it was
        rename_i hdir
        rcases h.untouched hdir key with hgone | ⟨-, hsame⟩
        · rw [show readFile (st₁.evict key).fs _ = none from hgone] at hvalue
          cases hvalue
        · exact hsame
    · have hbelow := h.below k
      unfold TieredStorage.below at hbelow
      rw [h.warm, h.cold] at hbelow
      exact hbelow

/-- **What a failed archiving leaves.** When `archive_key` fails every `get` answers what it
answered before exactly if nothing is lost with the key it failed at. When `archive_keys` fails it
went well up to some key and failed there, and the same holds with all keys up to that one
evicted. -/
theorem archiving_keeps_iff (C : Crates) (st : TieredStorage) :
    (∀ key faults e, (st.tryArchiveKey C key faults).2 = .error e →
        ((∀ k, ((st.tryArchiveKey C key faults).1.get C k).2 = (st.get C k).2) ↔
          st.Keeps C [] key faults)) ∧
      ∀ keys e, (tryArchiveKeys C st keys 0).2 = .error e →
        ∃ done key faults rest, keys = done ++ (key, faults) :: rest ∧
          (tryArchiveKeys C st done 0).2.isOk = true ∧
          (tryArchiveKeys C st (done ++ [(key, faults)]) 0).2 = .error e ∧
          ((∀ k, ((tryArchiveKeys C st keys 0).1.get C k).2 = (st.get C k).2) ↔
            st.Keeps C (done.map Prod.fst ++ [key]) key faults) := by
  constructor
  · intro key faults e he
    have hattempt := tryArchiveKey_attempts C st key faults
    rcases hstep : st.tryArchiveKey C key faults with ⟨st', r⟩
    rw [hstep] at he hattempt
    cases he
    obtain ⟨hhot, hleft⟩ := hattempt.failed
    exact keeps_iff (fun k => by rw [hhot, if_neg List.not_mem_nil]) hleft
  · intro keys e he
    rcases hloop : tryArchiveKeys C st keys 0 with ⟨st', r⟩
    rw [hloop] at he
    cases he
    obtain ⟨done, key, faults, rest, st₁, count₁, hkeys, hdone, hfail⟩ := exists_failing hloop
    have hdone' := archived_tryArchiveKeys hdone
    have hattempt := tryArchiveKey_attempts C (st₁.evict key) key faults
    rw [hfail] at hattempt
    obtain ⟨hhot, hleft⟩ := hattempt.failed
    refine ⟨done, key, faults, rest, hkeys, by rw [hdone]; rfl, ?_, keeps_iff ?_ ?_⟩
    · rw [tryArchiveKeys_append hdone, tryArchiveKeys_failed hfail]
    · intro k
      rw [hhot, evict_hot, hdone'.hot]
      by_cases hk : k = key
      · rw [if_pos hk, if_pos (by simp [hk])]
      · simp only [List.mem_append, List.mem_singleton, hk, or_false, if_false]
    · intro k
      rw [hleft, hdone'.left hattempt]

/-- Two values in a cache for one: the first is in its file only. -/
def shelved : TieredStorage :=
  (((new oneEntry ∅).get oneEntry_new).put Crates.sample keyA ⟨[10]⟩).put Crates.sample keyB ⟨[20]⟩

def blockedKeys : List (StorageKey × Faults) :=
  [(keyA, .none), (keyB, ⟨false, true, false⟩)]

/-- The removal of the second file fails when the first has moved. -/
theorem archiving_keeps_iff_blocked :
    (tryArchiveKeys Crates.sample shelved blockedKeys 0).2 = .error .remove ∧
      ∀ k, ((tryArchiveKeys Crates.sample shelved blockedKeys 0).1.get Crates.sample k).2 =
        (shelved.get Crates.sample k).2 := by
  have hfail : (tryArchiveKeys Crates.sample shelved blockedKeys 0).2 = .error .remove := by
    decide +kernel
  obtain ⟨done, key, faults, rest, hkeys, -, hstop, hiff⟩ :=
    (archiving_keeps_iff Crates.sample shelved).2 _ _ hfail
  refine ⟨hfail, hiff.mpr ?_⟩
  match done, hkeys with
  | [], hkeys =>
    -- the first key does not fail
    obtain ⟨hfirst, -⟩ := List.cons.inj hkeys
    rw [← hfirst] at hstop
    exact absurd hstop (by decide +kernel)
  | [x], hkeys =>
    obtain ⟨rfl, htail⟩ := List.cons.inj hkeys
    obtain ⟨hsecond, -⟩ := List.cons.inj htail
    obtain ⟨rfl, rfl⟩ := Prod.mk.inj hsecond
    refine ⟨fun _ _ => if_pos (Or.inr rfl), ?_⟩
    have hcached : ∀ k ∈ [keyA, keyB], ∀ v ∈ shelved.hot.peek k,
        shelved.below Crates.sample k = some v := by decide +kernel
    exact fun k hk v hv => (if_pos (Or.inr rfl)).trans (hcached k hk v hv)
  | x :: y :: done, hkeys =>
    obtain ⟨-, htail⟩ := List.cons.inj hkeys
    exact absurd (List.cons.inj htail).2.symm (by simp)

/-- **A failed write loses the value.** Of a key that is in its file only when `archive_key` is
called, and of one in the cache when `archive_keys` is. -/
theorem failed_write_loses :
    (shelved.get Crates.sample keyA).2 = some ⟨[10]⟩ ∧
      (shelved.tryArchiveKey Crates.sample keyA ⟨false, false, true⟩).2 = .error .write ∧
      ((shelved.tryArchiveKey Crates.sample keyA ⟨false, false, true⟩).1.get
        Crates.sample keyA).2 = none ∧
      (shelved.get Crates.sample keyB).2 = some ⟨[20]⟩ ∧
      (tryArchiveKeys Crates.sample shelved [(keyB, ⟨false, false, true⟩)] 0).2 =
        .error .write ∧
      ((tryArchiveKeys Crates.sample shelved [(keyB, ⟨false, false, true⟩)] 0).1.get
        Crates.sample keyB).2 = none := by
  decide +kernel

end TieredStorage

end Storage

end Trv1Chain
