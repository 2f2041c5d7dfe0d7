import Trv1Chain.Lib.HashMap

/-!
# Least-recently-used caches

A bounded map that remembers in which order its keys were used: the entries stand most recently
used first, and the last one is the next to go. A cache of capacity zero and a cache over its
capacity cannot be built.

What a cache *holds* is `peek`. Using a key moves it to the front and changes nothing that is
held; so a client that only reads values is served by the four `peek` lemmas and never sees the
order.
-/

set_option autoImplicit false

namespace Trv1Chain.Lib

structure LruCache (K V : Type) where
  cap : Nat
  cap_pos : 0 < cap
  /-- Most recently used first. -/
  held : HashMap K V
  fits : held.entries.length ≤ cap

namespace LruCache

variable {K V : Type} [DecidableEq K]

theorem length_erase_lt {m : HashMap K V} {k : K} {v : V} (h : m.lookup k = some v) :
    (m.erase k).entries.length + 1 = m.entries.length := by
  have hsplit := HashMap.flatMap_erase (fun _ v => [v]) m k
  have hlen := hsplit.length_eq
  rw [h, Option.elim_some, List.singleton_append, List.length_cons] at hlen
  simpa [List.length_flatMap] using hlen.symm

theorem length_erase_le (m : HashMap K V) (k : K) :
    (m.erase k).entries.length ≤ m.entries.length :=
  (List.kerase_sublist k m.entries).length_le

def new (K V : Type) (cap : Nat) (h : 0 < cap) : LruCache K V := ⟨cap, h, ∅, Nat.zero_le _⟩

/-- The value under a key, without using it. -/
def peek (c : LruCache K V) (k : K) : Option V := c.held.lookup k

def contains (c : LruCache K V) (k : K) : Bool := (c.peek k).isSome

def len (c : LruCache K V) : Nat := c.held.entries.length

/-- Move a key to the front, with a value. -/
def use (c : LruCache K V) (k : K) (v : V) (room : c.contains k = true ∨ c.len < c.cap) :
    LruCache K V where
  cap := c.cap
  cap_pos := c.cap_pos
  held := c.held.insert k v
  fits := by
    rw [AList.entries_insert, List.length_cons]
    rcases room with hin | hlt
    · obtain ⟨v', hv'⟩ := Option.isSome_iff_exists.mp hin
      exact Nat.le_trans (Nat.le_of_eq (length_erase_lt hv')) c.fits
    · exact Nat.le_trans (Nat.succ_le_succ (length_erase_le c.held k)) hlt

/-- Read a key and use it. -/
def get (c : LruCache K V) (k : K) : LruCache K V × Option V :=
  match h : c.peek k with
  | none => (c, none)
  | some v => (c.use k v (Or.inl (by rw [contains, h]; rfl)), some v)

/-- Take a key out. -/
def pop (c : LruCache K V) (k : K) : LruCache K V × Option V :=
  (⟨c.cap, c.cap_pos, c.held.erase k, Nat.le_trans (length_erase_le c.held k) c.fits⟩, c.peek k)

/-- Take the least recently used entry out. -/
def popLru (c : LruCache K V) : LruCache K V × Option (K × V) :=
  match c.held.entries.getLast? with
  | none => (c, none)
  | some e => ((c.pop e.1).1, some (e.1, e.2))

@[simp] theorem peek_use (c : LruCache K V) (k : K) (v : V)
    (room : c.contains k = true ∨ c.len < c.cap) (k' : K) :
    (c.use k v room).peek k' = if k' = k then some v else c.peek k' := by
  unfold use peek
  split
  · rename_i h; subst h; exact AList.lookup_insert _
  · rename_i h; exact AList.lookup_insert_ne h

@[simp] theorem peek_pop (c : LruCache K V) (k k' : K) :
    (c.pop k).1.peek k' = if k' = k then none else c.peek k' := by
  unfold pop peek
  split
  · rename_i h; subst h; exact AList.lookup_erase _ _
  · rename_i h; exact AList.lookup_erase_ne h

/-- Reading answers what is held, and leaves it held. -/
theorem get_spec (c : LruCache K V) (k : K) :
    (c.get k).2 = c.peek k ∧ ∀ k', (c.get k).1.peek k' = c.peek k' := by
  unfold get
  split
  · rename_i h
    exact ⟨h.symm, fun _ => rfl⟩
  · rename_i v h
    refine ⟨h.symm, fun k' => ?_⟩
    dsimp only
    rw [peek_use]
    split
    · rename_i heq; rw [heq, h]
    · rfl

/-- The entry that goes was held, and makes room. -/
theorem popLru_some {c c' : LruCache K V} {k : K} {v : V} (h : c.popLru = (c', some (k, v))) :
    c.peek k = some v ∧ c' = (c.pop k).1 ∧ c'.len < c'.cap := by
  unfold popLru at h
  split at h
  · cases h
  · rename_i e he
    obtain ⟨rfl, heq⟩ := Prod.mk.inj h
    obtain ⟨rfl, rfl⟩ := Prod.mk.inj (Option.some.inj heq)
    have hheld : c.held.lookup e.1 = some e.2 := AList.mem_lookup_iff.mpr (List.mem_of_getLast? he)
    refine ⟨hheld, rfl, ?_⟩
    have := length_erase_lt hheld
    exact Nat.lt_of_lt_of_le (Nat.lt_of_lt_of_eq (Nat.lt_succ_self _) this) c.fits

theorem popLru_none {c c' : LruCache K V} (h : c.popLru = (c', none)) : c' = c ∧ c.len < c.cap := by
  unfold popLru at h
  split at h
  · rename_i he
    refine ⟨(Prod.mk.inj h).1.symm, ?_⟩
    rw [List.getLast?_eq_none_iff] at he
    rw [len, he]
    exact c.cap_pos
  · cases h

/-- There is room once the least recently used entry is out. -/
theorem popLru_room (c : LruCache K V) : c.popLru.1.len < c.popLru.1.cap := by
  rcases h : c.popLru with ⟨c', _ | ⟨k, v⟩⟩
  · obtain ⟨rfl, hroom⟩ := popLru_none h
    exact hroom
  · exact (popLru_some h).2.2

/-- Write a key and use it; a full cache drops its least recently used entry first. -/
def put (c : LruCache K V) (k : K) (v : V) : LruCache K V :=
  if room : c.contains k = true ∨ c.len < c.cap then c.use k v room
  else c.popLru.1.use k v (Or.inr c.popLru_room)

/-- A write that finds room drops nothing. -/
theorem peek_put {c : LruCache K V} {k : K} (room : c.contains k = true ∨ c.len < c.cap) (v : V)
    (k' : K) : (c.put k v).peek k' = if k' = k then some v else c.peek k' := by
  unfold put
  rw [dif_pos room, peek_use]

/-! ### The capacity is fixed -/

@[simp] theorem cap_pop (c : LruCache K V) (k : K) : (c.pop k).1.cap = c.cap := rfl

@[simp] theorem cap_get (c : LruCache K V) (k : K) : (c.get k).1.cap = c.cap := by
  unfold get
  split <;> rfl

@[simp] theorem cap_popLru (c : LruCache K V) : c.popLru.1.cap = c.cap := by
  unfold popLru
  split <;> rfl

@[simp] theorem cap_put (c : LruCache K V) (k : K) (v : V) : (c.put k v).cap = c.cap := by
  unfold put
  split
  · rfl
  · exact cap_popLru c

end LruCache

end Trv1Chain.Lib
