import Mathlib.Algebra.GroupWithZero.Nat
import Mathlib.Data.List.AList
import Mathlib.Data.List.Count

/-!
# Hash maps and their enumeration order

A hash map is an association list with distinct keys (Mathlib's `AList`). What a map *holds* is
its lookups; the order of the list is an artefact of the representation, and no program may
depend on it.

A program that enumerates a map sees its entries in an order that the hasher picks. An
`IterOrder` is one such pick: a rearrangement of whatever it is handed. Code that loops over a map
takes one as an argument, so a result about it holds for every order the loop can meet.

`total` is the sum of a quantity over the values, and moves with the map one entry at a time.
`tally` is the counting loop `*counts.entry(k).or_insert(0) += 1`.
-/

set_option autoImplicit false

namespace Trv1Chain.Lib

abbrev HashMap (K V : Type) := AList (fun _ : K => V)

/-- The order in which one loop meets the entries of a map. -/
structure IterOrder (α : Type) where
  enum : List α → List α
  perm : ∀ l, (enum l).Perm l

namespace IterOrder

variable {α : Type}

def stored : IterOrder α where
  enum l := l
  perm _ := List.Perm.refl _

@[simp] theorem mem_enum (it : IterOrder α) {l : List α} {x : α} : x ∈ it.enum l ↔ x ∈ l :=
  (it.perm l).mem_iff

/-- Every rearrangement is the order of some loop. -/
theorem exists_enum {l l' : List α} (h : l'.Perm l) : ∃ it : IterOrder α, it.enum l = l' := by
  classical
  refine ⟨⟨fun x => if x = l then l' else x, ?_⟩, if_pos rfl⟩
  intro x
  split
  · rename_i hx
    rw [hx]
    exact h
  · exact List.Perm.refl x

theorem find?_some {it : IterOrder α} {l : List α} {p : α → Bool} {x : α}
    (h : (it.enum l).find? p = some x) : x ∈ l ∧ p x = true :=
  ⟨it.mem_enum.mp (List.mem_of_find?_eq_some h), List.find?_some h⟩

theorem find?_none {it : IterOrder α} {l : List α} {p : α → Bool}
    (h : (it.enum l).find? p = none) : ∀ x ∈ l, p x = false := by
  intro x hx
  have := List.find?_eq_none.mp h x (it.mem_enum.mpr hx)
  simpa using this

end IterOrder

namespace HashMap

variable {K V : Type}

def values (m : HashMap K V) : List V := m.entries.map (·.2)

/-- A pass over the values (`values_mut`). -/
def mapValues {W : Type} (f : V → W) (m : HashMap K V) : HashMap K W where
  entries := m.entries.map fun e => ⟨e.1, f e.2⟩
  nodupKeys := by
    have h := m.nodupKeys
    unfold List.NodupKeys List.keys at h ⊢
    rwa [List.map_map]

/-- Keep the entries whose value passes (`retain`). -/
def retain (p : V → Bool) (m : HashMap K V) : HashMap K V where
  entries := m.entries.filter fun e => p e.2
  nodupKeys := m.nodupKeys.sublist List.filter_sublist

/-- What the values weigh together. -/
def total (f : V → Nat) (m : HashMap K V) : Nat := (m.values.map f).sum

variable [DecidableEq K]

theorem mem_values {m : HashMap K V} {v : V} : v ∈ m.values ↔ ∃ k, m.lookup k = some v := by
  unfold values
  rw [List.mem_map]
  constructor
  · rintro ⟨e, he, rfl⟩
    exact ⟨e.1, AList.mem_lookup_iff.mpr he⟩
  · rintro ⟨k, hk⟩
    exact ⟨⟨k, v⟩, AList.mem_lookup_iff.mp hk, rfl⟩

/-- Change the value under a key, if there is one (`get_mut`). -/
def modify (f : V → V) (k : K) (m : HashMap K V) : HashMap K V :=
  match m.lookup k with
  | some v => m.insert k (f v)
  | none => m

theorem lookup_modify (f : V → V) (m : HashMap K V) (k k' : K) :
    (modify f k m).lookup k' = if k' = k then (m.lookup k).map f else m.lookup k' := by
  unfold modify
  by_cases h : k' = k
  · subst h
    cases hl : m.lookup k' with
    | none => simp [hl]
    | some v => simp [AList.lookup_insert]
  · cases hl : m.lookup k with
    | none => simp [h]
    | some v => simp [h, AList.lookup_insert_ne h]

theorem mem_insert {m : HashMap K V} {k : K} {v : V} {e : Sigma fun _ : K => V}
    (h : e ∈ (AList.insert k v m).entries) : e = ⟨k, v⟩ ∨ e ∈ m.entries := by
  rw [AList.entries_insert, List.mem_cons] at h
  cases h with
  | inl heq => exact Or.inl heq
  | inr hmem => exact Or.inr ((List.kerase_sublist _ _).subset hmem)

/-- A map weighs as much as one of its entries and the rest. -/
theorem total_erase (f : V → Nat) (m : HashMap K V) (k : K) :
    total f (m.erase k) + (m.lookup k).elim 0 f = total f m := by
  show (((m.entries.kerase k).map (·.2)).map f).sum + (m.entries.dlookup k).elim 0 f =
    ((m.entries.map (·.2)).map f).sum
  induction m.entries with
  | nil => rfl
  | cons e l ih =>
    by_cases h : k = e.1
    · subst h
      rw [List.kerase_cons_eq rfl, List.dlookup_cons_eq]
      simp only [List.map_cons, List.sum_cons, Option.elim_some]
      omega
    · rw [List.kerase_cons_ne h, List.dlookup_cons_ne _ _ h]
      simp only [List.map_cons, List.sum_cons] at ih ⊢
      omega

/-- The entries under one key weigh what the map holds there. -/
theorem sum_filter_key (f : V → Nat) (m : HashMap K V) (k : K) :
    ((m.entries.filter fun e => e.1 = k).map fun e => f e.2).sum = (m.lookup k).elim 0 f := by
  have h := m.nodupKeys
  show _ = (m.entries.dlookup k).elim 0 f
  revert h
  induction m.entries with
  | nil =>
    intro _
    rfl
  | cons e l ih =>
    intro h
    rw [List.nodupKeys_cons] at h
    by_cases hk : k = e.1
    · subst hk
      have hnil : l.filter (fun e' => e'.1 = e.1) = [] := by
        apply List.filter_eq_nil_iff.mpr
        intro e' he' heq
        exact h.1 (of_decide_eq_true heq ▸ List.mem_keys_of_mem he')
      rw [List.filter_cons_of_pos (by simp), hnil, List.dlookup_cons_eq]
      simp
    · rw [List.filter_cons_of_neg (by simpa using Ne.symm hk), List.dlookup_cons_ne _ _ hk]
      exact ih h.2

/-- What the entries list together is one entry's part and the rest, up to order. -/
theorem flatMap_erase {β : Type} (g : K → V → List β) (m : HashMap K V) (k : K) :
    (m.entries.flatMap fun e => g e.1 e.2).Perm
      ((m.lookup k).elim [] (g k) ++ (m.erase k).entries.flatMap fun e => g e.1 e.2) := by
  show (m.entries.flatMap fun e => g e.1 e.2).Perm
    ((m.entries.dlookup k).elim [] (g k) ++ (m.entries.kerase k).flatMap fun e => g e.1 e.2)
  induction m.entries with
  | nil => exact List.Perm.refl _
  | cons e l ih =>
    by_cases h : k = e.1
    · subst h
      rw [List.kerase_cons_eq rfl, List.dlookup_cons_eq]
      exact List.Perm.refl _
    · rw [List.kerase_cons_ne h, List.dlookup_cons_ne _ _ h, List.flatMap_cons, List.flatMap_cons]
      refine (ih.append_left _).trans ?_
      rw [← List.append_assoc, ← List.append_assoc]
      exact List.perm_append_comm.append_right _

theorem total_insert (f : V → Nat) (m : HashMap K V) (k : K) (v : V) :
    total f (m.insert k v) = f v + total f (m.erase k) := rfl

/-- Maps with the same bindings have the same entries, in some order. -/
theorem entries_perm {m m' : HashMap K V} (h : ∀ k, m.lookup k = m'.lookup k) :
    m.entries.Perm m'.entries := by
  apply List.lookup_ext m.nodupKeys m'.nodupKeys
  intro k v
  have hk : m.entries.dlookup k = m'.entries.dlookup k := h k
  rw [hk]

theorem values_perm {m m' : HashMap K V} (h : ∀ k, m.lookup k = m'.lookup k) :
    m.values.Perm m'.values := by
  have hperm := entries_perm h
  exact hperm.map (·.2)

/-- The weight is that of the bindings. -/
theorem total_congr (f : V → Nat) {m m' : HashMap K V} (h : ∀ k, m.lookup k = m'.lookup k) :
    total f m = total f m' :=
  ((values_perm h).map f).sum_nat

theorem total_modify (f : V → V) (g : V → Nat) (m : HashMap K V) (k : K) :
    total g (modify f k m) + (m.lookup k).elim 0 g =
      total g m + (m.lookup k).elim 0 fun v => g (f v) := by
  have h := total_erase g m k
  unfold modify
  cases hl : m.lookup k with
  | none => rfl
  | some v =>
    rw [hl] at h
    simp only [Option.elim_some] at h ⊢
    rw [total_insert]
    omega

/-- Two entries together weigh no more than the map. -/
theorem add_le_total (f : V → Nat) (m : HashMap K V) {k k' : K} (hne : k ≠ k') :
    (m.lookup k).elim 0 f + (m.lookup k').elim 0 f ≤ total f m := by
  have h := total_erase f m k
  have h' := total_erase f (m.erase k) k'
  rw [AList.lookup_erase_ne hne.symm] at h'
  omega

/-- `m.entry(k).or_default().push(x)`. -/
def push (m : HashMap K (List V)) (k : K) (x : V) : HashMap K (List V) :=
  m.insert k ((m.lookup k).getD [] ++ [x])

theorem lookup_push (m : HashMap K (List V)) (k k' : K) (x : V) :
    ((push m k x).lookup k').getD [] = (m.lookup k').getD [] ++ if k = k' then [x] else [] := by
  unfold push
  by_cases h : k' = k
  · subst h
    rw [AList.lookup_insert, if_pos rfl]
    rfl
  · rw [AList.lookup_insert_ne h, if_neg (Ne.symm h), List.append_nil]

/-- Pushing under the key of each: what ends up under a key is what has it, in order. -/
theorem lookup_foldl_push (key : V → K) (k : K) : ∀ (l : List V) (m : HashMap K (List V)),
    ((l.foldl (fun m x => push m (key x) x) m).lookup k).getD [] =
      (m.lookup k).getD [] ++ l.filter fun x => key x = k := by
  intro l
  induction l with
  | nil => intro m; exact (List.append_nil _).symm
  | cons x l ih =>
    intro m
    rw [List.foldl_cons, ih, lookup_push, List.append_assoc, List.filter_cons]
    by_cases h : key x = k
    · simp [h]
    · simp [h]

theorem total_foldl_push (f : V → Nat) (key : V → K) : ∀ (l : List V) (m : HashMap K (List V)),
    total (fun xs => (xs.map f).sum) (l.foldl (fun m x => push m (key x) x) m) =
      total (fun xs => (xs.map f).sum) m + (l.map f).sum := by
  intro l
  induction l with
  | nil => intro m; rfl
  | cons x l ih =>
    intro m
    have hold := total_erase (fun xs : List V => (xs.map f).sum) m (key x)
    have hnew : total (fun xs => (xs.map f).sum) (push m (key x) x) =
        total (fun xs => (xs.map f).sum) m + f x := by
      unfold push
      rw [total_insert, List.map_append, List.sum_append, List.map_singleton, List.sum_singleton]
      cases hl : m.lookup (key x) with
      | none =>
        rw [hl] at hold
        simp only [Option.getD_none, Option.elim_none, List.map_nil, List.sum_nil] at hold ⊢
        omega
      | some xs =>
        rw [hl] at hold
        simp only [Option.getD_some, Option.elim_some] at hold ⊢
        omega
    rw [List.foldl_cons, ih, hnew, List.map_cons, List.sum_cons, Nat.add_assoc]

/-- `m.entry(k).or_insert(v)`: what is there first stays. -/
def orInsert (m : HashMap K V) (k : K) (v : V) : HashMap K V :=
  if k ∈ m then m else m.insert k v

theorem lookup_orInsert (m : HashMap K V) (k k' : K) (v : V) :
    (orInsert m k v).lookup k' = (m.lookup k').or (if k = k' then some v else none) := by
  unfold orInsert
  by_cases hk : k = k'
  · subst hk
    rw [if_pos rfl]
    split
    · rename_i hin
      obtain ⟨w, hw⟩ := Option.isSome_iff_exists.mp (AList.lookup_isSome.mpr hin)
      rw [hw, Option.or_some]
      rfl
    · rename_i hout
      rw [AList.lookup_insert, AList.lookup_eq_none.mpr hout, Option.none_or]
  · rw [if_neg hk, Option.or_none]
    split
    · rfl
    · exact AList.lookup_insert_ne (Ne.symm hk)

/-- Inserting under the key of each, the first come staying: what ends up under a key is the first
that has it, unless the map held something there before. -/
theorem lookup_foldl_orInsert (key : V → K) (p : V → Bool) (k : K) :
    ∀ (l : List V) (m : HashMap K V),
      (l.foldl (fun m x => if p x then orInsert m (key x) x else m) m).lookup k =
        (m.lookup k).or (l.find? fun x => p x && decide (key x = k)) := by
  intro l
  induction l with
  | nil => intro m; exact (Option.or_none).symm
  | cons x l ih =>
    intro m
    rw [List.foldl_cons, ih, List.find?_cons]
    cases hp : p x with
    | false => simp
    | true =>
      rw [if_pos rfl, lookup_orInsert, Option.or_assoc]
      by_cases hk : key x = k
      · simp [hk]
      · simp [hk]

/-- `*m.entry(k).or_insert(0) += 1`. -/
def bump (m : HashMap K Nat) (k : K) : HashMap K Nat :=
  m.insert k ((m.lookup k).getD 0 + 1)

def tally (l : List K) : HashMap K Nat := l.foldl bump ∅

theorem lookup_bump (m : HashMap K Nat) (k k' : K) :
    ((bump m k).lookup k').getD 0 = (m.lookup k').getD 0 + if k' = k then 1 else 0 := by
  unfold bump
  by_cases h : k' = k
  · subst h; rw [AList.lookup_insert]; simp
  · rw [AList.lookup_insert_ne h]; simp [h]

theorem lookup_foldl_bump (k : K) : ∀ (l : List K) (m : HashMap K Nat),
    ((l.foldl bump m).lookup k).getD 0 = (m.lookup k).getD 0 + l.count k := by
  intro l
  induction l with
  | nil => intro m; simp
  | cons a l ih =>
    intro m
    rw [List.foldl_cons, ih, lookup_bump, List.count_cons]
    by_cases h : k = a
    · subst h; simp; omega
    · simp [h, Ne.symm h]

/-- A tally answers the number of occurrences, `0` where it has no entry. -/
theorem lookup_tally (l : List K) (k : K) : ((tally l).lookup k).getD 0 = l.count k := by
  rw [tally, lookup_foldl_bump]; simp

theorem mem_foldl_bump {k : K} : ∀ {l : List K} {m : HashMap K Nat},
    k ∈ l.foldl bump m ↔ k ∈ m ∨ k ∈ l := by
  intro l
  induction l with
  | nil => intro m; simp
  | cons a l ih =>
    intro m
    rw [List.foldl_cons, ih, bump, AList.mem_insert, List.mem_cons]
    constructor
    · rintro ((rfl | h) | h)
      · exact Or.inr (Or.inl rfl)
      · exact Or.inl h
      · exact Or.inr (Or.inr h)
    · rintro (h | rfl | h)
      · exact Or.inl (Or.inr h)
      · exact Or.inl (Or.inl rfl)
      · exact Or.inr h

theorem mem_tally {l : List K} {k : K} : k ∈ tally l ↔ k ∈ l := by
  rw [tally, mem_foldl_bump]; simp

theorem eq_count_of_mem_tally {l : List K} {e : Sigma fun _ : K => Nat}
    (h : e ∈ (tally l).entries) : e.2 = l.count e.1 := by
  have hl : (tally l).lookup e.1 = some e.2 := AList.mem_lookup_iff.mpr h
  rw [← lookup_tally, hl]; rfl

theorem mem_tally_entries {l : List K} {k : K} (h : k ∈ l) :
    (⟨k, l.count k⟩ : Sigma fun _ : K => Nat) ∈ (tally l).entries := by
  obtain ⟨c, hc⟩ := Option.isSome_iff_exists.mp (AList.lookup_isSome.mpr (mem_tally.mpr h))
  have hmem := AList.mem_lookup_iff.mp hc
  have : c = l.count k := eq_count_of_mem_tally hmem
  exact this ▸ hmem

/-- A tally of the same keys in another order has the same entries. -/
theorem tally_perm {l l' : List K} (h : l.Perm l') :
    (tally l).entries.Perm (tally l').entries := by
  apply entries_perm
  intro k
  by_cases hk : k ∈ l
  · rw [AList.mem_lookup_iff.mpr (mem_tally_entries hk),
      AList.mem_lookup_iff.mpr (mem_tally_entries (h.mem_iff.mp hk)), h.count_eq]
  · rw [AList.lookup_eq_none.mpr fun hin => hk (mem_tally.mp hin),
      AList.lookup_eq_none.mpr fun hin => hk (h.mem_iff.mpr (mem_tally.mp hin))]

end HashMap

end Trv1Chain.Lib
