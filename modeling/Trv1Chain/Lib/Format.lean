import Mathlib.Logic.Equiv.Defs
import Trv1Chain.Lib.Bytes

/-!
# Formats

How the values of a type are written, and how one is read off the front of a text. The one law,
`read_iff`, says both things that are asked of a format: what was written is read back, whatever
comes after it, and what is read is something that was written.

Not every value need have a text: a length that is written as a word has to fit the word. `Fits`
says which do, and reading answers with no others.

Formats are built from formats: one after the other (`pair`), one inside another type (`within`)
and many (`list`).
-/

set_option autoImplicit false

namespace Trv1Chain.Lib

/-- Values of `α` as texts over `β`. -/
structure Format (β α : Type) where
  write : α → List β
  read : List β → Option (α × List β)
  Fits : α → Prop
  read_iff : ∀ {text a rest}, read text = some (a, rest) ↔ Fits a ∧ text = write a ++ rest

namespace Format

variable {β α α' : Type}

theorem read_write (f : Format β α) {a : α} (h : f.Fits a) (rest : List β) :
    f.read (f.write a ++ rest) = some (a, rest) :=
  f.read_iff.mpr ⟨h, rfl⟩

/-! ## One after the other -/

def pair (f : Format β α) (g : Format β α') : Format β (α × α') where
  write p := f.write p.1 ++ g.write p.2
  read text := (f.read text).bind fun (a, text) => (g.read text).map fun (a', text) =>
    ((a, a'), text)
  Fits p := f.Fits p.1 ∧ g.Fits p.2
  read_iff := by
    rintro text ⟨a, a'⟩ rest
    rw [Option.bind_eq_some_iff]
    constructor
    · rintro ⟨⟨b, text'⟩, hf, hg⟩
      obtain ⟨⟨b', rest'⟩, hg, heq⟩ := Option.map_eq_some_iff.mp hg
      cases heq
      obtain ⟨hfits, rfl⟩ := f.read_iff.mp hf
      obtain ⟨hfits', rfl⟩ := g.read_iff.mp hg
      exact ⟨⟨hfits, hfits'⟩, (List.append_assoc ..).symm⟩
    · rintro ⟨⟨hfits, hfits'⟩, rfl⟩
      refine ⟨(a, g.write a' ++ rest), ?_, ?_⟩
      · rw [List.append_assoc]
        exact f.read_write hfits _
      · dsimp only
        rw [g.read_write hfits']
        rfl

/-! ## One inside another type -/

/-- The values of `α'` written as values of `α`, which may stand for none of them. -/
def within (f : Format β α) (as : α' → α) (back : α → Option α') (P : α' → Prop)
    (h : ∀ a a', f.Fits a → (back a = some a' ↔ P a' ∧ as a' = a)) : Format β α' where
  write a' := f.write (as a')
  read text := (f.read text).bind fun (a, text) => (back a).map fun a' => (a', text)
  Fits a' := f.Fits (as a') ∧ P a'
  read_iff := by
    intro text a' rest
    rw [Option.bind_eq_some_iff]
    constructor
    · rintro ⟨⟨a, text'⟩, hf, hback⟩
      obtain ⟨b, hb, heq⟩ := Option.map_eq_some_iff.mp hback
      cases heq
      obtain ⟨hfits, rfl⟩ := f.read_iff.mp hf
      obtain ⟨hP, rfl⟩ := (h a a' hfits).mp hb
      exact ⟨⟨hfits, hP⟩, rfl⟩
    · rintro ⟨⟨hfits, hP⟩, rfl⟩
      refine ⟨(as a', rest), f.read_write hfits rest, ?_⟩
      dsimp only
      rw [(h (as a') a' hfits).mpr ⟨hP, rfl⟩]
      rfl

/-- The same values under another name. -/
def imap (f : Format β α) (e : α' ≃ α) : Format β α' :=
  f.within e (fun a => some (e.symm a)) (fun _ => True) (by
    intro a a' _
    rw [Option.some_inj, true_and, Equiv.symm_apply_eq]
    exact eq_comm)

/-! ## Many -/

/-- Read `n` values. -/
def readMany (f : Format β α) : Nat → List β → Option (List α × List β)
  | 0, text => some ([], text)
  | n + 1, text => (f.read text).bind fun (a, text) => (readMany f n text).map fun (l, text) =>
    (a :: l, text)

theorem readMany_iff (f : Format β α) : ∀ {n : Nat} {text : List β} {l : List α} {rest : List β},
    f.readMany n text = some (l, rest) ↔
      l.length = n ∧ (∀ a ∈ l, f.Fits a) ∧ text = l.flatMap f.write ++ rest := by
  intro n
  induction n with
  | zero =>
    intro text l rest
    unfold readMany
    constructor
    · intro h
      cases h
      exact ⟨rfl, by simp, rfl⟩
    · rintro ⟨hlen, -, htext⟩
      rw [List.eq_nil_of_length_eq_zero hlen] at htext ⊢
      rw [htext]
      rfl
  | succ n ih =>
    intro text l rest
    unfold readMany
    rw [Option.bind_eq_some_iff]
    constructor
    · rintro ⟨⟨a, text'⟩, hf, hmany⟩
      obtain ⟨⟨l', rest'⟩, hmany, heq⟩ := Option.map_eq_some_iff.mp hmany
      cases heq
      obtain ⟨hfits, rfl⟩ := f.read_iff.mp hf
      obtain ⟨rfl, hall, rfl⟩ := ih.mp hmany
      refine ⟨rfl, List.forall_mem_cons.mpr ⟨hfits, hall⟩, ?_⟩
      rw [List.flatMap_cons, List.append_assoc]
    · rintro ⟨hlen, hall, rfl⟩
      cases l with
      | nil => cases hlen
      | cons a l =>
        obtain ⟨hfits, hall⟩ := List.forall_mem_cons.mp hall
        refine ⟨(a, l.flatMap f.write ++ rest), ?_, ?_⟩
        · rw [List.flatMap_cons, List.append_assoc]
          exact f.read_write hfits _
        · dsimp only
          rw [ih.mpr ⟨Nat.succ.inj hlen, hall, rfl⟩]
          rfl

/-- The number of values, and then the values. -/
def list (count : Format β Nat) (f : Format β α) : Format β (List α) where
  write l := count.write l.length ++ l.flatMap f.write
  read text := (count.read text).bind fun (n, text) => f.readMany n text
  Fits l := count.Fits l.length ∧ ∀ a ∈ l, f.Fits a
  read_iff := by
    intro text l rest
    rw [Option.bind_eq_some_iff]
    constructor
    · rintro ⟨⟨n, text'⟩, hcount, hmany⟩
      obtain ⟨hfits, rfl⟩ := count.read_iff.mp hcount
      obtain ⟨rfl, hall, rfl⟩ := f.readMany_iff.mp hmany
      exact ⟨⟨hfits, hall⟩, (List.append_assoc ..).symm⟩
    · rintro ⟨⟨hfits, hall⟩, rfl⟩
      refine ⟨(l.length, l.flatMap f.write ++ rest), ?_, f.readMany_iff.mpr ⟨rfl, hall, rfl⟩⟩
      rw [List.append_assoc]
      exact count.read_write hfits _

/-! ## Fixed-width pieces -/

/-- The next symbol of the text. -/
def symbol : Format β β where
  write b := [b]
  read
    | [] => none
    | b :: text => some (b, text)
  Fits _ := True
  read_iff := by
    intro text b rest
    cases text with
    | nil => simp
    | cons c text =>
      dsimp only
      rw [Option.some_inj, Prod.mk.injEq, true_and, List.singleton_append, List.cons.injEq]

/-- The first symbols of the text. -/
def block (n : Nat) : Format β (List.Vector β n) where
  write v := v.toList
  read text := if h : n ≤ text.length then
      some (⟨text.take n, List.length_take_of_le h⟩, text.drop n)
    else none
  Fits _ := True
  read_iff := by
    intro text v rest
    constructor
    · intro h
      split at h
      · cases h
        exact ⟨trivial, (List.take_append_drop n text).symm⟩
      · cases h
    · rintro ⟨-, rfl⟩
      have hlen : n ≤ (v.toList ++ rest).length := by
        rw [List.length_append, v.toList_length]
        exact Nat.le_add_right n _
      have htake : (v.toList ++ rest).take n = v.toList := List.take_left' v.toList_length
      have hdrop : (v.toList ++ rest).drop n = rest := List.drop_left' v.toList_length
      rw [dif_pos hlen, hdrop]
      exact congrArg some (Prod.ext (List.Vector.eq _ _ htake) rfl)

end Format

/-- The number that bytes give, least significant first. -/
def leNat : List UInt8 → Nat
  | [] => 0
  | b :: l => b.toNat + 256 * leNat l

theorem leNat_lt : ∀ l : List UInt8, leNat l < 256 ^ l.length
  | [] => Nat.one_pos
  | b :: l => by
    have hb : b.toNat < 256 := b.toNat_lt
    have hl := leNat_lt l
    rw [leNat, List.length_cons, pow_succ]
    omega

theorem leBytes_leNat : ∀ l : List UInt8, leBytes l.length (leNat l) = l
  | [] => rfl
  | b :: l => by
    have hb : b.toNat < 256 := b.toNat_lt
    have hlow : UInt8.ofNat (b.toNat + 256 * leNat l) = b := by
      apply UInt8.toNat_inj.mp
      rw [UInt8.toNat_ofNat']
      omega
    have hhigh : (b.toNat + 256 * leNat l) / 256 = leNat l := by omega
    rw [List.length_cons, leBytes, leNat, hlow, hhigh, leBytes_leNat l]

theorem leNat_leBytes : ∀ {k x : Nat}, x < 256 ^ k → leNat (leBytes k x) = x := by
  intro k
  induction k with
  | zero =>
    intro x hx
    rw [pow_zero] at hx
    rw [leBytes, leNat]
    omega
  | succ k ih =>
    intro x hx
    have hhigh : x / 256 < 256 ^ k := by
      rw [Nat.div_lt_iff_lt_mul (by decide)]
      rwa [pow_succ] at hx
    rw [leBytes, leNat, ih hhigh, UInt8.toNat_ofNat']
    omega

namespace Format

/-- A word of `k` bytes. -/
def word (k : Nat) : Format UInt8 Nat :=
  (block k).within (fun x => ⟨leBytes k x, length_leBytes ..⟩) (fun v => some (leNat v.toList))
    (· < 256 ^ k) (by
      intro v x _
      rw [Option.some_inj]
      constructor
      · rintro rfl
        have hlt := leNat_lt v.toList
        have hback := leBytes_leNat v.toList
        rw [v.toList_length] at hlt hback
        exact ⟨hlt, List.Vector.eq _ _ hback⟩
      · rintro ⟨hlt, rfl⟩
        exact leNat_leBytes hlt)

@[simp] theorem word_fits {k x : Nat} : (word k).Fits x ↔ x < 256 ^ k :=
  iff_of_eq (true_and _)

def u64 : Format UInt8 UInt64 :=
  (word 8).within UInt64.toNat (fun x => some (UInt64.ofNat x)) (fun _ => True) (by
    intro x w hx
    rw [word_fits] at hx
    rw [Option.some_inj, true_and]
    constructor
    · rintro rfl
      exact UInt64.toNat_ofNat_of_lt' hx
    · rintro rfl
      exact UInt64.ofNat_toNat)

def u32 : Format UInt8 UInt32 :=
  (word 4).within UInt32.toNat (fun x => some (UInt32.ofNat x)) (fun _ => True) (by
    intro x w hx
    rw [word_fits] at hx
    rw [Option.some_inj, true_and]
    constructor
    · rintro rfl
      exact UInt32.toNat_ofNat_of_lt' hx
    · rintro rfl
      exact UInt32.ofNat_toNat)

def u16 : Format UInt8 UInt16 :=
  (word 2).within UInt16.toNat (fun x => some (UInt16.ofNat x)) (fun _ => True) (by
    intro x w hx
    rw [word_fits] at hx
    rw [Option.some_inj, true_and]
    constructor
    · rintro rfl
      exact UInt16.toNat_ofNat_of_lt' hx
    · rintro rfl
      exact UInt16.ofNat_toNat)

@[simp] theorem u64_fits {w : UInt64} : u64.Fits w := by
  refine ⟨?_, trivial⟩
  rw [word_fits]
  exact w.toNat_lt

@[simp] theorem u32_fits {w : UInt32} : u32.Fits w := by
  refine ⟨?_, trivial⟩
  rw [word_fits]
  exact w.toNat_lt

@[simp] theorem u16_fits {w : UInt16} : u16.Fits w := by
  refine ⟨?_, trivial⟩
  rw [word_fits]
  exact w.toNat_lt

/-! ## What fits -/

section Fits

variable {β α α' : Type}

@[simp] theorem pair_fits {f : Format β α} {g : Format β α'} {p : α × α'} :
    (f.pair g).Fits p ↔ f.Fits p.1 ∧ g.Fits p.2 := Iff.rfl

@[simp] theorem imap_fits {f : Format β α} {e : α' ≃ α} {a : α'} :
    (f.imap e).Fits a ↔ f.Fits (e a) := and_iff_left trivial

@[simp] theorem list_fits {count : Format β Nat} {f : Format β α} {l : List α} :
    (list count f).Fits l ↔ count.Fits l.length ∧ ∀ a ∈ l, f.Fits a := Iff.rfl

end Fits

end Format

end Trv1Chain.Lib
