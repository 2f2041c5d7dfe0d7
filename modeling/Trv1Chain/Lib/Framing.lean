import Trv1Chain.Lib.Bytes

/-!
# Framing

A writing is *framed* when it can be told apart from every other with anything after it: where it
ends is in the writing. Pieces of one length are framed, and so are pieces that end in a mark they
do not contain; pairs of framed pieces are; and a concatenation of framed pieces, none of them
empty, determines the list of them, however many there are.
-/

set_option autoImplicit false

namespace Trv1Chain.Lib

variable {α α' β : Type}

def Framed (w : α → List β) : Prop :=
  ∀ ⦃a b : α⦄ ⦃l l' : List β⦄, w a ++ l = w b ++ l' → a = b ∧ l = l'

namespace Framed

theorem of_length {w : α → List β} {n : Nat} (hlength : ∀ a, (w a).length = n)
    (hinj : Function.Injective w) : Framed w := by
  intro a b l l' h
  obtain ⟨hw, hl⟩ := List.append_inj h ((hlength a).trans (hlength b).symm)
  exact ⟨hinj hw, hl⟩

/-- Pieces that end in a mark. -/
theorem marked {w : α → List β} {t : β} (hmark : ∀ a, t ∉ w a) (hinj : Function.Injective w) :
    Framed fun a => w a ++ [t] := by
  intro a b l l' h
  simp only [List.append_assoc, List.singleton_append] at h
  -- the shorter piece would have the mark of the other one's text inside it
  rcases List.append_eq_append_iff.mp h with ⟨c, hb, hl⟩ | ⟨c, ha, hl⟩
  · cases c with
    | nil =>
      rw [List.append_nil] at hb
      exact ⟨hinj hb.symm, (List.cons.inj hl).2⟩
    | cons x c =>
      obtain ⟨rfl, -⟩ := List.cons.inj hl
      exact absurd (hb ▸ List.mem_append_right _ List.mem_cons_self) (hmark b)
  · cases c with
    | nil =>
      rw [List.append_nil] at ha
      exact ⟨hinj ha, (List.cons.inj hl).2.symm⟩
    | cons x c =>
      obtain ⟨rfl, -⟩ := List.cons.inj hl
      exact absurd (ha ▸ List.mem_append_right _ List.mem_cons_self) (hmark a)

/-- A fixed text before a piece. -/
theorem after {w : α → List β} (hw : Framed w) (text : List β) : Framed fun a => text ++ w a := by
  intro a b l l' h
  simp only [List.append_assoc] at h
  exact hw (List.append_cancel_left h)

theorem pair {w : α → List β} {w' : α' → List β} (hw : Framed w) (hw' : Framed w') :
    Framed fun p : α × α' => w p.1 ++ w' p.2 := by
  intro p q l l' h
  simp only [List.append_assoc] at h
  obtain ⟨hfirst, hrest⟩ := hw h
  obtain ⟨hsecond, hl⟩ := hw' hrest
  exact ⟨Prod.ext hfirst hsecond, hl⟩

/-- The pieces of something that they determine. -/
theorem comp {w : α' → List β} (hw : Framed w) {f : α → α'} (hf : Function.Injective f) :
    Framed fun a => w (f a) := by
  intro a b l l' h
  obtain ⟨hfa, hl⟩ := hw h
  exact ⟨hf hfa, hl⟩

/-- **A concatenation can be taken apart.** -/
theorem flatMap_inj {w : α → List β} (hw : Framed w) (hne : ∀ a, w a ≠ []) :
    ∀ {l l' : List α}, l.flatMap w = l'.flatMap w → l = l' := by
  intro l
  induction l with
  | nil =>
    intro l' h
    cases l' with
    | nil => rfl
    | cons b l' =>
      rw [List.flatMap_cons] at h
      exact absurd (List.append_eq_nil_iff.mp h.symm).1 (hne b)
  | cons a l ih =>
    intro l' h
    cases l' with
    | nil =>
      rw [List.flatMap_cons] at h
      exact absurd (List.append_eq_nil_iff.mp h).1 (hne a)
    | cons b l' =>
      rw [List.flatMap_cons, List.flatMap_cons] at h
      obtain ⟨rfl, hrest⟩ := hw h
      rw [ih hrest]

end Framed

/-! ## Numbers -/

theorem notMem_decimal {t : UInt8} (ht : t.toNat < 48 ∨ 58 ≤ t.toNat) (x : Nat) :
    t ∉ decimal x := by
  intro hmem
  have hdigit := mem_decimalDigits hmem
  omega

/-- A number that ends in something that is no digit. -/
theorem framed_decimal {t : UInt8} (ht : t.toNat < 48 ∨ 58 ≤ t.toNat) :
    Framed fun x : Nat => decimal x ++ [t] :=
  Framed.marked (notMem_decimal ht) fun _ _ h => decimal_inj h

theorem framed_word {t : UInt8} (ht : t.toNat < 48 ∨ 58 ≤ t.toNat) :
    Framed fun x : UInt64 => decimal x.toNat ++ [t] :=
  (framed_decimal ht).comp fun _ _ h => UInt64.toNat_inj.mp h

theorem framed_bytes (n : Nat) : Framed fun b : Bytes n => b.toList :=
  Framed.of_length (fun b => b.toList_length) fun _ _ h => Bytes.toList_inj h

/-! ## Separators -/

/-- In a list with separators, everything before the last elements is followed by one. -/
theorem intercalate_append (sep : β) {l' : List (List β)} (hne : l' ≠ []) :
    ∀ l : List (List β), List.intercalate [sep] (l ++ l') =
      (l.flatMap fun x => x ++ [sep]) ++ List.intercalate [sep] l' := by
  intro l
  induction l with
  | nil => rfl
  | cons x l ih =>
    have hrest : l ++ l' ≠ [] := fun h => hne (List.append_eq_nil_iff.mp h).2
    obtain ⟨y, rest, hy⟩ := List.exists_cons_of_ne_nil hrest
    rw [List.cons_append, hy, List.intercalate_cons_cons, ← hy, ih, List.flatMap_cons]
    simp only [List.append_assoc]

end Trv1Chain.Lib
