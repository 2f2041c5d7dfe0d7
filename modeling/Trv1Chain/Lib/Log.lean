import Mathlib.Data.List.Basic

/-!
# Replicated logs

Logs that only grow, kept by several parties. Two logs *agree* when they have the same entry
wherever both have one; then one of them is a prefix of the other, and what they held when they
were equally long is the same.
-/

set_option autoImplicit false

namespace Trv1Chain.Lib

variable {α : Type}

/-- The same entry at every index both logs have. -/
def AgreeAt (l l' : List α) : Prop := ∀ (p : Nat) a b, l[p]? = some a → l'[p]? = some b → a = b

theorem AgreeAt.symm {l l' : List α} (h : AgreeAt l l') : AgreeAt l' l :=
  fun p a b ha hb => (h p b a hb ha).symm

/-- The shorter of two agreeing logs is a prefix of the longer. -/
theorem AgreeAt.isPrefix {l l' : List α} (h : AgreeAt l l') (hle : l.length ≤ l'.length) :
    l <+: l' := by
  rw [List.prefix_iff_getElem?]
  intro p hp
  have hp' : p < l'.length := Nat.lt_of_lt_of_le hp hle
  have heq := h p l[p] l'[p] (List.getElem?_eq_getElem hp) (List.getElem?_eq_getElem hp')
  rw [List.getElem?_eq_getElem hp', heq]

/-- **One of two agreeing logs is a prefix of the other.** -/
theorem AgreeAt.comparable {l l' : List α} (h : AgreeAt l l') : l <+: l' ∨ l' <+: l :=
  (Nat.le_total l.length l'.length).imp h.isPrefix h.symm.isPrefix

/-- What two agreeing logs held when they were equally long. -/
theorem AgreeAt.eq_of_prefixes {l l' k k' : List α} (h : AgreeAt l l') (hk : k <+: l)
    (hk' : k' <+: l') (hlen : k.length = k'.length) : k = k' := by
  rcases h.comparable with hll | hll
  · exact (List.prefix_of_prefix_length_le (hk.trans hll) hk' (Nat.le_of_eq hlen)).eq_of_length hlen
  · exact (List.prefix_of_prefix_length_le hk (hk'.trans hll) (Nat.le_of_eq hlen)).eq_of_length hlen

end Trv1Chain.Lib
