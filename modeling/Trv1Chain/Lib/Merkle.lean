import Mathlib.Data.List.Basic
import Mathlib.Data.Set.Basic

/-!
# Binary Merkle trees that pair an odd node with itself

A tree is built level by level from a list of leaves with one function `node` on digests. When a
level has an odd number of nodes the last one is paired with itself, so the tree of `[a, b, c]`
is the tree of `[a, b, c, c]`: the root does not determine the leaves by itself, however good
the hash is.

`root_inj` and `root_eq_iff` are what it does determine. When `node` has no collision among the
pairs the two trees hash, and no leaf is a node, equal roots come from equal lists of leaves, or one
of the two trees has a level that ends in a pair of equal nodes (`EndsInTwin`). Exactly, the root
determines the leaves as the passes see them, with every odd node written twice (`pad`).
-/

set_option autoImplicit false

namespace Trv1Chain.Lib.Merkle

variable {D : Type} (node : D → D → D)

/-- The pairs one pass over a level hashes. -/
def pairs : List D → List (D × D)
  | [] => []
  | [a] => [(a, a)]
  | a :: b :: rest => (a, b) :: pairs rest

def pairUp : List D → List D
  | [] => []
  | [a] => [node a a]
  | a :: b :: rest => node a b :: pairUp rest

theorem length_pairUp : ∀ l : List D, (pairUp node l).length = (l.length + 1) / 2
  | [] => by simp [pairUp]
  | [_] => by simp [pairUp]
  | _ :: _ :: rest => by
    rw [pairUp, List.length_cons, length_pairUp rest]
    simp only [List.length_cons]
    omega

theorem pairUp_eq_map : ∀ l : List D, pairUp node l = (pairs l).map fun p => node p.1 p.2
  | [] => rfl
  | [_] => rfl
  | a :: b :: rest => by rw [pairUp, pairs, List.map_cons, pairUp_eq_map rest]

/-- Passes until one node is left; `empty` for no leaves at all. -/
def root (empty : D) : List D → D
  | [] => empty
  | [r] => r
  | a :: b :: rest => root empty (pairUp node (a :: b :: rest))
termination_by leaves => leaves.length
decreasing_by
  rw [length_pairUp]
  simp only [List.length_cons]
  omega

/-- The levels that are passed over: all but the root's. -/
def levels : List D → List (List D)
  | [] => []
  | [_] => []
  | a :: b :: rest => (a :: b :: rest) :: levels (pairUp node (a :: b :: rest))
termination_by leaves => leaves.length
decreasing_by
  rw [length_pairUp]
  simp only [List.length_cons]
  omega

def hashed (leaves : List D) : List (D × D) := (levels node leaves).flatMap pairs

/-- A level whose last pair is two equal nodes. -/
def EndsInTwin (l : List D) : Prop := ∃ pre x, l = pre ++ [x, x] ∧ pre.length % 2 = 0

/-- No level of the tree ends in a twin. -/
def TwinFree (leaves : List D) : Prop := ∀ l ∈ levels node leaves, ¬ EndsInTwin l

theorem twinFree_singleton (a : D) : TwinFree node [a] := by
  intro l hl
  simp [levels] at hl

/-! ## One level -/

theorem EndsInTwin.cons_cons {l : List D} (h : EndsInTwin l) (a b : D) :
    EndsInTwin (a :: b :: l) := by
  obtain ⟨pre, x, rfl, heven⟩ := h
  refine ⟨a :: b :: pre, x, rfl, ?_⟩
  simp only [List.length_cons]
  omega

/-- The pairs of a level determine it, but for a twin at the end. -/
theorem eq_of_pairs_eq : ∀ {l l' : List D}, pairs l = pairs l' →
    l = l' ∨ EndsInTwin l ∨ EndsInTwin l'
  | [], [], _ => Or.inl rfl
  | [], [_], h => absurd h (by simp [pairs])
  | [], _ :: _ :: _, h => absurd h (by simp [pairs])
  | [_], [], h => absurd h (by simp [pairs])
  | _ :: _ :: _, [], h => absurd h (by simp [pairs])
  | [a], [c], h => by
    simp only [pairs, List.cons.injEq, Prod.mk.injEq, and_true] at h
    exact Or.inl (by rw [h.1])
  | [a], c :: d :: rest, h => by
    simp only [pairs, List.cons.injEq, Prod.mk.injEq] at h
    obtain ⟨⟨rfl, rfl⟩, hrest⟩ := h
    -- the odd node of the one is the twin of the other
    cases rest with
    | nil => exact Or.inr (Or.inr ⟨[], a, rfl, rfl⟩)
    | cons e rest => cases rest <;> simp [pairs] at hrest
  | a :: b :: rest, [c], h => by
    simp only [pairs, List.cons.injEq, Prod.mk.injEq] at h
    obtain ⟨⟨rfl, rfl⟩, hrest⟩ := h
    cases rest with
    | nil => exact Or.inr (Or.inl ⟨[], _, rfl, rfl⟩)
    | cons e rest => cases rest <;> simp [pairs] at hrest
  | a :: b :: rest, c :: d :: rest', h => by
    simp only [pairs, List.cons.injEq, Prod.mk.injEq] at h
    obtain ⟨⟨rfl, rfl⟩, hrest⟩ := h
    rcases eq_of_pairs_eq hrest with rfl | htwin | htwin
    · exact Or.inl rfl
    · exact Or.inr (Or.inl (htwin.cons_cons a b))
    · exact Or.inr (Or.inr (htwin.cons_cons a b))

/-! ## Depth -/

/-- `x` is a digest `d` passes above the leaves `L`, over pairs in `U`. -/
inductive Depth (U : Set (D × D)) (L : Set D) : Nat → D → Prop
  | leaf {x : D} : x ∈ L → Depth U L 0 x
  | node {d : Nat} {a b : D} : (a, b) ∈ U → Depth U L d a → Depth U L d b →
      Depth U L (d + 1) (node a b)

/-- `node` has no collision on the pairs `U`, and no leaf is one of their nodes. -/
structure Separated (U : Set (D × D)) (L : Set D) : Prop where
  inj : ∀ {a b c d}, (a, b) ∈ U → (c, d) ∈ U → node a b = node c d → a = c ∧ b = d
  leaf : ∀ {x a b}, x ∈ L → (a, b) ∈ U → x ≠ node a b

variable {node}

/-- **A digest has one depth.** -/
theorem Depth.unique {U : Set (D × D)} {L : Set D} (hsep : Separated node U L) {d e : Nat} {x : D}
    (hd : Depth node U L d x) (he : Depth node U L e x) : d = e := by
  induction hd generalizing e with
  | leaf hx =>
    cases he with
    | leaf _ => rfl
    | node hab _ _ => exact absurd rfl (hsep.leaf hx hab)
  | node hab _ _ iha _ =>
    generalize hy : node _ _ = y at he
    cases he with
    | leaf hx => exact absurd hy.symm (hsep.leaf hx hab)
    | node hcd hc _ =>
      obtain ⟨rfl, -⟩ := hsep.inj hab hcd hy
      rw [iha hc]

theorem depth_pairUp {U : Set (D × D)} {L : Set D} {d : Nat} : ∀ {l : List D},
    (∀ x ∈ l, Depth node U L d x) → (∀ p ∈ pairs l, p ∈ U) →
    ∀ x ∈ pairUp node l, Depth node U L (d + 1) x
  | [], _, _, x, hx => absurd hx (by simp [pairUp])
  | [a], hl, hU, x, hx => by
    simp only [pairUp, List.mem_singleton] at hx
    subst hx
    exact .node (hU (a, a) (by simp [pairs])) (hl a (by simp)) (hl a (by simp))
  | a :: b :: rest, hl, hU, x, hx => by
    rw [pairUp, List.mem_cons] at hx
    rcases hx with rfl | hx
    · exact .node (hU (a, b) (by simp [pairs])) (hl a (by simp)) (hl b (by simp))
    · refine depth_pairUp (l := rest) ?_ ?_ x hx
      · intro y hy
        exact hl y (by simp [hy])
      · intro p hp
        exact hU p (by simp [pairs, hp])

theorem hashed_cons_cons (a b : D) (rest : List D) :
    hashed node (a :: b :: rest) =
      pairs (a :: b :: rest) ++ hashed node (pairUp node (a :: b :: rest)) := by
  unfold hashed
  rw [levels, List.flatMap_cons]

/-- The root of a tree is as many passes above its leaves as the tree has levels. -/
theorem depth_root {U : Set (D × D)} {L : Set D} (empty : D) : ∀ {l : List D} {d : Nat}, l ≠ [] →
    (∀ x ∈ l, Depth node U L d x) → (∀ p ∈ hashed node l, p ∈ U) →
    Depth node U L (d + (levels node l).length) (root node empty l) := by
  intro l
  induction l using root.induct node with
  | case1 => intro d hne; exact absurd rfl hne
  | case2 r =>
    intro d _ hl _
    rw [root, levels]
    exact hl r (by simp)
  | case3 a b rest ih =>
    intro d _ hl hU
    rw [hashed_cons_cons] at hU
    have hne : pairUp node (a :: b :: rest) ≠ [] := by simp [pairUp]
    have hup := depth_pairUp hl fun p hp => hU p (List.mem_append_left _ hp)
    have := ih hne hup fun p hp => hU p (List.mem_append_right _ hp)
    rw [root, levels, List.length_cons]
    have hadd : d + ((levels node (pairUp node (a :: b :: rest))).length + 1) =
        d + 1 + (levels node (pairUp node (a :: b :: rest))).length := by omega
    rw [hadd]
    exact this

/-- Trees with the same root are equally high. -/
theorem height_eq {U : Set (D × D)} {L : Set D} (hsep : Separated node U L) (empty : D)
    {l l' : List D} {d : Nat} (hne : l ≠ []) (hne' : l' ≠ [])
    (hd : ∀ x ∈ l, Depth node U L d x) (hd' : ∀ x ∈ l', Depth node U L d x)
    (hU : ∀ p ∈ hashed node l, p ∈ U) (hU' : ∀ p ∈ hashed node l', p ∈ U)
    (h : root node empty l = root node empty l') :
    (levels node l).length = (levels node l').length := by
  have h₁ := depth_root empty hne hd hU
  have h₂ := depth_root empty hne' hd' hU'
  rw [h] at h₁
  exact Nat.add_left_cancel (h₁.unique hsep h₂)

/-- Two lists with the same image are the same, when the map tells their members apart. -/
theorem eq_of_map_eq {α β : Type} {f : α → β} : ∀ {l l' : List α},
    (∀ x ∈ l, ∀ y ∈ l', f x = f y → x = y) → l.map f = l'.map f → l = l'
  | [], [], _, _ => rfl
  | [], _ :: _, _, h => absurd h (by simp)
  | _ :: _, [], _, h => absurd h (by simp)
  | x :: l, y :: l', hf, h => by
    simp only [List.map_cons, List.cons.injEq] at h
    have hxy := hf x (by simp) y (by simp) h.1
    have hl := eq_of_map_eq (fun a ha b hb => hf a (by simp [ha]) b (by simp [hb]))
      h.2
    rw [hxy, hl]

theorem pairs_eq_of_pairUp_eq {U : Set (D × D)} {L : Set D} (hsep : Separated node U L)
    {l l' : List D} (hl : ∀ p ∈ pairs l, p ∈ U) (hl' : ∀ p ∈ pairs l', p ∈ U)
    (h : pairUp node l = pairUp node l') : pairs l = pairs l' := by
  rw [pairUp_eq_map, pairUp_eq_map] at h
  refine eq_of_map_eq ?_ h
  intro p hp q hq hpq
  obtain ⟨h₁, h₂⟩ := hsep.inj (hl p hp) (hl' q hq) hpq
  exact Prod.ext h₁ h₂

theorem TwinFree.up {a b : D} {rest : List D} (h : TwinFree node (a :: b :: rest)) :
    ¬ EndsInTwin (a :: b :: rest) ∧ TwinFree node (pairUp node (a :: b :: rest)) := by
  unfold TwinFree at h
  rw [levels] at h
  exact ⟨h _ List.mem_cons_self, fun l hl => h l (List.mem_cons_of_mem _ hl)⟩

/-- **The root determines the leaves** of a tree without twins. The induction is over the levels
of the first tree; the two trees are equally high because a digest has one depth. -/
theorem root_inj {U : Set (D × D)} {L : Set D} (hsep : Separated node U L) (empty : D) :
    ∀ {l l' : List D} {d : Nat}, l ≠ [] → l' ≠ [] →
      (∀ x ∈ l, Depth node U L d x) → (∀ x ∈ l', Depth node U L d x) →
      (∀ p ∈ hashed node l, p ∈ U) → (∀ p ∈ hashed node l', p ∈ U) →
      TwinFree node l → TwinFree node l' → root node empty l = root node empty l' → l = l' := by
  intro l
  induction l using root.induct node with
  | case1 => intro l' d hne; exact absurd rfl hne
  | case2 r =>
    intro l' d hne hne' hd hd' hU hU' _ _ h
    have hlen := height_eq hsep empty hne hne' hd hd' hU hU' h
    match l', hne' with
    | [c], _ =>
      rw [root, root] at h
      rw [h]
    | c :: e :: rest, _ =>
      rw [levels, levels] at hlen
      cases hlen
  | case3 a b rest ih =>
    intro l' d hne hne' hd hd' hU hU' ht ht' h
    have hlen := height_eq hsep empty hne hne' hd hd' hU hU' h
    match l', hne' with
    | [c], hne' =>
      rw [levels, levels] at hlen
      cases hlen
    | c :: e :: rest', _ =>
      rw [hashed_cons_cons] at hU hU'
      rw [root, root] at h
      have hup := ih (by simp [pairUp]) (by simp [pairUp])
        (depth_pairUp hd fun p hp => hU p (List.mem_append_left _ hp))
        (depth_pairUp hd' fun p hp => hU' p (List.mem_append_left _ hp))
        (fun p hp => hU p (List.mem_append_right _ hp))
        (fun p hp => hU' p (List.mem_append_right _ hp)) ht.up.2 ht'.up.2 h
      have hpairs := pairs_eq_of_pairUp_eq hsep (fun p hp => hU p (List.mem_append_left _ hp))
        (fun p hp => hU' p (List.mem_append_left _ hp)) hup
      rcases eq_of_pairs_eq hpairs with heq | htwin | htwin
      · exact heq
      · exact absurd htwin ht.up.1
      · exact absurd htwin ht'.up.1

/-! ## Padding

What a pass sees of a level of odd length is the level with its last node written twice. Written
out down to the leaves this is a list of as many leaves as the tree has room for. The recursion is
over lists of pairs, so over a type that grows with the level. -/

def unpair {α : Type} (l : List (α × α)) : List α := l.flatMap fun p => [p.1, p.2]

theorem length_pairs {α : Type} : ∀ l : List α, (pairs l).length = (l.length + 1) / 2
  | [] => by simp [pairs]
  | [_] => by simp [pairs]
  | _ :: _ :: rest => by
    rw [pairs, List.length_cons, length_pairs rest]
    simp only [List.length_cons]
    omega

/-- The list with all that the passes write twice written twice. -/
def pad : (α : Type) → List α → List α
  | _, [] => []
  | _, [a] => [a]
  | α, a :: b :: rest => unpair (pad (α × α) (pairs (a :: b :: rest)))
termination_by _ l => l.length
decreasing_by
  rw [length_pairs]
  simp only [List.length_cons]
  omega

section

variable {α β : Type}

theorem pairs_unpair (l : List (α × α)) : pairs (unpair l) = l := by
  induction l with
  | nil => rfl
  | cons p l ih =>
    show (p.1, p.2) :: pairs (unpair l) = _
    rw [ih]

theorem pairs_map (f : α → β) : ∀ l : List α, pairs (l.map f) = (pairs l).map (Prod.map f f)
  | [] => rfl
  | [_] => rfl
  | a :: b :: rest => by
    show (f a, f b) :: pairs (rest.map f) = _
    rw [pairs_map f rest]
    rfl

theorem unpair_map (f : α → β) (l : List (α × α)) :
    unpair (l.map (Prod.map f f)) = (unpair l).map f := by
  induction l with
  | nil => rfl
  | cons p l ih =>
    show f p.1 :: f p.2 :: unpair (l.map (Prod.map f f)) = _
    rw [ih]
    rfl

/-- A pass forgets at most the second copy of an odd node. -/
theorem prefix_unpair_pairs : ∀ l : List α, l <+: unpair (pairs l)
  | [] => List.prefix_rfl
  | [a] => ⟨[a], rfl⟩
  | a :: b :: rest => by
    obtain ⟨t, ht⟩ := prefix_unpair_pairs rest
    exact ⟨t, congrArg (fun l => a :: b :: l) ht⟩

theorem unpair_mono {l l' : List (α × α)} (h : l <+: l') : unpair l <+: unpair l' := by
  obtain ⟨t, rfl⟩ := h
  exact ⟨unpair t, List.flatMap_append.symm⟩

end

/-- Padding only adds at the end. -/
theorem prefix_pad {α : Type} (l : List α) : l <+: pad α l := by
  induction α, l using pad.induct with
  | case1 α =>
    rewrite [pad]
    exact List.prefix_rfl
  | case2 α a =>
    rewrite [pad]
    exact List.prefix_rfl
  | case3 α a b rest ih =>
    rw [pad]
    exact (prefix_unpair_pairs _).trans (unpair_mono ih)

theorem mem_of_mem_pairs {α : Type} {x y : α} : ∀ {l : List α}, (x, y) ∈ pairs l → x ∈ l ∧ y ∈ l
  | [], h => absurd h List.not_mem_nil
  | [a], h => by
    rw [pairs, List.mem_singleton] at h
    cases h
    simp
  | a :: b :: rest, h => by
    rw [pairs, List.mem_cons] at h
    rcases h with h | h
    · cases h
      simp
    · obtain ⟨hx, hy⟩ := mem_of_mem_pairs h
      simp [hx, hy]

theorem mem_of_mem_pad {α : Type} {l : List α} : ∀ {x : α}, x ∈ pad α l → x ∈ l := by
  induction α, l using pad.induct with
  | case1 =>
    intro x h
    rwa [pad] at h
  | case2 α a =>
    intro x h
    rwa [pad] at h
  | case3 α a b rest ih =>
    intro x h
    rw [pad] at h
    obtain ⟨p, hp, hx⟩ := List.mem_flatMap.mp h
    obtain ⟨h₁, h₂⟩ := mem_of_mem_pairs (x := p.1) (y := p.2) (ih hp)
    simp only [List.mem_cons, List.not_mem_nil, or_false] at hx
    rcases hx with rfl | rfl
    · exact h₁
    · exact h₂

theorem pad_map {α : Type} (l : List α) : ∀ {β : Type} (f : α → β),
    pad β (l.map f) = (pad α l).map f := by
  induction α, l using pad.induct with
  | case1 =>
    intro β f
    rw [List.map_nil, pad, pad, List.map_nil]
  | case2 α a =>
    intro β f
    rw [List.map_singleton, pad, pad, List.map_singleton]
  | case3 α a b rest ih =>
    intro β f
    rw [List.map_cons, List.map_cons, pad, pad, ← List.map_cons, ← List.map_cons, pairs_map, ih,
      unpair_map]

/-- The next level up, padded, is made of the pairs of the padded level. -/
theorem pad_pairUp (l : List D) :
    pad D (pairUp node l) = (pad (D × D) (pairs l)).map fun p => node p.1 p.2 := by
  rw [pairUp_eq_map, pad_map]

/-- **The root is that of the padded leaves.** -/
theorem root_pad (empty : D) (l : List D) : root node empty (pad D l) = root node empty l := by
  induction l using root.induct node with
  | case1 => rw [pad]
  | case2 r => rw [pad]
  | case3 a b rest ih =>
    -- the padded list has two leaves at least, as its prefix does
    have hup : root node empty (pad D (a :: b :: rest)) =
        root node empty (pairUp node (pad D (a :: b :: rest))) := by
      obtain ⟨t, ht⟩ := prefix_pad (a :: b :: rest)
      rw [← ht]
      exact root.eq_3 ..
    rw [hup, root, ← ih, pad_pairUp, pairUp_eq_map, pad, pairs_unpair]

theorem pad_eq_of_root_eq {U : Set (D × D)} {L : Set D} (hsep : Separated node U L) (empty : D) :
    ∀ {l l' : List D} {d : Nat}, l ≠ [] → l' ≠ [] →
      (∀ x ∈ l, Depth node U L d x) → (∀ x ∈ l', Depth node U L d x) →
      (∀ p ∈ hashed node l, p ∈ U) → (∀ p ∈ hashed node l', p ∈ U) →
      root node empty l = root node empty l' → pad D l = pad D l' := by
  intro l
  induction l using root.induct node with
  | case1 => intro l' d hne; exact absurd rfl hne
  | case2 r =>
    intro l' d hne hne' hd hd' hU hU' h
    have hlen := height_eq hsep empty hne hne' hd hd' hU hU' h
    match l', hne' with
    | [c], _ =>
      rw [root, root] at h
      rw [h]
    | c :: e :: rest, _ =>
      rw [levels, levels] at hlen
      cases hlen
  | case3 a b rest ih =>
    intro l' d hne hne' hd hd' hU hU' h
    have hlen := height_eq hsep empty hne hne' hd hd' hU hU' h
    match l', hne' with
    | [c], _ =>
      rw [levels, levels] at hlen
      cases hlen
    | c :: e :: rest', _ =>
      rw [hashed_cons_cons] at hU hU'
      rw [root, root] at h
      have hup := ih (by simp [pairUp]) (by simp [pairUp])
        (depth_pairUp hd fun p hp => hU p (List.mem_append_left _ hp))
        (depth_pairUp hd' fun p hp => hU' p (List.mem_append_left _ hp))
        (fun p hp => hU p (List.mem_append_right _ hp))
        (fun p hp => hU' p (List.mem_append_right _ hp)) h
      rw [pad_pairUp, pad_pairUp] at hup
      rw [pad, pad]
      refine congrArg unpair (eq_of_map_eq ?_ hup)
      intro p hp q hq hpq
      obtain ⟨h₁, h₂⟩ := hsep.inj (hU p (List.mem_append_left _ (mem_of_mem_pad hp)))
        (hU' q (List.mem_append_left _ (mem_of_mem_pad hq))) hpq
      exact Prod.ext h₁ h₂

/-- **What the root determines**: exactly the padded leaves. -/
theorem root_eq_iff {U : Set (D × D)} {L : Set D} (hsep : Separated node U L) (empty : D)
    {l l' : List D} (hne : l ≠ []) (hne' : l' ≠ []) (hl : ∀ x ∈ l, x ∈ L) (hl' : ∀ x ∈ l', x ∈ L)
    (hU : ∀ p ∈ hashed node l, p ∈ U) (hU' : ∀ p ∈ hashed node l', p ∈ U) :
    root node empty l = root node empty l' ↔ pad D l = pad D l' := by
  constructor
  · exact pad_eq_of_root_eq hsep empty hne hne' (fun x hx => .leaf (hl x hx))
      (fun x hx => .leaf (hl' x hx)) hU hU'
  · intro h
    rw [← root_pad empty l, h, root_pad]

/-- Lists of the same length that are padded alike are the same. -/
theorem eq_of_pad_eq {α : Type} {l l' : List α} (h : pad α l = pad α l')
    (hlen : l.length = l'.length) : l = l' := by
  have h₁ := prefix_pad l
  have h₂ := prefix_pad l'
  rw [h] at h₁
  exact (List.prefix_of_prefix_length_le h₁ h₂ hlen.le).eq_of_length hlen

theorem pad_eq_nil {α : Type} {l : List α} (h : pad α l = []) : l = [] :=
  List.prefix_nil.mp (h ▸ prefix_pad l)

end Trv1Chain.Lib.Merkle
