import Trv1Chain.Bft.Block

/-!
# What a Merkle root says about the transactions

The tree pairs an odd node with itself, so a list of three transactions and the same list with its
last one repeated have one root. What the root does determine are the transactions as the tree sees
them, with everything it writes twice written out (`Merkle.pad`); so, among lists of one length, the
list.
-/

set_option autoImplicit false

namespace Trv1Chain

open Lib

namespace Block

variable (C : Crates)

/-- The byte strings whose SHA-256 the root of a list is made of. -/
def bodyPreimages (transactions : List Transaction) : Set (List UInt8) :=
  { s | (∃ tx ∈ transactions, s = C.bincodeTransaction tx) ∨
    ∃ p ∈ Merkle.hashed (nodeHash C) (leaves C transactions), s = nodePreimage p.1 p.2 }

/-- SHA-256 and bincode tell apart all that goes into the two roots. A transaction's encoding is
never as short as the 64 bytes of a Merkle node. -/
structure BodiesApart (l₁ l₂ : List Transaction) : Prop where
  transaction : ∀ tx₁ ∈ l₁, ∀ tx₂ ∈ l₂,
    C.bincodeTransaction tx₁ = C.bincodeTransaction tx₂ → tx₁ = tx₂
  length : ∀ tx, tx ∈ l₁ ∨ tx ∈ l₂ → (C.bincodeTransaction tx).length ≠ 64
  sha256 : C.CollisionFree (bodyPreimages C l₁ ∪ bodyPreimages C l₂)

variable {C} {l₁ l₂ : List Transaction}

theorem length_nodePreimage (l r : Bytes 32) : (nodePreimage l r).length = 64 := by
  simp [nodePreimage]

theorem nodePreimage_inj {a b c d : Bytes 32} (h : nodePreimage a b = nodePreimage c d) :
    a = c ∧ b = d := by
  unfold nodePreimage at h
  obtain ⟨hac, hbd⟩ := List.append_inj h (by simp)
  exact ⟨Bytes.toList_inj hac, Bytes.toList_inj hbd⟩

/-- The leaves and the hashed pairs of the two trees. -/
theorem BodiesApart.separated (h : BodiesApart C l₁ l₂) :
    Merkle.Separated (nodeHash C)
      { p | p ∈ Merkle.hashed (nodeHash C) (leaves C l₁) ∨
        p ∈ Merkle.hashed (nodeHash C) (leaves C l₂) }
      { x | x ∈ leaves C l₁ ∨ x ∈ leaves C l₂ } := by
  have hnode : ∀ {a b}, ((a, b) ∈ Merkle.hashed (nodeHash C) (leaves C l₁) ∨
      (a, b) ∈ Merkle.hashed (nodeHash C) (leaves C l₂)) →
      nodePreimage a b ∈ bodyPreimages C l₁ ∪ bodyPreimages C l₂ := by
    intro a b hab
    cases hab with
    | inl hab => exact Or.inl (Or.inr ⟨(a, b), hab, rfl⟩)
    | inr hab => exact Or.inr (Or.inr ⟨(a, b), hab, rfl⟩)
  constructor
  · intro a b c d hab hcd heq
    exact nodePreimage_inj (h.sha256 (hnode hab) (hnode hcd) heq)
  · intro x a b hx hab heq
    -- a leaf that is a node would be a transaction's encoding of 64 bytes
    have hleaf : ∃ tx, (tx ∈ l₁ ∨ tx ∈ l₂) ∧ C.sha256 (C.bincodeTransaction tx) = x ∧
        C.bincodeTransaction tx ∈ bodyPreimages C l₁ ∪ bodyPreimages C l₂ := by
      rcases hx with hx | hx
      · obtain ⟨tx, htx, rfl⟩ := List.mem_map.mp hx
        exact ⟨tx, Or.inl htx, rfl, Or.inl (Or.inl ⟨tx, htx, rfl⟩)⟩
      · obtain ⟨tx, htx, rfl⟩ := List.mem_map.mp hx
        exact ⟨tx, Or.inr htx, rfl, Or.inr (Or.inl ⟨tx, htx, rfl⟩)⟩
    obtain ⟨tx, htx, rfl, hpre⟩ := hleaf
    have henc := h.sha256 hpre (hnode hab) heq
    apply h.length tx htx
    rw [henc, length_nodePreimage]

/-- A leaf determines its transaction. -/
theorem BodiesApart.leaf_inj (h : BodiesApart C l₁ l₂) {tx₁ tx₂ : Transaction} (h₁ : tx₁ ∈ l₁)
    (h₂ : tx₂ ∈ l₂)
    (heq : C.sha256 (C.bincodeTransaction tx₁) = C.sha256 (C.bincodeTransaction tx₂)) :
    tx₁ = tx₂ := by
  refine h.transaction tx₁ h₁ tx₂ h₂ (h.sha256 ?_ ?_ heq)
  · exact Or.inl (Or.inl ⟨tx₁, h₁, rfl⟩)
  · exact Or.inr (Or.inl ⟨tx₂, h₂, rfl⟩)

theorem computeTxMerkleRoot_of_ne_nil {l : List Transaction} (hne : l ≠ []) :
    computeTxMerkleRoot C l = Merkle.root (nodeHash C) (Bytes.fill 32 0) (leaves C l) := by
  unfold computeTxMerkleRoot
  rw [if_neg (by simpa using hne)]

theorem leaves_ne_nil {l : List Transaction} (hne : l ≠ []) : leaves C l ≠ [] := by
  simpa [leaves] using hne

/-- The root of transactions is a digest of one of the strings. -/
theorem exists_preimage_root {l : List Transaction} (hne : l ≠ []) :
    ∃ s ∈ bodyPreimages C l, computeTxMerkleRoot C l = C.sha256 s := by
  rw [computeTxMerkleRoot_of_ne_nil hne]
  have hdepth : Merkle.Depth (nodeHash C)
      { p | p ∈ Merkle.hashed (nodeHash C) (leaves C l) } { x | x ∈ leaves C l } _ _ :=
    Merkle.depth_root (d := 0) (Bytes.fill 32 0) (leaves_ne_nil hne) (fun _ hx => .leaf hx)
      fun _ hp => hp
  generalize Merkle.root (nodeHash C) (Bytes.fill 32 0) (leaves C l) = r at hdepth ⊢
  generalize 0 + (Merkle.levels (nodeHash C) (leaves C l)).length = n at hdepth
  cases hdepth with
  | leaf hx =>
    obtain ⟨tx, htx, rfl⟩ := List.mem_map.mp hx
    exact ⟨_, Or.inl ⟨tx, htx, rfl⟩, rfl⟩
  | node hab _ _ => exact ⟨_, Or.inr ⟨_, hab, rfl⟩, rfl⟩

theorem pad_leaves (l : List Transaction) :
    Merkle.pad (Bytes 32) (leaves C l) = leaves C (Merkle.pad Transaction l) :=
  Merkle.pad_map l _

/-- **What the root says.** Two lists have one root exactly if the tree sees them alike, with all
that it writes twice written out. Lists of one length with one root are the same. -/
theorem merkle_root_iff (h : BodiesApart C l₁ l₂)
    (hzero : ∀ s ∈ bodyPreimages C l₁ ∪ bodyPreimages C l₂, C.sha256 s ≠ Bytes.fill 32 0) :
    (computeTxMerkleRoot C l₁ = computeTxMerkleRoot C l₂ ↔
      Merkle.pad Transaction l₁ = Merkle.pad Transaction l₂) ∧
    (l₁.length = l₂.length → computeTxMerkleRoot C l₁ = computeTxMerkleRoot C l₂ → l₁ = l₂) := by
  have hiff : computeTxMerkleRoot C l₁ = computeTxMerkleRoot C l₂ ↔
      Merkle.pad Transaction l₁ = Merkle.pad Transaction l₂ := by
    -- an empty list is told from another by its all-zero root
    by_cases he₁ : l₁ = []
    · by_cases he₂ : l₂ = []
      · rw [he₁, he₂]
        exact iff_of_true rfl rfl
      · obtain ⟨s, hs, hroot⟩ := exists_preimage_root (C := C) he₂
        subst he₁
        refine iff_of_false (fun heq => hzero s (Or.inr hs) ?_) fun heq => he₂ ?_
        · exact hroot.symm.trans heq.symm
        · rw [Merkle.pad] at heq
          exact Merkle.pad_eq_nil heq.symm
    by_cases he₂ : l₂ = []
    · obtain ⟨s, hs, hroot⟩ := exists_preimage_root (C := C) he₁
      subst he₂
      refine iff_of_false (fun heq => hzero s (Or.inl hs) ?_) fun heq => he₁ ?_
      · exact hroot.symm.trans heq
      · rw [Merkle.pad.eq_1] at heq
        exact Merkle.pad_eq_nil heq
    rw [computeTxMerkleRoot_of_ne_nil he₁, computeTxMerkleRoot_of_ne_nil he₂,
      Merkle.root_eq_iff h.separated _ (leaves_ne_nil he₁) (leaves_ne_nil he₂)
        (fun _ => Or.inl) (fun _ => Or.inr) (fun _ => Or.inl) (fun _ => Or.inr),
      pad_leaves, pad_leaves]
    constructor
    · refine Merkle.eq_of_map_eq ?_
      intro tx₁ h₁ tx₂ h₂ heq
      exact h.leaf_inj (Merkle.mem_of_mem_pad h₁) (Merkle.mem_of_mem_pad h₂) heq
    · exact congrArg _
  exact ⟨hiff, fun hlen heq => Merkle.eq_of_pad_eq (hiff.mp heq) hlen⟩

/-! ## A list and the same list with its last transaction repeated -/

def payment (b : UInt8) : Transaction := ⟨Crates.sampleKey b, Crates.sampleKey 9, 10, 0, [], []⟩

def oddBody : List Transaction := [payment 1, payment 2, payment 3]

def evenBody : List Transaction := [payment 1, payment 2, payment 3, payment 3]

/-- What is hashed for either list: three transactions, the two pairs of leaves and the pair of
these. -/
def oddPreimages (C : Crates) : List (List UInt8) :=
  let leaf := fun b => C.sha256 (C.bincodeTransaction (payment b))
  [C.bincodeTransaction (payment 1), C.bincodeTransaction (payment 2),
    C.bincodeTransaction (payment 3),
    nodePreimage (leaf 1) (leaf 2), nodePreimage (leaf 3) (leaf 3),
    nodePreimage (nodeHash C (leaf 1) (leaf 2)) (nodeHash C (leaf 3) (leaf 3))]

theorem bodyPreimages_oddBody (C : Crates) {s : List UInt8}
    (h : s ∈ bodyPreimages C oddBody ∪ bodyPreimages C evenBody) : s ∈ oddPreimages C := by
  rcases h with (⟨tx, htx, rfl⟩ | ⟨p, hp, rfl⟩) | (⟨tx, htx, rfl⟩ | ⟨p, hp, rfl⟩)
  · simp only [oddBody, List.mem_cons, List.not_mem_nil, or_false] at htx
    rcases htx with rfl | rfl | rfl <;> simp [oddPreimages]
  · simp only [Merkle.hashed, leaves, oddBody, Merkle.levels, Merkle.pairUp, Merkle.pairs,
      List.map_cons, List.map_nil, List.flatMap_cons, List.flatMap_nil, List.cons_append,
      List.nil_append, List.mem_cons, List.not_mem_nil, or_false] at hp
    rcases hp with rfl | rfl | rfl <;> simp [oddPreimages]
  · simp only [evenBody, List.mem_cons, List.not_mem_nil, or_false] at htx
    rcases htx with rfl | rfl | rfl | rfl <;> simp [oddPreimages]
  · simp only [Merkle.hashed, leaves, evenBody, Merkle.levels, Merkle.pairUp, Merkle.pairs,
      List.map_cons, List.map_nil, List.flatMap_cons, List.flatMap_nil, List.cons_append,
      List.nil_append, List.mem_cons, List.not_mem_nil, or_false] at hp
    rcases hp with rfl | rfl | rfl <;> simp [oddPreimages]

theorem oddBody_apart : BodiesApart Crates.sample oddBody evenBody where
  transaction := by decide +kernel
  length := by
    intro tx htx
    have hmem : tx ∈ evenBody := by
      simp only [oddBody, evenBody, List.mem_cons, List.not_mem_nil, or_false] at htx ⊢
      tauto
    have hall : ∀ tx ∈ evenBody, (Crates.sample.bincodeTransaction tx).length ≠ 64 := by
      decide +kernel
    exact hall tx hmem
  sha256 := by
    intro s hs s' hs' heq
    have hall : ∀ s ∈ oddPreimages Crates.sample, ∀ s' ∈ oddPreimages Crates.sample,
        Crates.sample.sha256 s = Crates.sample.sha256 s' → s = s' := by
      decide +kernel
    exact hall s (bodyPreimages_oddBody _ hs) s' (bodyPreimages_oddBody _ hs') heq

theorem oddBody_nonzero : ∀ s ∈ bodyPreimages Crates.sample oddBody ∪
    bodyPreimages Crates.sample evenBody, Crates.sample.sha256 s ≠ Bytes.fill 32 0 := by
  intro s hs
  have hall : ∀ s ∈ oddPreimages Crates.sample, Crates.sample.sha256 s ≠ Bytes.fill 32 0 := by
    decide +kernel
  exact hall s (bodyPreimages_oddBody _ hs)

theorem pad_oddBody : Merkle.pad Transaction oddBody = Merkle.pad Transaction evenBody := by
  simp [oddBody, evenBody, Merkle.pad, Merkle.pairs]

theorem merkle_root_iff_odd :
    computeTxMerkleRoot Crates.sample oddBody = computeTxMerkleRoot Crates.sample evenBody :=
  (merkle_root_iff oddBody_apart oddBody_nonzero).1.mpr pad_oddBody

/-- Two lists of different lengths have one root, whatever the hash. -/
theorem merkle_root_repeated :
    oddBody ≠ evenBody ∧ BodiesApart Crates.sample oddBody evenBody ∧
      (∀ s ∈ bodyPreimages Crates.sample oddBody ∪ bodyPreimages Crates.sample evenBody,
        Crates.sample.sha256 s ≠ Bytes.fill 32 0) ∧
      ∀ C : Crates, computeTxMerkleRoot C oddBody = computeTxMerkleRoot C evenBody := by
  refine ⟨by decide +kernel, oddBody_apart, oddBody_nonzero, ?_⟩
  intro C
  rw [computeTxMerkleRoot_of_ne_nil (by decide), computeTxMerkleRoot_of_ne_nil (by decide),
    ← Merkle.root_pad, pad_leaves, pad_oddBody, ← pad_leaves, Merkle.root_pad]

end Block

end Trv1Chain
