import Trv1Chain.Lib.Framing
import Trv1Chain.State.StateDb

/-!
# What a state root says

`compute_state_root` hashes the accounts one after the other, in key order, with nothing between
them: 32 bytes of a key, then the account as JSON. A key has a fixed length, and the JSON of an
account ends in the only brace that closes it, after digits. So the text can be taken apart, and
where SHA-256 keeps two texts apart the roots are equal exactly if the databases are the same.
-/

set_option autoImplicit false

namespace Trv1Chain

open Lib

/-- serde_json renders an account as its two fields in decimal, without white space. -/
def Crates.RendersAccounts (C : Crates) : Prop :=
  ∀ a : AccountState, C.jsonAccount a =
    Crates.jsonObject
      [Crates.jsonField ['b', 'a', 'l', 'a', 'n', 'c', 'e'] (decimal a.balance.toNat),
       Crates.jsonField ['n', 'o', 'n', 'c', 'e'] (decimal a.nonce.toNat)]

theorem Crates.sample_rendersAccounts : Crates.sample.RendersAccounts := fun _ => rfl

/-- Up to the balance, and from there to the nonce. -/
def Crates.balanceText : List UInt8 :=
  123 :: 34 :: (ascii ['b', 'a', 'l', 'a', 'n', 'c', 'e'] ++ [34, 58])

def Crates.nonceText : List UInt8 := 34 :: (ascii ['n', 'o', 'n', 'c', 'e'] ++ [34, 58])

theorem Crates.RendersAccounts.eq {C : Crates} (h : C.RendersAccounts) (a : AccountState) :
    C.jsonAccount a = (balanceText ++ (decimal a.balance.toNat ++ [44])) ++
      (nonceText ++ (decimal a.nonce.toNat ++ [125])) := by
  rw [h]
  simp [jsonObject, jsonField, balanceText, nonceText, List.intercalate]

theorem Crates.RendersAccounts.framed {C : Crates} (h : C.RendersAccounts) :
    Framed C.jsonAccount := by
  have hfields := ((framed_word (t := 44) (by decide)).after balanceText).pair
    ((framed_word (t := 125) (by decide)).after nonceText)
  have hinj : Function.Injective fun a : AccountState => (a.balance, a.nonce) := by
    rintro ⟨b, n⟩ ⟨b', n'⟩ heq
    obtain ⟨rfl, rfl⟩ := Prod.mk.inj heq
    rfl
  intro a b l l' heq
  rw [h.eq, h.eq] at heq
  exact hfields.comp hinj heq

namespace StateDb

/-- What is hashed. -/
def rootText (C : Crates) (it : AccountOrder) (db : StateDb) : List UInt8 :=
  (sortedEntries it db).flatMap fun e => e.1.toList ++ C.jsonAccount e.2

theorem framed_entry {C : Crates} (h : C.RendersAccounts) :
    Framed fun e : Sigma fun _ : Bytes 32 => AccountState => e.1.toList ++ C.jsonAccount e.2 := by
  have hinj : Function.Injective fun e : Sigma fun _ : Bytes 32 => AccountState => (e.1, e.2) := by
    rintro ⟨k, a⟩ ⟨k', a'⟩ heq
    obtain ⟨rfl, rfl⟩ := Prod.mk.inj heq
    rfl
  exact ((framed_bytes 32).pair h.framed).comp hinj

/-- The hashed text determines the sorted accounts. -/
theorem sortedEntries_of_rootText {C : Crates} (h : C.RendersAccounts) {db db' : StateDb}
    {it it' : AccountOrder} (heq : rootText C it db = rootText C it' db') :
    sortedEntries it db = sortedEntries it' db' := by
  refine (framed_entry h).flatMap_inj ?_ heq
  intro e hnil
  have hkey := congrArg List.length (List.append_eq_nil_iff.mp hnil).1
  rw [List.Vector.toList_length] at hkey
  cases hkey

/-- The sorted accounts determine the database. -/
theorem same_of_sortedEntries {db db' : StateDb} {it it' : AccountOrder}
    (h : sortedEntries it db = sortedEntries it' db') : db.Same db' := by
  have hperm : ∀ (it : AccountOrder) (db : StateDb),
      (sortedEntries it db).Perm db.accounts.entries :=
    fun it db => (List.perm_insertionSort _ _).trans (it.perm _)
  have hentries : db.accounts.entries.Perm db'.accounts.entries :=
    (hperm it db).symm.trans (h ▸ hperm it' db')
  intro k
  exact List.perm_dlookup k db.accounts.nodupKeys hentries

/-- **The state root determines the state.** Where SHA-256 does not confuse the two texts, two
databases have one root exactly if they hold the same accounts, in whatever order each is stored
and enumerated. -/
theorem state_root_iff {C : Crates} (hjson : C.RendersAccounts) {db db' : StateDb}
    {it it' : AccountOrder}
    (hsha : C.CollisionFree {rootText C it db, rootText C it' db'}) :
    computeStateRoot C it db = computeStateRoot C it' db' ↔ db.Same db' := by
  constructor
  · intro hroot
    have htext : rootText C it db = rootText C it' db' :=
      hsha (Set.mem_insert _ _) (Set.mem_insert_of_mem _ rfl) hroot
    exact same_of_sortedEntries (sortedEntries_of_rootText hjson htext)
  · intro hsame
    exact hsame.computeStateRoot C it it'

/-- Two accounts, set in one order and in the other. -/
def twoAccounts (first second : UInt8) : StateDb :=
  (StateDb.new.setAccount (Bytes.fill 32 first) ⟨12, 3⟩).setAccount (Bytes.fill 32 second) ⟨12, 3⟩

theorem state_root_iff_orders :
    (computeStateRoot Crates.sample IterOrder.stored (twoAccounts 1 2) =
        computeStateRoot Crates.sample IterOrder.stored (twoAccounts 2 1) ↔
      (twoAccounts 1 2).Same (twoAccounts 2 1)) ∧
    (computeStateRoot Crates.sample IterOrder.stored (twoAccounts 1 2) =
        computeStateRoot Crates.sample IterOrder.stored (twoAccounts 1 3) ↔
      (twoAccounts 1 2).Same (twoAccounts 1 3)) := by
  have hfree : ∀ db db' : StateDb,
      (rootText Crates.sample IterOrder.stored db = rootText Crates.sample IterOrder.stored db' ∨
        computeStateRoot Crates.sample IterOrder.stored db ≠
          computeStateRoot Crates.sample IterOrder.stored db') →
      Crates.sample.CollisionFree {rootText Crates.sample IterOrder.stored db,
        rootText Crates.sample IterOrder.stored db'} := by
    rintro db db' h
    refine Set.injOn_pair.mpr fun hroot => ?_
    exact h.resolve_right fun hne => hne hroot
  exact ⟨state_root_iff Crates.sample_rendersAccounts (hfree _ _ (Or.inl (by decide +kernel))),
    state_root_iff Crates.sample_rendersAccounts (hfree _ _ (Or.inr (by decide +kernel)))⟩

end StateDb

end Trv1Chain
