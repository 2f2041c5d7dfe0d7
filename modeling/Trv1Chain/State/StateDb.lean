import Mathlib.Data.List.Sort
import Trv1Chain.Crates
import Trv1Chain.Lib.HashMap

/-!
# The account database

`runtime/state/src/state_db.rs`. `applyTransfer` answers the database along with the result,
because a transfer that fails is not always a transfer that did nothing: the sender is debited
and its nonce raised before the receiver's credit is tried.

Two databases are the same when they hold the same accounts (`StateDb.Same`); the order in which
the map stores them is nobody's business, and `compute_state_root` sorts it away.
-/

set_option autoImplicit false

namespace Trv1Chain

open Lib

/-- The error's text. -/
def StateError.display : StateError → String
  | .insufficientBalance needed available =>
    s!"insufficient balance: need {needed}, have {available}"
  | .invalidNonce expected got => s!"invalid nonce: expected {expected}, got {got}"
  | .accountNotFound => "account not found"
  | .overflow => "arithmetic overflow"
  | .io message => s!"I/O error: {message}"
  | .json message => s!"JSON error: {message}"

structure StateDb where
  accounts : HashMap (Bytes 32) AccountState

structure TransactionReceipt where
  txHash : Bytes 32
  success : Bool
  feePaid : UInt64
  error : Option String

abbrev AccountOrder := IterOrder (Sigma fun _ : Bytes 32 => AccountState)

namespace StateDb

def new : StateDb := ⟨∅⟩

def getAccount (db : StateDb) (pubkey : Bytes 32) : Option AccountState :=
  db.accounts.lookup pubkey

def setAccount (db : StateDb) (pubkey : Bytes 32) (state : AccountState) : StateDb :=
  ⟨db.accounts.insert pubkey state⟩

/-- An existing account, or a zero-balance one that is created. -/
def getOrCreateAccount (db : StateDb) (pubkey : Bytes 32) : StateDb × AccountState :=
  match db.getAccount pubkey with
  | some account => (db, account)
  | none => (db.setAccount pubkey AccountState.default, AccountState.default)

/-- The last part of a transfer: the receiver's account, created if needed, is credited. -/
def creditReceiver (db : StateDb) (recipient : Bytes 32) (amount : UInt64) :
    StateDb × Except StateError Unit :=
  let (db, receiver) := db.getOrCreateAccount recipient
  match receiver.credit amount with
  | .ok receiver => (db.setAccount recipient receiver, .ok ())
  | .error e => (db, .error e)

/-- Apply a single transfer: validate nonce, debit sender, raise its nonce, credit receiver. -/
def applyTransfer (db : StateDb) (sender recipient : Bytes 32) (amount expectedNonce : UInt64) :
    StateDb × Except StateError Unit :=
  match db.getAccount sender with
  | none => (db, .error .accountNotFound)
  | some account =>
    if account.nonce ≠ expectedNonce then (db, .error (.invalidNonce account.nonce expectedNonce))
    else if account.balance < amount then
      (db, .error (.insufficientBalance amount account.balance))
    else if sender = recipient then (db.setAccount sender account.incrementNonce, .ok ())
    else match account.debit amount with
      | .error e => (db, .error e)
      | .ok account =>
        (db.setAccount sender account.incrementNonce).creditReceiver recipient amount

def hashTransaction (C : Crates) (tx : Transaction) : Bytes 32 := C.sha256 (C.jsonTransaction tx)

def receipt (C : Crates) (tx : Transaction) : Except StateError Unit → TransactionReceipt
  | .ok () => ⟨hashTransaction C tx, true, 0, none⟩
  | .error e => ⟨hashTransaction C tx, false, 0, some e.display⟩

def execute (db : StateDb) (tx : Transaction) : StateDb × Except StateError Unit :=
  db.applyTransfer tx.sender tx.recipient tx.amount tx.nonce

/-- Apply all transactions of a block, with a receipt for each. A failed one reverts nothing. -/
def applyBlock (C : Crates) (db : StateDb) : List Transaction → StateDb × List TransactionReceipt
  | [] => (db, [])
  | tx :: txs =>
    let (db, result) := db.execute tx
    let (db, receipts) := applyBlock C db txs
    (db, receipt C tx result :: receipts)

/-- One call of `apply_block` after the other, with all receipts in order. -/
def applyBlocks (C : Crates) (db : StateDb) :
    List (List Transaction) → StateDb × List TransactionReceipt
  | [] => (db, [])
  | txs :: blocks =>
    let (db, receipts) := applyBlock C db txs
    let (db, receipts') := applyBlocks C db blocks
    (db, receipts ++ receipts')

/-- The accounts in key order. -/
def sortedEntries (it : AccountOrder) (db : StateDb) :
    List (Sigma fun _ : Bytes 32 => AccountState) :=
  (it.enum db.accounts.entries).insertionSort fun a b => a.1.toList ≤ b.1.toList

/-- SHA-256 over the sorted, serialised accounts. -/
def computeStateRoot (C : Crates) (it : AccountOrder) (db : StateDb) : Bytes 32 :=
  C.sha256 ((sortedEntries it db).flatMap fun e => e.1.toList ++ C.jsonAccount e.2)

/-! ## What a transfer does -/

@[simp] theorem getAccount_setAccount (db : StateDb) (k : Bytes 32) (a : AccountState) :
    (db.setAccount k a).getAccount k = some a := AList.lookup_insert _

theorem getAccount_setAccount_ne (db : StateDb) {k k' : Bytes 32} (a : AccountState)
    (h : k' ≠ k) : (db.setAccount k a).getAccount k' = db.getAccount k' :=
  AList.lookup_insert_ne h

theorem isSome_setAccount_eq (db : StateDb) (k k' : Bytes 32) (a : AccountState) :
    ((db.setAccount k' a).getAccount k).isSome = ((db.getAccount k).isSome || decide (k' = k)) := by
  by_cases hk : k = k'
  · subst hk
    rw [getAccount_setAccount]
    simp
  · rw [getAccount_setAccount_ne db a hk]
    simp [Ne.symm hk]

/-- An account, empty when there is none. -/
def account (db : StateDb) (k : Bytes 32) : AccountState :=
  (db.getAccount k).getD AccountState.default

theorem account_setAccount_ne (db : StateDb) {k k' : Bytes 32} (a : AccountState) (h : k' ≠ k) :
    (db.setAccount k a).account k' = db.account k' := by
  unfold account
  rw [getAccount_setAccount_ne db a h]

theorem account_setAccount (db : StateDb) (k : Bytes 32) (a : AccountState) :
    (db.setAccount k a).account k = a := by
  unfold account
  rw [getAccount_setAccount]
  rfl

/-- What a transfer asks of its sender before anything is written. -/
def Ready (db : StateDb) (tx : Transaction) : Prop :=
  (db.getAccount tx.sender).isSome = true ∧ (db.account tx.sender).nonce = tx.nonce ∧
    tx.amount ≤ (db.account tx.sender).balance

/-- The credit of a transfer fits the receiver's 64 bits. -/
def Fits (db : StateDb) (tx : Transaction) : Prop :=
  (db.account tx.recipient).balance.toNat + tx.amount.toNat < 2 ^ 64

/-- Everything that executing a transaction can come to. -/
inductive Executes (db : StateDb) (tx : Transaction) : StateDb → Except StateError Unit → Prop
  | refused {e : StateError} : ¬ db.Ready tx → e ≠ .overflow → Executes db tx db (.error e)
  | toSelf : db.Ready tx → tx.sender = tx.recipient →
      Executes db tx (db.setAccount tx.sender (db.account tx.sender).incrementNonce) (.ok ())
  | paid : db.Ready tx → tx.sender ≠ tx.recipient → db.Fits tx →
      Executes db tx
        ((db.setAccount tx.sender ((db.account tx.sender).charge tx.amount)).setAccount
          tx.recipient { db.account tx.recipient with
            balance := (db.account tx.recipient).balance + tx.amount }) (.ok ())
  /-- The credit fails, and the sender's debit stays. -/
  | lost : db.Ready tx → tx.sender ≠ tx.recipient → ¬ db.Fits tx →
      Executes db tx (db.setAccount tx.sender ((db.account tx.sender).charge tx.amount))
        (.error .overflow)

theorem setAccount_setAccount (db : StateDb) (k : Bytes 32) (a a' : AccountState) :
    (db.setAccount k a).setAccount k a' = db.setAccount k a' := by
  unfold setAccount
  rw [AList.insert_insert]

/-- A credit that fits is stored, in a new account if there was none; one that does not fit finds
an account that was there, since anything fits an empty one. -/
theorem creditReceiver_eq (db : StateDb) (r : Bytes 32) (amount : UInt64) :
    db.creditReceiver r amount =
      if (db.account r).balance.toNat + amount.toNat < 2 ^ 64 then
        (db.setAccount r { db.account r with balance := (db.account r).balance + amount }, .ok ())
      else (db, .error .overflow) := by
  unfold creditReceiver getOrCreateAccount AccountState.credit account
  cases h : db.getAccount r with
  | some a =>
    dsimp only [Option.getD_some]
    by_cases hfit : a.balance.toNat + amount.toNat < 2 ^ 64
    · rw [if_pos hfit, if_pos hfit]
    · rw [if_neg hfit, if_neg hfit]
  | none =>
    have hfit : AccountState.default.balance.toNat + amount.toNat < 2 ^ 64 := by
      have := amount.toNat_lt
      simp only [AccountState.default]
      simpa using this
    dsimp only [Option.getD_none]
    rw [if_pos hfit, if_pos hfit]
    dsimp only
    rw [setAccount_setAccount]

/-- **The list of outcomes is complete.** -/
theorem execute_executes (db : StateDb) (tx : Transaction) :
    Executes db tx (db.execute tx).1 (db.execute tx).2 := by
  unfold execute applyTransfer
  cases hacc : db.getAccount tx.sender with
  | none =>
    refine .refused ?_ (by simp)
    rintro ⟨hsome, -⟩
    rw [hacc] at hsome
    cases hsome
  | some a =>
    have ha : db.account tx.sender = a := by
      unfold account
      rw [hacc]
      rfl
    dsimp only
    split
    · rename_i hn
      refine .refused ?_ (by simp)
      rintro ⟨-, hnonce, -⟩
      exact hn (ha ▸ hnonce)
    rename_i hn
    push Not at hn
    split
    · rename_i hb
      refine .refused ?_ (by simp)
      rintro ⟨-, -, hbal⟩
      rw [ha] at hbal
      exact absurd hbal (UInt64.not_le.mpr hb)
    rename_i hb
    have hready : db.Ready tx := by
      refine ⟨by rw [hacc]; rfl, by rw [ha]; exact hn, ?_⟩
      rw [ha]
      exact UInt64.not_lt.mp hb
    split
    · rename_i hself
      rw [← ha]
      exact .toSelf hready hself
    rename_i hne
    -- the second balance check of `debit` cannot fail any more
    have hdebit : a.debit tx.amount = .ok { a with balance := a.balance - tx.amount } := by
      unfold AccountState.debit
      rw [if_neg hb]
    rw [hdebit]
    dsimp only
    rw [creditReceiver_eq, account_setAccount_ne _ _ (Ne.symm hne), ← ha]
    split
    · rename_i hfit
      exact .paid hready hne hfit
    · rename_i hfit
      exact .lost hready hne hfit

/-! ## What a block leaves -/

/-- The database after a list of transactions, receipts aside. -/
def executeAll (db : StateDb) (txs : List Transaction) : StateDb :=
  txs.foldl (fun db tx => (db.execute tx).1) db

theorem applyBlock_fst (C : Crates) : ∀ (txs : List Transaction) (db : StateDb),
    (applyBlock C db txs).1 = db.executeAll txs
  | [], _ => rfl
  | tx :: txs, db => by
    show (applyBlock C (db.execute tx).1 txs).1 = _
    rw [applyBlock_fst C txs]
    rfl

/-! ## Sameness -/

/-- The two hold the same accounts. -/
def Same (db db' : StateDb) : Prop := ∀ k, db.getAccount k = db'.getAccount k

theorem Same.refl (db : StateDb) : db.Same db := fun _ => rfl

theorem Same.setAccount {db db' : StateDb} (h : db.Same db') (k : Bytes 32) (a : AccountState) :
    (db.setAccount k a).Same (db'.setAccount k a) := by
  intro k'
  by_cases hk : k' = k
  · subst hk
    rw [getAccount_setAccount, getAccount_setAccount]
  · rw [getAccount_setAccount_ne _ _ hk, getAccount_setAccount_ne _ _ hk, h k']

theorem Same.getOrCreateAccount {db db' : StateDb} (h : db.Same db') (k : Bytes 32) :
    (db.getOrCreateAccount k).1.Same (db'.getOrCreateAccount k).1 ∧
      (db.getOrCreateAccount k).2 = (db'.getOrCreateAccount k).2 := by
  unfold StateDb.getOrCreateAccount
  rw [h k]
  cases db'.getAccount k with
  | some a => exact ⟨h, rfl⟩
  | none => exact ⟨h.setAccount k _, rfl⟩

theorem Same.creditReceiver {db db' : StateDb} (h : db.Same db') (k : Bytes 32)
    (amount : UInt64) : (db.creditReceiver k amount).1.Same (db'.creditReceiver k amount).1 := by
  unfold StateDb.creditReceiver
  obtain ⟨hdb, hacc⟩ := h.getOrCreateAccount k
  dsimp only
  rw [hacc]
  cases ((db'.getOrCreateAccount k).2).credit amount with
  | ok a => exact hdb.setAccount k a
  | error e => exact hdb

theorem Same.execute {db db' : StateDb} (h : db.Same db') (tx : Transaction) :
    (db.execute tx).1.Same (db'.execute tx).1 := by
  unfold StateDb.execute applyTransfer
  rw [h tx.sender]
  cases db'.getAccount tx.sender with
  | none => exact h
  | some account =>
    dsimp only
    split
    · exact h
    split
    · exact h
    split
    · exact h.setAccount _ _
    cases account.debit tx.amount with
    | error e => exact h
    | ok account => exact (h.setAccount _ _).creditReceiver _ _

/-- **A block takes same databases to same databases.** -/
theorem Same.executeAll {db db' : StateDb} (h : db.Same db') (txs : List Transaction) :
    (db.executeAll txs).Same (db'.executeAll txs) := by
  induction txs generalizing db db' with
  | nil => exact h
  | cons tx txs ih => exact ih (h.execute tx)

theorem Same.perm {db db' : StateDb} (h : db.Same db') :
    db.accounts.entries.Perm db'.accounts.entries := by
  rw [List.perm_ext_iff_of_nodup db.accounts.nodupKeys.nodup db'.accounts.nodupKeys.nodup]
  rintro ⟨k, a⟩
  have hmem : ∀ m : HashMap (Bytes 32) AccountState,
      (⟨k, a⟩ : Sigma fun _ : Bytes 32 => AccountState) ∈ m.entries ↔ m.lookup k = some a :=
    fun m => AList.mem_lookup_iff.symm
  rw [hmem, hmem]
  show db.getAccount k = some a ↔ db'.getAccount k = some a
  rw [h k]

/-- The sorted accounts do not depend on how the map stores or enumerates them. -/
theorem Same.sortedEntries {db db' : StateDb} (h : db.Same db') (it it' : AccountOrder) :
    StateDb.sortedEntries it db = StateDb.sortedEntries it' db' := by
  have hperm : (it.enum db.accounts.entries).Perm (it'.enum db'.accounts.entries) :=
    (it.perm _).trans (h.perm.trans (it'.perm _).symm)
  refine List.Perm.eq_of_pairwise ?_ (List.pairwise_insertionSort _ _)
    (List.pairwise_insertionSort _ _)
    ((List.perm_insertionSort _ _).trans (hperm.trans (List.perm_insertionSort _ _).symm))
  -- two entries that sort both ways have one key, and a key has one entry
  intro a b ha hb hab hba
  have hkey : a.1 = b.1 := Bytes.toList_inj (List.le_antisymm hab hba)
  have ha : a ∈ db.accounts.entries := it.mem_enum.mp ((List.mem_insertionSort _).mp ha)
  have hb : b ∈ db'.accounts.entries := it'.mem_enum.mp ((List.mem_insertionSort _).mp hb)
  have hla : db.accounts.lookup a.1 = some a.2 := AList.mem_lookup_iff.mpr ha
  have hlb : db'.accounts.lookup b.1 = some b.2 := AList.mem_lookup_iff.mpr hb
  have hsame : db.accounts.lookup a.1 = db'.accounts.lookup a.1 := h a.1
  rw [hla, hkey, hlb] at hsame
  exact Sigma.ext hkey (heq_of_eq (Option.some.inj hsame))

theorem Same.computeStateRoot (C : Crates) {db db' : StateDb} (h : db.Same db')
    (it it' : AccountOrder) :
    StateDb.computeStateRoot C it db = StateDb.computeStateRoot C it' db' := by
  unfold StateDb.computeStateRoot
  rw [h.sortedEntries it it']

end StateDb

end Trv1Chain
