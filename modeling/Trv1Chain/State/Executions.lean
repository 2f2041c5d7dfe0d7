import Trv1Chain.State.StateDb

/-!
# The transactions of a block, one after the other

`apply_block` is a loop over the database. `executions` lists what it goes through: each
transaction with the database it is executed on. The receipts are read off that list, and so is
every nonce (`nonce_executeAll`): an account's nonce counts the transactions it sent that got past
the checks, whether or not they then succeeded.
-/

set_option autoImplicit false

namespace Trv1Chain

open Lib

namespace StateDb

instance (db : StateDb) (tx : Transaction) : Decidable (db.Ready tx) :=
  inferInstanceAs (Decidable (_ ∧ _ ∧ _))

instance (db : StateDb) (tx : Transaction) : Decidable (db.Fits tx) :=
  inferInstanceAs (Decidable (_ < _))

/-- The transfer passes the checks, and its credit does not fit. -/
def Overflows (db : StateDb) (tx : Transaction) : Prop :=
  db.Ready tx ∧ tx.sender ≠ tx.recipient ∧ ¬ db.Fits tx

instance (db : StateDb) (tx : Transaction) : Decidable (db.Overflows tx) :=
  inferInstanceAs (Decidable (_ ∧ _ ∧ _))

/-- Each transaction of a list with the database it is executed on. -/
def executions (db : StateDb) : List Transaction → List (StateDb × Transaction)
  | [] => []
  | tx :: txs => (db, tx) :: (db.execute tx).1.executions txs

/-- The transactions whose receipts say success, in order. -/
def successful (C : Crates) (db : StateDb) (txs : List Transaction) : List Transaction :=
  ((txs.zip (applyBlock C db txs).2).filter fun x => x.2.success).map (·.1)

/-- The same over a sequence of blocks. -/
def successfulIn (C : Crates) (db : StateDb) (blocks : List (List Transaction)) :
    List Transaction :=
  ((blocks.flatten.zip (applyBlocks C db blocks).2).filter fun x => x.2.success).map (·.1)

/-! ## What a receipt says -/

@[simp] theorem receipt_success (C : Crates) (tx : Transaction) (r : Except StateError Unit) :
    (receipt C tx r).success = r.isOk := by
  cases r <;> rfl

theorem applyBlock_append (C : Crates) (db : StateDb) (txs txs' : List Transaction) :
    applyBlock C db (txs ++ txs') =
      ((applyBlock C (applyBlock C db txs).1 txs').1,
        (applyBlock C db txs).2 ++ (applyBlock C (applyBlock C db txs).1 txs').2) := by
  induction txs generalizing db with
  | nil => rfl
  | cons tx txs ih =>
    show ((applyBlock C (db.execute tx).1 (txs ++ txs')).1, receipt C tx (db.execute tx).2 ::
      (applyBlock C (db.execute tx).1 (txs ++ txs')).2) = _
    rw [ih]
    rfl

/-- Block boundaries make no difference. -/
theorem applyBlocks_eq (C : Crates) (db : StateDb) (blocks : List (List Transaction)) :
    applyBlocks C db blocks = applyBlock C db blocks.flatten := by
  induction blocks generalizing db with
  | nil => rfl
  | cons txs blocks ih =>
    rw [List.flatten_cons, applyBlock_append, ← ih]
    rfl

theorem executeAll_cons (db : StateDb) (tx : Transaction) (txs : List Transaction) :
    db.executeAll (tx :: txs) = (db.execute tx).1.executeAll txs := rfl

theorem executions_cons (db : StateDb) (tx : Transaction) (txs : List Transaction) :
    db.executions (tx :: txs) = (db, tx) :: (db.execute tx).1.executions txs := rfl

theorem map_executions (db : StateDb) (txs : List Transaction) :
    (db.executions txs).map (·.2) = txs := by
  induction txs generalizing db with
  | nil => rfl
  | cons tx txs ih => rw [executions_cons, List.map_cons, ih]

theorem successful_cons (C : Crates) (db : StateDb) (tx : Transaction) (txs : List Transaction) :
    successful C db (tx :: txs) =
      if (db.execute tx).2.isOk then tx :: successful C (db.execute tx).1 txs
      else successful C (db.execute tx).1 txs := by
  show (((tx, receipt C tx (db.execute tx).2) ::
    txs.zip (applyBlock C (db.execute tx).1 txs).2).filter _).map _ = _
  rw [List.filter_cons]
  simp only [receipt_success]
  split <;> rfl

/-- A transaction that passed the checks either succeeds or overflows. -/
theorem Executes.isOk {db db' : StateDb} {tx : Transaction} {r : Except StateError Unit}
    (hx : Executes db tx db' r) : r.isOk = true ↔ db.Ready tx ∧ ¬ db.Overflows tx := by
  cases hx with
  | refused hready _ => simp [hready, Except.isOk, Except.toBool]
  | toSelf hready hself =>
    refine iff_of_true rfl ⟨hready, ?_⟩
    intro hover
    exact hover.2.1 hself
  | paid hready _ hfit =>
    refine iff_of_true rfl ⟨hready, ?_⟩
    intro hover
    exact hover.2.2 hfit
  | lost hready hne hfit =>
    refine iff_of_false (by simp [Except.isOk, Except.toBool]) ?_
    intro h
    exact h.2 ⟨hready, hne, hfit⟩

theorem Executes.overflow_iff {db db' : StateDb} {tx : Transaction} {r : Except StateError Unit}
    (hx : Executes db tx db' r) : r = .error .overflow ↔ db.Overflows tx := by
  cases hx with
  | refused hready he =>
    refine iff_of_false ?_ fun hover => hready hover.1
    intro heq
    exact he (Except.error.inj heq)
  | toSelf hready hself => exact iff_of_false (by simp) fun hover => hover.2.1 hself
  | paid hready _ hfit => exact iff_of_false (by simp) fun hover => hover.2.2 hfit
  | lost hready hne hfit => exact iff_of_true rfl ⟨hready, hne, hfit⟩

/-! ## Nonces -/

/-- **A nonce moves by one when its owner's transaction passes the checks**, and never
otherwise. -/
theorem nonce_execute (db : StateDb) (tx : Transaction) (k : Bytes 32) :
    ((db.execute tx).1.account k).nonce =
      (db.account k).nonce + if tx.sender = k ∧ db.Ready tx then 1 else 0 := by
  have hx := execute_executes db tx
  generalize (db.execute tx).1 = db' at hx ⊢
  generalize (db.execute tx).2 = r at hx
  -- the sender's new account has the next nonce, whatever its balance is
  have hsender : ∀ a : AccountState, db.Ready tx → a.nonce = (db.account tx.sender).nonce + 1 →
      ((db.setAccount tx.sender a).account k).nonce =
        (db.account k).nonce + if tx.sender = k ∧ db.Ready tx then 1 else 0 := by
    intro a hready ha
    by_cases hk : tx.sender = k
    · subst hk
      rw [account_setAccount, if_pos ⟨rfl, hready⟩, ha]
    · rw [account_setAccount_ne db a (Ne.symm hk), if_neg fun h => hk h.1, UInt64.add_zero]
  cases hx with
  | refused hready _ => rw [if_neg fun h => hready h.2, UInt64.add_zero]
  | toSelf hready hself => exact hsender _ hready rfl
  | lost hready hne hfit => exact hsender _ hready rfl
  | paid hready hne hfit =>
    by_cases hk : k = tx.recipient
    · subst hk
      rw [account_setAccount, if_neg fun h => hne h.1, UInt64.add_zero]
    · rw [account_setAccount_ne _ _ hk]
      exact hsender _ hready rfl

/-- Short of the end of the range the step is a step of numbers. -/
theorem toNat_nonce_execute (db : StateDb) (tx : Transaction) {k : Bytes 32}
    (hroom : (db.account k).nonce.toNat + 1 < 2 ^ 64) :
    ((db.execute tx).1.account k).nonce.toNat =
      (db.account k).nonce.toNat + if tx.sender = k ∧ db.Ready tx then 1 else 0 := by
  rw [nonce_execute]
  split
  · exact toNat_add_of_fits hroom
  · rw [UInt64.add_zero, Nat.add_zero]

/-- The transaction was sent by `k` and got past the checks. -/
def Advances (k : Bytes 32) (x : StateDb × Transaction) : Bool :=
  decide (x.2.sender = k ∧ x.1.Ready x.2)

/-- A nonce counts the transactions of its owner that got past the checks. -/
theorem nonce_executeAll (k : Bytes 32) (txs : List Transaction) (db : StateDb) :
    ((db.executeAll txs).account k).nonce =
      (db.account k).nonce + UInt64.ofNat ((db.executions txs).countP (Advances k)) := by
  induction txs generalizing db with
  | nil => simp [executeAll, executions]
  | cons tx txs ih =>
    rw [executeAll_cons, executions_cons, ih, nonce_execute, List.countP_cons, UInt64.add_assoc,
      UInt64.ofNat_add, UInt64.add_comm (UInt64.ofNat _)]
    congr 2
    simp only [Advances, decide_eq_true_eq]
    split <;> rfl

end StateDb

end Trv1Chain
