import Mathlib.Algebra.BigOperators.Group.List.Basic
import Trv1Chain.State.Executions

/-!
# Transfers in another order

What a block of successful transfers leaves has a closed form: each account has gained what it was
sent and lost what it sent, its nonce counts its own transactions, and an account is there if it was
there or was sent something. In 64-bit words, which wrap, gains and losses form a group, so the
closed form does not see the order of the block.

Nothing is asked of the two orders but that both succeed. That a sender's own transactions keep
their order then follows from their nonces, and is not used.
-/

set_option autoImplicit false

namespace Trv1Chain

open Lib

/-- What a successful transaction adds to the balance of `k`, in 64 bits. -/
def Transaction.change (tx : Transaction) (k : Bytes 32) : UInt64 :=
  (if k = tx.recipient then tx.amount else 0) - if k = tx.sender then tx.amount else 0

namespace StateDb

/-! ## One transaction -/

/-- What a successful transaction does to each account. -/
structure Transfers (db : StateDb) (tx : Transaction) (db' : StateDb) : Prop where
  balance : ∀ k, (db'.account k).balance = (db.account k).balance + tx.change k
  nonce : ∀ k, (db'.account k).nonce = (db.account k).nonce + if tx.sender = k then 1 else 0
  held : ∀ k, (db'.getAccount k).isSome = ((db.getAccount k).isSome || decide (tx.recipient = k))

theorem balance_toSelf {db : StateDb} {tx : Transaction} (hself : tx.sender = tx.recipient)
    (k : Bytes 32) :
    ((db.setAccount tx.sender (db.account tx.sender).incrementNonce).account k).balance =
      (db.account k).balance + tx.change k := by
  unfold Transaction.change
  rw [← hself, UInt64.sub_self, UInt64.add_zero]
  by_cases hk : k = tx.sender
  · rw [hk, account_setAccount]
    rfl
  · rw [account_setAccount_ne db _ hk]

theorem balance_paid {db : StateDb} {tx : Transaction} (hne : tx.sender ≠ tx.recipient)
    (k : Bytes 32) :
    (((db.setAccount tx.sender ((db.account tx.sender).charge tx.amount)).setAccount tx.recipient
      { db.account tx.recipient with
        balance := (db.account tx.recipient).balance + tx.amount }).account k).balance =
      (db.account k).balance + tx.change k := by
  unfold Transaction.change
  by_cases hr : k = tx.recipient
  · rw [hr, account_setAccount, if_pos rfl, if_neg (Ne.symm hne), UInt64.sub_zero]
  · rw [account_setAccount_ne _ _ hr, if_neg hr, UInt64.zero_sub, ← UInt64.sub_eq_add_neg]
    by_cases hs : k = tx.sender
    · rw [hs, account_setAccount, if_pos rfl]
      rfl
    · rw [account_setAccount_ne _ _ hs, if_neg hs, UInt64.sub_zero]

theorem execute_transfers {db : StateDb} {tx : Transaction}
    (hok : (db.execute tx).2.isOk = true) : Transfers db tx (db.execute tx).1 := by
  have hx := execute_executes db tx
  have hready := (hx.isOk.mp hok).1
  have hnonce : ∀ k, ((db.execute tx).1.account k).nonce =
      (db.account k).nonce + if tx.sender = k then 1 else 0 := by
    intro k
    rw [nonce_execute]
    simp only [hready, and_true]
  -- the sender's account was there before
  have hsender : ∀ k, ((db.getAccount k).isSome || decide (tx.sender = k)) =
      (db.getAccount k).isSome := by
    intro k
    by_cases hk : tx.sender = k
    · rw [← hk, hready.1, Bool.true_or]
    · simp [hk]
  generalize (db.execute tx).1 = db' at hx hnonce ⊢
  generalize (db.execute tx).2 = r at hx hok
  cases hx with
  | refused hnot _ => exact absurd hready hnot
  | toSelf _ hself =>
    refine ⟨balance_toSelf hself, hnonce, fun k => ?_⟩
    rw [isSome_setAccount_eq, ← hself]
  | paid _ hne _ =>
    refine ⟨balance_paid hne, hnonce, fun k => ?_⟩
    rw [isSome_setAccount_eq, isSome_setAccount_eq, hsender]
  | lost _ _ _ => cases hok

/-! ## A block -/

/-- **The closed form.** What a block of successful transactions leaves. -/
structure Settles (db : StateDb) (txs : List Transaction) (db' : StateDb) : Prop where
  balance : ∀ k, (db'.account k).balance =
    (db.account k).balance + (txs.map fun tx => tx.change k).sum
  nonce : ∀ k, (db'.account k).nonce =
    (db.account k).nonce + (txs.map fun tx => if tx.sender = k then 1 else 0).sum
  held : ∀ k, (db'.getAccount k).isSome =
    ((db.getAccount k).isSome || txs.any fun tx => decide (tx.recipient = k))

theorem settles_nil (db : StateDb) : Settles db [] db :=
  ⟨fun _ => (UInt64.add_zero _).symm, fun _ => (UInt64.add_zero _).symm,
    fun _ => (Bool.or_false _).symm⟩

theorem Transfers.settles {db db₁ db₂ : StateDb} {tx : Transaction} {txs : List Transaction}
    (h : Transfers db tx db₁) (h' : Settles db₁ txs db₂) : Settles db (tx :: txs) db₂ := by
  refine ⟨fun k => ?_, fun k => ?_, fun k => ?_⟩
  · rw [h'.balance, h.balance, List.map_cons, List.sum_cons, UInt64.add_assoc]
  · rw [h'.nonce, h.nonce, List.map_cons, List.sum_cons, UInt64.add_assoc]
  · rw [h'.held, h.held, List.any_cons, Bool.or_assoc]

/-- All receipts say success. -/
def AllSucceed (C : Crates) (db : StateDb) (txs : List Transaction) : Prop :=
  ∀ r ∈ (applyBlock C db txs).2, r.success = true

theorem AllSucceed.settles {C : Crates} {txs : List Transaction} {db : StateDb}
    (h : AllSucceed C db txs) : Settles db txs (applyBlock C db txs).1 := by
  induction txs generalizing db with
  | nil => exact settles_nil db
  | cons tx txs ih =>
    obtain ⟨hhead, htail⟩ := List.forall_mem_cons.mp h
    rw [receipt_success] at hhead
    exact (execute_transfers hhead).settles (ih htail)

theorem Settles.perm {db db' : StateDb} {txs txs' : List Transaction} (hperm : txs.Perm txs')
    (h : Settles db txs db') : Settles db txs' db' := by
  refine ⟨fun k => ?_, fun k => ?_, fun k => ?_⟩
  · rw [h.balance, (hperm.map _).sum_eq]
  · rw [h.nonce, (hperm.map _).sum_eq]
  · rw [h.held, hperm.any_eq]

/-- The closed form determines the accounts. -/
theorem Settles.same {db db₁ db₂ : StateDb} {txs : List Transaction} (h₁ : Settles db txs db₁)
    (h₂ : Settles db txs db₂) : db₁.Same db₂ := by
  intro k
  have haccount : db₁.account k = db₂.account k := by
    have hbalance := (h₁.balance k).trans (h₂.balance k).symm
    have hnonce := (h₁.nonce k).trans (h₂.nonce k).symm
    cases h : db₁.account k
    cases h' : db₂.account k
    rw [h, h'] at hbalance hnonce
    exact congrArg₂ AccountState.mk hbalance hnonce
  have hheld := (h₁.held k).trans (h₂.held k).symm
  unfold account at haccount
  cases h : db₁.getAccount k with
  | none => cases h' : db₂.getAccount k with
    | none => rfl
    | some a => rw [h, h'] at hheld; cases hheld
  | some a => cases h' : db₂.getAccount k with
    | none => rw [h, h'] at hheld; cases hheld
    | some a' =>
      rw [h, h'] at haccount
      exact congrArg some haccount

/-- **Transfers commute.** Two orders of the same transactions that both succeed throughout leave
the same accounts, and so the same state root. -/
theorem transfers_commute (C : Crates) {db : StateDb} {txs txs' : List Transaction}
    (hperm : txs.Perm txs') (h : AllSucceed C db txs) (h' : AllSucceed C db txs') :
    (applyBlock C db txs).1.Same (applyBlock C db txs').1 ∧
      ∀ it it', computeStateRoot C it (applyBlock C db txs).1 =
        computeStateRoot C it' (applyBlock C db txs').1 := by
  have hsame := (h.settles.perm hperm).same h'.settles
  exact ⟨hsame, hsame.computeStateRoot C⟩

/-- Two accounts that pay each other, a third, and themselves. -/
def payers : StateDb :=
  (StateDb.new.setAccount (Bytes.fill 32 1) (AccountState.new 10)).setAccount (Bytes.fill 32 2)
    (AccountState.new 20)

def pays (sender recipient : UInt8) (amount nonce : UInt64) : Transaction :=
  ⟨Bytes.fill 32 sender, Bytes.fill 32 recipient, amount, nonce, [], []⟩

theorem transfers_commute_payers :
    (applyBlock Crates.sample payers
        [pays 1 2 4 0, pays 2 3 9 0, pays 1 1 5 1, pays 2 1 3 1]).1.Same
      (applyBlock Crates.sample payers
        [pays 2 3 9 0, pays 2 1 3 1, pays 1 2 4 0, pays 1 1 5 1]).1 :=
  (transfers_commute Crates.sample (by decide) (by unfold AllSucceed; decide +kernel)
    (by unfold AllSucceed; decide +kernel)).1

end StateDb

end Trv1Chain
