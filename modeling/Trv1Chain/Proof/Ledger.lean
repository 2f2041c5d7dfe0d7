import Trv1Chain.State.Executions

/-!
# The ledger under a block

Three laws of `apply_block`, each over any list of transactions.

While the balances together fit 64 bits, no credit can fail, every transfer is exact and the
supply stays (`supply_conserved`). Beyond that a credit can fail after the debit was written, and
this is the only failure that leaves a trace (`failures_leave_no_trace`). Nonces are safe in
either case: they count what the sender got past the checks, so no transaction runs twice
(`replay_protection`).
-/

set_option autoImplicit false

namespace Trv1Chain

open Lib

/-- What a successful transaction brings to `k`, as an integer: nothing if it is to itself. -/
def Transaction.flow (tx : Transaction) (k : Bytes 32) : ℤ :=
  (if k = tx.recipient then (tx.amount.toNat : ℤ) else 0) -
    if k = tx.sender then (tx.amount.toNat : ℤ) else 0

namespace StateDb

/-! ## Supply -/

/-- The exact sum of all balances. -/
def supply (db : StateDb) : Nat := HashMap.total (fun a => a.balance.toNat) db.accounts

/-- `total_supply`: the sum in 64 bits. -/
def totalSupply (db : StateDb) : UInt64 := (db.accounts.values.map fun a => a.balance).sum

theorem totalSupply_eq (db : StateDb) : db.totalSupply = UInt64.ofNat db.supply := by
  unfold totalSupply supply HashMap.total
  induction db.accounts.values with
  | nil => rfl
  | cons a l ih =>
    rw [List.map_cons, List.map_cons, List.sum_cons, List.sum_cons, ih, UInt64.ofNat_add,
      UInt64.ofNat_toNat]

theorem lookup_elim (db : StateDb) (k : Bytes 32) :
    (db.accounts.lookup k).elim 0 (fun a => a.balance.toNat) = (db.account k).balance.toNat := by
  unfold account getAccount
  cases db.accounts.lookup k with
  | none => rfl
  | some a => rfl

theorem supply_setAccount (db : StateDb) (k : Bytes 32) (a : AccountState) :
    (db.setAccount k a).supply + (db.account k).balance.toNat = db.supply + a.balance.toNat := by
  have h := HashMap.total_erase (fun a : AccountState => a.balance.toNat) db.accounts k
  rw [lookup_elim] at h
  unfold supply setAccount
  rw [HashMap.total_insert]
  omega

theorem add_le_supply (db : StateDb) {k k' : Bytes 32} (hne : k ≠ k') :
    (db.account k).balance.toNat + (db.account k').balance.toNat ≤ db.supply := by
  have h := HashMap.add_le_total (fun a : AccountState => a.balance.toNat) db.accounts hne
  rwa [lookup_elim, lookup_elim] at h

/-- While the supply fits 64 bits, so does every credit. -/
theorem not_overflows {db : StateDb} (hs : db.supply < 2 ^ 64) (tx : Transaction) :
    ¬ db.Overflows tx := by
  intro hover
  obtain ⟨⟨-, -, hbal⟩, hne, hfit⟩ := hover
  apply hfit
  have hsum := db.add_le_supply hne
  have hle := UInt64.le_iff_toNat_le.mp hbal
  unfold Fits
  omega

/-- A balance that pays keeps the exact difference. -/
theorem toNat_charge {db : StateDb} {tx : Transaction} (hready : db.Ready tx) :
    ((db.account tx.sender).charge tx.amount).balance.toNat + tx.amount.toNat =
      (db.account tx.sender).balance.toNat := by
  have hle := UInt64.le_iff_toNat_le.mp hready.2.2
  have hsub := UInt64.toNat_sub_of_le _ _ hready.2.2
  show ((db.account tx.sender).balance - tx.amount).toNat + _ = _
  omega

theorem supply_execute {db : StateDb} (hs : db.supply < 2 ^ 64) (tx : Transaction) :
    (db.execute tx).1.supply = db.supply := by
  have hx := execute_executes db tx
  generalize (db.execute tx).1 = db' at hx ⊢
  generalize (db.execute tx).2 = r at hx
  cases hx with
  | refused _ _ => rfl
  | toSelf _ _ =>
    have h := db.supply_setAccount tx.sender (db.account tx.sender).incrementNonce
    simp only [AccountState.incrementNonce] at h ⊢
    omega
  | lost hready hne hfit => exact absurd ⟨hready, hne, hfit⟩ (not_overflows hs tx)
  | paid hready hne hfit =>
    -- the debit takes the amount out, the credit puts it back
    have hdebit := db.supply_setAccount tx.sender ((db.account tx.sender).charge tx.amount)
    have hcharge := toNat_charge hready
    have hcredit := supply_setAccount
      (db.setAccount tx.sender ((db.account tx.sender).charge tx.amount)) tx.recipient
      { db.account tx.recipient with
        balance := (db.account tx.recipient).balance + tx.amount }
    rw [account_setAccount_ne _ _ (Ne.symm hne), toNat_add_of_fits hfit] at hcredit
    omega

/-- A transaction moves exact amounts, and only if it succeeds. -/
theorem balance_execute {db : StateDb} (hs : db.supply < 2 ^ 64) (tx : Transaction)
    (k : Bytes 32) :
    (((db.execute tx).1.account k).balance.toNat : ℤ) =
      (db.account k).balance.toNat + if (db.execute tx).2.isOk then tx.flow k else 0 := by
  have hx := execute_executes db tx
  generalize (db.execute tx).1 = db' at hx ⊢
  generalize (db.execute tx).2 = r at hx ⊢
  cases hx with
  | refused _ _ => simp [Except.isOk, Except.toBool]
  | lost hready hne hfit => exact absurd ⟨hready, hne, hfit⟩ (not_overflows hs tx)
  | toSelf _ hself =>
    have hflow : tx.flow k = 0 := by
      unfold Transaction.flow
      rw [hself, sub_self]
    rw [hflow]
    by_cases hk : k = tx.sender
    · subst hk
      rw [account_setAccount]
      simp [AccountState.incrementNonce]
    · rw [account_setAccount_ne _ _ hk]
      simp
  | paid hready hne hfit =>
    have hcharge := toNat_charge hready
    show _ = _ + tx.flow k
    unfold Transaction.flow
    by_cases hr : k = tx.recipient
    · subst hr
      rw [account_setAccount, if_pos rfl, if_neg (Ne.symm hne), toNat_add_of_fits hfit]
      push_cast
      omega
    · rw [account_setAccount_ne _ _ hr, if_neg hr]
      by_cases hk : k = tx.sender
      · subst hk
        rw [account_setAccount, if_pos rfl]
        omega
      · rw [account_setAccount_ne _ _ hk, if_neg hk]
        omega

theorem supply_executeAll {db : StateDb} (hs : db.supply < 2 ^ 64) (txs : List Transaction) :
    (db.executeAll txs).supply = db.supply := by
  induction txs generalizing db with
  | nil => rfl
  | cons tx txs ih =>
    rw [executeAll_cons, ih (by rw [supply_execute hs]; exact hs), supply_execute hs]

theorem executions_fit {db : StateDb} (hs : db.supply < 2 ^ 64) (txs : List Transaction) :
    ∀ x ∈ db.executions txs, ¬ x.1.Overflows x.2 := by
  induction txs generalizing db with
  | nil => intro x hx; cases hx
  | cons tx txs ih =>
    intro x hx
    rw [executions_cons] at hx
    rcases List.mem_cons.mp hx with rfl | hx
    · exact not_overflows hs tx
    · exact ih (by rw [supply_execute hs]; exact hs) x hx

theorem balance_executeAll (C : Crates) {db : StateDb} (hs : db.supply < 2 ^ 64)
    (txs : List Transaction) (k : Bytes 32) :
    (((db.executeAll txs).account k).balance.toNat : ℤ) =
      (db.account k).balance.toNat + ((successful C db txs).map fun tx => tx.flow k).sum := by
  induction txs generalizing db with
  | nil =>
    show _ = _ + ((List.map _ []).sum)
    simp [executeAll]
  | cons tx txs ih =>
    rw [executeAll_cons, ih (by rw [supply_execute hs]; exact hs), balance_execute hs,
      successful_cons]
    split
    · rw [List.map_cons, List.sum_cons, add_assoc]
    · rw [add_zero]

/-- **Supply conservation.** On a database whose balances sum to less than `2 ^ 64`, a block of any
transactions leaves the exact sum as it was, and with it what `total_supply` reports; no credit
overflows; and each balance is its integer account, opening balance and successful flows, which
therefore is never negative. -/
theorem supply_conserved (C : Crates) (db : StateDb) (txs : List Transaction)
    (hs : db.supply < 2 ^ 64) :
    (applyBlock C db txs).1.supply = db.supply ∧
      (applyBlock C db txs).1.totalSupply = db.totalSupply ∧
      (∀ x ∈ db.executions txs, (x.1.execute x.2).2 ≠ .error .overflow) ∧
      ∀ k, (((applyBlock C db txs).1.account k).balance.toNat : ℤ) =
        (db.account k).balance.toNat + ((successful C db txs).map fun tx => tx.flow k).sum := by
  rw [applyBlock_fst]
  refine ⟨supply_executeAll hs txs, ?_, ?_, balance_executeAll C hs txs⟩
  · rw [totalSupply_eq, totalSupply_eq, supply_executeAll hs]
  · intro x hx heq
    exact executions_fit hs txs x hx ((execute_executes x.1 x.2).overflow_iff.mp heq)

def transferOf (sender recipient : UInt8) (amount nonce : UInt64) : Transaction :=
  ⟨Crates.sampleKey sender, Crates.sampleKey recipient, amount, nonce, [], []⟩

/-- Account `5` with the largest balance there is, and a second, empty one. -/
def fullDb : StateDb :=
  (StateDb.new.setAccount (Crates.sampleKey 5) (AccountState.new (0 - 1))).setAccount
    (Crates.sampleKey 7) (AccountState.new 0)

/-- A payment to a new account, one too large, one to itself and one that pays on. -/
def mixedBlock : List Transaction :=
  [transferOf 5 6 100 0, transferOf 7 6 1 0, transferOf 5 5 3 1, transferOf 6 7 40 0]

/-- The laws at the top of the range. -/
theorem supply_conserved_full :
    fullDb.supply < 2 ^ 64 ∧
      (applyBlock Crates.sample fullDb mixedBlock).1.supply = fullDb.supply :=
  ⟨by decide +kernel, (supply_conserved Crates.sample fullDb mixedBlock (by decide +kernel)).1⟩

/-! ## Failure -/

theorem Executes.eq_of_refused {db db' : StateDb} {tx : Transaction} {r : Except StateError Unit}
    (hx : Executes db tx db' r) (hr : r.isOk = false) (hover : ¬ db.Overflows tx) : db' = db := by
  cases hx with
  | refused _ _ => rfl
  | toSelf _ _ => cases hr
  | paid _ _ _ => cases hr
  | lost hready hne hfit => exact absurd ⟨hready, hne, hfit⟩ hover

/-- Without an overflow the failed transactions may as well be left out. -/
theorem executeAll_successful (C : Crates) {db : StateDb} {txs : List Transaction}
    (h : ∀ x ∈ db.executions txs, ¬ x.1.Overflows x.2) :
    db.executeAll (successful C db txs) = db.executeAll txs := by
  induction txs generalizing db with
  | nil => rfl
  | cons tx txs ih =>
    rw [executions_cons] at h
    have htail := ih fun x hx => h x (List.mem_cons_of_mem _ hx)
    rw [successful_cons, executeAll_cons]
    split
    · rw [executeAll_cons, htail]
    · rename_i hfail
      have hsame := (execute_executes db tx).eq_of_refused (by simpa using hfail)
        (h _ List.mem_cons_self)
      rw [← htail, hsame]

/-- An overflowing transaction of `k`. -/
def OverflowOf (k : Bytes 32) (x : StateDb × Transaction) : Bool :=
  decide (x.2.sender = k ∧ x.1.Overflows x.2)

/-- What gets past the checks succeeds or overflows. -/
theorem countP_advances (C : Crates) (k : Bytes 32) (txs : List Transaction) (db : StateDb) :
    (db.executions txs).countP (Advances k) =
      (successful C db txs).countP (fun tx => decide (tx.sender = k)) +
        (db.executions txs).countP (OverflowOf k) := by
  induction txs generalizing db with
  | nil => rfl
  | cons tx txs ih =>
    rw [executions_cons, List.countP_cons, List.countP_cons, ih, successful_cons]
    have hok := (execute_executes db tx).isOk
    have hready : db.Overflows tx → db.Ready tx := fun h => h.1
    simp only [Advances, OverflowOf, decide_eq_true_eq]
    by_cases hk : tx.sender = k
    · by_cases ho : db.Overflows tx
      · rw [if_neg fun h => (hok.mp h).2 ho, if_pos ⟨hk, hready ho⟩, if_pos ⟨hk, ho⟩]
        omega
      · by_cases hr : db.Ready tx
        · rw [if_pos (hok.mpr ⟨hr, ho⟩), if_pos ⟨hk, hr⟩, if_neg fun h => ho h.2,
            List.countP_cons_of_pos (by simpa using hk)]
          omega
        · rw [if_neg fun h => hr (hok.mp h).1, if_neg fun h => hr h.2, if_neg fun h => ho h.2]
          omega
    · -- another sender's transaction counts on neither side
      simp only [hk, false_and, if_false, Nat.add_zero]
      split
      · rw [List.countP_cons_of_neg (by simpa using hk)]
      · rfl

theorem countP_advances_le (k : Bytes 32) (txs : List Transaction) (db : StateDb) :
    (db.executions txs).countP (Advances k) ≤ txs.countP (fun tx => decide (tx.sender = k)) := by
  conv_rhs => rw [← map_executions db txs, List.countP_map]
  apply List.countP_mono_left
  intro x _ hx
  simp only [Advances, decide_eq_true_eq] at hx
  simp [hx.1]

/-- An overflow moves its sender's nonce once more than the successful transactions can. -/
theorem not_overflows_of_same (C : Crates) {db : StateDb} {txs : List Transaction}
    (hlen : txs.length < 2 ^ 64)
    (hsame : (db.executeAll txs).Same (db.executeAll (successful C db txs))) :
    ∀ x ∈ db.executions txs, ¬ x.1.Overflows x.2 := by
  intro x hx hover
  have hnonce : ((db.executeAll txs).account x.2.sender).nonce =
      ((db.executeAll (successful C db txs)).account x.2.sender).nonce := by
    unfold account
    rw [hsame]
  rw [nonce_executeAll, nonce_executeAll] at hnonce
  have hcount := countP_advances C x.2.sender txs db
  have hpos : 0 < (db.executions txs).countP (OverflowOf x.2.sender) :=
    List.countP_pos_iff.mpr ⟨x, hx, by simp [OverflowOf, hover]⟩
  have hfew := countP_advances_le x.2.sender (successful C db txs) db
  have hall := (countP_advances_le x.2.sender txs db).trans List.countP_le_length
  -- both counts fit 64 bits, so equal nonces mean equal counts
  have heq := congrArg UInt64.toNat (UInt64.add_right_inj _ |>.mp hnonce)
  have hlt : (db.executions txs).countP (Advances x.2.sender) < UInt64.size :=
    Nat.lt_of_le_of_lt hall hlen
  have hlt' : (db.executions (successful C db txs)).countP (Advances x.2.sender) < UInt64.size := by
    omega
  rw [UInt64.toNat_ofNat_of_lt' hlt, UInt64.toNat_ofNat_of_lt' hlt'] at heq
  omega

/-- The sender's nonce has moved. -/
theorem not_same_of_overflows {db : StateDb} {tx : Transaction} (hover : db.Overflows tx) :
    ¬ (db.execute tx).1.Same db := by
  intro hsame
  have haccount : (db.execute tx).1.account tx.sender = db.account tx.sender := by
    unfold account
    rw [hsame]
  have hnonce := nonce_execute db tx tx.sender
  rw [if_pos ⟨rfl, hover.1⟩, haccount] at hnonce
  have hzero : (1 : UInt64) = 0 := by
    have := hnonce.symm
    rwa [UInt64.add_eq_left] at this
  exact absurd hzero (by decide)

/-- **Only an overflow leaves a trace.** A block leaves what its successful transactions alone
would leave exactly when no transfer of it overflows; and a transfer that fails leaves every
account exactly when it does not overflow. A slice has fewer than `2 ^ 64` elements. -/
theorem failures_leave_no_trace (C : Crates) (db : StateDb) (txs : List Transaction)
    (hlen : txs.length < 2 ^ 64) :
    ((applyBlock C db txs).1.Same (applyBlock C db (successful C db txs)).1 ↔
        ∀ x ∈ db.executions txs, ¬ x.1.Overflows x.2) ∧
      ∀ tx : Transaction,
        ((∀ e, (db.applyTransfer tx.sender tx.recipient tx.amount tx.nonce).2 = .error e →
            (db.applyTransfer tx.sender tx.recipient tx.amount tx.nonce).1.Same db) ↔
          ¬ db.Overflows tx) := by
  rw [applyBlock_fst, applyBlock_fst]
  refine ⟨⟨not_overflows_of_same C hlen, ?_⟩, ?_⟩
  · intro h
    rw [executeAll_successful C h]
    exact Same.refl _
  · intro tx
    constructor
    · intro h hover
      have hfails := (execute_executes db tx).overflow_iff.mpr hover
      exact not_same_of_overflows hover (h .overflow hfails)
    · intro hover e he
      have hfailed : (db.execute tx).2.isOk = false := by
        rw [show (db.execute tx).2 = .error e from he]
        rfl
      have heq : (db.execute tx).1 = db := (execute_executes db tx).eq_of_refused hfailed hover
      show (db.execute tx).1.Same db
      rw [heq]
      exact Same.refl _

theorem failures_leave_no_trace_mixed :
    mixedBlock.length < 2 ^ 64 ∧ (∀ x ∈ fullDb.executions mixedBlock, ¬ x.1.Overflows x.2) ∧
      (applyBlock Crates.sample fullDb mixedBlock).1.Same
        (applyBlock Crates.sample fullDb (successful Crates.sample fullDb mixedBlock)).1 :=
  ⟨by decide, by decide +kernel,
    (failures_leave_no_trace Crates.sample fullDb mixedBlock (by decide)).1.mpr
      (by decide +kernel)⟩

/-- Ten coins at `5`; `7` holds the largest balance there is. -/
def brimDb : StateDb :=
  (StateDb.new.setAccount (Crates.sampleKey 5) (AccountState.new 10)).setAccount
    (Crates.sampleKey 7) (AccountState.new (0 - 1))

/-- **A failed transfer burns the amount.** The receipt says overflow, the receiver has nothing
more, and the sender has lost the ten coins and a nonce. -/
theorem overflow_burns :
    (applyBlock Crates.sample brimDb [transferOf 5 7 10 0]).2.map (fun r => (r.success, r.error)) =
        [(false, some "arithmetic overflow")] ∧
      (applyBlock Crates.sample brimDb [transferOf 5 7 10 0]).1.getAccount (Crates.sampleKey 5) =
        some ⟨0, 1⟩ ∧
      ¬ (applyBlock Crates.sample brimDb [transferOf 5 7 10 0]).1.Same
        (applyBlock Crates.sample brimDb
          (successful Crates.sample brimDb [transferOf 5 7 10 0])).1 := by
  refine ⟨by decide +kernel, by decide +kernel, ?_⟩
  intro hsame
  exact absurd (hsame (Crates.sampleKey 5)) (by decide +kernel)

/-! ## Replay -/

/-- From a database whose nonces are far from the end of the range, what succeeds has at least its
sender's nonce, and more than any earlier success of that sender. -/
theorem successful_ascending (C : Crates) {db : StateDb} {txs : List Transaction}
    (hroom : ∀ k, (db.account k).nonce.toNat + txs.length < 2 ^ 64) :
    (∀ tx ∈ successful C db txs, (db.account tx.sender).nonce ≤ tx.nonce) ∧
      (successful C db txs).Pairwise
        (fun tx tx' => tx.sender = tx'.sender → tx.nonce < tx'.nonce) := by
  induction txs generalizing db with
  | nil =>
    refine ⟨?_, List.Pairwise.nil⟩
    intro tx htx
    cases htx
  | cons tx txs ih =>
    rw [List.length_cons] at hroom
    -- no nonce wraps on the way, so each is no less after the first transaction
    have htoNat := fun k => toNat_nonce_execute db tx (k := k) (by have := hroom k; omega)
    have hroom' : ∀ k, ((db.execute tx).1.account k).nonce.toNat + txs.length < 2 ^ 64 := by
      intro k
      have := hroom k
      rw [htoNat k]
      split <;> omega
    obtain ⟨hge, hpair⟩ := ih hroom'
    have hge' : ∀ tx' ∈ successful C (db.execute tx).1 txs,
        (db.account tx'.sender).nonce ≤ tx'.nonce := by
      intro tx' htx'
      refine UInt64.le_trans ?_ (hge tx' htx')
      rw [UInt64.le_iff_toNat_le, htoNat]
      omega
    rw [successful_cons]
    split
    · rename_i hok
      obtain ⟨hready, -⟩ := (execute_executes db tx).isOk.mp hok
      refine ⟨?_, List.Pairwise.cons ?_ hpair⟩
      · intro tx' htx'
        rcases List.mem_cons.mp htx' with rfl | htx'
        · rw [hready.2.1]
          exact UInt64.le_refl _
        · exact hge' tx' htx'
      · intro tx' htx' hsender
        have hnext := UInt64.le_iff_toNat_le.mp (hge tx' htx')
        rw [htoNat, if_pos ⟨hsender, hready⟩, ← hsender, hready.2.1] at hnext
        rw [UInt64.lt_iff_toNat_lt]
        omega
    · exact ⟨hge', hpair⟩

/-- **Replay protection.** From genesis accounts, over any blocks of fewer than `2 ^ 64`
transactions in all, the successful transactions of a sender have ascending nonces. So no sender
and nonce, and no transaction, succeeds twice. -/
theorem replay_protection (C : Crates) (db : StateDb) (blocks : List (List Transaction))
    (hgenesis : ∀ k a, db.getAccount k = some a → a.nonce = 0)
    (hlen : blocks.flatten.length < 2 ^ 64) :
    (successfulIn C db blocks).Pairwise
        (fun tx tx' => tx.sender = tx'.sender → tx.nonce < tx'.nonce) ∧
      ((successfulIn C db blocks).map fun tx => (tx.sender, tx.nonce)).Nodup ∧
      (successfulIn C db blocks).Nodup := by
  have hroom : ∀ k, (db.account k).nonce.toNat + blocks.flatten.length < 2 ^ 64 := by
    intro k
    have hzero : (db.account k).nonce = 0 := by
      unfold account
      cases h : db.getAccount k with
      | none => rfl
      | some a => exact hgenesis k a h
    rw [hzero]
    simpa using hlen
  have hasc : (successfulIn C db blocks).Pairwise
      (fun tx tx' => tx.sender = tx'.sender → tx.nonce < tx'.nonce) := by
    unfold successfulIn
    rw [applyBlocks_eq]
    exact (successful_ascending C hroom).2
  refine ⟨hasc, List.pairwise_map.mpr (hasc.imp ?_), hasc.imp ?_⟩
  · intro tx tx' hlt heq
    obtain ⟨hsender, hnonce⟩ := Prod.mk.inj heq
    rw [hnonce] at hlt
    exact UInt64.lt_irrefl _ (hlt hsender)
  · intro tx tx' hlt heq
    rw [heq] at hlt
    exact UInt64.lt_irrefl _ (hlt rfl)

/-- A block delivered twice. The second time its one failed transaction finds the money, and the
others are refused. -/
theorem replay_protection_twice :
    (successfulIn Crates.sample fullDb [mixedBlock, mixedBlock]).map (fun tx => tx.amount) =
        [100, 3, 40, 1] ∧
      (successfulIn Crates.sample fullDb [mixedBlock, mixedBlock]).Nodup := by
  have hnonces : ∀ e ∈ fullDb.accounts.entries, e.2.nonce = 0 := by decide +kernel
  refine ⟨by decide +kernel, (replay_protection Crates.sample fullDb [mixedBlock, mixedBlock] ?_
    (by decide)).2.2⟩
  intro k a ha
  exact hnonces ⟨k, a⟩ (AList.mem_lookup_iff.mp ha)

end StateDb

end Trv1Chain
