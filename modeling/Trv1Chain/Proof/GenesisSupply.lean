import Trv1Chain.Genesis.Config
import Trv1Chain.Proof.Ledger

/-!
# The supply at genesis

The validator writes the listed accounts into a new database one after the other, and an account
that is listed again overwrites the first. `validate` refuses repeated validators and does not look
at the accounts, so the supply it starts with is the listed one exactly if nothing is overwritten
that counts, and the sum fits its word.
-/

set_option autoImplicit false

namespace Trv1Chain

open Lib

namespace Genesis

/-- `for acct in &genesis.accounts { db.set_account(acct.pubkey, AccountState::new(..)) }`. -/
def fund (db : StateDb) (accounts : List GenesisAccount) : StateDb :=
  accounts.foldl (fun db acct => db.setAccount acct.pubkey (AccountState.new acct.balance)) db

def GenesisConfig.stateDb (genesis : GenesisConfig) : StateDb := fund .new genesis.accounts

/-- The exact sum of the listed balances. -/
def listed (accounts : List GenesisAccount) : Nat := (accounts.map fun a => a.balance.toNat).sum

/-- Whoever is listed again has nothing the first time. -/
def NothingOverwritten (accounts : List GenesisAccount) : Prop :=
  accounts.Pairwise fun a b => a.pubkey = b.pubkey → a.balance = 0

theorem balance_fund_step (db : StateDb) (a : GenesisAccount) (k : Bytes 32) :
    ((db.setAccount a.pubkey (AccountState.new a.balance)).account k).balance =
      if a.pubkey = k then a.balance else (db.account k).balance := by
  split
  · rename_i h
    rw [← h, StateDb.account_setAccount]
    rfl
  · rename_i h
    rw [StateDb.account_setAccount_ne _ _ (Ne.symm h)]

/-- The supply grows by no more than what is listed, and by exactly that if no account with a
balance is overwritten, whether it was there before or is listed itself. -/
theorem supply_fund : ∀ (accounts : List GenesisAccount) (db : StateDb),
    (fund db accounts).supply ≤ db.supply + listed accounts ∧
      ((fund db accounts).supply = db.supply + listed accounts ↔
        NothingOverwritten accounts ∧ ∀ a ∈ accounts, (db.account a.pubkey).balance = 0) := by
  intro accounts
  induction accounts with
  | nil =>
    intro db
    exact ⟨Nat.le_refl _, iff_of_true rfl ⟨List.Pairwise.nil, by simp⟩⟩
  | cons a accounts ih =>
    intro db
    have hstep := db.supply_setAccount a.pubkey (AccountState.new a.balance)
    obtain ⟨hle, hiff⟩ := ih (db.setAccount a.pubkey (AccountState.new a.balance))
    have hcons : fund db (a :: accounts) =
        fund (db.setAccount a.pubkey (AccountState.new a.balance)) accounts := rfl
    have hlisted : listed (a :: accounts) = a.balance.toNat + listed accounts := by
      unfold listed
      rw [List.map_cons, List.sum_cons]
    have hnew : (AccountState.new a.balance).balance.toNat = a.balance.toNat := rfl
    -- nothing is lost on the way: neither now nor later
    have hsplit : (fund db (a :: accounts)).supply = db.supply + listed (a :: accounts) ↔
        (db.account a.pubkey).balance.toNat = 0 ∧
          (fund (db.setAccount a.pubkey (AccountState.new a.balance)) accounts).supply =
            (db.setAccount a.pubkey (AccountState.new a.balance)).supply + listed accounts := by
      rw [hcons, hlisted]
      omega
    refine ⟨by rw [hcons, hlisted]; omega, ?_⟩
    rw [hsplit, hiff]
    unfold NothingOverwritten
    rw [List.pairwise_cons, List.forall_mem_cons]
    have hzero : (db.account a.pubkey).balance.toNat = 0 ↔ (db.account a.pubkey).balance = 0 :=
      UInt64.toNat_inj (b := 0)
    rw [hzero]
    constructor
    · rintro ⟨hself, hrest, hlater⟩
      refine ⟨⟨?_, hrest⟩, hself, ?_⟩
      · intro b hb hkey
        have := hlater b hb
        rw [balance_fund_step, if_pos hkey] at this
        exact this
      · intro b hb
        have := hlater b hb
        rw [balance_fund_step] at this
        split at this
        · rename_i hkey
          rw [← hkey]
          exact hself
        · exact this
    · rintro ⟨⟨hover, hrest⟩, hself, hlater⟩
      refine ⟨hself, hrest, ?_⟩
      intro b hb
      rw [balance_fund_step]
      split
      · rename_i hkey
        exact hover b hb hkey
      · exact hlater b hb

theorem supply_new : StateDb.new.supply = 0 := rfl

/-- **The supply at genesis** is the listed one, and fits its word, exactly if the listed balances
together fit and no account with a balance is listed again. -/
theorem genesis_supply_iff (genesis : GenesisConfig) :
    (genesis.stateDb.totalSupply.toNat = listed genesis.accounts ∧
      listed genesis.accounts < 2 ^ 64) ↔
    NothingOverwritten genesis.accounts ∧ listed genesis.accounts < 2 ^ 64 := by
  obtain ⟨hle, hiff⟩ := supply_fund genesis.accounts .new
  rw [supply_new, Nat.zero_add] at hle hiff
  have hempty : ∀ a ∈ genesis.accounts, (StateDb.new.account a.pubkey).balance = 0 :=
    fun _ _ => rfl
  have hexact : genesis.stateDb.supply = listed genesis.accounts ↔
      NothingOverwritten genesis.accounts := hiff.trans (and_iff_left hempty)
  rw [← hexact, and_congr_left_iff]
  intro hfits
  have hword : genesis.stateDb.totalSupply.toNat = genesis.stateDb.supply := by
    rw [StateDb.totalSupply_eq]
    exact UInt64.toNat_ofNat_of_lt' (Nat.lt_of_le_of_lt hle hfits)
  rw [hword]

/-- A genesis with one validator and the given accounts. -/
def soloGenesis (accounts : List GenesisAccount) : GenesisConfig :=
  ⟨ChainParams.default, [⟨Bytes.fill 32 1, 1000000, 500⟩], accounts⟩

/-- One account is listed twice. -/
def repeatedGenesis : GenesisConfig := soloGenesis [⟨Bytes.fill 32 2, 5⟩, ⟨Bytes.fill 32 2, 7⟩]

/-- Two accounts have half the range each. -/
def hugeGenesis : GenesisConfig :=
  soloGenesis [⟨Bytes.fill 32 2, 9223372036854775808⟩, ⟨Bytes.fill 32 3, 9223372036854775808⟩]

/-- Both are valid. The first loses the balance listed first, the second has an empty supply. -/
theorem genesis_supply_lost :
    repeatedGenesis.validate = .ok () ∧ repeatedGenesis.stateDb.totalSupply = 7 ∧
      listed repeatedGenesis.accounts = 12 ∧
    hugeGenesis.validate = .ok () ∧ hugeGenesis.stateDb.totalSupply = 0 ∧
      listed hugeGenesis.accounts = 2 ^ 64 := by
  refine ⟨?_, ?_, ?_, ?_, ?_, ?_⟩
  · rfl
  · decide +kernel
  · rfl
  · rfl
  · decide +kernel
  · rfl

end Genesis

end Trv1Chain
