import Mathlib.Data.UInt

/-!
# Accounts

`runtime/state/src/accounts.rs`: a balance and a nonce, with the three moves a transfer makes.
-/

set_option autoImplicit false

namespace Trv1Chain

/-- Errors of a state transition. The two file errors belong to saving and loading. -/
inductive StateError where
  | insufficientBalance (needed available : UInt64)
  | invalidNonce (expected got : UInt64)
  | accountNotFound
  | overflow
  | io (message : String)
  | json (message : String)
  deriving DecidableEq

structure AccountState where
  balance : UInt64
  nonce : UInt64
  deriving DecidableEq

namespace AccountState

def new (balance : UInt64) : AccountState := ⟨balance, 0⟩

def default : AccountState := ⟨0, 0⟩

def debit (a : AccountState) (amount : UInt64) : Except StateError AccountState :=
  if a.balance < amount then .error (.insufficientBalance amount a.balance)
  else .ok { a with balance := a.balance - amount }

/-- `checked_add`: the sum when it fits 64 bits. -/
def credit (a : AccountState) (amount : UInt64) : Except StateError AccountState :=
  if a.balance.toNat + amount.toNat < 2 ^ 64 then
    .ok { a with balance := a.balance + amount }
  else .error .overflow

def incrementNonce (a : AccountState) : AccountState := { a with nonce := a.nonce + 1 }

/-- The sender of a transfer, debited and with its nonce raised. -/
def charge (a : AccountState) (amount : UInt64) : AccountState :=
  incrementNonce { a with balance := a.balance - amount }

end AccountState

end Trv1Chain
