import Trv1Chain.Bft.Block
import Trv1Chain.Validator.Signing

/-!
# What one key signs

A validator's key signs votes, proposals and, as an account's key, transactions. Nothing tags the
three: a vote is 14 or 46 bytes that start with 1 or 2, a transaction is a digest of 32 bytes, and
a proposal is a text that starts with `p` and is longer than both. So no two kinds meet, and within
a kind the bytes determine the fields.
-/

set_option autoImplicit false

namespace Trv1Chain

open Lib

/-! ## Transactions -/

namespace Transaction

/-- What `signing_message` hashes. -/
def signedFields (tx : Transaction) : List UInt8 :=
  tx.sender.toList ++ (tx.recipient.toList ++ (leBytes 8 tx.amount.toNat ++
    (leBytes 8 tx.nonce.toNat ++ tx.data)))

theorem signingMessage_eq (C : Crates) (tx : Transaction) :
    tx.signingMessage C = C.sha256 tx.signedFields := rfl

/-- The two transactions say the same, whoever signed them. -/
def SameContent (tx tx' : Transaction) : Prop :=
  tx.sender = tx'.sender ∧ tx.recipient = tx'.recipient ∧ tx.amount = tx'.amount ∧
    tx.nonce = tx'.nonce ∧ tx.data = tx'.data

/-- Only the last field has no fixed width, so each can be read back. -/
theorem signedFields_inj {tx tx' : Transaction} (h : tx.signedFields = tx'.signedFields) :
    tx.SameContent tx' := by
  unfold signedFields at h
  obtain ⟨hfrom, h⟩ := List.append_inj h (by simp)
  obtain ⟨hto, h⟩ := List.append_inj h (by simp)
  obtain ⟨hamount, h⟩ := List.append_inj h (by simp)
  obtain ⟨hnonce, hdata⟩ := List.append_inj h (by simp)
  exact ⟨Bytes.toList_inj hfrom, Bytes.toList_inj hto, leBytes_uint64_inj hamount,
    leBytes_uint64_inj hnonce, hdata⟩

end Transaction

/-! ## Lengths -/

theorem Vote.length_signBytes (t : VoteType) (h : Height) (r : Round) (b : Option BlockHash) :
    (signBytes t h r b).length = 14 ∨ (signBytes t h r b).length = 46 := by
  unfold signBytes
  cases b with
  | none => exact Or.inl (by simp)
  | some hash => exact Or.inr (by simp)

theorem lt_length_proposalMessage (h : Height) (r : Round) (b : BlockHash) :
    46 < (proposalMessage h r b).length := by
  have hhex := length_toHex b.bytes.toList
  rw [List.Vector.toList_length] at hhex
  unfold proposalMessage
  rw [List.length_append, List.length_append, List.length_cons, List.length_append,
    List.length_cons, hhex]
  omega

/-! ## Payloads -/

/-- A message to be signed, with the fields it is made of. -/
inductive Payload where
  | vote (voteType : VoteType) (height : Height) (round : Round) (blockHash : Option BlockHash)
  | proposal (height : Height) (round : Round) (blockHash : BlockHash)
  | transaction (tx : Transaction)

namespace Payload

/-- The bytes that are signed. -/
def bytes (C : Crates) : Payload → List UInt8
  | vote voteType height round blockHash => Vote.signBytes voteType height round blockHash
  | proposal height round blockHash => proposalMessage height round blockHash
  | transaction tx => (tx.signingMessage C).toList

/-- The byte strings that are hashed on the way. -/
def hashed : Payload → Set (List UInt8)
  | transaction tx => {tx.signedFields}
  | _ => ∅

/-- Of the same kind, with the same fields; for a transaction the signed ones. -/
def SameContent : Payload → Payload → Prop
  | vote t h r b, vote t' h' r' b' => t = t' ∧ h = h' ∧ r = r' ∧ b = b'
  | proposal h r b, proposal h' r' b' => h = h' ∧ r = r' ∧ b = b'
  | transaction tx, transaction tx' => tx.SameContent tx'
  | _, _ => False

/-- The signature a key makes for a payload is the one the code stores with it. -/
theorem signed (C : Crates) (sk : Bytes 32) : ∀ p : Payload, match p with
    | vote t h r b => (Vote.new C t h r b sk).signature = C.sign sk (p.bytes C)
    | proposal h r b => (signProposal C h r b sk).signature = C.sign sk (p.bytes C)
    | transaction tx => (tx.sign C sk).signature = (C.sign sk (p.bytes C)).toList
  | vote .. => rfl
  | proposal .. => rfl
  | transaction _ => rfl

theorem length_transaction (C : Crates) (tx : Transaction) :
    ((transaction tx).bytes C).length = 32 := (tx.signingMessage C).toList_length

/-- **Signed payloads never collide.** Equal bytes are of the same kind and carry the same fields,
as long as SHA-256 tells the hashed transactions apart. -/
theorem signed_payloads_inj {C : Crates} {p q : Payload}
    (hC : C.CollisionFree (p.hashed ∪ q.hashed)) (h : p.bytes C = q.bytes C) : p.SameContent q := by
  have hlen := congrArg List.length h
  cases p with
  | vote t h₁ r b =>
    have hvote := Vote.length_signBytes t h₁ r b
    cases q with
    | vote => exact Vote.signBytes_inj h
    | proposal => exact absurd h signBytes_ne_proposalMessage
    | transaction tx =>
      rw [length_transaction] at hlen
      change (Vote.signBytes t h₁ r b).length = 32 at hlen
      omega
  | proposal h₁ r b =>
    have hproposal := lt_length_proposalMessage h₁ r b
    cases q with
    | vote => exact absurd h.symm signBytes_ne_proposalMessage
    | proposal => exact proposalMessage_inj h
    | transaction tx =>
      rw [length_transaction] at hlen
      change (proposalMessage h₁ r b).length = 32 at hlen
      omega
  | transaction tx =>
    cases q with
    | vote t h₁ r b =>
      have hvote := Vote.length_signBytes t h₁ r b
      rw [length_transaction] at hlen
      change 32 = (Vote.signBytes t h₁ r b).length at hlen
      omega
    | proposal h₁ r b =>
      have hproposal := lt_length_proposalMessage h₁ r b
      rw [length_transaction] at hlen
      change 32 = (proposalMessage h₁ r b).length at hlen
      omega
    | transaction tx' =>
      have hdigest : C.sha256 tx.signedFields = C.sha256 tx'.signedFields := by
        rw [← Transaction.signingMessage_eq, ← Transaction.signingMessage_eq]
        exact Bytes.toList_inj h
      exact Transaction.signedFields_inj (hC (Or.inl rfl) (Or.inr rfl) hdigest)

/-- A transfer before and after it is signed. -/
def transfer : Transaction := ⟨Crates.sampleKey 1, Crates.sampleKey 2, 500, 0, [], [7]⟩

theorem signed_payloads_inj_transfer :
    (transaction transfer).SameContent
      (transaction (transfer.sign Crates.sample (Crates.sampleKey 1))) := by
  refine signed_payloads_inj (C := Crates.sample) ?_ rfl
  rintro x (rfl | rfl) y (rfl | rfl) _
  · rfl
  · rfl
  · rfl
  · rfl

end Payload

end Trv1Chain
