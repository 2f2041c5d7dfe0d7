import Trv1Chain.Crates
import Trv1Chain.Lib.Merkle

/-!
# Transactions, blocks and the Merkle root

`consensus/bft/src/block.rs`. A block's hash is the hash of its **header**; the body enters it
only through the header's `txMerkleRoot` field, and nothing in this file compares that field with
the body.
-/

set_option autoImplicit false

namespace Trv1Chain

open Lib

namespace Transaction

/-- `SHA256(from ++ to ++ amount ++ nonce ++ data)`, the numbers little-endian. -/
def signingMessage (C : Crates) (tx : Transaction) : Bytes 32 :=
  C.sha256 (tx.sender.toList ++ (tx.recipient.toList ++ (leBytes 8 tx.amount.toNat ++
    (leBytes 8 tx.nonce.toNat ++ tx.data))))

/-- Sign with a key; the signature is stored as a byte vector. -/
def sign (C : Crates) (tx : Transaction) (signingKey : Bytes 32) : Transaction :=
  { tx with signature := (C.sign signingKey (tx.signingMessage C).toList).toList }

/-- The signature is 64 bytes, the sender is a curve point, and the one verifies under the other
over the signing message. -/
def verifySignature (C : Crates) (tx : Transaction) : Bool :=
  if hlen : tx.signature.length = 64 then
    C.isPoint tx.sender && C.verify tx.sender (tx.signingMessage C).toList ⟨tx.signature, hlen⟩
  else false

def hash (C : Crates) (tx : Transaction) : Bytes 32 := C.sha256 (C.bincodeTransaction tx)

end Transaction

namespace Block

def hash (C : Crates) (b : Block) : BlockHash := ⟨C.sha256 (C.bincodeHeader b.header)⟩

/-- What one Merkle node hashes: its two children, end to end. -/
def nodePreimage (l r : Bytes 32) : List UInt8 := l.toList ++ r.toList

def nodeHash (C : Crates) (l r : Bytes 32) : Bytes 32 := C.sha256 (nodePreimage l r)

def leaves (C : Crates) (transactions : List Transaction) : List (Bytes 32) :=
  transactions.map fun tx => C.sha256 (C.bincodeTransaction tx)

/-- Merkle root of the transactions: passes over the leaves in chunks of two, an odd last leaf
paired with itself, until one is left. All zero when there are no transactions. -/
def computeTxMerkleRoot (C : Crates) (transactions : List Transaction) : Bytes 32 :=
  if transactions.isEmpty then Bytes.fill 32 0
  else Merkle.root (nodeHash C) (Bytes.fill 32 0) (leaves C transactions)

end Block

end Trv1Chain
