import Trv1Chain.Bft.Types
import Trv1Chain.State.Accounts

/-!
# What the program calls and does not contain

The functions of the third-party crates: SHA-256 (`sha2`), ed25519 (`ed25519-dalek`), `hex`, and the
two serialisers (`bincode`, `serde_json`) at the types they are used at. The model is a function of
them. What a result relies on is a named hypothesis about them, never a definition of ours.

A hash into 32 bytes is not injective, so "SHA-256 is injective" is always
`Crates.CollisionFree` on the byte strings in question.
-/

set_option autoImplicit false

namespace Trv1Chain

open Lib

structure Crates where
  sha256 : List UInt8 → Bytes 32
  /-- `SigningKey::verifying_key`, from the secret's bytes to the public key's. -/
  verifyingKey : Bytes 32 → Bytes 32
  sign : Bytes 32 → List UInt8 → Signature
  verify : Bytes 32 → List UInt8 → Signature → Bool
  verifyStrict : Bytes 32 → List UInt8 → Signature → Bool
  /-- Whether `VerifyingKey::from_bytes` accepts the bytes. -/
  isPoint : Bytes 32 → Bool
  /-- `hex::encode`, where a digest names a file. -/
  hexEncode : List UInt8 → List UInt8
  bincodeHeader : BlockHeader → List UInt8
  bincodeTransaction : Transaction → List UInt8
  jsonTransaction : Transaction → List UInt8
  jsonAccount : AccountState → List UInt8
  jsonBytes : List UInt8 → List UInt8

namespace Crates

/-- No two of the byte strings in `S` have the same digest. -/
def CollisionFree (C : Crates) (S : Set (List UInt8)) : Prop := Set.InjOn C.sha256 S

/-- A signature made with a key verifies under it. -/
def SignatureCorrect (C : Crates) : Prop :=
  ∀ sk msg, C.verify (C.verifyingKey sk) msg (C.sign sk msg) = true

/-- Strict verification accepts no more than plain verification does. -/
def StrictVerifies (C : Crates) : Prop :=
  ∀ pk msg sig, C.verifyStrict pk msg sig = true → C.verify pk msg sig = true

/-! ## An instance to evaluate the model at

A rolling checksum takes the place of SHA-256 and, keyed, of the signature scheme; the two
serialisers write the formats the real ones write. No result is about this instance: it is what
a concrete run is computed with. -/

/-- A checksum of `n` bytes over a byte string. -/
def checksum (n : Nat) (l : List UInt8) : Bytes n :=
  ⟨leBytes n (l.foldl (fun acc b => (acc * 257 + b.toNat + 1) % 256 ^ n) 0), length_leBytes ..⟩

/-- bincode: fixed-width little-endian words, raw arrays, a length before every slice. -/
def bincodeSlice (l : List UInt8) : List UInt8 := leBytes 8 l.length ++ l

/-- serde_json: a sequence of bytes is an array of numbers. -/
def jsonArray (l : List UInt8) : List UInt8 :=
  91 :: (List.intercalate [44] (l.map fun b => decimal b.toNat) ++ [93])

/-- serde_json: one field of an object. -/
def jsonField (name : List Char) (value : List UInt8) : List UInt8 :=
  34 :: (ascii name ++ 34 :: 58 :: value)

/-- serde_json: an object of rendered fields. -/
def jsonObject (fields : List (List UInt8)) : List UInt8 :=
  123 :: (List.intercalate [44] fields ++ [125])

def sample : Crates where
  sha256 := checksum 32
  verifyingKey sk := sk
  sign sk msg := checksum 64 (sk.toList ++ msg)
  verify pk msg sig := decide (sig = checksum 64 (pk.toList ++ msg))
  verifyStrict pk msg sig := decide (sig = checksum 64 (pk.toList ++ msg))
  isPoint _ := true
  hexEncode := toHex
  bincodeHeader h :=
    leBytes 8 h.height.val.toNat ++ leBytes 8 h.timestamp.toNat ++ h.parentHash.bytes.toList ++
      bincodeSlice h.proposer.asBytes.toList ++ h.stateRoot.toList ++ h.txMerkleRoot.toList
  bincodeTransaction tx :=
    tx.sender.toList ++ tx.recipient.toList ++ leBytes 8 tx.amount.toNat ++
      leBytes 8 tx.nonce.toNat ++ bincodeSlice tx.signature ++ bincodeSlice tx.data
  jsonTransaction tx :=
    jsonObject
      [jsonField ['f', 'r', 'o', 'm'] (jsonArray tx.sender.toList),
       jsonField ['t', 'o'] (jsonArray tx.recipient.toList),
       jsonField ['a', 'm', 'o', 'u', 'n', 't'] (decimal tx.amount.toNat),
       jsonField ['n', 'o', 'n', 'c', 'e'] (decimal tx.nonce.toNat),
       jsonField ['s', 'i', 'g', 'n', 'a', 't', 'u', 'r', 'e'] (jsonArray tx.signature),
       jsonField ['d', 'a', 't', 'a'] (jsonArray tx.data)]
  jsonAccount a :=
    jsonObject
      [jsonField ['b', 'a', 'l', 'a', 'n', 'c', 'e'] (decimal a.balance.toNat),
       jsonField ['n', 'o', 'n', 'c', 'e'] (decimal a.nonce.toNat)]
  jsonBytes := jsonArray

/-- A key pair of the instance, secret and public part alike. -/
def sampleKey (b : UInt8) : Bytes 32 := Bytes.fill 32 b

theorem sample_signatureCorrect : sample.SignatureCorrect := by
  intro sk msg
  simp [sample]

end Crates

end Trv1Chain
