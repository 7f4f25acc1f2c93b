import Lattica.Foundation.Bytes

/-!
# Third-party crates

The code calls `sha2`, `ed25519-dalek` and `reed-solomon-erasure`. Their
sources are not part of the repository, so they are parameters: `Crates` has
one field per function the code calls, and what a result needs of them is a
named assumption.

A `&mut [Vec<u8>]` argument keeps its number of vectors and their lengths, and
a `&mut [Option<Vec<u8>>]` its number of entries; the result types say so.
-/

namespace Lattica.Shred

open Foundation

structure Crates where
  /-- `Sha256::new()`, `update` of the pieces in order, `finalize`. -/
  sha256 : List UInt8 → Bytes 32
  SigningKey : Type
  VerifyingKey : Type
  Signature : Type
  /-- `VerifyingKey::from_bytes`. -/
  verifyingKeyFromBytes : Bytes 32 → Option VerifyingKey
  /-- `Signature::from_slice`. -/
  signatureFromSlice : Bytes 64 → Option Signature
  /-- `pk.verify(msg, sig).is_ok()`. -/
  verify : VerifyingKey → List UInt8 → Signature → Bool
  /-- `signing_key.sign(msg).to_bytes()`. -/
  sign : SigningKey → List UInt8 → Bytes 64
  /-- `signing_key.verifying_key().to_bytes()`. -/
  verifyingKey : SigningKey → Bytes 32
  ReedSolomon : Type
  /-- `ReedSolomon::new`; errors are their display text. -/
  newReedSolomon : ℕ → ℕ → Except String ReedSolomon
  /-- `rs.encode_sep(data, parity)`: the parity buffers afterwards. -/
  encodeSep : ReedSolomon → List (List UInt8) → (parity : List (List UInt8)) →
    Except String { out : List (List UInt8) // out.map List.length = parity.map List.length }
  /-- `rs.reconstruct(shards)`: the shards afterwards. -/
  reconstruct : ReedSolomon → (shards : List (Option (List UInt8))) →
    Except String { out : List (Option (List UInt8)) // out.length = shards.length }

namespace Crates

/-- Ed25519 accepts honest signatures under the key's own public bytes. -/
def AcceptsHonestSignatures (C : Crates) : Prop :=
  ∀ (sk : C.SigningKey) (msg : List UInt8), ∃ pk sig,
    C.verifyingKeyFromBytes (C.verifyingKey sk) = some pk ∧
      C.signatureFromSlice (C.sign sk msg) = some sig ∧ C.verify pk msg sig = true

/-- Reed-Solomon (32, 32) encodes 32 equal-length shards. -/
def EncodesEqualLengths (C : Crates) : Prop :=
  ∃ rs, C.newReedSolomon 32 32 = .ok rs ∧
    ∀ (n : ℕ) (data parity : List (List UInt8)), 0 < n → data.length = 32 →
      parity.length = 32 → (∀ s ∈ data, s.length = n) → (∀ s ∈ parity, s.length = n) →
      ∃ out, C.encodeSep rs data parity = .ok out

/-- How many entries are present. -/
def present (shards : List (Option (List UInt8))) : ℕ :=
  shards.countP Option.isSome

/-- Reed-Solomon (32, 32) reconstructs from 32 or more equal-length non-empty
shards. -/
def ReconstructsEqualLengths (C : Crates) : Prop :=
  ∃ rs, C.newReedSolomon 32 32 = .ok rs ∧
    ∀ (n : ℕ) (shards : List (Option (List UInt8))), 0 < n → shards.length = 64 →
      (∀ s, some s ∈ shards → s.length = n) → 32 ≤ present shards →
      ∃ out, C.reconstruct rs shards = .ok out

end Crates

end Lattica.Shred
