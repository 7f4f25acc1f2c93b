import Lattica.Foundation.MerkleOpening
import Lattica.Shred.Crates
import Lattica.Shred.Wire

/-!
# Merkle and signature verification

`merkle_leaf`, `compute_merkle_root` and `verify_shred` of
`crates/shred/src/lib.rs`. The tree is the truncated one of
`Foundation.MerkleOpening`, with the two domain-separation prefixes telling
leaf messages from node messages; `computeMerkleRoot_eq_ok` reads the loop as
a climb, and `Verified` lists everything an accepted shred satisfies.
-/

namespace Lattica.Shred

open Foundation

def ascii (cs : List Char) : List UInt8 := cs.map fun c => UInt8.ofNat c.toNat

/-- `b"\x00SOLANA_MERKLE_SHREDS_LEAF"`. -/
def merkleHashPrefixLeaf : List UInt8 :=
  0x00 :: ascii ['S', 'O', 'L', 'A', 'N', 'A', '_', 'M', 'E', 'R', 'K', 'L', 'E', '_',
    'S', 'H', 'R', 'E', 'D', 'S', '_', 'L', 'E', 'A', 'F']

/-- `b"\x01SOLANA_MERKLE_SHREDS_NODE"`. -/
def merkleHashPrefixNode : List UInt8 :=
  0x01 :: ascii ['S', 'O', 'L', 'A', 'N', 'A', '_', 'M', 'E', 'R', 'K', 'L', 'E', '_',
    'S', 'H', 'R', 'E', 'D', 'S', '_', 'N', 'O', 'D', 'E']

/-- What is hashed for a leaf. -/
def leafMessage (bytes : List UInt8) : List UInt8 := merkleHashPrefixLeaf ++ bytes

/-- What is hashed for an inner node. -/
def nodeMessage (left right : Bytes 20) : List UInt8 :=
  merkleHashPrefixNode ++ left.1 ++ right.1

/-- `&node[..SIZE_OF_PROOF_ENTRY]`. -/
def proofEntry (node : Bytes 32) : Bytes 20 :=
  node.truncate 20 (by decide)

theorem nodeMessage_inj {l r l' r' : Bytes 20} (h : nodeMessage l r = nodeMessage l' r') :
    l = l' ∧ r = r' := by
  unfold nodeMessage at h
  rw [List.append_assoc, List.append_assoc] at h
  obtain ⟨hl, hr⟩ := List.append_inj (List.append_cancel_left h) (by rw [l.2, l'.2])
  exact ⟨Subtype.ext hl, Subtype.ext hr⟩

/-- Domain separation: the first byte of a leaf message is 0, of a node message 1. -/
theorem leafMessage_ne_nodeMessage (bytes : List UInt8) (l r : Bytes 20) :
    leafMessage bytes ≠ nodeMessage l r := by
  intro h
  have hhead := congrArg List.head? h
  simp [leafMessage, nodeMessage, merkleHashPrefixLeaf, merkleHashPrefixNode] at hhead

theorem leafMessage_inj {xs ys : List UInt8} (h : leafMessage xs = leafMessage ys) : xs = ys :=
  List.append_cancel_left h

/-- The shred Merkle tree. -/
@[reducible] def Crates.tree (C : Crates) : TreeHash (List UInt8) (Bytes 32) (Bytes 20) where
  hash := C.sha256
  trunc := proofEntry
  node := nodeMessage
  node_inj := nodeMessage_inj

variable (C : Crates)

/-- `merkle_leaf`. -/
def merkleLeaf (p : ParsedShred) : Exec ShredError (Bytes 32) := do
  let bytes ← slice p.raw p.leafRange.start p.leafRange.stop
  return C.sha256 (merkleHashPrefixLeaf ++ bytes)

/-- The loop of `compute_merkle_root`: `index` and `node` after the chunks. -/
def merkleRootLoop : ℕ → Bytes 32 → List (Bytes 20) → ℕ × Bytes 32
  | index, node, [] => (index, node)
  | index, node, chunk :: chunks =>
      let node' :=
        if index % 2 = 0 then
          C.sha256 (merkleHashPrefixNode ++ (proofEntry node).1 ++ chunk.1)
        else
          C.sha256 (merkleHashPrefixNode ++ chunk.1 ++ (proofEntry node).1)
      merkleRootLoop (index >>> 1) node' chunks

/-- `compute_merkle_root`. -/
def computeMerkleRoot (leafIndex : ℕ) (leaf : Bytes 32) (proof : List UInt8) :
    Exec ShredError (Bytes 32) :=
  if proof.length % sizeOfProofEntry ≠ 0 then .err .merkleRootMismatch
  else
    let (index, node) := merkleRootLoop C leafIndex leaf (chunksExact sizeOfProofEntry proof)
    if index ≠ 0 then .err .merkleRootMismatch else .ok node

structure VerifiedShred where
  slot : UInt64
  fecSetIndex : UInt32
  index : UInt32
  erasureShardIndex : ℕ
  merkleRoot : Bytes 32
  chainedRoot : Option (Bytes 32)
  kind : ShredKind
  dataFlags : Option UInt8
deriving DecidableEq

/-- `VerifiedShred::is_last_in_slot`. -/
def VerifiedShred.isLastInSlot (v : VerifiedShred) : Bool :=
  v.dataFlags.any lastInSlot

/-- `verify_shred`: parse, recover the Merkle root, verify the signature of the
root by the leader. -/
def verifyShred (P : Profile) (raw : List UInt8) (leaderPubkey : Bytes 32) :
    Exec ShredError VerifiedShred := do
  let p ← parseShred P raw
  let leaf ← merkleLeaf C p
  let proof ← slice p.raw p.proofRange.start p.proofRange.stop
  let root ← computeMerkleRoot C p.erasureShardIndex leaf proof
  match C.verifyingKeyFromBytes leaderPubkey with
  | none => .err .invalidPubkeyBytes
  | some pk =>
      match C.signatureFromSlice p.header.signature with
      | none => .err .invalidSignatureBytes
      | some sig =>
          if C.verify pk root.1 sig then
            .ok
              { slot := p.header.slot
                fecSetIndex := p.header.fecSetIndex
                index := p.header.index
                erasureShardIndex := p.erasureShardIndex
                merkleRoot := root
                chainedRoot := p.chainedRoot
                kind := p.header.variant.kind
                dataFlags := p.dataFlags }
          else .err .signatureVerifyFailed

/-! ## The loop as a climb -/

theorem merkleRootLoop_eq : ∀ (i : ℕ) (d : Bytes 32) (ss : List (Bytes 20)),
    merkleRootLoop C i d ss = (i / 2 ^ ss.length, C.tree.climb i d ss)
  | i, d, [] => by simp [merkleRootLoop, TreeHash.climb]
  | i, d, s :: ss => by
      have hnode : (if i % 2 = 0 then
            C.sha256 (merkleHashPrefixNode ++ (proofEntry d).1 ++ s.1)
          else C.sha256 (merkleHashPrefixNode ++ s.1 ++ (proofEntry d).1)) =
          C.sha256 (C.tree.join i d s) := by
        simp only [TreeHash.join, nodeMessage]
        split <;> rfl
      rw [merkleRootLoop]
      simp only [hnode]
      rw [merkleRootLoop_eq, TreeHash.climb, List.length_cons, Nat.shiftRight_one,
        Nat.div_div_eq_div_mul, pow_succ']

variable {C}

/-- `compute_merkle_root` accepts whole entries and an index that fits the
path, and returns where the climb ends. -/
theorem computeMerkleRoot_eq_ok {i : ℕ} {leaf root : Bytes 32} {proof : List UInt8} :
    computeMerkleRoot C i leaf proof = .ok root ↔
      20 ∣ proof.length ∧ i < 2 ^ (proof.length / 20) ∧
        root = C.tree.climb i leaf (chunksExact 20 proof) := by
  unfold computeMerkleRoot
  simp only [sizeOfProofEntry, merkleRootLoop_eq, length_chunksExact]
  by_cases hdvd : proof.length % 20 = 0
  · rw [if_neg (by simp [hdvd])]
    by_cases hi : i / 2 ^ (proof.length / 20) = 0
    · rw [if_neg (by simp [hi])]
      rw [Nat.div_eq_zero_iff] at hi
      have hpos := Nat.two_pow_pos (proof.length / 20)
      constructor
      · intro h
        cases h
        exact ⟨Nat.dvd_of_mod_eq_zero hdvd, by omega, rfl⟩
      · rintro ⟨_, _, rfl⟩
        rfl
    · rw [if_pos hi]
      constructor
      · intro h
        cases h
      · rintro ⟨_, hlt, _⟩
        exact absurd (Nat.div_eq_of_lt hlt) hi
  · rw [if_pos hdvd]
    constructor
    · intro h
      cases h
    · rintro ⟨h, _, _⟩
      exact absurd (Nat.mod_eq_zero_of_dvd h) hdvd

theorem not_isPanic_computeMerkleRoot (i : ℕ) (leaf : Bytes 32) (proof : List UInt8) :
    ¬ (computeMerkleRoot C i leaf proof).IsPanic := by
  unfold computeMerkleRoot
  split
  · simp
  · simp only
    split <;> simp

/-! ## Accepted shreds -/

variable {P : Profile} {raw : List UInt8} {v : ShredVariant} {i : ℕ}

/-- The bytes the Merkle leaf covers. -/
def authBytes (raw : List UInt8) (v : ShredVariant) : List UInt8 :=
  cut raw 64 v.proofStart

def proofEntries (raw : List UInt8) (v : ShredVariant) : List (Bytes 20) :=
  chunksExact 20 (cut raw v.proofStart v.proofEnd)

def leafOf (C : Crates) (raw : List UInt8) (v : ShredVariant) : Bytes 32 :=
  C.sha256 (leafMessage (authBytes raw v))

/-- The root that the buffer's own proof leads to. -/
def rootAt (C : Crates) (raw : List UInt8) (v : ShredVariant) (i : ℕ) : Bytes 32 :=
  C.tree.climb i (leafOf C raw v) (proofEntries raw v)

def verifiedOf (C : Crates) (raw : List UInt8) (v : ShredVariant) (i : ℕ) : VerifiedShred where
  slot := (headerOf raw v).slot
  fecSetIndex := (headerOf raw v).fecSetIndex
  index := (headerOf raw v).index
  erasureShardIndex := i
  merkleRoot := rootAt C raw v i
  chainedRoot := (parsed raw v i).chainedRoot
  kind := v.kind
  dataFlags := (parsed raw v i).dataFlags

@[simp] theorem verifiedOf_slot : (verifiedOf C raw v i).slot = (headerOf raw v).slot := rfl

@[simp] theorem verifiedOf_fecSetIndex :
    (verifiedOf C raw v i).fecSetIndex = (headerOf raw v).fecSetIndex := rfl

@[simp] theorem verifiedOf_merkleRoot : (verifiedOf C raw v i).merkleRoot = rootAt C raw v i := rfl

@[simp] theorem verifiedOf_erasureShardIndex : (verifiedOf C raw v i).erasureShardIndex = i := rfl

@[simp] theorem verifiedOf_kind : (verifiedOf C raw v i).kind = v.kind := rfl

/-- The leader's signature of the root is accepted. -/
def SignatureAccepted (C : Crates) (leaderPubkey : Bytes 32) (root : Bytes 32)
    (signature : Bytes 64) : Prop :=
  ∃ pk sig, C.verifyingKeyFromBytes leaderPubkey = some pk ∧
    C.signatureFromSlice signature = some sig ∧ C.verify pk root.1 sig = true

/-- Everything `verify_shred` has checked of a buffer it accepts, `v` being its
variant and `i` its erasure index. -/
structure Verified (C : Crates) (P : Profile) (raw : List UInt8) (leaderPubkey : Bytes 32)
    (v : ShredVariant) (i : ℕ) : Prop where
  decodes : ShredVariant.decode (raw.getD 64 0) = .ok v
  full : v.expectedLen ≤ raw.length
  index : indexOf P raw v = .ok i
  index_lt : i < 2 ^ v.proofSize.toNat
  signed : SignatureAccepted C leaderPubkey (rootAt C raw v i) (asArray 64 (cut raw 0 64))

theorem length_proofBytes (hv : ShredVariant.decode (raw.getD 64 0) = .ok v)
    (hlen : v.expectedLen ≤ raw.length) :
    (cut raw v.proofStart v.proofEnd).length = 20 * v.proofSize.toNat := by
  obtain ⟨_, _, hps⟩ := ShredVariant.decode_ok hv
  obtain ⟨_, _, hpe, hre, _⟩ := ShredVariant.tail_bounds hps
  rw [length_cut (by omega), Nat.mul_comm]
  simp only [ShredVariant.proofBytes, sizeOfProofEntry] at hpe
  omega

theorem length_proofEntries (hv : ShredVariant.decode (raw.getD 64 0) = .ok v)
    (hlen : v.expectedLen ≤ raw.length) :
    (proofEntries raw v).length = v.proofSize.toNat := by
  rw [proofEntries, length_chunksExact, length_proofBytes hv hlen]
  omega

/-- `verify_shred` past the parser: the root is computed and its signature is
checked. -/
theorem verifyShred_eq (pk : Bytes 32) (hv : ShredVariant.decode (raw.getD 64 0) = .ok v)
    (hlen : v.expectedLen ≤ raw.length) (hi : indexOf P raw v = .ok i) :
    verifyShred C P raw pk =
      (computeMerkleRoot C i (leafOf C raw v) (cut raw v.proofStart v.proofEnd) >>= fun root =>
        match C.verifyingKeyFromBytes pk with
        | none => .err .invalidPubkeyBytes
        | some vk =>
            match C.signatureFromSlice (asArray 64 (cut raw 0 64)) with
            | none => .err .invalidSignatureBytes
            | some sig =>
                if C.verify vk root.1 sig then .ok { verifiedOf C raw v i with merkleRoot := root }
                else .err .signatureVerifyFailed) := by
  obtain ⟨_, _, hps⟩ := ShredVariant.decode_ok hv
  obtain ⟨_, hst, hpe, hre, _⟩ := ShredVariant.tail_bounds hps
  have hleaf : merkleLeaf C (parsed raw v i) = .ok (leafOf C raw v) := by
    rw [merkleLeaf]
    simp only [parsed]
    rw [slice_eq (by omega) (by omega), Exec.ok_bind]
    rfl
  rw [verifyShred, parseShred_eq hv hlen, hi, Exec.ok_bind, Exec.ok_bind, hleaf, Exec.ok_bind]
  simp only [parsed]
  rw [slice_eq (by omega) (by omega), Exec.ok_bind]
  rfl

/-- A buffer that meets every check is accepted. -/
theorem Verified.verifyShred_eq {pk : Bytes 32} (h : Verified C P raw pk v i) :
    verifyShred C P raw pk = .ok (verifiedOf C raw v i) := by
  have hroot : computeMerkleRoot C i (leafOf C raw v) (cut raw v.proofStart v.proofEnd) =
      .ok (rootAt C raw v i) := by
    rw [computeMerkleRoot_eq_ok, length_proofBytes h.decodes h.full]
    refine ⟨Nat.dvd_mul_right 20 _, ?_, rfl⟩
    rw [Nat.mul_div_cancel_left _ (by decide)]
    exact h.index_lt
  obtain ⟨vk, sig, hvk, hsig, hver⟩ := h.signed
  rw [Shred.verifyShred_eq pk h.decodes h.full h.index, hroot, Exec.ok_bind, hvk, hsig]
  simp only [hver, if_true]
  rfl

/-- **What `verify_shred` accepts.** -/
theorem verifyShred_eq_ok {pk : Bytes 32} {w : VerifiedShred}
    (h : verifyShred C P raw pk = .ok w) :
    ∃ v i, Verified C P raw pk v i ∧ w = verifiedOf C raw v i := by
  obtain ⟨p, hp, _⟩ := Exec.bind_eq_ok.mp h
  obtain ⟨v, i, hv, hlen, hi, _⟩ := parseShred_eq_ok hp
  rw [Shred.verifyShred_eq pk hv hlen hi] at h
  obtain ⟨root, hroot, h⟩ := Exec.bind_eq_ok.mp h
  rw [computeMerkleRoot_eq_ok, length_proofBytes hv hlen,
    Nat.mul_div_cancel_left _ (by decide)] at hroot
  obtain ⟨_, hlt, rfl⟩ := hroot
  cases hvk : C.verifyingKeyFromBytes pk with
  | none => simp [hvk] at h
  | some vk =>
      cases hsig : C.signatureFromSlice (asArray 64 (cut raw 0 64)) with
      | none => simp [hvk, hsig] at h
      | some sig =>
          simp only [hvk, hsig] at h
          split at h
          · rename_i hver
            cases h
            exact ⟨v, i, ⟨hv, hlen, hi, hlt, vk, sig, hvk, hsig, hver⟩, rfl⟩
          · cases h

/-- `verify_shred` panics exactly where the parser does. -/
theorem verifyShred_isPanic_iff (pk : Bytes 32) :
    (verifyShred C P raw pk).IsPanic ↔ (parseShred P raw).IsPanic := by
  cases hp : parseShred P raw with
  | panic q =>
      rw [verifyShred, hp]
      simp
  | err e =>
      rw [verifyShred, hp]
      simp
  | ok p =>
      obtain ⟨v, i, hv, hlen, hi, _⟩ := parseShred_eq_ok hp
      rw [Shred.verifyShred_eq pk hv hlen hi]
      have hnot := not_isPanic_computeMerkleRoot (C := C) i (leafOf C raw v)
        (cut raw v.proofStart v.proofEnd)
      cases hroot : computeMerkleRoot C i (leafOf C raw v) (cut raw v.proofStart v.proofEnd) with
      | panic q => exact absurd ⟨q, hroot⟩ hnot
      | err e => simp
      | ok root =>
          rw [Exec.ok_bind]
          split
          · simp
          · split
            · simp
            · split <;> simp

/-! ## What is hashed -/

/-- The byte strings hashed while a buffer with variant `v` and erasure index
`i` is verified. -/
def hashedAt (C : Crates) (raw : List UInt8) (v : ShredVariant) (i : ℕ) : List (List UInt8) :=
  leafMessage (authBytes raw v) :: C.tree.climbed i (leafOf C raw v) (proofEntries raw v)

/-- The byte strings `verify_shred` hashes. -/
def hashedByVerify (C : Crates) (P : Profile) (raw : List UInt8) : List (List UInt8) :=
  match parseShred P raw with
  | .ok p => hashedAt C raw p.header.variant p.erasureShardIndex
  | _ => []

theorem Verified.hashedByVerify_eq {pk : Bytes 32} (h : Verified C P raw pk v i) :
    hashedByVerify C P raw = hashedAt C raw v i := by
  rw [hashedByVerify, parseShred_eq h.decodes h.full, h.index]
  rfl

end Lattica.Shred
