import Lattica.Foundation.Bytes
import Mathlib.Tactic.IntervalCases

/-!
# The shred wire format

`parse_shred` of `crates/shred/src/lib.rs`: the variant byte, the common
header, and the place of the chained root and of the Merkle proof in the tail.
`parsed` is the closed form of what the parser returns; `parseShred_eq` and
`parseShred_eq_ok` say when it returns it. The one operation of the parser
that can leave its type is the subtraction `index - fec_set_index` of a data
shred (`IndexUnderflow`); every slice is in range for every buffer.
-/

namespace Lattica.Shred

open Foundation

/-! ## Constants -/

@[reducible, simp] def sizeOfSignature : ℕ := 64
@[reducible, simp] def sizeOfCommonHeader : ℕ := 83
@[reducible, simp] def sizeOfMerkleRoot : ℕ := 32
@[reducible, simp] def sizeOfProofEntry : ℕ := 20
@[reducible, simp] def sizeOfRetransmitterSig : ℕ := 64
@[reducible, simp] def dataShredsPerFec : ℕ := 32
@[reducible, simp] def codingShredsPerFec : ℕ := 32
@[reducible, simp] def shredsPerFec : ℕ := dataShredsPerFec + codingShredsPerFec
@[reducible, simp] def dataShredPayloadSize : ℕ := 1203
@[reducible, simp] def codingShredPayloadSize : ℕ := 1228
@[reducible, simp] def dataShredFlagsOffset : ℕ := 85

/-- Bitmask in `flags`: marks the final shred of a FEC set. -/
def shredFlagDataComplete : UInt8 := 0b01000000

/-- Bitmask in `flags`: marks the final shred of the slot. -/
def shredFlagLastInSlot : UInt8 := 0b10000000

/-! ## Errors -/

inductive ShredError where
  | payloadTooSmall (len : ℕ)
  | unknownVariant (byte : UInt8)
  | invalidSignatureBytes
  | invalidPubkeyBytes
  | merkleRootMismatch
  | signatureVerifyFailed
  | proofSizeOverflow (proofSize : UInt8)
deriving DecidableEq, Repr

/-- Two lower-case hex digits, as `{:02x}`. -/
def hexByte (b : UInt8) : String :=
  String.ofList [Nat.digitChar (b.toNat / 16), Nat.digitChar (b.toNat % 16)]

instance : ToString ShredError where
  toString
    | .payloadTooSmall len => s!"payload too small: {len} bytes"
    | .unknownVariant byte => s!"unknown shred variant byte: 0x{hexByte byte}"
    | .invalidSignatureBytes => "invalid signature encoding"
    | .invalidPubkeyBytes => "invalid pubkey encoding"
    | .merkleRootMismatch => "invalid merkle proof (root mismatch)"
    | .signatureVerifyFailed => "ed25519 signature verification failed"
    | .proofSizeOverflow proofSize =>
        s!"proof_size {proofSize} would overflow shred buffer"

/-! ## Variants -/

inductive ShredKind where
  | data
  | code
deriving DecidableEq, Repr

structure ShredVariant where
  kind : ShredKind
  proofSize : UInt8
  chained : Bool
  resigned : Bool
deriving DecidableEq, Repr

namespace ShredVariant

/-- Decode a variant byte; only the four chained variants are accepted. -/
def decode (byte : UInt8) : Except ShredError ShredVariant :=
  let proofSize := byte &&& 0x0f
  let hi := byte &&& 0xf0
  if hi = 0x60 then .ok ⟨.code, proofSize, true, false⟩
  else if hi = 0x70 then .ok ⟨.code, proofSize, true, true⟩
  else if hi = 0x90 then .ok ⟨.data, proofSize, true, false⟩
  else if hi = 0xb0 then .ok ⟨.data, proofSize, true, true⟩
  else .error (.unknownVariant byte)

def encode (v : ShredVariant) : UInt8 :=
  let hi : UInt8 := match v.kind, v.resigned with
    | .code, false => 0x60
    | .code, true => 0x70
    | .data, false => 0x90
    | .data, true => 0xb0
  hi ||| (v.proofSize &&& 0x0f)

/-- What every decoded variant satisfies: it is chained, and its proof size is
a low nibble. -/
theorem decode_ok {byte : UInt8} {v : ShredVariant} (h : decode byte = .ok v) :
    v.chained = true ∧ v.proofSize = byte &&& 0x0f ∧ v.proofSize.toNat < 16 := by
  have hlow : (byte &&& 0x0f).toNat < 16 := by
    rw [UInt8.toNat_and]
    exact Nat.lt_of_le_of_lt Nat.and_le_right (by decide)
  simp only [decode] at h
  split_ifs at h <;> cases h <;> exact ⟨rfl, rfl, hlow⟩

/-- A decoded variant says which byte it came from. -/
theorem encode_of_decode {byte : UInt8} {v : ShredVariant} (h : decode byte = .ok v) :
    v.encode = byte := by
  have hfin : ∀ n : Fin 256, (UInt8.ofFin n &&& 0xf0) ||| ((UInt8.ofFin n &&& 0x0f) &&& 0x0f) =
      UInt8.ofFin n := by decide +kernel
  have hsplit : ∀ b : UInt8, (b &&& 0xf0) ||| ((b &&& 0x0f) &&& 0x0f) = b := fun b => hfin b.toFin
  simp only [decode] at h
  split_ifs at h with h6 h7 h9 hb <;> cases h <;> simp only [encode]
  · rw [← h6, hsplit]
  · rw [← h7, hsplit]
  · rw [← h9, hsplit]
  · rw [← hb, hsplit]

def expectedLen (v : ShredVariant) : ℕ :=
  match v.kind with
  | .data => dataShredPayloadSize
  | .code => codingShredPayloadSize

def resignBytes (v : ShredVariant) : ℕ :=
  if v.resigned then sizeOfRetransmitterSig else 0

def proofBytes (v : ShredVariant) : ℕ := v.proofSize.toNat * sizeOfProofEntry

/-- Where the Merkle proof ends: before the retransmitter signature, if any. -/
def proofEnd (v : ShredVariant) : ℕ := v.expectedLen - v.resignBytes

def proofStart (v : ShredVariant) : ℕ := v.proofEnd - v.proofBytes

theorem resignBytes_le (v : ShredVariant) : v.resignBytes ≤ 64 := by
  unfold resignBytes
  split <;> simp

theorem expectedLen_le (v : ShredVariant) : 1203 ≤ v.expectedLen ∧ v.expectedLen ≤ 1228 := by
  unfold expectedLen
  split <;> simp

/-- The layout of the tail, for every proof size a nibble can hold. -/
theorem tail_bounds {v : ShredVariant} (h : v.proofSize.toNat < 16) :
    v.proofBytes ≤ 300 ∧ 839 ≤ v.proofStart ∧ v.proofStart + v.proofBytes = v.proofEnd ∧
      v.proofEnd + v.resignBytes = v.expectedLen ∧ 1139 ≤ v.proofEnd := by
  have hr := v.resignBytes_le
  have hl := v.expectedLen_le
  have hp : v.proofBytes ≤ 300 := by
    simp only [proofBytes, sizeOfProofEntry]
    omega
  simp only [proofStart, proofEnd]
  omega

end ShredVariant

/-! ## Parsed shreds -/

structure CommonHeader where
  signature : Bytes 64
  variant : ShredVariant
  slot : UInt64
  index : UInt32
  version : UInt16
  fecSetIndex : UInt32
deriving DecidableEq

/-- `start..stop`. -/
structure ByteRange where
  start : ℕ
  stop : ℕ
deriving DecidableEq, Repr

structure ParsedShred where
  raw : List UInt8
  header : CommonHeader
  /-- Byte range hashed for the Merkle leaf. -/
  leafRange : ByteRange
  proofRange : ByteRange
  chainedRoot : Option (Bytes 32)
  /-- Index of this shred inside its FEC set, data before coding. -/
  erasureShardIndex : ℕ
  /-- The `flags` byte of a data shred. -/
  dataFlags : Option UInt8
deriving DecidableEq

/-- `flags & SHRED_FLAG_LAST_IN_SLOT != 0`. -/
def lastInSlot (flags : UInt8) : Bool :=
  decide (flags &&& shredFlagLastInSlot ≠ 0)

/-- Data shreds use `index - fec_set_index`; coding shreds use their
`position` field. -/
def erasureShardIndex (P : Profile) (raw : List UInt8) (kind : ShredKind)
    (index fecSetIndex : UInt32) : Exec ShredError ℕ :=
  match kind with
  | .data => subU P 32 index.toNat fecSetIndex.toNat
  | .code => do
      let position ← readLe 2 raw 87
      addU P 64 dataShredsPerFec position

/-- `parse_shred`. -/
def parseShred (P : Profile) (raw : List UInt8) : Exec ShredError ParsedShred :=
  if raw.length < sizeOfCommonHeader then .err (.payloadTooSmall raw.length)
  else do
    let signature ← toArray 64 (← slice raw 0 sizeOfSignature)
    let variant ← Exec.ofExcept (ShredVariant.decode (← getByte raw 64))
    let slot ← readLe 8 raw 65
    let index ← readLe 4 raw 73
    let version ← readLe 2 raw 77
    let fecSetIndex ← readLe 4 raw 79
    let header : CommonHeader :=
      { signature, variant, slot := .ofNat slot, index := .ofNat index,
        version := .ofNat version, fecSetIndex := .ofNat fecSetIndex }
    let expectedLen := match variant.kind with
      | .data => dataShredPayloadSize
      | .code => codingShredPayloadSize
    if raw.length < expectedLen then .err (.payloadTooSmall raw.length)
    else do
      let proofBytes ← mulU P 64 variant.proofSize.toNat sizeOfProofEntry
      let resignBytes := if variant.resigned then sizeOfRetransmitterSig else 0
      let tail ← addU P 64 (← addU P 64 proofBytes resignBytes) sizeOfSignature
      if tail > expectedLen then .err (.proofSizeOverflow variant.proofSize)
      else do
        let proofEnd ← subU P 64 expectedLen resignBytes
        let proofStart ← subU P 64 proofEnd proofBytes
        let chainedRoot ←
          if variant.chained then do
            let crStart ← subU P 64 proofStart sizeOfMerkleRoot
            let buf ← toArray 32 (← slice raw crStart proofStart)
            pure (some buf)
          else pure none
        let erasureShardIndex ←
          erasureShardIndex P raw variant.kind header.index header.fecSetIndex
        let dataFlags ← match variant.kind with
          | .data => do
              let flags ← getByte raw dataShredFlagsOffset
              pure (some flags)
          | .code => pure none
        pure
          { raw, header, leafRange := ⟨sizeOfSignature, proofStart⟩,
            proofRange := ⟨proofStart, proofEnd⟩, chainedRoot, erasureShardIndex, dataFlags }

/-! ## What the parser returns -/

def headerOf (raw : List UInt8) (v : ShredVariant) : CommonHeader where
  signature := asArray 64 (cut raw 0 64)
  variant := v
  slot := .ofNat (fromLe (cut raw 65 73))
  index := .ofNat (fromLe (cut raw 73 77))
  version := .ofNat (fromLe (cut raw 77 79))
  fecSetIndex := .ofNat (fromLe (cut raw 79 83))

/-- The parsed shred of a buffer with variant `v` and erasure index `i`. -/
def parsed (raw : List UInt8) (v : ShredVariant) (i : ℕ) : ParsedShred where
  raw := raw
  header := headerOf raw v
  leafRange := ⟨64, v.proofStart⟩
  proofRange := ⟨v.proofStart, v.proofEnd⟩
  chainedRoot := some (asArray 32 (cut raw (v.proofStart - 32) v.proofStart))
  erasureShardIndex := i
  dataFlags := match v.kind with
    | .data => some (raw.getD 85 0)
    | .code => none

/-- The erasure index of a full-length buffer with variant `v`. -/
def indexOf (P : Profile) (raw : List UInt8) (v : ShredVariant) : Exec ShredError ℕ :=
  erasureShardIndex P raw v.kind (headerOf raw v).index (headerOf raw v).fecSetIndex

variable {P : Profile} {raw : List UInt8} {v : ShredVariant}

/-- A full-length buffer with a known variant byte is accepted, up to its
erasure index. -/
theorem parseShred_eq (hv : ShredVariant.decode (raw.getD 64 0) = .ok v)
    (hlen : v.expectedLen ≤ raw.length) :
    parseShred P raw = indexOf P raw v >>= fun i => .ok (parsed raw v i) := by
  obtain ⟨hch, _, hps⟩ := ShredVariant.decode_ok hv
  obtain ⟨hpb, hst, hpe, hre, hen⟩ := ShredVariant.tail_bounds hps
  have hel := v.expectedLen_le
  have hrb := v.resignBytes_le
  have hroot : (cut raw (v.proofStart - 32) v.proofStart).length = 32 := by
    rw [length_cut (by omega)]
    omega
  have hsig : (cut raw 0 64).length = 64 := by
    rw [length_cut (by omega)]
  have hmul : (mulU P 64 v.proofSize.toNat 20 : Exec ShredError ℕ) = .ok v.proofBytes :=
    mulU_eq (by omega)
  have hadd : (addU P 64 v.proofBytes v.resignBytes : Exec ShredError ℕ) =
      .ok (v.proofBytes + v.resignBytes) := addU_eq (by omega)
  have hadd' : (addU P 64 (v.proofBytes + v.resignBytes) 64 : Exec ShredError ℕ) =
      .ok (v.proofBytes + v.resignBytes + 64) := addU_eq (by omega)
  have hend : (subU P 64 v.expectedLen v.resignBytes : Exec ShredError ℕ) = .ok v.proofEnd :=
    subU_eq (by omega) (by omega)
  have hstart : (subU P 64 v.proofEnd v.proofBytes : Exec ShredError ℕ) = .ok v.proofStart :=
    subU_eq (by omega) (by omega)
  have hcr : (subU P 64 v.proofStart 32 : Exec ShredError ℕ) = .ok (v.proofStart - 32) :=
    subU_eq (by omega) (by omega)
  rw [parseShred, if_neg (by simp only [sizeOfCommonHeader]; omega)]
  simp only [sizeOfSignature, sizeOfProofEntry, sizeOfMerkleRoot, sizeOfRetransmitterSig]
  rw [slice_eq (by omega) (by omega), Exec.ok_bind, toArray_eq_asArray hsig, Exec.ok_bind,
    getByte_eq (by omega), Exec.ok_bind, hv, Exec.ofExcept, Exec.ok_bind,
    readLe_eq (by omega), Exec.ok_bind, readLe_eq (by omega), Exec.ok_bind,
    readLe_eq (by omega), Exec.ok_bind, readLe_eq (by omega), Exec.ok_bind]
  change (if raw.length < v.expectedLen then _ else _) = _
  rw [if_neg (by omega), hmul, Exec.ok_bind]
  change (addU P 64 v.proofBytes v.resignBytes >>= _) = _
  rw [hadd, Exec.ok_bind, hadd', Exec.ok_bind]
  change (if v.proofBytes + v.resignBytes + 64 > v.expectedLen then _ else
    subU P 64 v.expectedLen v.resignBytes >>= _) = _
  rw [if_neg (by omega), hend, Exec.ok_bind, hstart, Exec.ok_bind, hch, if_pos rfl, hcr,
    Exec.ok_bind, slice_eq (by omega) (by omega), Exec.ok_bind, toArray_eq_asArray hroot,
    Exec.ok_bind]
  simp only [Exec.pure_eq, Exec.ok_bind]
  change (indexOf P raw v >>= _) = _
  refine bind_congr fun i => ?_
  cases hk : v.kind with
  | data =>
      simp only [dataShredFlagsOffset]
      rw [getByte_eq (by omega), Exec.ok_bind]
      simp [parsed, headerOf, hk]
  | code => simp [parsed, headerOf, hk]

/-- A buffer the parser rejects or accepts: short, unknown variant, short for
its variant, or full length. -/
theorem parseShred_cases (P : Profile) (raw : List UInt8) :
    (∃ e, parseShred P raw = .err e) ∨
      ∃ v, ShredVariant.decode (raw.getD 64 0) = .ok v ∧ v.expectedLen ≤ raw.length := by
  by_cases hshort : raw.length < 83
  · exact Or.inl ⟨_, by rw [parseShred, if_pos hshort]⟩
  have hsig : (cut raw 0 64).length = 64 := by
    rw [length_cut (by omega)]
  cases hv : ShredVariant.decode (raw.getD 64 0) with
  | error e =>
      refine Or.inl ⟨e, ?_⟩
      rw [parseShred, if_neg hshort, slice_eq (by omega) (by simp; omega), Exec.ok_bind,
        toArray_eq_asArray hsig, Exec.ok_bind, getByte_eq (by omega), Exec.ok_bind, hv]
      rfl
  | ok v =>
      by_cases hlen : raw.length < v.expectedLen
      · refine Or.inl ⟨.payloadTooSmall raw.length, ?_⟩
        rw [parseShred, if_neg hshort, slice_eq (by omega) (by simp; omega), Exec.ok_bind,
          toArray_eq_asArray hsig, Exec.ok_bind, getByte_eq (by omega), Exec.ok_bind, hv,
          Exec.ofExcept, Exec.ok_bind, readLe_eq (by omega), Exec.ok_bind,
          readLe_eq (by omega), Exec.ok_bind, readLe_eq (by omega), Exec.ok_bind,
          readLe_eq (by omega), Exec.ok_bind]
        exact if_pos hlen
      · exact Or.inr ⟨v, rfl, by omega⟩

/-- **What an accepted buffer looks like.** -/
theorem parseShred_eq_ok {p : ParsedShred} (h : parseShred P raw = .ok p) :
    ∃ v i, ShredVariant.decode (raw.getD 64 0) = .ok v ∧ v.expectedLen ≤ raw.length ∧
      indexOf P raw v = .ok i ∧ p = parsed raw v i := by
  rcases parseShred_cases P raw with ⟨e, he⟩ | ⟨v, hv, hlen⟩
  · rw [he] at h
    cases h
  · rw [parseShred_eq hv hlen] at h
    obtain ⟨i, hi, hp⟩ := Exec.bind_eq_ok.mp h
    cases hp
    exact ⟨v, i, hv, hlen, hi, rfl⟩

/-! ## The erasure index -/

theorem headerOf_index (hlen : 83 ≤ raw.length) :
    (headerOf raw v).index.toNat = fromLe (cut raw 73 77) := by
  have hlt := fromLe_cut_lt (n := 4) (a := 73) (l := raw) (by omega)
  exact UInt32.toNat_ofNat_of_lt' hlt

theorem headerOf_fecSetIndex (hlen : 83 ≤ raw.length) :
    (headerOf raw v).fecSetIndex.toNat = fromLe (cut raw 79 83) := by
  have hlt := fromLe_cut_lt (n := 4) (a := 79) (l := raw) (by omega)
  exact UInt32.toNat_ofNat_of_lt' hlt

/-- The buffers on which `index - fec_set_index` leaves `u32`: full-length data
shreds whose `index` is below their `fec_set_index`. -/
def IndexUnderflow (raw : List UInt8) : Prop :=
  ∃ v, ShredVariant.decode (raw.getD 64 0) = .ok v ∧ v.kind = .data ∧
    v.expectedLen ≤ raw.length ∧ fromLe (cut raw 73 77) < fromLe (cut raw 79 83)

theorem indexOf_code (hk : v.kind = .code) (hlen : 89 ≤ raw.length) :
    indexOf P raw v = .ok (32 + fromLe (cut raw 87 89)) := by
  have hlt := fromLe_cut_lt (n := 2) (a := 87) (l := raw) (by omega)
  simp only [indexOf, hk, erasureShardIndex]
  rw [readLe_eq (by omega), Exec.ok_bind]
  exact addU_eq (by simp only [dataShredsPerFec]; omega)

theorem indexOf_data (hk : v.kind = .data) :
    indexOf P raw v =
      subU P 32 (headerOf raw v).index.toNat (headerOf raw v).fecSetIndex.toNat := by
  simp only [indexOf, hk, erasureShardIndex]

/-- Off the underflow the index of a data shred is the difference. -/
theorem indexOf_data_of_le (hk : v.kind = .data)
    (hle : (headerOf raw v).fecSetIndex.toNat ≤ (headerOf raw v).index.toNat) :
    indexOf P raw v =
      .ok ((headerOf raw v).index.toNat - (headerOf raw v).fecSetIndex.toNat) := by
  rw [indexOf_data hk]
  exact subU_eq hle (headerOf raw v).index.toNat_lt

/-- The parser panics only where the index underflows and overflow is checked. -/
theorem parseShred_isPanic_iff :
    (parseShred P raw).IsPanic ↔ IndexUnderflow raw ∧ P.overflowChecks = true := by
  rcases parseShred_cases P raw with ⟨e, he⟩ | ⟨v, hv, hlen⟩
  · have hnot : ¬ IndexUnderflow raw := by
      rintro ⟨v, hv, _, hlen, _⟩
      rw [parseShred_eq hv hlen] at he
      cases hi : indexOf P raw v with
      | ok i => rw [hi] at he; cases he
      | err e' =>
          rename_i hk _
          rw [indexOf_data hk, subU, arith] at hi
          split_ifs at hi
      | panic q => rw [hi] at he; cases he
    simp [he, hnot]
  · have h83 : 83 ≤ raw.length := by
      have := v.expectedLen_le
      omega
    rw [parseShred_eq hv hlen]
    have hone : IndexUnderflow raw ↔
        v.kind = .data ∧ (headerOf raw v).index.toNat < (headerOf raw v).fecSetIndex.toNat := by
      rw [headerOf_index h83, headerOf_fecSetIndex h83]
      constructor
      · rintro ⟨v', hv', hk, _, hlt⟩
        rw [hv] at hv'
        cases hv'
        exact ⟨hk, hlt⟩
      · rintro ⟨hk, hlt⟩
        exact ⟨v, hv, hk, hlen, hlt⟩
    rw [hone]
    cases hk : v.kind with
    | code =>
        have h89 : 89 ≤ raw.length := by
          have := v.expectedLen_le
          omega
        rw [indexOf_code hk h89]
        simp
    | data =>
        by_cases hlt : (headerOf raw v).index.toNat < (headerOf raw v).fecSetIndex.toNat
        · rw [indexOf_data hk]
          cases hP : P.overflowChecks with
          | true => simp [subU_checked hP hlt, hlt]
          | false => simp [subU_wraps hP hlt (headerOf raw v).fecSetIndex.toNat_lt]
        · rw [indexOf_data_of_le hk (by omega)]
          simp [hlt]

end Lattica.Shred
