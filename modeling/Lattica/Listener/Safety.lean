import Lattica.Listener.Recovery

/-!
# Panics

`ingest` reads an unauthenticated datagram. Every slice is in range for every
datagram and every array access for every reachable assembler; what is left is
the parser's subtraction `index - fec_set_index` of a data shred, made before
any signature is looked at. The calls are safe exactly on the datagrams that
do not underflow it.
-/

namespace Lattica.Listener

open Foundation Shred

variable {C : Crates} {P : Profile} {a : FecAssembler}

/-- The three calls return, and the erasure index of a data shred is the
difference of its index fields as integers. -/
structure Safe (C : Crates) (P : Profile) (leaderForSlot : Leaders) (leaderPubkey : Bytes 32)
    (a : FecAssembler) (raw : List UInt8) : Prop where
  parse : ¬ (parseShred P raw).IsPanic
  verify : ¬ (verifyShred C P raw leaderPubkey).IsPanic
  ingest : ¬ (ingest C P leaderForSlot a raw).IsPanic
  index : ∀ p, parseShred P raw = .ok p → p.header.variant.kind = .data →
    p.header.fecSetIndex.toNat ≤ p.header.index.toNat ∧
      (p.erasureShardIndex : ℤ) = p.header.index.toNat - p.header.fecSetIndex.toNat

/-- `ingest` panics only where the parser does. -/
theorem ingest_isPanic_iff (h : WellFormed a) {leaders : Leaders} {raw : List UInt8} :
    (ingest C P leaders a raw).IsPanic ↔ (parseShred P raw).IsPanic := by
  have hgates : (gate C P leaders raw).IsPanic ↔ (parseShred P raw).IsPanic := gate_isPanic_iff
  rw [← hgates, ingest_eq_gate]
  cases hgate : gate C P leaders raw with
  | panic q => simp
  | err e => exact e.elim
  | ok r =>
      cases r with
      | error reason => simp
      | ok x =>
          obtain ⟨st, ss, es, heq, _⟩ := ingestAdmitted_exit (C := C) (P := P) h x
          simp [heq]

/-- An accepted data shred underflowed, or its index is the difference. -/
theorem index_of_parsed {raw : List UInt8} {p : ParsedShred} (h : parseShred P raw = .ok p)
    (hk : p.header.variant.kind = .data) (hno : ¬ IndexUnderflow raw) :
    p.header.fecSetIndex.toNat ≤ p.header.index.toNat ∧
      (p.erasureShardIndex : ℤ) = p.header.index.toNat - p.header.fecSetIndex.toNat := by
  obtain ⟨v, i, hv, hlen, hi, rfl⟩ := parseShred_eq_ok h
  have h83 : 83 ≤ raw.length := by
    have := v.expectedLen_le
    omega
  change v.kind = .data at hk
  have hle : (headerOf raw v).fecSetIndex.toNat ≤ (headerOf raw v).index.toNat := by
    by_contra hlt
    rw [headerOf_index h83, headerOf_fecSetIndex h83] at hlt
    exact hno ⟨v, hv, hk, hlen, by omega⟩
  rw [indexOf_data_of_le hk hle] at hi
  cases hi
  refine ⟨hle, ?_⟩
  change ((_ - _ : ℕ) : ℤ) = _
  rw [Nat.cast_sub hle]
  rfl

/-- Without overflow checks an underflowing datagram is parsed, with
`fec_set_index` above `index`. -/
theorem parseShred_of_underflow {raw : List UInt8} (h : IndexUnderflow raw)
    (hP : P.overflowChecks = false) :
    ∃ p, parseShred P raw = .ok p ∧ p.header.variant.kind = .data ∧
      p.header.index.toNat < p.header.fecSetIndex.toNat := by
  obtain ⟨v, hv, hk, hlen, hlt⟩ := h
  have h83 : 83 ≤ raw.length := by
    have := v.expectedLen_le
    omega
  rw [← headerOf_index (v := v) h83, ← headerOf_fecSetIndex (v := v) h83] at hlt
  refine ⟨parsed raw v ((headerOf raw v).index.toNat + 2 ^ 32 -
    (headerOf raw v).fecSetIndex.toNat), ?_, hk, hlt⟩
  rw [parseShred_eq hv hlen, indexOf_data hk,
    subU_wraps hP hlt (headerOf raw v).fecSetIndex.toNat_lt, Exec.ok_bind]

/-- **The calls are safe exactly where the index does not underflow**, for every
resolver, every key, every reachable assembler and every datagram. -/
theorem safe_iff_not_underflow (C : Crates) (P : Profile) (leaderForSlot : Leaders)
    (leaderPubkey : Bytes 32) (a : FecAssembler) (hreach : Reachable C P a) (raw : List UInt8) :
    Safe C P leaderForSlot leaderPubkey a raw ↔ ¬ IndexUnderflow raw := by
  have hwf := hreach.wellFormed
  constructor
  · intro hsafe hund
    cases hP : P.overflowChecks with
    | true => exact hsafe.parse (parseShred_isPanic_iff.mpr ⟨hund, hP⟩)
    | false =>
        obtain ⟨p, hp, hk, hlt⟩ := parseShred_of_underflow hund hP
        have hle := (hsafe.index p hp hk).1
        omega
  · intro hno
    have hparse : ¬ (parseShred P raw).IsPanic := fun hp => hno (parseShred_isPanic_iff.mp hp).1
    exact ⟨hparse, fun hv => hparse ((verifyShred_isPanic_iff leaderPubkey).mp hv),
      fun hi => hparse ((ingest_isPanic_iff hwf).mp hi), fun p hp hk => index_of_parsed hp hk hno⟩

/-- A data shred of a set that has been delivered and reconstructed. -/
theorem safe_iff_not_underflow_delivered :
    ∃ (B : BuiltSet (Reedsol.referenceCrates sha256) ⟨true⟩) (a : FecAssembler)
      (es : List FecEvent), ingestAll (Reedsol.referenceCrates sha256) ⟨true⟩ .new
        ((halfOf 0 0).map B.alone.call) = .ok (a, es) ∧
      (a.stateOf ⟨0, 64⟩).reconstructed = true ∧ (B.shred 0).length = 1203 ∧
      Safe (Reedsol.referenceCrates sha256) ⟨true⟩ B.alone.leaders B.set.leaderPubkey a
        (B.shred 0) := by
  obtain ⟨B, a, es, _, hrun, hrec⟩ := exists_sampleRun 64 0xc0 (by decide)
  have hv := B.verified Reedsol.referenceCrates_acceptsHonestSignatures 0
  have hno : ¬ IndexUnderflow (B.shred 0) := by
    intro hund
    have hp : (parseShred ⟨true⟩ (B.shred 0)).IsPanic := parseShred_isPanic_iff.mpr ⟨hund, rfl⟩
    rw [← verifyShred_isPanic_iff B.set.leaderPubkey, hv.verifyShred_eq] at hp
    exact Exec.not_isPanic_ok _ hp
  exact ⟨B, a, es, hrun, hrec, B.length_shred 0,
    (safe_iff_not_underflow _ ⟨true⟩ _ _ a ⟨_, es, hrun⟩ _).mpr hno⟩

/-- A data shred of 1203 bytes, zero but for the variant byte 0x90 at 64 and the
low byte of `fec_set_index` at 79. -/
def underflowing : List UInt8 :=
  List.replicate 64 0 ++ 0x90 :: (List.replicate 14 0 ++ 1 :: List.replicate 1123 0)

theorem indexUnderflow_underflowing : IndexUnderflow underflowing := by
  refine ⟨⟨.data, 0, true, false⟩, rfl, rfl, ?_, ?_⟩
  · simp only [underflowing, List.length_append, List.length_cons, List.length_replicate]
    decide
  · change fromLe [0, 0, 0, 0] < fromLe [1, 0, 0, 0]
    decide

/-- One unsigned datagram ends the listener where overflow is checked, and is
given the position 2^32 - 1 where it is not. -/
theorem ingest_panics_on_underflow :
    (parseShred ⟨true⟩ underflowing).IsPanic ∧
      (ingest (Reedsol.referenceCrates sha256) ⟨true⟩ (fun _ => none) .new underflowing).IsPanic ∧
      ∃ p, parseShred ⟨false⟩ underflowing = .ok p ∧ p.header.variant.kind = .data ∧
        p.header.index.toNat < p.header.fecSetIndex.toNat := by
  have hparse : (parseShred ⟨true⟩ underflowing).IsPanic :=
    parseShred_isPanic_iff.mpr ⟨indexUnderflow_underflowing, rfl⟩
  exact ⟨hparse, (ingest_isPanic_iff wellFormed_new).mpr hparse,
    parseShred_of_underflow indexUnderflow_underflowing rfl⟩

end Lattica.Listener
