import Lattica.Shred.Verify

/-!
# What the parser and the verifier read

An accepted buffer is tiled by signature, leaf bytes, proof and retransmitter
signature. Parser and verifier look at nothing behind the proof: every fixed
offset is below the least place a proof can end, so two full-length buffers with
the same bytes up to there are parsed and verified alike, whatever the outcome.
-/

namespace Lattica.Shred

open Foundation

variable {C : Crates} {P : Profile} {raw raw' : List UInt8} {v : ShredVariant}

/-- How the ranges of a parsed shred lie in its buffer. -/
structure Tiled (raw : List UInt8) (p : ParsedShred) : Prop where
  raw_eq : p.raw = raw
  signature : p.header.signature.1 = cut raw 0 64
  leaf_start : p.leafRange.start = 64
  leaf_le : p.leafRange.start + 32 ≤ p.leafRange.stop
  proof_start : p.proofRange.start = p.leafRange.stop
  proof_le : p.proofRange.start ≤ p.proofRange.stop
  proof_stop : p.proofRange.stop = p.header.variant.proofEnd
  tail : p.proofRange.stop + (if p.header.variant.resigned then 64 else 0) =
    p.header.variant.expectedLen
  full : p.header.variant.expectedLen ≤ raw.length
  chained : ∃ root : Bytes 32, p.chainedRoot = some root ∧
    root.1 = cut raw (p.leafRange.stop - 32) p.leafRange.stop

/-- **Every accepted buffer is tiled.** -/
theorem parseShred_tiled {p : ParsedShred} (h : parseShred P raw = .ok p) : Tiled raw p := by
  obtain ⟨v, i, hv, hlen, _, rfl⟩ := parseShred_eq_ok h
  obtain ⟨_, _, hps⟩ := ShredVariant.decode_ok hv
  obtain ⟨_, hstart, hend, htail, _⟩ := ShredVariant.tail_bounds hps
  have hbytes := v.expectedLen_le
  refine
    { raw_eq := rfl, signature := ?_, leaf_start := rfl, leaf_le := ?_, proof_start := rfl
      proof_le := ?_, proof_stop := rfl, tail := htail, full := hlen, chained := ⟨_, rfl, ?_⟩ }
  · show (asArray 64 (cut raw 0 64)).1 = cut raw 0 64
    rw [asArray_val]
    rw [length_cut (by omega)]
  · show 64 + 32 ≤ v.proofStart
    omega
  · show v.proofStart ≤ v.proofEnd
    omega
  · rw [asArray_val]
    · rfl
    · rw [length_cut (by omega)]
      omega

/-! ## Buffers with one prefix -/

/-- The fixed offsets are below the end of every proof. -/
theorem ShredVariant.fixed_le {byte : UInt8} (hv : ShredVariant.decode byte = .ok v) :
    89 < v.proofEnd ∧ v.proofStart ≤ v.proofEnd ∧ v.proofEnd ≤ v.expectedLen := by
  obtain ⟨_, _, hps⟩ := ShredVariant.decode_ok hv
  obtain ⟨_, _, hstart, htail, hend⟩ := ShredVariant.tail_bounds hps
  omega

section Prefix

variable (hv : ShredVariant.decode (raw.getD 64 0) = .ok v) (hlen : v.expectedLen ≤ raw.length)
  (hlen' : v.expectedLen ≤ raw'.length) (hpre : raw.take v.proofEnd = raw'.take v.proofEnd)

include hv hpre

theorem decode_of_agree : ShredVariant.decode (raw'.getD 64 0) = .ok v := by
  obtain ⟨hfixed, _, _⟩ := ShredVariant.fixed_le hv
  rw [← getD_of_take_eq hpre (by omega)]
  exact hv

theorem headerOf_of_agree : headerOf raw' v = headerOf raw v := by
  obtain ⟨hfixed, _, _⟩ := ShredVariant.fixed_le hv
  unfold headerOf
  rw [cut_of_take_eq hpre 0 (by omega), cut_of_take_eq hpre 65 (by omega),
    cut_of_take_eq hpre 73 (by omega), cut_of_take_eq hpre 77 (by omega),
    cut_of_take_eq hpre 79 (by omega)]

theorem parsed_of_agree (i : ℕ) : parsed raw' v i = { parsed raw v i with raw := raw' } := by
  obtain ⟨hfixed, hstart, _⟩ := ShredVariant.fixed_le hv
  unfold parsed
  rw [headerOf_of_agree hv hpre, cut_of_take_eq hpre (v.proofStart - 32) hstart,
    getD_of_take_eq hpre (i := 85) (by omega)]

theorem verifiedOf_of_agree (i : ℕ) : verifiedOf C raw' v i = verifiedOf C raw v i := by
  obtain ⟨_, hstart, _⟩ := ShredVariant.fixed_le hv
  unfold verifiedOf rootAt leafOf authBytes proofEntries
  rw [headerOf_of_agree hv hpre, parsed_of_agree hv hpre, cut_of_take_eq hpre 64 hstart,
    cut_of_take_eq hpre v.proofStart le_rfl]

include hlen hlen'

theorem indexOf_of_agree : indexOf P raw' v = indexOf P raw v := by
  obtain ⟨hfixed, _, _⟩ := ShredVariant.fixed_le hv
  have hbytes := v.expectedLen_le
  cases hk : v.kind with
  | data => rw [indexOf_data hk, indexOf_data hk, headerOf_of_agree hv hpre]
  | code =>
      rw [indexOf_code hk (by omega), indexOf_code hk (by omega),
        cut_of_take_eq hpre 87 (by omega)]

/-- The parser returns the same, error and panic included, but for the slice. -/
theorem parseShred_of_agree :
    parseShred P raw' = parseShred P raw >>= fun p => .ok { p with raw := raw' } := by
  rw [parseShred_eq hv hlen, parseShred_eq (decode_of_agree hv hpre) hlen',
    indexOf_of_agree hv hlen hlen' hpre, bind_assoc]
  refine bind_congr fun i => ?_
  rw [parsed_of_agree hv hpre, Exec.ok_bind]

/-- The verifier returns the same, error and panic included. -/
theorem verifyShred_of_agree (pk : Bytes 32) :
    verifyShred C P raw' pk = verifyShred C P raw pk := by
  obtain ⟨hfixed, hstart, _⟩ := ShredVariant.fixed_le hv
  have hindex := indexOf_of_agree (P := P) hv hlen hlen' hpre
  cases hi : indexOf P raw v with
  | err e =>
      rw [verifyShred, verifyShred, parseShred_eq hv hlen,
        parseShred_eq (decode_of_agree hv hpre) hlen', hindex, hi]
      rfl
  | panic q =>
      rw [verifyShred, verifyShred, parseShred_eq hv hlen,
        parseShred_eq (decode_of_agree hv hpre) hlen', hindex, hi]
      rfl
  | ok i =>
      have hleaf : leafOf C raw' v = leafOf C raw v := by
        rw [leafOf, leafOf, authBytes, authBytes, cut_of_take_eq hpre 64 hstart]
      rw [verifyShred_eq pk hv hlen hi,
        verifyShred_eq pk (decode_of_agree hv hpre) hlen' (hindex.trans hi), hleaf,
        cut_of_take_eq hpre v.proofStart le_rfl, verifiedOf_of_agree hv hpre,
        cut_of_take_eq hpre 0 (by omega)]

end Prefix

end Lattica.Shred
