import Lattica.Reedsol.ReferenceCrates
import Lattica.Shred.FecSetVerify

/-!
# The format round trip

For every payload that fits, the constructor succeeds; each of its 64 shreds
is accepted and reports the set's parameters; and the data shreds, cut at
their own size fields, concatenate to the payload.
-/

namespace Lattica.Shred

open Foundation

variable {C : Crates} {P : Profile} {payload : List UInt8} {params : FecSetParams C}

/-! ## The payload -/

theorem flatten_pieces (payload : List UInt8) : ∀ n : ℕ,
    ((List.range n).map (pieceOf payload)).flatten = payload.take (n * 963)
  | 0 => by simp
  | n + 1 => by
      rw [List.range_succ, List.map_append, List.flatten_append, flatten_pieces payload n,
        Nat.succ_mul, List.take_add]
      simp [pieceOf, cut]

section Set

variable {parity : List (List UInt8)} (h : ParityShape parity)

include h

theorem cut_shredAt_data {i off b : ℕ} (hi : i < 32) {s : List UInt8}
    (hmem : (off, s) ∈ dataWrites payload params i (indexAt params i))
    (hb : b = off + s.length) (hlo : 64 ≤ off) (hhi : b ≤ 1083) :
    cut (shredAt C payload params parity i) off b = s := by
  obtain ⟨_, _, hlow⟩ := layout_bounds i
  have hf : Fields params i (filledAt payload params parity i) := fields_filledAt h (by omega)
  rw [shredAt, cut_sealShred hf.length (length_proofAt h i) hlo (by omega), filledAt, if_pos hi]
  exact cut_filledData hmem hb

/-- The size field counts the header and the payload bytes. -/
theorem size_shredAt {i : ℕ} (hi : i < 32) :
    fromLe (cut (shredAt C payload params parity i) 86 88) =
      88 + (pieceOf payload i).length := by
  have hpiece := length_pieceOf payload i
  rw [cut_shredAt_data h hi (s := toLe 2 (88 + (pieceOf payload i).length))
    (by simp [dataWrites]) (by simp) (by omega) (by omega), fromLe_toLe 2 _ (by omega)]

theorem payload_shredAt {i : ℕ} (hi : i < 32) :
    cut (shredAt C payload params parity i) 88
      (fromLe (cut (shredAt C payload params parity i) 86 88)) = pieceOf payload i := by
  have hpiece := length_pieceOf payload i
  rw [size_shredAt h hi]
  exact cut_shredAt_data h hi (by simp [dataWrites]) rfl (by omega) (by omega)

/-- The data shreds carry the payload. -/
theorem payload_setOf (hlen : payload.length ≤ 963 * 32) :
    (((setOf C payload params parity).shreds.take 32).map fun raw =>
      cut raw 88 (fromLe (cut raw 86 88))).flatten = payload := by
  have hpieces : ((setOf C payload params parity).shreds.take 32).map (fun raw =>
      cut raw 88 (fromLe (cut raw 86 88))) = (List.range 32).map (pieceOf payload) := by
    apply List.ext_getElem?
    intro i
    by_cases hi : i < 32
    · rw [List.getElem?_map, List.getElem?_take_of_lt hi, getElem?_setOf h (by omega),
        List.getElem?_map, List.getElem?_range hi, Option.map_some, Option.map_some,
        payload_shredAt h hi]
    · rw [List.getElem?_eq_none (by simp; omega), List.getElem?_eq_none (by simp; omega)]
  rw [hpieces, flatten_pieces, List.take_of_length_le (by omega)]

end Set

/-! ## The round trip -/

/-- Where the encoder succeeds, so does the constructor. -/
theorem buildFecSet_succeeds (payload : List UInt8) (params : FecSetParams C)
    (henc : C.EncodesEqualLengths) (hlen : payload.length ≤ 963 * 32)
    (hfit : IndexesFit P params) :
    ∃ parity, ParityShape parity ∧
      buildFecSet C P payload params = .ok (setOf C payload params parity) := by
  obtain ⟨rs, hnew, henc⟩ := henc
  obtain ⟨out, hout⟩ := henc 987 ((dataShredsOf payload params).map fun b => cut b 64 1051)
    zeroParity (by decide) (by simp [dataShredsOf]) List.length_replicate
    (by
      intro s hs
      obtain ⟨b, hb, rfl⟩ := List.mem_map.mp hs
      rw [length_cut (dataShredsOf_long b hb)])
    (by
      intro s hs
      rw [List.eq_of_mem_replicate hs, List.length_replicate])
  have hpar : encodeParity C (dataShredsOf payload params) = .ok out.1 :=
    (encodeParity_eq_ok dataShredsOf_long).mpr ⟨rs, out, hnew, hout, rfl⟩
  refine ⟨out.1, encodeParity_shape dataShredsOf_long hpar, ?_⟩
  rw [buildFecSet_eq hlen hfit, hpar, Exec.ok_bind]

/-- **Constructor and parser agree on the whole format.** -/
theorem build_fec_set_round_trips (hsig : C.AcceptsHonestSignatures)
    (henc : C.EncodesEqualLengths) (P : Profile) (payload : List UInt8)
    (hlen : payload.length ≤ 32 * 963) (params : FecSetParams C)
    (hfec : params.fecSetIndex.toNat + 31 < 2 ^ 32) :
    ∃ fs, buildFecSet C P payload params = .ok fs ∧ fs.shreds.length = 64 ∧
      (∀ i < 64, ∃ raw, fs.shreds[i]? = some raw ∧
        verifyShred C P raw fs.leaderPubkey = .ok
          { slot := params.slot
            fecSetIndex := params.fecSetIndex
            index := .ofNat (params.fecSetIndex.toNat + i % 32)
            erasureShardIndex := i
            merkleRoot := fs.merkleRoot
            chainedRoot := some params.chainedRoot
            kind := if i < 32 then .data else .code
            dataFlags := if i < 32 then some params.flags else none }) ∧
      ((fs.shreds.take 32).map fun raw =>
        cut raw 88 (fromLe (cut raw 86 88))).flatten = payload := by
  obtain ⟨parity, hshape, hbuild⟩ :=
    buildFecSet_succeeds payload params henc (by omega) (indexesFit_of_lt hfec)
  refine ⟨_, hbuild, length_setOf hshape, fun i hi => ?_, payload_setOf hshape (by omega)⟩
  refine ⟨_, getElem?_setOf hshape hi, ?_⟩
  have hver : verifyShred C P (shredAt C payload params parity i) _ = _ :=
    verifyShred_shredAt hshape hsig (indexesFit_of_lt hfec) hi
  rw [verifiedOf_shredAt hshape hi, indexAt_eq hfec (Nat.mod_lt i (by decide))] at hver
  exact hver

/-- Parameters over the reference crates. -/
def sampleParams (sha256 : List UInt8 → Bytes 32) (fecSetIndex : UInt32) (flags : UInt8) :
    FecSetParams (Reedsol.referenceCrates sha256) where
  slot := 0
  fecSetIndex := fecSetIndex
  version := 1
  parentOffset := 1
  flags := flags
  chainedRoot := Bytes.zero 32
  signingKey := Reedsol.sampleKey sha256

/-- Three payload bytes at `fec_set_index` 64. -/
theorem build_fec_set_round_trips_small :
    ∃ fs, buildFecSet (Reedsol.referenceCrates sha256) ⟨true⟩ [1, 2, 3]
        (sampleParams sha256 64 0xc0) = .ok fs ∧ fs.shreds.length = 64 := by
  obtain ⟨fs, hbuild, hlen, _⟩ := build_fec_set_round_trips
    Reedsol.referenceCrates_acceptsHonestSignatures
    Reedsol.referenceCrates_encodesMds.encodesEqualLengths ⟨true⟩ [1, 2, 3] (by decide)
    (sampleParams sha256 64 0xc0) (by decide)
  exact ⟨fs, hbuild, hlen⟩

end Lattica.Shred
