import Lattica.Shred.FecSetLayout

/-!
# Constructor and parser agree

Constructor and parser are two descriptions of one layout. `Fields` reads a
shred of a set field by field at the constructor's offsets; the parser's
offsets, computed from the variant byte, land on the same fields, so every
shred of a set is accepted at its own position, under the set's root
(`verified_shredAt`), and reports the set's parameters (`verifiedOf_shredAt`).
-/

namespace Lattica.Shred

open Foundation

variable {C : Crates} {P : Profile} {payload : List UInt8} {params : FecSetParams C}

/-! ## Reading a shred back -/

/-- The fields both kinds of shreds have, at position `i` of a set. -/
structure Fields (params : FecSetParams C) (i : ℕ) (raw : List UInt8) : Prop where
  length : raw.length = (variantAt i).expectedLen
  variant : raw.getD 64 0 = (variantAt i).encode
  slot : cut raw 65 73 = toLe 8 params.slot.toNat
  index : cut raw 73 77 = toLe 4 (indexAt params (i % 32))
  fecSetIndex : cut raw 79 83 = toLe 4 params.fecSetIndex.toNat
  chainedRoot : cut raw (proofStartAt i - 32) (proofStartAt i) = params.chainedRoot.1

theorem cut_filledData {i index off b : ℕ} {src : List UInt8}
    (hmem : (off, src) ∈ dataWrites payload params i index) (hb : b = off + src.length) :
    cut (filledData payload params i index) off b = src := by
  rw [hb, filledData]
  exact cut_writeAll (dataWrites_fits payload params i index)
    (dataWrites_apart payload params i index) hmem

theorem cut_filledCode {j index off b : ℕ} {src : List UInt8}
    (hmem : (off, src) ∈ codeWrites params j index) (hb : b = off + src.length) :
    cut (filledCode params j index) off b = src := by
  rw [hb, filledCode]
  exact cut_writeAll (codeWrites_fits params j index) (codeWrites_apart params j index) hmem

theorem getD_filledData {i index off : ℕ} {x : UInt8}
    (hmem : (off, [x]) ∈ dataWrites payload params i index) :
    (filledData payload params i index).getD off 0 = x := by
  rw [filledData]
  exact getD_writeAll (dataWrites_fits payload params i index)
    (dataWrites_apart payload params i index) hmem

theorem fields_filledData {i : ℕ} (hi : i < 32) :
    Fields params i (filledData payload params i (indexAt params i)) := by
  have hv : variantAt i = dataVariant := if_pos hi
  have hps : proofStartAt i = 1083 := if_pos hi
  refine ⟨?_, ?_, ?_, ?_, ?_, ?_⟩
  · rw [length_filledData, hv]
    rfl
  · rw [hv]
    exact getD_filledData (by simp [dataWrites])
  · exact cut_filledData (by simp [dataWrites]) (by simp)
  · rw [Nat.mod_eq_of_lt hi]
    exact cut_filledData (by simp [dataWrites]) (by simp)
  · exact cut_filledData (by simp [dataWrites]) (by simp)
  · rw [hps]
    exact cut_filledData (by simp [dataWrites]) (by rw [params.chainedRoot.2])

theorem fields_filledCode {j : ℕ} (hj : j < 32) {p : List UInt8} (hp : p.length = 987) :
    Fields params (32 + j) (splice (filledCode params j (indexAt params j)) 89 p) := by
  have hv : variantAt (32 + j) = codeVariant := if_neg (by omega)
  have hps : proofStartAt (32 + j) = 1108 := if_neg (by simp)
  have hlen : (filledCode params j (indexAt params j)).length = 1228 := length_filledCode _ _
  have hfit : 89 + p.length ≤ (filledCode params j (indexAt params j)).length := by omega
  refine ⟨?_, ?_, ?_, ?_, ?_, ?_⟩
  · rw [length_splice hfit, hlen, hv]
    rfl
  · rw [getD_splice_disjoint hfit (by omega), hv, filledCode]
    exact getD_writeAll (codeWrites_fits params j _) (codeWrites_apart params j _)
      (by simp [codeWrites])
  · rw [cut_splice_disjoint hfit (by omega)]
    exact cut_filledCode (by simp [codeWrites]) (by simp)
  · rw [cut_splice_disjoint hfit (by omega), Nat.add_mod_left, Nat.mod_eq_of_lt hj]
    exact cut_filledCode (by simp [codeWrites]) (by simp)
  · rw [cut_splice_disjoint hfit (by omega)]
    exact cut_filledCode (by simp [codeWrites]) (by simp)
  · rw [hps, cut_splice_disjoint hfit (by omega)]
    exact cut_filledCode (by simp [codeWrites]) (by rw [params.chainedRoot.2])

/-- The fields survive sealing. -/
theorem Fields.sealShred {i : ℕ} {buf : List UInt8} (h : Fields params i buf)
    {proof : List (Bytes 20)} (hproof : proof.length = 6) (sig : Bytes 64) :
    Fields params i (sealShred proof sig buf i) := by
  obtain ⟨_, _, hlow⟩ := layout_bounds i
  refine ⟨length_sealShred h.length hproof, ?_, ?_, ?_, ?_, ?_⟩
  · rw [getD_sealShred h.length hproof (by omega) (by omega), h.variant]
  · rw [cut_sealShred h.length hproof (by omega) (by omega), h.slot]
  · rw [cut_sealShred h.length hproof (by omega) (by omega), h.index]
  · rw [cut_sealShred h.length hproof (by omega) (by omega), h.fecSetIndex]
  · rw [cut_sealShred h.length hproof (by omega) (by omega), h.chainedRoot]

/-! ## The shreds of a set -/

section Set

variable {parity : List (List UInt8)}

/-- The shred at position `i` before it is sealed. -/
def filledAt (payload : List UInt8) (params : FecSetParams C) (parity : List (List UInt8))
    (i : ℕ) : List UInt8 :=
  if i < 32 then filledData payload params i (indexAt params i)
  else splice (filledCode params (i - 32) (indexAt params (i - 32))) 89 (parity.getD (i - 32) [])

/-- The leaves of a set. -/
def setLeaves (C : Crates) (payload : List UInt8) (params : FecSetParams C)
    (parity : List (List UInt8)) : List (Bytes 32) :=
  leavesOf C (filledShreds payload params parity)

/-- The shred at position `i` of a set. -/
def shredAt (C : Crates) (payload : List UInt8) (params : FecSetParams C)
    (parity : List (List UInt8)) (i : ℕ) : List UInt8 :=
  sealShred (pathOf C (setLeaves C payload params parity) i)
    (C.sign params.signingKey (rootOfLeaves C (setLeaves C payload params parity)).1)
    (filledAt payload params parity i) i

variable (h : ParityShape parity)

include h

theorem getElem?_filledShreds {i : ℕ} (hi : i < 64) :
    (filledShreds payload params parity)[i]? = some (filledAt payload params parity i) := by
  by_cases hlow : i < 32
  · rw [getElem?_filledShreds_data parity hlow, filledAt, if_pos hlow]
  · obtain ⟨j, rfl⟩ : ∃ j, i = 32 + j := ⟨i - 32, by omega⟩
    rw [getElem?_filledShreds_code h (by omega), filledAt, if_neg hlow, Nat.add_sub_cancel_left]

theorem fields_filledAt {i : ℕ} (hi : i < 64) :
    Fields params i (filledAt payload params parity i) := by
  by_cases hlow : i < 32
  · rw [filledAt, if_pos hlow]
    exact fields_filledData hlow
  · obtain ⟨j, rfl⟩ : ∃ j, i = 32 + j := ⟨i - 32, by omega⟩
    rw [filledAt, if_neg hlow, Nat.add_sub_cancel_left]
    exact fields_filledCode (by omega) (length_parityAt h (by omega))

theorem length_setLeaves : (setLeaves C payload params parity).length = 64 := by
  rw [setLeaves, length_leavesOf, length_filledShreds h]

theorem length_proofAt (i : ℕ) :
    (pathOf C (setLeaves C payload params parity) i).length = 6 :=
  length_pathOf (length_setLeaves h) i

theorem getElem?_setOf {i : ℕ} (hi : i < 64) :
    (setOf C payload params parity).shreds[i]? = some (shredAt C payload params parity i) := by
  rw [setOf, sealed, List.getElem?_map, List.getElem?_zipIdx, getElem?_filledShreds h hi]
  simp [shredAt, setLeaves]

theorem length_setOf : (setOf C payload params parity).shreds.length = 64 := by
  rw [setOf, sealed, List.length_map, List.length_zipIdx, length_filledShreds h]

theorem fields_shredAt {i : ℕ} (hi : i < 64) :
    Fields params i (shredAt C payload params parity i) :=
  (fields_filledAt h hi).sealShred (length_proofAt h i) _

theorem authBytes_shredAt {i : ℕ} (hi : i < 64) :
    authBytes (shredAt C payload params parity i) (variantAt i) =
      authBytes (filledAt payload params parity i) (variantAt i) :=
  authBytes_sealShred (fields_filledAt h hi).length (length_proofAt h i)

theorem getElem?_setLeaves {i : ℕ} (hi : i < 64) :
    (setLeaves C payload params parity)[i]? =
      some (leafOf C (shredAt C payload params parity i) (variantAt i)) := by
  rw [setLeaves, getElem?_leavesOf (getElem?_filledShreds h hi), leafOf, leafOf,
    authBytes_shredAt h hi]

theorem proofEntries_shredAt {i : ℕ} (hi : i < 64) :
    proofEntries (shredAt C payload params parity i) (variantAt i) =
      pathOf C (setLeaves C payload params parity) i :=
  proofEntries_sealShred (fields_filledAt h hi).length (length_proofAt h i)

/-- Every shred's own proof leads to the set's root. -/
theorem rootAt_shredAt {i : ℕ} (hi : i < 64) :
    rootAt C (shredAt C payload params parity i) (variantAt i) i =
      (setOf C payload params parity).merkleRoot := by
  rw [rootAt, proofEntries_shredAt h hi, climb_pathOf (getElem?_setLeaves h hi)]
  rfl

theorem cut_shredAt_sig {i : ℕ} (hi : i < 64) :
    cut (shredAt C payload params parity i) 0 64 =
      (setOf C payload params parity).signature.1 :=
  cut_sealShred_sig (fields_filledAt h hi).length (length_proofAt h i)

end Set

/-! ## Position and parameters -/

theorem decode_encode_variantAt (i : ℕ) :
    ShredVariant.decode (variantAt i).encode = .ok (variantAt i) := by
  unfold variantAt
  split <;> decide

/-- The subtraction of the parser undoes the constructor's addition, wrapped or not. -/
theorem subU_indexAt (hfit : IndexesFit P params) {i : ℕ} (hi : i < 32) :
    (subU P 32 (indexAt params i) params.fecSetIndex.toNat : Exec ShredError ℕ) = .ok i := by
  have hfec := params.fecSetIndex.toNat_lt
  by_cases hwrap : params.fecSetIndex.toNat + i < 2 ^ 32
  · have heq : indexAt params i = params.fecSetIndex.toNat + i := Nat.mod_eq_of_lt hwrap
    rw [heq, subU_eq (by omega) hwrap, Nat.add_sub_cancel_left]
  · have hP : P.overflowChecks = false := by
      cases hP : P.overflowChecks with
      | false => rfl
      | true =>
          have hadd := hfit i hi
          rw [addU, arith_checked hP (by omega)] at hadd
          cases hadd
    have heq : indexAt params i = params.fecSetIndex.toNat + i - 2 ^ 32 := by
      rw [indexAt, Nat.mod_eq_sub_mod (by omega), Nat.mod_eq_of_lt (by omega)]
    rw [subU_wraps hP (by omega) (by omega)]
    congr 1
    omega

theorem Fields.headerOf {i : ℕ} {raw : List UInt8} (hf : Fields params i raw) :
    (headerOf raw (variantAt i)).slot = params.slot ∧
      (headerOf raw (variantAt i)).index = .ofNat (indexAt params (i % 32)) ∧
      (headerOf raw (variantAt i)).fecSetIndex = params.fecSetIndex := by
  have hslot := params.slot.toNat_lt
  have hfec := params.fecSetIndex.toNat_lt
  have hidx : indexAt params (i % 32) < 2 ^ 32 := Nat.mod_lt _ (by decide)
  simp only [Shred.headerOf, hf.slot, hf.index, hf.fecSetIndex]
  rw [fromLe_toLe 8 _ (by omega), fromLe_toLe 4 _ (by omega), fromLe_toLe 4 _ (by omega)]
  simp

section Set

variable {parity : List (List UInt8)} (h : ParityShape parity)

include h

theorem cut_position {j : ℕ} (hj : j < 32) :
    cut (shredAt C payload params parity (32 + j)) 87 89 = toLe 2 j := by
  have hlen : (filledCode params j (indexAt params j)).length = 1228 := length_filledCode _ _
  have hp := length_parityAt h hj
  obtain ⟨_, _, hlow⟩ := layout_bounds (32 + j)
  have hf : Fields params _ (filledAt payload params parity (32 + j)) :=
    fields_filledAt h (by omega)
  rw [shredAt, cut_sealShred hf.length (length_proofAt h _) (by omega) (by omega), filledAt,
    if_neg (by omega), Nat.add_sub_cancel_left, cut_splice_disjoint (by omega) (by omega)]
  exact cut_filledCode (by simp [codeWrites]) (by simp)

/-- The parser finds every shred at its own position. -/
theorem indexOf_shredAt (hfit : IndexesFit P params) {i : ℕ} (hi : i < 64) :
    indexOf P (shredAt C payload params parity i) (variantAt i) = .ok i := by
  have hf : Fields params i (shredAt C payload params parity i) := fields_shredAt h hi
  by_cases hlow : i < 32
  · have hk : (variantAt i).kind = .data := by rw [variantAt, if_pos hlow]; rfl
    have hidx : indexAt params i < 2 ^ 32 := Nat.mod_lt _ (by decide)
    obtain ⟨_, hindex, hfec⟩ := hf.headerOf
    rw [indexOf_data hk, hindex, hfec, Nat.mod_eq_of_lt hlow,
      UInt32.toNat_ofNat_of_lt' (by simpa [UInt32.size] using hidx), subU_indexAt hfit hlow]
  · obtain ⟨j, rfl⟩ : ∃ j, i = 32 + j := ⟨i - 32, by omega⟩
    have hk : (variantAt (32 + j)).kind = .code := by rw [variantAt, if_neg hlow]; rfl
    have hlen := (variantAt (32 + j)).expectedLen_le
    rw [indexOf_code hk (by rw [hf.length]; omega), cut_position h (by omega),
      fromLe_toLe 2 _ (by omega)]

/-- **Every shred of a set is accepted at its own position.** -/
theorem verified_shredAt (hC : C.AcceptsHonestSignatures) (hfit : IndexesFit P params) {i : ℕ}
    (hi : i < 64) :
    Verified C P (shredAt C payload params parity i) (C.verifyingKey params.signingKey)
      (variantAt i) i := by
  have hf : Fields params i (shredAt C payload params parity i) := fields_shredAt h hi
  refine ⟨?_, hf.length.ge, indexOf_shredAt h hfit hi, ?_, ?_⟩
  · rw [hf.variant, decode_encode_variantAt]
  · rw [(variantAt_layout i).2.2.1]
    exact hi
  · obtain ⟨pk, sig, hpk, hsig, hver⟩ :=
      hC params.signingKey (setOf C payload params parity).merkleRoot.1
    refine ⟨pk, sig, hpk, ?_, ?_⟩
    · rw [cut_shredAt_sig h hi, asArray_self]
      exact hsig
    · rw [rootAt_shredAt h hi]
      exact hver

/-- The flags byte of a data shred is the parameters'. -/
theorem flags_shredAt {i : ℕ} (hi : i < 32) :
    (shredAt C payload params parity i).getD 85 0 = params.flags := by
  obtain ⟨_, _, hlow⟩ := layout_bounds i
  have hf : Fields params i (filledAt payload params parity i) := fields_filledAt h (by omega)
  rw [shredAt, getD_sealShred hf.length (length_proofAt h i) (by omega) (by omega), filledAt,
    if_pos hi]
  exact getD_filledData (by simp [dataWrites])

/-- What `verify_shred` reports of a shred of a set. -/
theorem verifiedOf_shredAt {i : ℕ} (hi : i < 64) :
    verifiedOf C (shredAt C payload params parity i) (variantAt i) i =
      { slot := params.slot
        fecSetIndex := params.fecSetIndex
        index := .ofNat (indexAt params (i % 32))
        erasureShardIndex := i
        merkleRoot := (setOf C payload params parity).merkleRoot
        chainedRoot := some params.chainedRoot
        kind := if i < 32 then .data else .code
        dataFlags := if i < 32 then some params.flags else none } := by
  have hf : Fields params i (shredAt C payload params parity i) := fields_shredAt h hi
  obtain ⟨hslot, hindex, hfec⟩ := hf.headerOf
  have hchained : asArray 32 (cut (shredAt C payload params parity i)
      ((variantAt i).proofStart - 32) (variantAt i).proofStart) = params.chainedRoot := by
    rw [(variantAt_layout i).1, hf.chainedRoot, asArray_self]
  rw [verifiedOf, hslot, hindex, hfec, rootAt_shredAt h hi, parsed, hchained]
  by_cases hlow : i < 32
  · have hk : (variantAt i).kind = .data := by rw [variantAt, if_pos hlow]; rfl
    simp only [hk, if_pos hlow, flags_shredAt h hlow]
  · have hk : (variantAt i).kind = .code := by rw [variantAt, if_neg hlow]; rfl
    simp only [hk, if_neg hlow]

theorem verifyShred_shredAt (hC : C.AcceptsHonestSignatures) (hfit : IndexesFit P params) {i : ℕ}
    (hi : i < 64) :
    verifyShred C P (shredAt C payload params parity i) (C.verifyingKey params.signingKey) =
      .ok (verifiedOf C (shredAt C payload params parity i) (variantAt i) i) :=
  (verified_shredAt h hC hfit hi).verifyShred_eq

end Set

end Lattica.Shred
