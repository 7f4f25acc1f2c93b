import Lattica.Shred.FecSet

/-!
# What the constructor builds

A constructed set in closed form: `filledShreds` are the shreds before they
are sealed, `setOf` the sealed set. Constructor and parser are two descriptions
of one layout; `verified_shred` is where they meet: every shred of a set is
accepted, under the set's root, at its own position.
-/

namespace Lattica.Shred

open Foundation

variable {C : Crates} {P : Profile} {payload : List UInt8} {params : FecSetParams C}

/-! ## Closed form -/

/-- The variant of the shred at position `i` of a set. -/
def variantAt (i : ℕ) : ShredVariant := if i < 32 then dataVariant else codeVariant

theorem variantAt_layout (i : ℕ) :
    (variantAt i).proofStart = proofStartAt i ∧ (variantAt i).proofEnd = proofEndAt i ∧
      (variantAt i).proofSize.toNat = 6 ∧
      (variantAt i).expectedLen = if i < 32 then 1203 else 1228 := by
  unfold variantAt proofEndAt proofStartAt
  by_cases hi : i < 32
  · simp only [dataShredsPerFec, if_pos hi]
    decide
  · simp only [dataShredsPerFec, if_neg hi]
    decide

/-- The `index` field of data shred `i` and of coding shred `i`. -/
def indexAt (params : FecSetParams C) (i : ℕ) : ℕ :=
  (params.fecSetIndex.toNat + i) % 2 ^ 32

def dataShredsOf (payload : List UInt8) (params : FecSetParams C) : List (List UInt8) :=
  (List.range 32).map fun i => filledData payload params i (indexAt params i)

def codeShredsOf (params : FecSetParams C) : List (List UInt8) :=
  (List.range 32).map fun j => filledCode params j (indexAt params j)

/-- The 64 shreds before they are sealed. -/
def filledShreds (payload : List UInt8) (params : FecSetParams C)
    (parity : List (List UInt8)) : List (List UInt8) :=
  dataShredsOf payload params ++
    ((codeShredsOf params).zip parity).map fun bp => splice bp.1 89 bp.2

/-- The leaf digests of filled shreds. -/
def leavesOf (C : Crates) (bufs : List (List UInt8)) : List (Bytes 32) :=
  bufs.zipIdx.map fun bi => leafOf C bi.1 (variantAt bi.2)

/-- The path of leaf `i`. -/
def pathOf (C : Crates) (leaves : List (Bytes 32)) (i : ℕ) : List (Bytes 20) :=
  C.tree.path (C.tree.layers leaves) i

theorem merkleProof_layers (leaves : List (Bytes 32)) (root : Bytes 32) (i : ℕ) :
    merkleProof { levels := C.tree.layers leaves, root } i =
      ((pathOf C leaves i).map Subtype.val).flatten :=
  merkleProofFrom_eq _ _

/-- A shred with its proof and the signature written over it. -/
def sealShred (proof : List (Bytes 20)) (sig : Bytes 64) (buf : List UInt8) (i : ℕ) :
    List UInt8 :=
  splice (splice buf (proofStartAt i) (proof.map Subtype.val).flatten) 0 sig.1

def rootOfLeaves (C : Crates) (leaves : List (Bytes 32)) : Bytes 32 :=
  (C.tree.rootOf leaves).getD (Bytes.zero 32)

/-- The set sealed over the given shreds. -/
def sealed (C : Crates) (params : FecSetParams C) (bufs : List (List UInt8)) : FecSet :=
  let leaves := leavesOf C bufs
  let root := rootOfLeaves C leaves
  let sig := C.sign params.signingKey root.1
  { shreds := bufs.zipIdx.map fun bi => sealShred (pathOf C leaves bi.2) sig bi.1 bi.2
    merkleRoot := root
    leaderPubkey := C.verifyingKey params.signingKey
    signature := sig }

/-- The constructed set, given its parity. -/
def setOf (C : Crates) (payload : List UInt8) (params : FecSetParams C)
    (parity : List (List UInt8)) : FecSet :=
  sealed C params (filledShreds payload params parity)

/-- 64 buffers of the right lengths. -/
structure Filled (bufs : List (List UInt8)) : Prop where
  length : bufs.length = 64
  full : ∀ i b, bufs[i]? = some b → b.length = (variantAt i).expectedLen

theorem length_leavesOf (bufs : List (List UInt8)) : (leavesOf C bufs).length = bufs.length := by
  rw [leavesOf, List.length_map, List.length_zipIdx]

theorem getElem?_leavesOf {bufs : List (List UInt8)} {i : ℕ} {b : List UInt8}
    (h : bufs[i]? = some b) : (leavesOf C bufs)[i]? = some (leafOf C b (variantAt i)) := by
  rw [leavesOf, List.getElem?_map, List.getElem?_zipIdx, h]
  simp

/-- Every path of a set climbs to its root. -/
theorem climb_pathOf {leaves : List (Bytes 32)} {i : ℕ} {d : Bytes 32} (h : leaves[i]? = some d) :
    C.tree.climb i d (pathOf C leaves i) = rootOfLeaves C leaves := by
  rw [rootOfLeaves, TreeHash.climb_path h]
  rfl

theorem rootOf_eq_rootOfLeaves {leaves : List (Bytes 32)} (h : 0 < leaves.length) :
    C.tree.rootOf leaves = some (rootOfLeaves C leaves) := by
  obtain ⟨d, hd⟩ : ∃ d, leaves[0]? = some d := ⟨_, List.getElem?_eq_getElem h⟩
  rw [rootOfLeaves, TreeHash.climb_path hd]
  rfl

theorem length_pathOf {leaves : List (Bytes 32)} (h : leaves.length = 64) (i : ℕ) :
    (pathOf C leaves i).length = 6 :=
  TreeHash.length_path (k := 6) (by rw [h]; decide) (by rw [h]; decide)

theorem length_flatten_pathOf {leaves : List (Bytes 32)} (h : leaves.length = 64) (i : ℕ) :
    ((pathOf C leaves i).map Subtype.val).flatten.length = 120 := by
  rw [length_flatten_bytes, length_pathOf h]

theorem layout_bounds (i : ℕ) :
    (variantAt i).expectedLen = proofStartAt i + 120 ∧ proofEndAt i = proofStartAt i + 120 ∧
      1083 ≤ proofStartAt i := by
  obtain ⟨_, _, _, hlen⟩ := variantAt_layout i
  rw [hlen, proofEndAt, proofStartAt]
  simp only [dataShredsPerFec]
  split <;> simp [proofEntriesFor3232]

/-! ## Sealing -/

section Seal

variable {bufs : List (List UInt8)}

theorem mapM_leaves (h : Filled bufs) :
    (bufs.zipIdx.mapM fun bi => do
      let bytes ← slice bi.1 sizeOfSignature (proofStartAt bi.2)
      return C.sha256 (merkleHashPrefixLeaf ++ bytes) : Exec ShredError (List (Bytes 32))) =
      .ok (leavesOf C bufs) := by
  refine Exec.mapM_eq_ok fun bi hbi => ?_
  obtain ⟨hps, _⟩ := variantAt_layout bi.2
  obtain ⟨hlen, _, hlow⟩ := layout_bounds bi.2
  have hfull := h.full _ _ (List.mem_zipIdx_iff_getElem?.mp hbi)
  rw [slice_eq (by simp only [sizeOfSignature]; omega) (by omega), Exec.ok_bind, leafOf,
    authBytes, hps]
  rfl

theorem mapM_proofs (h : Filled bufs) {leaves : List (Bytes 32)} (hl : leaves.length = 64) :
    (bufs.zipIdx.mapM fun bi => copyFromSlice bi.1 (proofStartAt bi.2) (proofEndAt bi.2)
      ((pathOf C leaves bi.2).map Subtype.val).flatten : Exec ShredError (List (List UInt8))) =
      .ok (bufs.zipIdx.map fun bi =>
        splice bi.1 (proofStartAt bi.2) ((pathOf C leaves bi.2).map Subtype.val).flatten) := by
  refine Exec.mapM_eq_ok fun bi hbi => ?_
  obtain ⟨hlen, hend, _⟩ := layout_bounds bi.2
  have hfull := h.full _ _ (List.mem_zipIdx_iff_getElem?.mp hbi)
  exact copyFromSlice_eq (by omega) (by omega) (by rw [length_flatten_pathOf hl]; omega)

/-- Sealing succeeds. -/
theorem sealShreds_eq (h : Filled bufs) :
    sealShreds C params bufs = .ok (sealed C params bufs) := by
  have hl : (leavesOf C bufs).length = 64 := by rw [length_leavesOf, h.length]
  rw [sealShreds, mapM_leaves h, Exec.ok_bind,
    buildTree_eq (rootOf_eq_rootOfLeaves (C := C) (by omega)), Exec.ok_bind]
  simp only [merkleProof_layers]
  rw [mapM_proofs h hl, Exec.ok_bind]
  set sig := C.sign params.signingKey (rootOfLeaves C (leavesOf C bufs)).1 with hsig
  have hsign : ∀ buf ∈ bufs.zipIdx.map fun bi => splice bi.1 (proofStartAt bi.2)
      ((pathOf C (leavesOf C bufs) bi.2).map Subtype.val).flatten,
      (copyFromSlice buf 0 sizeOfSignature sig.1 : Exec ShredError _) =
        .ok (splice buf 0 sig.1) := by
    intro buf hbuf
    obtain ⟨bi, hbi, rfl⟩ := List.mem_map.mp hbuf
    obtain ⟨hlen, _, hlow⟩ := layout_bounds bi.2
    have hfull := h.full _ _ (List.mem_zipIdx_iff_getElem?.mp hbi)
    refine copyFromSlice_eq (by simp) ?_ (by rw [sig.2]; rfl)
    rw [length_splice (by rw [length_flatten_pathOf hl]; omega)]
    simp only [sizeOfSignature]
    omega
  rw [Exec.mapM_eq_ok hsign, Exec.ok_bind, List.map_map]
  rfl

/-! A sealed shred keeps the bytes its leaf covers. -/

variable {buf : List UInt8} {proof : List (Bytes 20)} {sig : Bytes 64} {i : ℕ}
  (hbuf : buf.length = (variantAt i).expectedLen) (hproof : proof.length = 6)

include hbuf hproof

theorem sealShred_fits (sig : Bytes 64) :
    proofStartAt i + (proof.map Subtype.val).flatten.length = buf.length ∧
      0 + sig.1.length ≤ (splice buf (proofStartAt i) (proof.map Subtype.val).flatten).length := by
  obtain ⟨hlen, _, hlow⟩ := layout_bounds i
  have hflat : (proof.map Subtype.val).flatten.length = 120 := by
    rw [length_flatten_bytes, hproof]
  rw [hflat, length_splice (by omega), sig.2]
  omega

theorem length_sealShred : (sealShred proof sig buf i).length = (variantAt i).expectedLen := by
  obtain ⟨hfit, hfit'⟩ := sealShred_fits hbuf hproof sig
  rw [sealShred, length_splice hfit', length_splice (by omega), hbuf]

theorem cut_sealShred {a b : ℕ} (ha : 64 ≤ a) (hb : b ≤ proofStartAt i) :
    cut (sealShred proof sig buf i) a b = cut buf a b := by
  obtain ⟨hfit, hfit'⟩ := sealShred_fits hbuf hproof sig
  have hsig := sig.2
  rw [sealShred, cut_splice_disjoint hfit' (by omega), cut_splice_disjoint (by omega) (by omega)]

theorem getD_sealShred {k : ℕ} (ha : 64 ≤ k) (hb : k < proofStartAt i) :
    (sealShred proof sig buf i).getD k 0 = buf.getD k 0 := by
  obtain ⟨hfit, hfit'⟩ := sealShred_fits hbuf hproof sig
  have hsig := sig.2
  rw [sealShred, getD_splice_disjoint hfit' (by omega), getD_splice_disjoint (by omega) (by omega)]

theorem authBytes_sealShred :
    authBytes (sealShred proof sig buf i) (variantAt i) = authBytes buf (variantAt i) := by
  obtain ⟨hps, _⟩ := variantAt_layout i
  rw [authBytes, authBytes, hps, cut_sealShred hbuf hproof (by omega) (by omega)]

theorem cut_sealShred_sig : cut (sealShred proof sig buf i) 0 64 = sig.1 := by
  obtain ⟨_, hfit'⟩ := sealShred_fits hbuf hproof sig
  rw [sealShred, cut_splice_self hfit' (by rw [sig.2])]

theorem proofEntries_sealShred :
    proofEntries (sealShred proof sig buf i) (variantAt i) = proof := by
  obtain ⟨hfit, hfit'⟩ := sealShred_fits hbuf hproof sig
  obtain ⟨hps, hpe, _⟩ := variantAt_layout i
  obtain ⟨_, hend, hlow⟩ := layout_bounds i
  have hsig := sig.2
  have hflat : (proof.map Subtype.val).flatten.length = 120 := by
    rw [length_flatten_bytes, hproof]
  rw [proofEntries, hps, hpe, sealShred, cut_splice_disjoint hfit' (by omega),
    cut_splice_self (by omega) (by omega), chunksExact_flatten (by decide)]

end Seal

/-! ## Building -/

/-- The indexes of the set fit in `u32`, or the profile lets them wrap. -/
def IndexesFit (P : Profile) (params : FecSetParams C) : Prop :=
  ∀ i < 32, (addU P 32 params.fecSetIndex.toNat i : Exec ShredError ℕ) = .ok (indexAt params i)

theorem indexAt_eq (h : params.fecSetIndex.toNat + 31 < 2 ^ 32) {i : ℕ} (hi : i < 32) :
    indexAt params i = params.fecSetIndex.toNat + i :=
  Nat.mod_eq_of_lt (by omega)

theorem indexesFit_of_lt (h : params.fecSetIndex.toNat + 31 < 2 ^ 32) : IndexesFit P params := by
  intro i hi
  rw [addU_eq (by omega), indexAt_eq h hi]

/-- 32 parity shards of the erasure shard size. -/
structure ParityShape (parity : List (List UInt8)) : Prop where
  length : parity.length = 32
  full : ∀ p ∈ parity, p.length = 987

theorem length_filledData (i index : ℕ) : (filledData payload params i index).length = 1203 := by
  rw [filledData, length_writeAll (dataWrites_fits payload params i index), List.length_replicate]

theorem length_filledCode (j index : ℕ) : (filledCode params j index).length = 1228 := by
  rw [filledCode, length_writeAll (codeWrites_fits params j index), List.length_replicate]

theorem getElem?_filledShreds_data (parity : List (List UInt8)) {i : ℕ} (hi : i < 32) :
    (filledShreds payload params parity)[i]? =
      some (filledData payload params i (indexAt params i)) := by
  rw [filledShreds, List.getElem?_append_left (by simp [dataShredsOf, hi]), dataShredsOf,
    List.getElem?_map, List.getElem?_range hi]
  rfl

theorem getElem?_filledShreds_code {parity : List (List UInt8)} (h : ParityShape parity) {j : ℕ}
    (hj : j < 32) :
    (filledShreds payload params parity)[32 + j]? =
      some (splice (filledCode params j (indexAt params j)) 89 (parity.getD j [])) := by
  have hp : parity[j]? = some (parity.getD j []) := by
    rw [List.getD_eq_getElem?_getD, List.getElem?_eq_getElem (by rw [h.length]; exact hj)]
    rfl
  have hlen : (dataShredsOf payload params).length = 32 := by
    rw [dataShredsOf, List.length_map, List.length_range]
  have hc : (codeShredsOf params)[j]? = some (filledCode params j (indexAt params j)) := by
    rw [codeShredsOf, List.getElem?_map, List.getElem?_range hj, Option.map_some]
  have hz : ((codeShredsOf params).zip parity)[j]? =
      some (filledCode params j (indexAt params j), parity.getD j []) :=
    List.getElem?_zip_eq_some.mpr ⟨hc, hp⟩
  rw [filledShreds, List.getElem?_append_right (by omega), List.getElem?_map, hlen,
    Nat.add_sub_cancel_left, hz, Option.map_some]

theorem length_filledShreds {parity : List (List UInt8)} (h : ParityShape parity) :
    (filledShreds payload params parity).length = 64 := by
  simp [filledShreds, dataShredsOf, codeShredsOf, h.length]

theorem length_parityAt {parity : List (List UInt8)} (h : ParityShape parity) {j : ℕ}
    (hj : j < 32) : (parity.getD j []).length = 987 := by
  rw [List.getD_eq_getElem _ _ (by rw [h.length]; exact hj)]
  exact h.full _ (List.getElem_mem _)

theorem filled_filledShreds {parity : List (List UInt8)} (h : ParityShape parity) :
    Filled (filledShreds payload params parity) := by
  refine ⟨length_filledShreds h, fun i b hb => ?_⟩
  have hi : i < 64 := by
    obtain ⟨hlt, _⟩ := List.getElem?_eq_some_iff.mp hb
    rwa [length_filledShreds h] at hlt
  rw [(variantAt_layout i).2.2.2]
  by_cases hlow : i < 32
  · rw [getElem?_filledShreds_data parity hlow] at hb
    rw [← Option.some.inj hb, if_pos hlow, length_filledData]
  · obtain ⟨j, rfl⟩ : ∃ j, i = 32 + j := ⟨i - 32, by omega⟩
    rw [getElem?_filledShreds_code h (by omega)] at hb
    rw [← Option.some.inj hb, if_neg hlow, length_splice, length_filledCode]
    rw [length_filledCode, length_parityAt h (by omega)]
    decide

/-- `encode_sep` on the data shreds' erasure regions and zeroed parity. -/
theorem encodeParity_eq_ok {bufs parity : List (List UInt8)} (h : ∀ b ∈ bufs, 1051 ≤ b.length) :
    encodeParity C bufs = .ok parity ↔ ∃ rs out, C.newReedSolomon 32 32 = .ok rs ∧
      C.encodeSep rs (bufs.map fun b => cut b 64 1051) zeroParity = .ok out ∧
        parity = out.1 := by
  have hmap : (bufs.mapM fun buf => slice buf sizeOfSignature (sizeOfSignature + erasureShardSize) :
      Exec ShredError (List (List UInt8))) = .ok (bufs.map fun b => cut b 64 1051) :=
    Exec.mapM_eq_ok fun b hb => slice_eq (by simp) (by simpa using h b hb)
  rw [encodeParity, hmap, Exec.ok_bind]
  simp only [dataShredsPerFec, codingShredsPerFec]
  cases C.newReedSolomon 32 32 with
  | error e => simp [Exec.ofExcept, Except.mapError]
  | ok rs =>
      simp only [Exec.ofExcept, Except.mapError, Exec.ok_bind, Except.ok.injEq]
      constructor
      · intro hok
        cases henc : C.encodeSep rs (bufs.map fun b => cut b 64 1051) zeroParity with
        | error e =>
            rw [henc] at hok
            cases hok
        | ok out =>
            rw [henc] at hok
            cases hok
            exact ⟨rs, out, rfl, henc, rfl⟩
      · rintro ⟨_, out, rfl, henc, rfl⟩
        rw [henc]
        rfl

theorem encodeParity_shape {bufs parity : List (List UInt8)} (h : ∀ b ∈ bufs, 1051 ≤ b.length)
    (hp : encodeParity C bufs = .ok parity) : ParityShape parity := by
  obtain ⟨rs, out, _, _, rfl⟩ := (encodeParity_eq_ok h).mp hp
  have hshape : out.1.map List.length = List.replicate 32 987 := by
    rw [out.2, zeroParity, List.map_replicate, List.length_replicate]
  constructor
  · rw [← List.length_map List.length, hshape, List.length_replicate]
  · intro p hmem
    exact List.eq_of_mem_replicate (hshape ▸ List.mem_map_of_mem hmem)

theorem dataShredsOf_long : ∀ b ∈ dataShredsOf payload params, 1051 ≤ b.length := by
  intro b hb
  obtain ⟨i, _, rfl⟩ := List.mem_map.mp hb
  rw [length_filledData]
  decide

theorem writeParity_eq {parity : List (List UInt8)} (h : ParityShape parity) :
    writeParity (codeShredsOf params) parity =
      .ok (((codeShredsOf params).zip parity).map fun bp => splice bp.1 89 bp.2) := by
  refine Exec.mapM_eq_ok fun bp hbp => ?_
  obtain ⟨hb, hp⟩ := List.of_mem_zip (a := bp.1) (b := bp.2) hbp
  obtain ⟨j, _, hj⟩ := List.mem_map.mp hb
  refine copyFromSlice_eq (by simp) ?_ (h.full _ hp)
  rw [← hj, length_filledCode]
  decide

/-- The constructor where the payload and the indexes fit: it fails only where
Reed-Solomon does. -/
theorem buildFecSet_eq (hlen : payload.length ≤ 963 * 32) (hfit : IndexesFit P params) :
    buildFecSet C P payload params =
      encodeParity C (dataShredsOf payload params) >>= fun parity =>
        .ok (setOf C payload params parity) := by
  have hdata : (List.range 32).mapM (fillDataShred P payload params) =
      .ok (dataShredsOf payload params) :=
    Exec.mapM_eq_ok fun i hi => by
      rw [fillDataShred_eq, hfit i (List.mem_range.mp hi), Exec.ok_bind]
  have hcode : (List.range 32).mapM (fillCodeShred P params) = .ok (codeShredsOf params) :=
    Exec.mapM_eq_ok fun j hj => by
      rw [fillCodeShred_eq, hfit j (List.mem_range.mp hj), Exec.ok_bind]
  rw [buildFecSet]
  simp only [dataCapacityPerShred, DataOff.dataBufEnd, DataOff.dataBuf, dataShredsPerFec,
    codingShredsPerFec, Nat.reduceSub]
  rw [if_neg (by omega), hdata, Exec.ok_bind, hcode, Exec.ok_bind]
  cases hp : encodeParity C (dataShredsOf payload params) with
  | err e => rfl
  | panic q => rfl
  | ok parity =>
      have hshape := encodeParity_shape dataShredsOf_long hp
      rw [Exec.ok_bind, Exec.ok_bind, writeParity_eq hshape, Exec.ok_bind]
      exact sealShreds_eq (filled_filledShreds hshape)

/-- **What a constructed set is.** -/
theorem buildFecSet_eq_ok {fs : FecSet} (h : buildFecSet C P payload params = .ok fs) :
    payload.length ≤ 963 * 32 ∧ IndexesFit P params ∧ ∃ parity,
      encodeParity C (dataShredsOf payload params) = .ok parity ∧ ParityShape parity ∧
        fs = setOf C payload params parity := by
  have hlen : payload.length ≤ 963 * 32 := by
    by_contra hlong
    rw [buildFecSet, if_pos (by simp; omega)] at h
    cases h
  have hfit : IndexesFit P params := by
    rw [buildFecSet, if_neg (by simp; omega)] at h
    obtain ⟨data, hdata, _⟩ := Exec.bind_eq_ok.mp h
    intro i hi
    have hget := Exec.mapM_getElem hdata i (by simp [hi])
      (by rw [Exec.mapM_length hdata]; simp [hi])
    rw [fillDataShred_eq, List.getElem_range] at hget
    obtain ⟨index, hindex, _⟩ := Exec.bind_eq_ok.mp hget
    rw [hindex, addU_eq_ok hindex]
    rfl
  rw [buildFecSet_eq hlen hfit] at h
  obtain ⟨parity, hp, h⟩ := Exec.bind_eq_ok.mp h
  cases h
  exact ⟨hlen, hfit, parity, hp, encodeParity_shape dataShredsOf_long hp, rfl⟩

end Lattica.Shred
