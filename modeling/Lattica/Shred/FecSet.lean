import Lattica.Shred.Verify

/-!
# The FEC set constructor

`build_fec_set` of `crates/shred/src/fec_set.rs`, with its own tree code
(`build_tree`, `merkle_proof`). The shreds are filled, the parity shards are
written into the coding shreds, and the set is sealed: a tree over the leaves,
a proof in every shred, the leader's signature of the root in front. Filling
is a run of disjoint writes, so every field can be read back; sealing writes
outside the bytes the leaf covers, so it changes none of them.
-/

namespace Lattica.Shred

open Foundation

/-! ## Layout -/

/-- `ERASURE_SHARD_SIZE`. -/
@[reducible, simp] def erasureShardSize : ℕ := 987

/-- `PROOF_ENTRIES_FOR_32_32`. -/
def proofEntriesFor3232 : UInt8 := 6

namespace DataOff

@[reducible, simp] def variant : ℕ := 64
@[reducible, simp] def slot : ℕ := 65
@[reducible, simp] def index : ℕ := 73
@[reducible, simp] def version : ℕ := 77
@[reducible, simp] def fecSetIndex : ℕ := 79
@[reducible, simp] def parentOffset : ℕ := 83
@[reducible, simp] def flags : ℕ := 85
@[reducible, simp] def sizeField : ℕ := 86
@[reducible, simp] def dataBuf : ℕ := 88
@[reducible, simp] def dataBufEnd : ℕ := 1051
@[reducible, simp] def chainedRoot : ℕ := 1051
@[reducible, simp] def proof : ℕ := 1083

end DataOff

namespace CodeOff

@[reducible, simp] def variant : ℕ := 64
@[reducible, simp] def slot : ℕ := 65
@[reducible, simp] def index : ℕ := 73
@[reducible, simp] def version : ℕ := 77
@[reducible, simp] def fecSetIndex : ℕ := 79
@[reducible, simp] def numData : ℕ := 83
@[reducible, simp] def numCoding : ℕ := 85
@[reducible, simp] def position : ℕ := 87
@[reducible, simp] def erasureBuf : ℕ := 89
@[reducible, simp] def erasureBufEnd : ℕ := 1076
@[reducible, simp] def chainedRoot : ℕ := 1076
@[reducible, simp] def proof : ℕ := 1108

end CodeOff

structure FecSetParams (C : Crates) where
  slot : UInt64
  fecSetIndex : UInt32
  version : UInt16
  parentOffset : UInt16
  flags : UInt8
  /-- Merkle root of the previous FEC set in this slot, or zeros. -/
  chainedRoot : Bytes 32
  signingKey : C.SigningKey

/-- A constructed FEC set: 32 data shreds, then 32 coding shreds. -/
structure FecSet where
  shreds : List (List UInt8)
  merkleRoot : Bytes 32
  leaderPubkey : Bytes 32
  signature : Bytes 64

/-! ## The tree -/

structure Tree where
  /-- Nodes level by level, level 0 being the leaves. -/
  levels : List (List (Bytes 32))
  root : Bytes 32

variable {C : Crates}

/-- The loop over `last.chunks(2)`. -/
def nextLevel (C : Crates) : List (Bytes 32) → List (Bytes 32)
  | a :: b :: rest =>
      C.sha256 (merkleHashPrefixNode ++ (proofEntry a).1 ++ (proofEntry b).1) :: nextLevel C rest
  | [a] => [C.sha256 (merkleHashPrefixNode ++ (proofEntry a).1 ++ (proofEntry a).1)]
  | [] => []

theorem nextLevel_eq : ∀ level : List (Bytes 32), nextLevel C level = C.tree.pairUp level
  | a :: b :: rest => by
      rw [nextLevel, nextLevel_eq rest]
      rfl
  | [_] => rfl
  | [] => rfl

theorem length_nextLevel (level : List (Bytes 32)) :
    (nextLevel C level).length = (level.length + 1) / 2 := by
  rw [nextLevel_eq, TreeHash.length_pairUp]

/-- The loop of `build_tree`. -/
def buildLevels (C : Crates) (last : List (Bytes 32)) : List (List (Bytes 32)) :=
  if 1 < last.length then last :: buildLevels C (nextLevel C last) else [last]
termination_by last.length
decreasing_by
  rw [length_nextLevel]
  omega

/-- `build_tree`. -/
def buildTree (C : Crates) (leaves : List (Bytes 32)) : Exec ShredError Tree :=
  let levels := buildLevels C leaves
  match levels.getLast?.bind List.head? with
  | some root => .ok { levels, root }
  | none => .panic .index

/-- The loop of `merkle_proof`, from a level upwards. -/
def merkleProofFrom : List (List (Bytes 32)) → ℕ → List UInt8
  | [], _ => []
  | level :: levels, index =>
      if h : level.length ≤ 1 then []
      else
        let sibling := index ^^^ 1
        let s := if hs : sibling < level.length then level[sibling] else level[level.length - 1]
        (proofEntry s).1 ++ merkleProofFrom levels (index >>> 1)

/-- `merkle_proof`. -/
def merkleProof (tree : Tree) (index : ℕ) : List UInt8 := merkleProofFrom tree.levels index

theorem buildLevels_eq (leaves : List (Bytes 32)) :
    buildLevels C leaves = C.tree.layers leaves := by
  induction hn : leaves.length using Nat.strong_induction_on generalizing leaves with
  | _ n ih =>
      subst hn
      rw [buildLevels, TreeHash.layers]
      by_cases hlen : 1 < leaves.length
      · rw [if_pos hlen, if_pos hlen, ih _ (by rw [length_nextLevel]; omega) _ rfl, nextLevel_eq]
      · rw [if_neg hlen, if_neg hlen]

/-- The proof is the path, entry after entry. -/
theorem merkleProofFrom_eq : ∀ (levels : List (List (Bytes 32))) (i : ℕ),
    merkleProofFrom levels i = ((C.tree.path levels i).map Subtype.val).flatten
  | [], _ => rfl
  | level :: levels, i => by
      rw [merkleProofFrom, TreeHash.path]
      by_cases hlen : 1 < level.length
      · have hne : level ≠ [] := List.ne_nil_of_length_pos (by omega)
        have hsib : (if hs : i ^^^ 1 < level.length then level[i ^^^ 1]
            else level[level.length - 1]) = TreeHash.sibling level i hne := by
          unfold TreeHash.sibling
          split
          · rename_i hs
            rw [List.getElem?_eq_getElem hs, Option.getD_some]
          · rename_i hs
            rw [List.getElem?_eq_none (by omega), Option.getD_none, List.getLast_eq_getElem]
        rw [dif_neg (by omega), dif_pos hlen, List.map_cons, List.flatten_cons,
          merkleProofFrom_eq levels, Nat.shiftRight_one]
        simp only [hsib]
      · rw [dif_pos (by omega), dif_neg hlen]
        rfl

/-- A tree over leaves has their root, and its proofs are the paths. -/
theorem buildTree_eq {leaves : List (Bytes 32)} {root : Bytes 32}
    (h : C.tree.rootOf leaves = some root) :
    buildTree C leaves = .ok { levels := C.tree.layers leaves, root } := by
  rw [TreeHash.rootOf] at h
  simp only [buildTree, buildLevels_eq, h]

/-! ## Filling the shreds -/

def dataVariant : ShredVariant := ⟨.data, proofEntriesFor3232, true, false⟩

def codeVariant : ShredVariant := ⟨.code, proofEntriesFor3232, true, false⟩

/-- `DATA_CAPACITY_PER_SHRED`. -/
@[reducible, simp] def dataCapacityPerShred : ℕ := DataOff.dataBufEnd - DataOff.dataBuf

/-- The slice of the payload for data shred `i`. -/
def payloadSlice (payload : List UInt8) (i : ℕ) : Exec ShredError (List UInt8) :=
  let off := i * dataCapacityPerShred
  let stop := min (off + dataCapacityPerShred) payload.length
  if off < payload.length then slice payload off stop else .ok []

/-- Header, payload slice and chained root of data shred `i`. -/
def fillDataShred (P : Profile) (payload : List UInt8) (params : FecSetParams C) (i : ℕ) :
    Exec ShredError (List UInt8) := do
  let buf := List.replicate dataShredPayloadSize 0
  let buf ← setByte buf DataOff.variant dataVariant.encode
  let buf ← copyFromSlice buf DataOff.slot (DataOff.slot + 8) (toLe 8 params.slot.toNat)
  let index ← addU P 32 params.fecSetIndex.toNat i
  let buf ← copyFromSlice buf DataOff.index (DataOff.index + 4) (toLe 4 index)
  let buf ← copyFromSlice buf DataOff.version (DataOff.version + 2) (toLe 2 params.version.toNat)
  let buf ← copyFromSlice buf DataOff.fecSetIndex (DataOff.fecSetIndex + 4)
    (toLe 4 params.fecSetIndex.toNat)
  let buf ← copyFromSlice buf DataOff.parentOffset (DataOff.parentOffset + 2)
    (toLe 2 params.parentOffset.toNat)
  let buf ← setByte buf DataOff.flags params.flags
  let piece ← payloadSlice payload i
  let buf ← copyFromSlice buf DataOff.dataBuf (DataOff.dataBuf + piece.length) piece
  -- `as u16` keeps the low two bytes
  let size := DataOff.dataBuf + piece.length
  let buf ← copyFromSlice buf DataOff.sizeField (DataOff.sizeField + 2) (toLe 2 size)
  copyFromSlice buf DataOff.chainedRoot (DataOff.chainedRoot + 32) params.chainedRoot.1

/-- Header and chained root of coding shred `j`; the parity comes later. -/
def fillCodeShred (P : Profile) (params : FecSetParams C) (j : ℕ) :
    Exec ShredError (List UInt8) := do
  let buf := List.replicate codingShredPayloadSize 0
  let buf ← setByte buf CodeOff.variant codeVariant.encode
  let buf ← copyFromSlice buf CodeOff.slot (CodeOff.slot + 8) (toLe 8 params.slot.toNat)
  let index ← addU P 32 params.fecSetIndex.toNat j
  let buf ← copyFromSlice buf CodeOff.index (CodeOff.index + 4) (toLe 4 index)
  let buf ← copyFromSlice buf CodeOff.version (CodeOff.version + 2) (toLe 2 params.version.toNat)
  let buf ← copyFromSlice buf CodeOff.fecSetIndex (CodeOff.fecSetIndex + 4)
    (toLe 4 params.fecSetIndex.toNat)
  let buf ← copyFromSlice buf CodeOff.numData (CodeOff.numData + 2) (toLe 2 dataShredsPerFec)
  let buf ← copyFromSlice buf CodeOff.numCoding (CodeOff.numCoding + 2)
    (toLe 2 codingShredsPerFec)
  let buf ← copyFromSlice buf CodeOff.position (CodeOff.position + 2) (toLe 2 j)
  copyFromSlice buf CodeOff.chainedRoot (CodeOff.chainedRoot + 32) params.chainedRoot.1

/-- The payload bytes of data shred `i`. -/
def pieceOf (payload : List UInt8) (i : ℕ) : List UInt8 :=
  cut payload (i * 963) (i * 963 + 963)

theorem length_pieceOf (payload : List UInt8) (i : ℕ) :
    (pieceOf payload i).length = min 963 (payload.length - i * 963) := by
  simp only [pieceOf, cut, List.length_take, List.length_drop]
  omega

theorem payloadSlice_eq (payload : List UInt8) (i : ℕ) :
    payloadSlice payload i = .ok (pieceOf payload i) := by
  have hpiece := length_pieceOf payload i
  simp only [payloadSlice, dataCapacityPerShred, DataOff.dataBufEnd, DataOff.dataBuf,
    Nat.reduceSub]
  split
  · rw [slice_eq (by omega) (by omega)]
    simp only [pieceOf, cut, Exec.ok.injEq]
    rw [List.take_eq_take_iff, List.length_drop]
    omega
  · rw [List.eq_nil_of_length_eq_zero (l := pieceOf payload i) (by omega)]

/-- The writes that make data shred `i`. -/
def dataWrites (payload : List UInt8) (params : FecSetParams C) (i index : ℕ) :
    List (ℕ × List UInt8) :=
  [(64, [dataVariant.encode]), (65, toLe 8 params.slot.toNat), (73, toLe 4 index),
    (77, toLe 2 params.version.toNat), (79, toLe 4 params.fecSetIndex.toNat),
    (83, toLe 2 params.parentOffset.toNat), (85, [params.flags]), (88, pieceOf payload i),
    (86, toLe 2 (88 + (pieceOf payload i).length)), (1051, params.chainedRoot.1)]

/-- The writes that make coding shred `j`, up to its parity. -/
def codeWrites (params : FecSetParams C) (j index : ℕ) : List (ℕ × List UInt8) :=
  [(64, [codeVariant.encode]), (65, toLe 8 params.slot.toNat), (73, toLe 4 index),
    (77, toLe 2 params.version.toNat), (79, toLe 4 params.fecSetIndex.toNat),
    (83, toLe 2 32), (85, toLe 2 32), (87, toLe 2 j), (1076, params.chainedRoot.1)]

@[irreducible] def filledData (payload : List UInt8) (params : FecSetParams C)
    (i index : ℕ) : List UInt8 :=
  writeAll (List.replicate 1203 0) (dataWrites payload params i index)

@[irreducible] def filledCode (params : FecSetParams C) (j index : ℕ) : List UInt8 :=
  writeAll (List.replicate 1228 0) (codeWrites params j index)

theorem dataWrites_fits (payload : List UInt8) (params : FecSetParams C) (i index : ℕ) :
    Fits (List.replicate 1203 (0 : UInt8)).length (dataWrites payload params i index) := by
  have hpiece := length_pieceOf payload i
  have hroot := params.chainedRoot.2
  simp only [Fits, dataWrites, List.forall_mem_cons, length_toLe, List.length_singleton,
    List.length_replicate]
  refine ⟨?_, ?_, ?_, ?_, ?_, ?_, ?_, ?_, ?_, ?_, by simp⟩ <;> omega

theorem codeWrites_fits (params : FecSetParams C) (j index : ℕ) :
    Fits (List.replicate 1228 (0 : UInt8)).length (codeWrites params j index) := by
  have hroot := params.chainedRoot.2
  simp only [Fits, codeWrites, List.forall_mem_cons, length_toLe, List.length_singleton,
    List.length_replicate]
  refine ⟨?_, ?_, ?_, ?_, ?_, ?_, ?_, ?_, ?_, by simp⟩ <;> omega

theorem dataWrites_apart (payload : List UInt8) (params : FecSetParams C) (i index : ℕ) :
    (dataWrites payload params i index).Pairwise Apart := by
  have hpiece := length_pieceOf payload i
  have hroot := params.chainedRoot.2
  simp only [dataWrites, List.pairwise_cons, List.forall_mem_cons, Apart, length_toLe,
    List.length_singleton]
  simp
  omega

theorem codeWrites_apart (params : FecSetParams C) (j index : ℕ) :
    (codeWrites params j index).Pairwise Apart := by
  have hroot := params.chainedRoot.2
  simp only [codeWrites, List.pairwise_cons, List.forall_mem_cons, Apart, length_toLe,
    List.length_singleton]
  simp

/-- Filling a data shred fails only where its index does. -/
theorem fillDataShred_eq (P : Profile) (payload : List UInt8) (params : FecSetParams C) (i : ℕ) :
    fillDataShred P payload params i =
      addU P 32 params.fecSetIndex.toNat i >>= fun index =>
        .ok (filledData payload params i index) := by
  have hpiece := length_pieceOf payload i
  obtain ⟨h₁, l₁⟩ := setByte_step (ε := ShredError) (n := 1203) (i := 64)
    (l := List.replicate 1203 0) (x := dataVariant.encode) List.length_replicate (by omega)
  obtain ⟨h₂, l₂⟩ := copyFromSlice_step (ε := ShredError) (a := 65) (b := 73)
    (s := toLe 8 params.slot.toNat) l₁ (by omega) (by omega) (by simp)
  rw [fillDataShred]
  simp only [dataShredPayloadSize, DataOff.variant, DataOff.slot, DataOff.index, DataOff.version,
    DataOff.fecSetIndex, DataOff.parentOffset, DataOff.flags, DataOff.dataBuf, DataOff.sizeField,
    DataOff.chainedRoot, Nat.reduceAdd]
  rw [h₁, Exec.ok_bind, h₂, Exec.ok_bind]
  refine bind_congr fun index => ?_
  obtain ⟨h₃, l₃⟩ := copyFromSlice_step (ε := ShredError) (a := 73) (b := 77)
    (s := toLe 4 index) l₂ (by omega) (by omega) (by simp)
  obtain ⟨h₄, l₄⟩ := copyFromSlice_step (ε := ShredError) (a := 77) (b := 79)
    (s := toLe 2 params.version.toNat) l₃ (by omega) (by omega) (by simp)
  obtain ⟨h₅, l₅⟩ := copyFromSlice_step (ε := ShredError) (a := 79) (b := 83)
    (s := toLe 4 params.fecSetIndex.toNat) l₄ (by omega) (by omega) (by simp)
  obtain ⟨h₆, l₆⟩ := copyFromSlice_step (ε := ShredError) (a := 83) (b := 85)
    (s := toLe 2 params.parentOffset.toNat) l₅ (by omega) (by omega) (by simp)
  obtain ⟨h₇, l₇⟩ := setByte_step (ε := ShredError) (i := 85) (x := params.flags) l₆ (by omega)
  obtain ⟨h₈, l₈⟩ := copyFromSlice_step (ε := ShredError) (a := 88)
    (b := 88 + (pieceOf payload i).length) (s := pieceOf payload i) l₇ (by omega) (by omega)
    (by omega)
  obtain ⟨h₉, l₉⟩ := copyFromSlice_step (ε := ShredError) (a := 86) (b := 88)
    (s := toLe 2 (88 + (pieceOf payload i).length)) l₈ (by omega) (by omega) (by simp)
  obtain ⟨h₁₀, _⟩ := copyFromSlice_step (ε := ShredError) (a := 1051) (b := 1083)
    (s := params.chainedRoot.1) l₉ (by omega) (by omega) (by rw [params.chainedRoot.2])
  rw [h₃, Exec.ok_bind, h₄, Exec.ok_bind, h₅, Exec.ok_bind, h₆, Exec.ok_bind, h₇, Exec.ok_bind,
    payloadSlice_eq, Exec.ok_bind, h₈, Exec.ok_bind, h₉, Exec.ok_bind, h₁₀,
    filledData]
  rfl

theorem fillCodeShred_eq (P : Profile) (params : FecSetParams C) (j : ℕ) :
    fillCodeShred P params j =
      addU P 32 params.fecSetIndex.toNat j >>= fun index => .ok (filledCode params j index) := by
  obtain ⟨h₁, l₁⟩ := setByte_step (ε := ShredError) (n := 1228) (i := 64)
    (l := List.replicate 1228 0) (x := codeVariant.encode) List.length_replicate (by omega)
  obtain ⟨h₂, l₂⟩ := copyFromSlice_step (ε := ShredError) (a := 65) (b := 73)
    (s := toLe 8 params.slot.toNat) l₁ (by omega) (by omega) (by simp)
  rw [fillCodeShred]
  simp only [codingShredPayloadSize, CodeOff.variant, CodeOff.slot, CodeOff.index, CodeOff.version,
    CodeOff.fecSetIndex, CodeOff.numData, CodeOff.numCoding, CodeOff.position, CodeOff.chainedRoot,
    dataShredsPerFec, codingShredsPerFec, Nat.reduceAdd]
  rw [h₁, Exec.ok_bind, h₂, Exec.ok_bind]
  refine bind_congr fun index => ?_
  obtain ⟨h₃, l₃⟩ := copyFromSlice_step (ε := ShredError) (a := 73) (b := 77)
    (s := toLe 4 index) l₂ (by omega) (by omega) (by simp)
  obtain ⟨h₄, l₄⟩ := copyFromSlice_step (ε := ShredError) (a := 77) (b := 79)
    (s := toLe 2 params.version.toNat) l₃ (by omega) (by omega) (by simp)
  obtain ⟨h₅, l₅⟩ := copyFromSlice_step (ε := ShredError) (a := 79) (b := 83)
    (s := toLe 4 params.fecSetIndex.toNat) l₄ (by omega) (by omega) (by simp)
  obtain ⟨h₆, l₆⟩ := copyFromSlice_step (ε := ShredError) (a := 83) (b := 85)
    (s := toLe 2 32) l₅ (by omega) (by omega) (by simp)
  obtain ⟨h₇, l₇⟩ := copyFromSlice_step (ε := ShredError) (a := 85) (b := 87)
    (s := toLe 2 32) l₆ (by omega) (by omega) (by simp)
  obtain ⟨h₈, l₈⟩ := copyFromSlice_step (ε := ShredError) (a := 87) (b := 89)
    (s := toLe 2 j) l₇ (by omega) (by omega) (by simp)
  obtain ⟨h₉, _⟩ := copyFromSlice_step (ε := ShredError) (a := 1076) (b := 1108)
    (s := params.chainedRoot.1) l₈ (by omega) (by omega) (by rw [params.chainedRoot.2])
  rw [h₃, Exec.ok_bind, h₄, Exec.ok_bind, h₅, Exec.ok_bind, h₆, Exec.ok_bind, h₇, Exec.ok_bind,
    h₈, Exec.ok_bind, h₉, filledCode]
  rfl

/-! ## Parity -/

/-- `parity_shards`, zeroed. -/
def zeroParity : List (List UInt8) :=
  List.replicate codingShredsPerFec (List.replicate erasureShardSize 0)

/-- The Reed-Solomon block of `build_fec_set`: the parity of the data shreds'
erasure regions. -/
def encodeParity (C : Crates) (dataShreds : List (List UInt8)) :
    Exec ShredError (List (List UInt8)) := do
  let dataShards ← dataShreds.mapM fun buf =>
    slice buf sizeOfSignature (sizeOfSignature + erasureShardSize)
  let rs ← Exec.ofExcept ((C.newReedSolomon dataShredsPerFec codingShredsPerFec).mapError
    fun _ => ShredError.proofSizeOverflow 0)
  let parity ← Exec.ofExcept ((C.encodeSep rs dataShards zeroParity).mapError
    fun _ => ShredError.proofSizeOverflow 0)
  return parity.1

/-- The parity goes into the coding shreds' erasure regions. -/
def writeParity (codeShreds parity : List (List UInt8)) : Exec ShredError (List (List UInt8)) :=
  (codeShreds.zip parity).mapM fun bp =>
    copyFromSlice bp.1 CodeOff.erasureBuf CodeOff.erasureBufEnd bp.2

/-! ## Sealing -/

def proofStartAt (i : ℕ) : ℕ :=
  if i < dataShredsPerFec then DataOff.proof else CodeOff.proof

def proofEndAt (i : ℕ) : ℕ :=
  proofStartAt i + proofEntriesFor3232.toNat * sizeOfProofEntry

/-- Leaves, tree, proofs and signature of the filled shreds. -/
def sealShreds (C : Crates) (params : FecSetParams C) (shreds : List (List UInt8)) :
    Exec ShredError FecSet := do
  let leaves ← shreds.zipIdx.mapM fun bi => do
    let bytes ← slice bi.1 sizeOfSignature (proofStartAt bi.2)
    return C.sha256 (merkleHashPrefixLeaf ++ bytes)
  let tree ← buildTree C leaves
  let shreds ← shreds.zipIdx.mapM fun bi =>
    copyFromSlice bi.1 (proofStartAt bi.2) (proofEndAt bi.2) (merkleProof tree bi.2)
  let signature := C.sign params.signingKey tree.root.1
  let shreds ← shreds.mapM fun buf => copyFromSlice buf 0 sizeOfSignature signature.1
  return {
    shreds
    merkleRoot := tree.root
    leaderPubkey := C.verifyingKey params.signingKey
    signature }

/-- `build_fec_set`. -/
def buildFecSet (C : Crates) (P : Profile) (payload : List UInt8) (params : FecSetParams C) :
    Exec ShredError FecSet :=
  let maxPayload := dataCapacityPerShred * dataShredsPerFec
  if payload.length > maxPayload then .err (.payloadTooSmall payload.length)
  else do
    let dataShreds ← (List.range dataShredsPerFec).mapM (fillDataShred P payload params)
    let codeShreds ← (List.range codingShredsPerFec).mapM (fillCodeShred P params)
    let parity ← encodeParity C dataShreds
    let codeShreds ← writeParity codeShreds parity
    sealShreds C params (dataShreds ++ codeShreds)

end Lattica.Shred
