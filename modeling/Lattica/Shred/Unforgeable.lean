import Lattica.Shred.Binding

/-!
# Under the root of a constructed set

The signature says nothing about who made a shred: it is the same for all
shreds of a set, and an attacker may put any bytes, any proof and any position
behind it. What holds an attacker is the tree: all 64 leaves under the root are
known, each with an honest opening of depth six, and an accepted buffer is
compared with the honest opening that meets its own path. Equal depth gives
equal bytes; a shallower proof would make a leaf of an inner node, a deeper one
an inner node of a leaf.
-/

namespace Lattica.Shred

open Foundation

variable {C : Crates} {P : Profile} {payload : List UInt8} {params : FecSetParams C}

/-- The leaf messages of a set. -/
def leafMessages (fs : FecSet) : List (List UInt8) :=
  fs.shreds.zipIdx.map fun si => leafMessage (cut si.1 sizeOfSignature (proofStartAt si.2))

/-- The byte strings hashed while a set is built: its leaves, then the nodes over
them. -/
def hashedByBuild (C : Crates) (fs : FecSet) : List (List UInt8) :=
  leafMessages fs ++ C.tree.built ((leafMessages fs).map C.sha256)

section Set

variable {parity : List (List UInt8)} (h : ParityShape parity)

include h

theorem getElem?_leafMessages {i : ℕ} (hi : i < 64) :
    (leafMessages (setOf C payload params parity))[i]? =
      some (leafMessage (authBytes (shredAt C payload params parity i) (variantAt i))) := by
  rw [leafMessages, List.getElem?_map, List.getElem?_zipIdx, getElem?_setOf h hi]
  simp [authBytes, (variantAt_layout i).1]

theorem map_leafMessages :
    (leafMessages (setOf C payload params parity)).map C.sha256 =
      setLeaves C payload params parity := by
  apply List.ext_getElem?
  intro i
  by_cases hi : i < 64
  · rw [List.getElem?_map, getElem?_leafMessages h hi, getElem?_setLeaves h hi]
    rfl
  · rw [List.getElem?_eq_none, List.getElem?_eq_none]
    · rw [length_setLeaves h]
      omega
    · rw [List.length_map, leafMessages, List.length_map, List.length_zipIdx, length_setOf h]
      omega

/-- What an honest opening hashes was hashed when the set was built. -/
theorem hashedAt_shredAt {i : ℕ} (hi : i < 64) :
    ∀ m ∈ hashedAt C (shredAt C payload params parity i) (variantAt i) i,
      m ∈ hashedByBuild C (setOf C payload params parity) := by
  intro m hm
  rw [hashedAt, proofEntries_shredAt h hi] at hm
  rw [hashedByBuild, List.mem_append, map_leafMessages h]
  rcases List.mem_cons.mp hm with rfl | hm
  · exact Or.inl (List.mem_of_getElem? (getElem?_leafMessages h hi))
  · exact Or.inr (TreeHash.climbed_path_subset (getElem?_setLeaves h hi) m hm)

theorem length_proofEntries_shredAt {i : ℕ} (hi : i < 64) :
    (proofEntries (shredAt C payload params parity i) (variantAt i)).length = 6 := by
  rw [proofEntries_shredAt h hi, length_proofAt h]

/-- The shreds of a set parse to themselves, whoever signed them. -/
theorem authenticated_shredAt (hfit : IndexesFit P params) {i : ℕ} (hi : i < 64) :
    authenticated P (shredAt C payload params parity i) =
      authBytes (shredAt C payload params parity i) (variantAt i) := by
  have hf : Fields params i (shredAt C payload params parity i) := fields_shredAt h hi
  rw [authenticated, parseShred_eq (v := variantAt i) (by rw [hf.variant, decode_encode_variantAt])
    hf.length.ge, indexOf_shredAt h hfit hi]
  rfl

end Set

theorem collision_of_hashedAt {parity : List (List UInt8)} (h : ParityShape parity) {i : ℕ}
    (hi : i < 64) {ms : List (List UInt8)}
    (hcol : C.tree.Collision
      (ms ++ hashedAt C (shredAt C payload params parity i) (variantAt i) i)) :
    C.tree.Collision (hashedByBuild C (setOf C payload params parity) ++ ms) := by
  refine hcol.mono fun m hm => ?_
  rw [List.mem_append] at hm ⊢
  rcases hm with hm | hm
  · exact Or.inr hm
  · exact Or.inl (hashedAt_shredAt h hi m hm)

/-- An accepted buffer under the root of a set has the authenticated bytes of the
set's shred at its position. -/
theorem Verified.under_set_root {parity : List (List UInt8)} (h : ParityShape parity)
    {raw : List UInt8} {pk : Bytes 32} {v : ShredVariant} {i : ℕ} (hv : Verified C P raw pk v i)
    (hroot : rootAt C raw v i = (setOf C payload params parity).merkleRoot) :
    (i < 64 ∧
      authBytes raw v = authBytes (shredAt C payload params parity i) (variantAt i)) ∨
      C.tree.Collision (hashedByBuild C (setOf C payload params parity) ++ hashedAt C raw v i) := by
  have hlen := hv.length_entries
  have hlt := hv.index_lt
  have hhonest : ∀ {k : ℕ}, k < 64 → rootAt C raw v i =
      rootAt C (shredAt C payload params parity k) (variantAt k) k :=
    fun hk => hroot.trans (rootAt_shredAt h hk).symm
  rcases Nat.lt_trichotomy v.proofSize.toNat 6 with hshallow | heq | hdeep
  · -- the buffer's leaf would be an inner node over leaf `i * 2 ^ (6 - p)`
    have hpow : 2 ^ v.proofSize.toNat * 2 ^ (6 - v.proofSize.toNat) = 64 := by
      rw [← pow_add, show v.proofSize.toNat + (6 - v.proofSize.toNat) = 6 by omega]
      rfl
    have hk : i * 2 ^ (6 - v.proofSize.toNat) < 64 := by
      rw [← hpow]
      exact Nat.mul_lt_mul_of_pos_right hlt (Nat.two_pow_pos _)
    refine Or.inr (collision_of_hashedAt h hk (collision_of_deeper ?_ ?_ (hhonest hk)))
    · rw [hlen, length_proofEntries_shredAt h hk]
      exact hshallow
    · rw [hlen, length_proofEntries_shredAt h hk]
      exact Nat.mul_div_cancel _ (Nat.two_pow_pos _)
  · have hi : i < 64 := by
      rw [heq] at hlt
      exact hlt
    rcases authBytes_eq_or_collision (by rw [hlen, heq, length_proofEntries_shredAt h hi])
      (hhonest hi) with hauth | hcol
    · exact Or.inl ⟨hi, hauth⟩
    · exact Or.inr (collision_of_hashedAt h hi hcol)
  · -- leaf `i / 2 ^ (p - 6)` of the set would be an inner node over the buffer's leaf
    have hk : i / 2 ^ (v.proofSize.toNat - 6) < 64 := by
      rw [Nat.div_lt_iff_lt_mul (Nat.two_pow_pos _), show 64 = 2 ^ 6 from rfl, ← pow_add,
        show 6 + (v.proofSize.toNat - 6) = v.proofSize.toNat by omega]
      exact hlt
    refine Or.inr (collision_of_hashedAt h hk
      (collision_swap (collision_of_deeper ?_ ?_ (hhonest hk).symm)))
    · rw [hlen, length_proofEntries_shredAt h hk]
      exact hdeep
    · rw [hlen, length_proofEntries_shredAt h hk]

/-- **Nobody can forge a shred under an honest root.** -/
theorem accepted_under_set_root (C : Crates) (P : Profile) (payload : List UInt8)
    (params : FecSetParams C) (fs : FecSet) (hbuild : buildFecSet C P payload params = .ok fs)
    (leaderPubkey : Bytes 32) (raw : List UInt8) (w : VerifiedShred)
    (h : verifyShred C P raw leaderPubkey = .ok w) (hroot : w.merkleRoot = fs.merkleRoot) :
    (w.erasureShardIndex < 64 ∧ ∃ shred, fs.shreds[w.erasureShardIndex]? = some shred ∧
      authenticated P raw = authenticated P shred) ∨
    C.tree.Collision (hashedByBuild C fs ++ hashedByVerify C P raw) := by
  obtain ⟨_, hfit, parity, _, hshape, rfl⟩ := buildFecSet_eq_ok hbuild
  obtain ⟨v, i, hv, rfl⟩ := verifyShred_eq_ok h
  rw [verifiedOf_merkleRoot] at hroot
  rw [verifiedOf_erasureShardIndex, hv.authenticated_eq, hv.hashedByVerify_eq]
  rcases hv.under_set_root hshape hroot with ⟨hi, hauth⟩ | hcol
  · exact Or.inl ⟨hi, _, getElem?_setOf hshape hi, by
      rw [hauth, authenticated_shredAt hshape hfit hi]⟩
  · exact Or.inr hcol

/-- Shred 40 of a small set, under the set's own root. -/
theorem accepted_under_set_root_small :
    ∃ fs raw w, buildFecSet (Reedsol.referenceCrates sha256) ⟨true⟩ [1, 2, 3]
        (sampleParams sha256 64 0xc0) = .ok fs ∧
      verifyShred (Reedsol.referenceCrates sha256) ⟨true⟩ raw fs.leaderPubkey = .ok w ∧
      w.merkleRoot = fs.merkleRoot ∧
      ((w.erasureShardIndex < 64 ∧ ∃ shred, fs.shreds[w.erasureShardIndex]? = some shred ∧
        authenticated ⟨true⟩ raw = authenticated ⟨true⟩ shred) ∨
      (Reedsol.referenceCrates sha256).tree.Collision
        (hashedByBuild (Reedsol.referenceCrates sha256) fs ++
          hashedByVerify (Reedsol.referenceCrates sha256) ⟨true⟩ raw)) := by
  have hfit : IndexesFit ⟨true⟩ (sampleParams sha256 64 0xc0) := indexesFit_of_lt (by decide)
  obtain ⟨parity, hshape, hbuild⟩ := buildFecSet_succeeds [1, 2, 3] _
    Reedsol.referenceCrates_encodesMds.encodesEqualLengths (by decide) hfit
  have hver : verifyShred (Reedsol.referenceCrates sha256) ⟨true⟩
      (shredAt _ [1, 2, 3] (sampleParams sha256 64 0xc0) parity 40) _ = _ :=
    verifyShred_shredAt hshape Reedsol.referenceCrates_acceptsHonestSignatures hfit (by decide)
  have hroot : rootAt (Reedsol.referenceCrates sha256)
      (shredAt _ [1, 2, 3] (sampleParams sha256 64 0xc0) parity 40) _ _ = _ :=
    rootAt_shredAt hshape (by decide)
  exact ⟨_, _, _, hbuild, hver, hroot,
    accepted_under_set_root _ _ _ _ _ hbuild _ _ _ hver hroot⟩

end Lattica.Shred
