import Lattica.Shred.Verify

/-!
# Shreds a leader can sign

The constructor is not the only source of accepted shreds. The signature is
not among the bytes the leaf covers, so whoever holds the key can lay out any
authenticated bytes with any proof (`laidOut`), sign the root they lead to
(`signedBy`), and have the result accepted (`verified_laidOut`).
-/

namespace Lattica.Shred

open Foundation

variable {C : Crates} {P : Profile} {raw : List UInt8} {v : ShredVariant} {i : ℕ}

/-! ## Signing a buffer -/

/-- The buffer with the holder's signature of its own root in front. -/
def signedBy (C : Crates) (sk : C.SigningKey) (raw : List UInt8) (v : ShredVariant) (i : ℕ) :
    List UInt8 :=
  splice raw 0 (C.sign sk (rootAt C raw v i).1).1

section Signing

variable {sig : Bytes 64}

theorem cut_splice_sig (hraw : 64 ≤ raw.length) {a b : ℕ} (ha : 64 ≤ a) :
    cut (splice raw 0 sig.1) a b = cut raw a b :=
  cut_splice_disjoint (by rw [sig.2]; omega) (by rw [sig.2]; omega)

theorem getD_splice_sig (hraw : 64 ≤ raw.length) {k : ℕ} (hk : 64 ≤ k) :
    (splice raw 0 sig.1).getD k 0 = raw.getD k 0 :=
  getD_splice_disjoint (by rw [sig.2]; omega) (by rw [sig.2]; omega)

theorem length_splice_sig (hraw : 64 ≤ raw.length) :
    (splice raw 0 sig.1).length = raw.length :=
  length_splice (by rw [sig.2]; omega)

theorem indexOf_splice_sig (hraw : 89 ≤ raw.length) :
    indexOf P (splice raw 0 sig.1) v = indexOf P raw v := by
  have h64 : 64 ≤ raw.length := by omega
  cases hk : v.kind with
  | data =>
      rw [indexOf_data hk, indexOf_data hk]
      simp only [headerOf]
      rw [cut_splice_sig h64 (by omega), cut_splice_sig h64 (by omega)]
  | code =>
      rw [indexOf_code hk (by rw [length_splice_sig h64]; omega), indexOf_code hk hraw,
        cut_splice_sig h64 (by omega)]

theorem authBytes_splice_sig (hraw : 64 ≤ raw.length) :
    authBytes (splice raw 0 sig.1) v = authBytes raw v :=
  cut_splice_sig hraw le_rfl

theorem proofEntries_splice_sig (hraw : 64 ≤ raw.length) (hps : v.proofSize.toNat < 16) :
    proofEntries (splice raw 0 sig.1) v = proofEntries raw v := by
  obtain ⟨_, hst, _⟩ := ShredVariant.tail_bounds hps
  rw [proofEntries, proofEntries, cut_splice_sig hraw (by omega)]

theorem rootAt_splice_sig (hraw : 64 ≤ raw.length) (hps : v.proofSize.toNat < 16) :
    rootAt C (splice raw 0 sig.1) v i = rootAt C raw v i := by
  rw [rootAt, rootAt, leafOf, leafOf, authBytes_splice_sig hraw,
    proofEntries_splice_sig hraw hps]

/-- A signed buffer is accepted. -/
theorem verified_signedBy (hC : C.AcceptsHonestSignatures) (sk : C.SigningKey)
    (hv : ShredVariant.decode (raw.getD 64 0) = .ok v) (hlen : v.expectedLen ≤ raw.length)
    (hi : indexOf P raw v = .ok i) (hlt : i < 2 ^ v.proofSize.toNat) :
    Verified C P (signedBy C sk raw v i) (C.verifyingKey sk) v i := by
  have hraw : 89 ≤ raw.length := by
    have := v.expectedLen_le
    omega
  obtain ⟨_, _, hps⟩ := ShredVariant.decode_ok hv
  obtain ⟨pk, sig, hpk, hsig, hver⟩ := hC sk (rootAt C raw v i).1
  refine ⟨?_, ?_, ?_, hlt, pk, sig, hpk, ?_, ?_⟩
  · rw [signedBy, getD_splice_sig (by omega) le_rfl, hv]
  · rw [signedBy, length_splice_sig (by omega)]
    exact hlen
  · rw [signedBy, indexOf_splice_sig hraw, hi]
  · have hlen := (C.sign sk (rootAt C raw v i).1).2
    rw [signedBy, cut_splice_self (by omega) (by omega), asArray_self]
    exact hsig
  · rw [signedBy, rootAt_splice_sig (by omega) hps]
    exact hver

end Signing

/-! ## Laying out a buffer -/

/-- Room for the signature, the authenticated bytes, the proof, and what follows it. -/
def laidOut (auth : List UInt8) (proof : List (Bytes 20)) (rest : List UInt8) : List UInt8 :=
  List.replicate 64 0 ++ (auth ++ ((proof.map Subtype.val).flatten ++ rest))

/-- The parts have the sizes the variant in the first byte gives them. -/
structure Layout (v : ShredVariant) (auth : List UInt8) (proof : List (Bytes 20))
    (rest : List UInt8) : Prop where
  decodes : ShredVariant.decode (auth.getD 0 0) = .ok v
  auth : auth.length = v.proofStart - 64
  proof : proof.length = v.proofSize.toNat
  rest : rest.length = v.resignBytes

section LaidOut

variable {auth rest : List UInt8} {proof : List (Bytes 20)}

theorem getD_laidOut {k : ℕ} (hk : k < auth.length) :
    (laidOut auth proof rest).getD (64 + k) 0 = auth.getD k 0 := by
  rw [laidOut, List.getD_eq_getElem?_getD, List.getElem?_append_right (by simp),
    List.length_replicate, Nat.add_sub_cancel_left, List.getElem?_append_left hk,
    List.getD_eq_getElem?_getD]

theorem cut_laidOut {a b : ℕ} (hb : b ≤ auth.length) :
    cut (laidOut auth proof rest) (64 + a) (64 + b) = cut auth a b := by
  apply List.ext_getElem?
  intro k
  by_cases hk : k < b - a
  · simp only [cut]
    rw [List.getElem?_take_of_lt (by omega), List.getElem?_take_of_lt (by omega),
      List.getElem?_drop, List.getElem?_drop, laidOut, List.getElem?_append_right (by simp; omega),
      List.length_replicate, List.getElem?_append_left (by omega)]
    congr 1
    omega
  · simp only [cut, List.getElem?_take]
    rw [if_neg (by omega), if_neg (by omega)]

variable (h : Layout v auth proof rest)

include h

theorem Layout.bounds :
    64 + auth.length = v.proofStart ∧ v.proofStart + 20 * proof.length = v.proofEnd ∧
      64 + auth.length + 20 * proof.length + rest.length = v.expectedLen ∧ 775 ≤ auth.length := by
  obtain ⟨_, _, hps⟩ := ShredVariant.decode_ok h.decodes
  obtain ⟨_, hst, hpe, hre, _⟩ := ShredVariant.tail_bounds hps
  have hauth := h.auth
  have hproof := h.proof
  have hrest := h.rest
  simp only [ShredVariant.proofBytes, sizeOfProofEntry] at hpe
  omega

theorem Layout.length_laidOut : (laidOut auth proof rest).length = v.expectedLen := by
  obtain ⟨_, _, hlen, _⟩ := h.bounds
  rw [laidOut, List.length_append, List.length_append, List.length_append, List.length_replicate,
    length_flatten_bytes]
  omega

theorem Layout.decodes_laidOut :
    ShredVariant.decode ((laidOut auth proof rest).getD 64 0) = .ok v := by
  have hlow := h.bounds.2.2.2
  rw [getD_laidOut (k := 0) (by omega), h.decodes]

theorem Layout.authBytes_laidOut : authBytes (laidOut auth proof rest) v = auth := by
  obtain ⟨hst, _⟩ := h.bounds
  rw [authBytes, ← hst, cut_laidOut (a := 0) le_rfl]
  simp [cut]

theorem Layout.proofEntries_laidOut : proofEntries (laidOut auth proof rest) v = proof := by
  obtain ⟨hst, hpe, _⟩ := h.bounds
  have hdrop : (laidOut auth proof rest).drop v.proofStart =
      (proof.map Subtype.val).flatten ++ rest := by
    rw [← hst, laidOut, ← List.drop_drop, List.drop_left' List.length_replicate,
      List.drop_left' rfl]
  rw [proofEntries, cut, hdrop, ← hpe, Nat.add_sub_cancel_left,
    List.take_left' (length_flatten_bytes proof), chunksExact_flatten (by decide)]

/-- The root is where the given proof leads. -/
theorem Layout.rootAt_laidOut :
    rootAt C (laidOut auth proof rest) v i =
      C.tree.climb i (C.sha256 (leafMessage auth)) proof := by
  rw [rootAt, leafOf, h.authBytes_laidOut, h.proofEntries_laidOut]

theorem Layout.indexOf_laidOut (hk : v.kind = .data)
    (hle : fromLe (cut auth 15 19) ≤ fromLe (cut auth 9 13)) :
    indexOf P (laidOut auth proof rest) v =
      .ok (fromLe (cut auth 9 13) - fromLe (cut auth 15 19)) := by
  have hlow := h.bounds.2.2.2
  have hel := v.expectedLen_le
  have h83 : 83 ≤ (laidOut auth proof rest).length := by
    rw [h.length_laidOut]
    omega
  have hidx : (headerOf (laidOut auth proof rest) v).index.toNat = fromLe (cut auth 9 13) := by
    rw [headerOf_index h83, cut_laidOut (a := 9) (b := 13) (by omega)]
  have hfec : (headerOf (laidOut auth proof rest) v).fecSetIndex.toNat =
      fromLe (cut auth 15 19) := by
    rw [headerOf_fecSetIndex h83, cut_laidOut (a := 15) (b := 19) (by omega)]
  rw [indexOf_data_of_le hk (by omega), hidx, hfec]

/-- Signing changes neither the leaf nor the proof. -/
theorem Layout.signed (sk : C.SigningKey) :
    authBytes (signedBy C sk (laidOut auth proof rest) v i) v = auth ∧
      proofEntries (signedBy C sk (laidOut auth proof rest) v i) v = proof ∧
      rootAt C (signedBy C sk (laidOut auth proof rest) v i) v i =
        C.tree.climb i (C.sha256 (leafMessage auth)) proof := by
  obtain ⟨_, _, hps⟩ := ShredVariant.decode_ok h.decodes
  have hraw : 64 ≤ (laidOut auth proof rest).length := by
    have hel := v.expectedLen_le
    rw [h.length_laidOut]
    omega
  rw [signedBy, authBytes_splice_sig hraw, proofEntries_splice_sig hraw hps,
    rootAt_splice_sig hraw hps]
  exact ⟨h.authBytes_laidOut, h.proofEntries_laidOut, h.rootAt_laidOut⟩

/-- The authenticated bytes of the signed buffer, read where they lie. -/
theorem Layout.cut_signed (sk : C.SigningKey) {a b : ℕ} (hb : b ≤ auth.length) :
    cut (signedBy C sk (laidOut auth proof rest) v i) (64 + a) (64 + b) = cut auth a b := by
  have hel := v.expectedLen_le
  rw [signedBy, cut_splice_sig (by rw [h.length_laidOut]; omega) (by omega), cut_laidOut hb]

/-- Slot, set and flags of the signed buffer. -/
theorem Layout.header_signed (sk : C.SigningKey) :
    (headerOf (signedBy C sk (laidOut auth proof rest) v i) v).slot =
        .ofNat (fromLe (cut auth 1 9)) ∧
      (headerOf (signedBy C sk (laidOut auth proof rest) v i) v).fecSetIndex =
        .ofNat (fromLe (cut auth 15 19)) ∧
      (signedBy C sk (laidOut auth proof rest) v i).getD 85 0 = auth.getD 21 0 := by
  have hlow := h.bounds.2.2.2
  have hel := v.expectedLen_le
  have hslot := h.cut_signed (C := C) (i := i) sk (a := 1) (b := 9) (by omega)
  have hfec := h.cut_signed (C := C) (i := i) sk (a := 15) (b := 19) (by omega)
  refine ⟨?_, ?_, ?_⟩
  · rw [headerOf, ← hslot]
  · rw [headerOf, ← hfec]
  · rw [signedBy, getD_splice_sig (by rw [h.length_laidOut]; omega) (by decide),
      getD_laidOut (k := 21) (by omega)]

/-- A signed data shred laid out at a position its proof reaches is accepted. -/
theorem Layout.verified (hC : C.AcceptsHonestSignatures) (sk : C.SigningKey)
    (hk : v.kind = .data) (hle : fromLe (cut auth 15 19) ≤ fromLe (cut auth 9 13))
    (hi : i = fromLe (cut auth 9 13) - fromLe (cut auth 15 19))
    (hlt : i < 2 ^ v.proofSize.toNat) :
    Verified C P (signedBy C sk (laidOut auth proof rest) v i) (C.verifyingKey sk) v i :=
  verified_signedBy hC sk h.decodes_laidOut h.length_laidOut.ge
    (by rw [h.indexOf_laidOut hk hle, hi]) hlt

end LaidOut

/-! ## Trees -/

/-- The leaves over given authenticated bytes. -/
def leavesOver (C : Crates) (auths : List (List UInt8)) : List (Bytes 32) :=
  auths.map fun auth => C.sha256 (leafMessage auth)

/-- Shred `i` of the tree over `auths`, with its path as the proof and the root signed. -/
def shredOver (C : Crates) (sk : C.SigningKey) (auths : List (List UInt8)) (v : ShredVariant)
    (rest : List UInt8) (i : ℕ) : List UInt8 :=
  signedBy C sk
    (laidOut (auths.getD i []) (C.tree.path (C.tree.layers (leavesOver C auths)) i) rest) v i

/-- Authenticated bytes of one variant, and as many as its depth needs. -/
structure TreeLayout (v : ShredVariant) (auths : List (List UInt8)) (rest : List UInt8) : Prop where
  decodes : ∀ auth ∈ auths, ShredVariant.decode (auth.getD 0 0) = .ok v
  auth : ∀ auth ∈ auths, auth.length = v.proofStart - 64
  fits : auths.length ≤ 2 ^ v.proofSize.toNat
  deep : 2 ^ v.proofSize.toNat < 2 * auths.length
  rest : rest.length = v.resignBytes

section Tree

variable {auths : List (List UInt8)} {rest : List UInt8} (h : TreeLayout v auths rest)

include h

theorem TreeLayout.layout (hi : i < auths.length) :
    Layout v (auths.getD i []) (C.tree.path (C.tree.layers (leavesOver C auths)) i) rest := by
  have hmem : auths.getD i [] ∈ auths := by
    rw [List.getD_eq_getElem _ _ hi]
    exact List.getElem_mem hi
  refine ⟨h.decodes _ hmem, h.auth _ hmem, ?_, h.rest⟩
  refine TreeHash.length_path ?_ ?_
  · rw [leavesOver, List.length_map]
    exact h.fits
  · rw [leavesOver, List.length_map]
    exact h.deep

omit h in
theorem getElem?_leavesOver (hi : i < auths.length) :
    (leavesOver C auths)[i]? = some (C.sha256 (leafMessage (auths.getD i []))) := by
  rw [leavesOver, List.getElem?_map, List.getElem?_eq_getElem hi, List.getD_eq_getElem _ _ hi]
  rfl

/-- All shreds of the tree have its root. -/
theorem TreeLayout.rootAt_shredOver (sk : C.SigningKey) (hi : i < auths.length) :
    C.tree.rootOf (leavesOver C auths) = some (rootAt C (shredOver C sk auths v rest i) v i) := by
  rw [shredOver, ((h.layout hi).signed sk).2.2]
  exact TreeHash.climb_path (getElem?_leavesOver hi)

/-- What is hashed for a shred of the tree was hashed when the tree was built. -/
theorem TreeLayout.hashedAt_shredOver (sk : C.SigningKey) (hi : i < auths.length) :
    ∀ m ∈ hashedAt C (shredOver C sk auths v rest i) v i,
      m ∈ auths.map leafMessage ++ C.tree.built (leavesOver C auths) := by
  obtain ⟨hauth, hproof, _⟩ := (h.layout (C := C) hi).signed (i := i) sk
  intro m hm
  rw [shredOver, hashedAt, leafOf, hauth, hproof] at hm
  rw [List.mem_append]
  rcases List.mem_cons.mp hm with rfl | hm
  · rw [List.getD_eq_getElem _ _ hi]
    exact Or.inl (List.mem_map_of_mem (List.getElem_mem hi))
  · exact Or.inr (TreeHash.climbed_path_subset (getElem?_leavesOver hi) m hm)

end Tree

/-! ## Bare shreds -/

/-- The authenticated bytes of a data shred of slot 0 and `fec_set_index` 0
with the given variant byte, index and flags, zero everywhere else. -/
def bareAuth (variant index flags : UInt8) (n : ℕ) : List UInt8 :=
  variant :: (List.replicate 8 0 ++ index :: (List.replicate 11 0 ++ flags :: List.replicate n 0))

section Bare

variable {variant index flags : UInt8} {n : ℕ}

theorem length_bareAuth : (bareAuth variant index flags n).length = n + 22 := by
  simp only [bareAuth, List.length_cons, List.length_append, List.length_replicate]
  omega

theorem bareAuth_index : fromLe (cut (bareAuth variant index flags n) 9 13) = index.toNat := by
  change fromLe [index, 0, 0, 0] = _
  simp [fromLe]

theorem bareAuth_slot : fromLe (cut (bareAuth variant index flags n) 1 9) = 0 := by
  change fromLe (List.replicate 8 0) = 0
  decide

theorem bareAuth_flags : (bareAuth variant index flags n).getD 21 0 = flags := rfl

theorem bareAuth_fecSetIndex : fromLe (cut (bareAuth variant index flags n) 15 19) = 0 := rfl

end Bare

end Lattica.Shred
