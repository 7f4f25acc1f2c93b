import Lattica.Shred.LeaderShreds
import Lattica.Shred.RoundTrip

/-!
# What a Merkle root binds

Two accepted buffers with one root. At one depth of the tree the position binds
the authenticated bytes, and at position 0 it does so at any two depths; at
other positions a deeper proof ends elsewhere in the tree, and two different
shreds can share root and position (`position_free_across_depths`). Under the
root of a constructed set there is no such freedom: every leaf of the tree is
known, so whatever is accepted is one of the 64 shreds (`accepted_under_set_root`).
Collisions are always among the strings the calls themselves hash.
-/

namespace Lattica.Shred

open Foundation

variable {C : Crates} {P : Profile} {raw raw' : List UInt8} {v v' : ShredVariant} {i j : ℕ}
  {pk : Bytes 32}

/-- `raw[64..proof_start)`, as the parser places it. -/
def authenticated (P : Profile) (raw : List UInt8) : List UInt8 :=
  match parseShred P raw with
  | .ok p => cut raw p.leafRange.start p.leafRange.stop
  | _ => []

/-- The proof size in the variant byte. -/
def proofSizeOf (raw : List UInt8) : UInt8 := raw.getD 64 0 &&& 0x0f

theorem Verified.authenticated_eq (h : Verified C P raw pk v i) :
    authenticated P raw = authBytes raw v := by
  rw [authenticated, parseShred_eq h.decodes h.full, h.index]
  rfl

theorem Verified.length_entries (h : Verified C P raw pk v i) :
    (proofEntries raw v).length = v.proofSize.toNat :=
  length_proofEntries h.decodes h.full

theorem Verified.proofSizeOf_eq (h : Verified C P raw pk v i) : proofSizeOf raw = v.proofSize :=
  (ShredVariant.decode_ok h.decodes).2.1.symm

/-! ## Two openings of one root -/

/-- At one depth, root and position bind the authenticated bytes. -/
theorem authBytes_eq_or_collision
    (hlen : (proofEntries raw v).length = (proofEntries raw' v').length)
    (hroot : rootAt C raw v i = rootAt C raw' v' i) :
    authBytes raw v = authBytes raw' v' ∨
      C.tree.Collision (hashedAt C raw v i ++ hashedAt C raw' v' i) := by
  rcases TreeHash.climb_binding (S := C.tree) hlen (congrArg proofEntry hroot) with
    ⟨hleaf, _⟩ | hcol
  · rcases TreeHash.eq_or_collision (S := C.tree)
      (hashedAt C raw v i ++ hashedAt C raw' v' i)
      (by simp [hashedAt]) (by simp [hashedAt]) hleaf with hmsg | hcol
    · exact Or.inl (leafMessage_inj hmsg)
    · exact Or.inr hcol
  · refine Or.inr (hcol.mono fun m hm => ?_)
    rw [List.mem_append] at hm
    rw [hashedAt, hashedAt, List.mem_append, List.mem_cons, List.mem_cons]
    tauto

/-- A leaf is never an inner node of a deeper opening of the same root. -/
theorem collision_of_deeper
    (hlen : (proofEntries raw v).length < (proofEntries raw' v').length)
    (hidx : j / 2 ^ ((proofEntries raw' v').length - (proofEntries raw v).length) = i)
    (hroot : rootAt C raw v i = rootAt C raw' v' j) :
    C.tree.Collision (hashedAt C raw v i ++ hashedAt C raw' v' j) := by
  have hcol := TreeHash.leaf_ne_inner (S := C.tree) (m := leafMessage (authBytes raw v))
    (leafMessage_ne_nodeMessage _) hlen hidx (congrArg proofEntry hroot)
  refine hcol.mono fun m hm => ?_
  rw [List.mem_append] at hm
  rw [hashedAt, hashedAt, List.mem_append, List.mem_cons, List.mem_cons]
  rcases hm with hm | hm
  · exact Or.inl (List.mem_cons.mp hm)
  · exact Or.inr (Or.inr hm)

theorem collision_swap {ms ms' : List (List UInt8)} (h : C.tree.Collision (ms ++ ms')) :
    C.tree.Collision (ms' ++ ms) :=
  h.mono fun m hm => by
    rw [List.mem_append] at hm ⊢
    exact hm.symm

/-- **Root and position bind the shred**, at one depth or at position 0. -/
theorem root_and_position_bind (C : Crates) (P : Profile) (leaderPubkey : Bytes 32)
    (raw raw' : List UInt8) (w w' : VerifiedShred)
    (h : verifyShred C P raw leaderPubkey = .ok w)
    (h' : verifyShred C P raw' leaderPubkey = .ok w')
    (hroot : w.merkleRoot = w'.merkleRoot) (hpos : w.erasureShardIndex = w'.erasureShardIndex)
    (hdepth : proofSizeOf raw = proofSizeOf raw' ∨ w.erasureShardIndex = 0) :
    authenticated P raw = authenticated P raw' ∨
      C.tree.Collision (hashedByVerify C P raw ++ hashedByVerify C P raw') := by
  obtain ⟨v, i, hv, rfl⟩ := verifyShred_eq_ok h
  obtain ⟨v', i', hv', rfl⟩ := verifyShred_eq_ok h'
  simp only [verifiedOf_merkleRoot, verifiedOf_erasureShardIndex] at hroot hpos hdepth
  subst hpos
  rw [hv.authenticated_eq, hv'.authenticated_eq, hv.hashedByVerify_eq, hv'.hashedByVerify_eq]
  have hlen := hv.length_entries
  have hlen' := hv'.length_entries
  rcases Nat.lt_trichotomy (proofEntries raw v).length (proofEntries raw' v').length with
    hlt | heq | hgt
  · -- depths differ, so the position is 0
    rcases hdepth with hsize | rfl
    · rw [hv.proofSizeOf_eq, hv'.proofSizeOf_eq] at hsize
      rw [hlen, hlen', hsize] at hlt
      exact absurd hlt (lt_irrefl _)
    · exact Or.inr (collision_of_deeper hlt (Nat.zero_div _) hroot)
  · exact authBytes_eq_or_collision heq hroot
  · rcases hdepth with hsize | rfl
    · rw [hv.proofSizeOf_eq, hv'.proofSizeOf_eq] at hsize
      rw [hlen, hlen', hsize] at hgt
      exact absurd hgt (lt_irrefl _)
    · exact Or.inr (collision_swap (collision_of_deeper hgt (Nat.zero_div _) hroot.symm))

/-! The retransmitter signature is not authenticated: two buffers that differ in
it alone are accepted with one root at one position. -/

def relayVariant : ShredVariant := ⟨.data, 0, true, true⟩

theorem relayed_layout (x : UInt8) :
    Layout relayVariant (bareAuth 0xb0 0 0 1053) [] (List.replicate 64 x) where
  decodes := rfl
  auth := length_bareAuth
  proof := rfl
  rest := List.length_replicate

/-- A lone-leaf shred with retransmitter bytes `x`. -/
noncomputable def relayed (x : UInt8) : List UInt8 :=
  signedBy (Reedsol.referenceCrates sha256) (Reedsol.sampleKey sha256)
    (laidOut (bareAuth 0xb0 0 0 1053) [] (List.replicate 64 x)) relayVariant 0

theorem verified_relayed (x : UInt8) :
    Verified (Reedsol.referenceCrates sha256) ⟨true⟩ (relayed x)
      ((Reedsol.referenceCrates sha256).verifyingKey (Reedsol.sampleKey sha256))
      relayVariant 0 := by
  rw [relayed]
  exact (relayed_layout x).verified Reedsol.referenceCrates_acceptsHonestSignatures
    (Reedsol.sampleKey sha256) rfl
    (by rw [bareAuth_fecSetIndex]; exact Nat.zero_le _)
    (by rw [bareAuth_fecSetIndex, bareAuth_index]; rfl) (by decide)

theorem rootAt_relayed (x : UInt8) :
    rootAt (Reedsol.referenceCrates sha256) (relayed x) relayVariant 0 =
      (Reedsol.referenceCrates sha256).sha256 (leafMessage (bareAuth 0xb0 0 0 1053)) := by
  rw [relayed]
  exact ((relayed_layout x).signed (Reedsol.sampleKey sha256)).2.2

theorem root_and_position_bind_relayed :
    authenticated ⟨true⟩ (relayed 1) = authenticated ⟨true⟩ (relayed 2) ∨
      (Reedsol.referenceCrates sha256).tree.Collision
        (hashedByVerify (Reedsol.referenceCrates sha256) ⟨true⟩ (relayed 1) ++
          hashedByVerify (Reedsol.referenceCrates sha256) ⟨true⟩ (relayed 2)) := by
  refine root_and_position_bind (Reedsol.referenceCrates sha256) ⟨true⟩ _ (relayed 1) (relayed 2)
    _ _ (verified_relayed 1).verifyShred_eq (verified_relayed 2).verifyShred_eq ?_ ?_ (Or.inr ?_)
  · rw [verifiedOf_merkleRoot, verifiedOf_merkleRoot, rootAt_relayed, rootAt_relayed]
  · rw [verifiedOf_erasureShardIndex, verifiedOf_erasureShardIndex]
  · rw [verifiedOf_erasureShardIndex]

/-! ### Positions at two depths

A shred with one proof entry and one with two, both at position 1. The deeper
one's proof holds the leaf of the other as the last sibling, the other's proof
the inner node the deeper one passes through. -/

def shallowVariant : ShredVariant := ⟨.data, 1, true, false⟩
def deepVariant : ShredVariant := ⟨.data, 2, true, false⟩

def shallowAuth : List UInt8 := bareAuth 0x91 1 0 1097
def deepAuth : List UInt8 := bareAuth 0x92 1 0 1077

/-- Truncated digests of the two leaves, of the inner node and of the root. -/
def shallowLeaf : Bytes 20 := ⟨[0x22, 0x26, 0x27, 0xb0, 0xd9, 0x16, 0x0c, 0x3e, 0xab, 0x60, 0xec,
  0x34, 0x77, 0x73, 0x20, 0xd5, 0x32, 0x5e, 0x1b, 0x48], rfl⟩
def deepLeaf : Bytes 20 := ⟨[0xb2, 0x26, 0x6a, 0xc5, 0x73, 0x43, 0xea, 0x4b, 0xc8, 0xb4, 0xee,
  0x14, 0x03, 0x9d, 0x5f, 0x00, 0x4f, 0x59, 0xc3, 0x8f], rfl⟩
def innerNode : Bytes 20 := ⟨[0x2b, 0x2a, 0xb2, 0x57, 0x5f, 0x16, 0x0e, 0xf5, 0x3b, 0xe5, 0x7a,
  0x29, 0xc6, 0xfa, 0xad, 0x72, 0x1b, 0x7d, 0x06, 0x48], rfl⟩
def commonRoot : Bytes 20 := ⟨[0xfd, 0x12, 0xd8, 0xa3, 0xee, 0xeb, 0x83, 0xef, 0x21, 0xb4, 0xdf,
  0xd8, 0xa7, 0x79, 0x9d, 0xd0, 0xa4, 0x79, 0x22, 0x98], rfl⟩

theorem sha256_shallowLeaf : proofEntry (sha256 (leafMessage shallowAuth)) = shallowLeaf := by
  decide +kernel

theorem sha256_deepLeaf : proofEntry (sha256 (leafMessage deepAuth)) = deepLeaf := by
  decide +kernel

theorem sha256_innerNode :
    proofEntry (sha256 (nodeMessage (Bytes.zero 20) deepLeaf)) = innerNode := by
  decide +kernel

theorem sha256_commonRoot :
    proofEntry (sha256 (nodeMessage innerNode shallowLeaf)) = commonRoot := by
  decide +kernel

theorem shallow_layout : Layout shallowVariant shallowAuth [innerNode] [] where
  decodes := rfl
  auth := length_bareAuth
  proof := rfl
  rest := rfl

theorem deep_layout : Layout deepVariant deepAuth [Bytes.zero 20, shallowLeaf] [] where
  decodes := rfl
  auth := length_bareAuth
  proof := rfl
  rest := rfl

noncomputable def shallowShred : List UInt8 :=
  signedBy (Reedsol.referenceCrates sha256) (Reedsol.sampleKey sha256)
    (laidOut shallowAuth [innerNode] []) shallowVariant 1

noncomputable def deepShred : List UInt8 :=
  signedBy (Reedsol.referenceCrates sha256) (Reedsol.sampleKey sha256)
    (laidOut deepAuth [Bytes.zero 20, shallowLeaf] []) deepVariant 1

theorem verified_shallowShred :
    Verified (Reedsol.referenceCrates sha256) ⟨true⟩ shallowShred
      ((Reedsol.referenceCrates sha256).verifyingKey (Reedsol.sampleKey sha256))
      shallowVariant 1 := by
  rw [shallowShred]
  exact shallow_layout.verified Reedsol.referenceCrates_acceptsHonestSignatures
    (Reedsol.sampleKey sha256) rfl
    (by rw [shallowAuth, bareAuth_fecSetIndex]; exact Nat.zero_le _)
    (by rw [shallowAuth, bareAuth_fecSetIndex, bareAuth_index]; rfl) (by decide)

theorem verified_deepShred :
    Verified (Reedsol.referenceCrates sha256) ⟨true⟩ deepShred
      ((Reedsol.referenceCrates sha256).verifyingKey (Reedsol.sampleKey sha256))
      deepVariant 1 := by
  rw [deepShred]
  exact deep_layout.verified Reedsol.referenceCrates_acceptsHonestSignatures
    (Reedsol.sampleKey sha256) rfl
    (by rw [deepAuth, bareAuth_fecSetIndex]; exact Nat.zero_le _)
    (by rw [deepAuth, bareAuth_fecSetIndex, bareAuth_index]; rfl) (by decide)

/-! The climbs, one hash after the other. -/

theorem join_innerNode {C : Crates} {d : Bytes 32} (hd : proofEntry d = deepLeaf) :
    C.tree.join 1 d (Bytes.zero 20) = nodeMessage (Bytes.zero 20) deepLeaf := by
  rw [← hd]
  rfl

theorem join_root_deep {C : Crates} {d : Bytes 32} (hd : proofEntry d = innerNode) :
    C.tree.join 0 d shallowLeaf = nodeMessage innerNode shallowLeaf := by
  rw [← hd]
  rfl

theorem join_root_shallow {C : Crates} {d : Bytes 32} (hd : proofEntry d = shallowLeaf) :
    C.tree.join 1 d innerNode = nodeMessage innerNode shallowLeaf := by
  rw [← hd]
  rfl

theorem shallowShred_climb :
    hashedByVerify (Reedsol.referenceCrates sha256) ⟨true⟩ shallowShred =
        [leafMessage shallowAuth, nodeMessage innerNode shallowLeaf] ∧
      rootAt (Reedsol.referenceCrates sha256) shallowShred shallowVariant 1 =
        sha256 (nodeMessage innerNode shallowLeaf) := by
  obtain ⟨hauth, hproof, hroot⟩ := shallow_layout.signed
    (C := Reedsol.referenceCrates sha256) (i := 1) (Reedsol.sampleKey sha256)
  have hjoin := join_root_shallow (C := Reedsol.referenceCrates sha256) sha256_shallowLeaf
  rw [verified_shallowShred.hashedByVerify_eq, hashedAt, leafOf, shallowShred, hauth, hproof, hroot]
  simp only [TreeHash.climbed, TreeHash.climb]
  rw [show (Reedsol.referenceCrates sha256).sha256 = sha256 from rfl, hjoin]
  exact ⟨rfl, rfl⟩

theorem deepShred_climb :
    hashedByVerify (Reedsol.referenceCrates sha256) ⟨true⟩ deepShred =
        [leafMessage deepAuth, nodeMessage (Bytes.zero 20) deepLeaf,
          nodeMessage innerNode shallowLeaf] ∧
      rootAt (Reedsol.referenceCrates sha256) deepShred deepVariant 1 =
        sha256 (nodeMessage innerNode shallowLeaf) := by
  obtain ⟨hauth, hproof, hroot⟩ := deep_layout.signed
    (C := Reedsol.referenceCrates sha256) (i := 1) (Reedsol.sampleKey sha256)
  have hjoin := join_innerNode (C := Reedsol.referenceCrates sha256) sha256_deepLeaf
  have hjoin' := join_root_deep (C := Reedsol.referenceCrates sha256) sha256_innerNode
  rw [verified_deepShred.hashedByVerify_eq, hashedAt, leafOf, deepShred, hauth, hproof, hroot]
  simp only [TreeHash.climbed, TreeHash.climb]
  rw [show (Reedsol.referenceCrates sha256).sha256 = sha256 from rfl, hjoin]
  change _ :: _ :: (Reedsol.referenceCrates sha256).tree.join 0 _ _ :: [] = _ ∧
    sha256 ((Reedsol.referenceCrates sha256).tree.join 0 _ _) = _
  rw [hjoin']
  exact ⟨rfl, rfl⟩

/-- At two depths, root and position do not bind: two accepted shreds, one root,
one position, different authenticated bytes, and no collision. -/
theorem position_free_across_depths :
    ∃ (leaderPubkey : Bytes 32) (w w' : VerifiedShred),
      verifyShred (Reedsol.referenceCrates sha256) ⟨true⟩ shallowShred leaderPubkey = .ok w ∧
      verifyShred (Reedsol.referenceCrates sha256) ⟨true⟩ deepShred leaderPubkey = .ok w' ∧
      w.merkleRoot = w'.merkleRoot ∧ w.erasureShardIndex = w'.erasureShardIndex ∧
      authenticated ⟨true⟩ shallowShred ≠ authenticated ⟨true⟩ deepShred ∧
      ¬ (Reedsol.referenceCrates sha256).tree.Collision
        (hashedByVerify (Reedsol.referenceCrates sha256) ⟨true⟩ shallowShred ++
          hashedByVerify (Reedsol.referenceCrates sha256) ⟨true⟩ deepShred) := by
  obtain ⟨hshallow, hroot⟩ := shallowShred_climb
  obtain ⟨hdeep, hroot'⟩ := deepShred_climb
  refine ⟨_, _, _, verified_shallowShred.verifyShred_eq, verified_deepShred.verifyShred_eq,
    ?_, ?_, ?_, ?_⟩
  · rw [verifiedOf_merkleRoot, verifiedOf_merkleRoot, hroot, hroot']
  · rw [verifiedOf_erasureShardIndex, verifiedOf_erasureShardIndex]
  · rw [verified_shallowShred.authenticated_eq, verified_deepShred.authenticated_eq, shallowShred,
      deepShred, (shallow_layout.signed _).1, (deep_layout.signed _).1]
    intro h
    exact absurd (congrArg List.head? h) (by decide)
  · rw [hshallow, hdeep]
    -- the two climbs end in the same node
    have hnodup : ¬ (Reedsol.referenceCrates sha256).tree.Collision
        [leafMessage shallowAuth, leafMessage deepAuth, nodeMessage (Bytes.zero 20) deepLeaf,
          nodeMessage innerNode shallowLeaf] := by
      refine TreeHash.not_collision_of_nodup ?_
      change [proofEntry (sha256 _), proofEntry (sha256 _), proofEntry (sha256 _),
        proofEntry (sha256 _)].Nodup
      rw [sha256_shallowLeaf, sha256_deepLeaf, sha256_innerNode, sha256_commonRoot]
      decide
    refine fun hcol => hnodup (hcol.mono fun m hm => ?_)
    simp only [List.mem_append, List.mem_cons, List.not_mem_nil, or_false] at hm ⊢
    tauto

end Lattica.Shred
