import Lattica.Foundation.MerkleCompletion
import Lattica.Reedsol.ReferenceCrates
import Lattica.Shred.FecSetLayout

/-!
# Merkle openings

`compute_merkle_root` on its own, with any leaf digest and any proof bytes. It
returns a root for whole entries and an index that fits their number; at one
index and one length a root is reached from one proof only, and from leaves
with one truncation. The proofs of a tree over any number of nodes are such
openings of its root.
-/

namespace Lattica.Shred

open Foundation

variable {C : Crates} {i : ℕ} {leaf leaf' root : Bytes 32} {proof proof' : List UInt8}

/-- The byte strings `compute_merkle_root` hashes. -/
def hashedByOpening (C : Crates) (leafIndex : ℕ) (leaf : Bytes 32) (proof : List UInt8) :
    List (List UInt8) :=
  C.tree.climbed leafIndex leaf (chunksExact sizeOfProofEntry proof)

theorem computeMerkleRoot_isOk_iff : (∃ root, computeMerkleRoot C i leaf proof = .ok root) ↔
    20 ∣ proof.length ∧ i < 2 ^ (proof.length / 20) := by
  constructor
  · rintro ⟨root, h⟩
    obtain ⟨hdvd, hlt, _⟩ := computeMerkleRoot_eq_ok.mp h
    exact ⟨hdvd, hlt⟩
  · rintro ⟨hdvd, hlt⟩
    exact ⟨_, computeMerkleRoot_eq_ok.mpr ⟨hdvd, hlt, rfl⟩⟩

/-- Without entries the root is the leaf. -/
theorem root_of_empty_proof (h : computeMerkleRoot C i leaf [] = .ok root) : root = leaf :=
  (computeMerkleRoot_eq_ok.mp h).2.2

/-- **Openings of one depth bind proof and leaf.** -/
theorem merkle_openings_bind (C : Crates) (leafIndex : ℕ) :
    (∀ (leaf : Bytes 32) (proof : List UInt8),
      (∃ root, computeMerkleRoot C leafIndex leaf proof = .ok root) ↔
        20 ∣ proof.length ∧ leafIndex < 2 ^ (proof.length / 20)) ∧
    ∀ (leaf leaf' root : Bytes 32) (proof proof' : List UInt8),
      computeMerkleRoot C leafIndex leaf proof = .ok root →
      computeMerkleRoot C leafIndex leaf' proof' = .ok root →
      proof.length = proof'.length →
      (proof = proof' ∧ leaf.1.take 20 = leaf'.1.take 20 ∧ (proof = [] → leaf = leaf')) ∨
        ∃ m ∈ hashedByOpening C leafIndex leaf proof ++ hashedByOpening C leafIndex leaf' proof',
        ∃ m' ∈ hashedByOpening C leafIndex leaf proof ++ hashedByOpening C leafIndex leaf' proof',
          m ≠ m' ∧ (C.sha256 m).1.take 20 = (C.sha256 m').1.take 20 := by
  refine ⟨fun _ _ => computeMerkleRoot_isOk_iff, ?_⟩
  intro leaf leaf' root proof proof' h h' hlen
  obtain ⟨hdvd, _, hroot⟩ := computeMerkleRoot_eq_ok.mp h
  obtain ⟨hdvd', _, hroot'⟩ := computeMerkleRoot_eq_ok.mp h'
  have hentries : (chunksExact 20 proof).length = (chunksExact 20 proof').length := by
    rw [length_chunksExact, length_chunksExact, hlen]
  rcases TreeHash.climb_binding (S := C.tree) hentries
      (congrArg proofEntry (hroot.symm.trans hroot')) with ⟨hleaf, hproof⟩ | hcol
  · have heq : proof = proof' := by
      rw [← flatten_chunksExact hdvd, ← flatten_chunksExact hdvd', hproof]
    refine Or.inl ⟨heq, congrArg Subtype.val hleaf, ?_⟩
    intro hnil
    subst hnil
    rw [← heq] at h'
    exact (root_of_empty_proof h).symm.trans (root_of_empty_proof h')
  · obtain ⟨m, hm, m', hm', hne, htrunc⟩ := hcol
    exact Or.inr ⟨m, hm, m', hm', hne, congrArg Subtype.val htrunc⟩

/-- A leaf that ends in twelve bytes `b`; the tree looks at its first twenty. -/
def tailedLeaf (b : UInt8) : Bytes 32 :=
  ⟨List.replicate 20 0 ++ List.replicate 12 b, by
    rw [List.length_append, List.length_replicate, List.length_replicate]⟩

theorem proofEntry_tailedLeaf (b : UInt8) : proofEntry (tailedLeaf b) = Bytes.zero 20 := by
  refine Subtype.ext ?_
  show (List.replicate 20 0 ++ List.replicate 12 b).take 20 = List.replicate 20 0
  rw [List.take_left' List.length_replicate]

/-- The right one of two nodes, with the left one's truncation as its proof. -/
theorem computeMerkleRoot_tailedLeaf (b : UInt8) :
    computeMerkleRoot C 1 (tailedLeaf b) (List.replicate 20 0) =
      .ok (C.sha256 (nodeMessage (Bytes.zero 20) (Bytes.zero 20))) := by
  have hchunks : chunksExact 20 (List.replicate 20 0) = [Bytes.zero 20] := by decide
  refine computeMerkleRoot_eq_ok.mpr ⟨by decide, by decide, ?_⟩
  rw [hchunks]
  show _ = C.sha256 (nodeMessage (Bytes.zero 20) (proofEntry (tailedLeaf b)))
  rw [proofEntry_tailedLeaf]

theorem merkle_openings_bind_tails :
    ((∃ root, computeMerkleRoot (Reedsol.referenceCrates sha256) 1 (tailedLeaf 1)
        (List.replicate 20 0) = .ok root) ↔
      20 ∣ (List.replicate 20 (0 : UInt8)).length ∧
        1 < 2 ^ ((List.replicate 20 (0 : UInt8)).length / 20)) ∧
    ((List.replicate 20 (0 : UInt8) = List.replicate 20 0 ∧
        (tailedLeaf 1).1.take 20 = (tailedLeaf 2).1.take 20 ∧
        (List.replicate 20 (0 : UInt8) = [] → tailedLeaf 1 = tailedLeaf 2)) ∨
      ∃ m ∈ hashedByOpening (Reedsol.referenceCrates sha256) 1 (tailedLeaf 1)
            (List.replicate 20 0) ++
          hashedByOpening (Reedsol.referenceCrates sha256) 1 (tailedLeaf 2) (List.replicate 20 0),
      ∃ m' ∈ hashedByOpening (Reedsol.referenceCrates sha256) 1 (tailedLeaf 1)
            (List.replicate 20 0) ++
          hashedByOpening (Reedsol.referenceCrates sha256) 1 (tailedLeaf 2) (List.replicate 20 0),
        m ≠ m' ∧ ((Reedsol.referenceCrates sha256).sha256 m).1.take 20 =
          ((Reedsol.referenceCrates sha256).sha256 m').1.take 20) :=
  ⟨(merkle_openings_bind (Reedsol.referenceCrates sha256) 1).1 _ _,
    (merkle_openings_bind (Reedsol.referenceCrates sha256) 1).2 _ _ _ _ _
      (computeMerkleRoot_tailedLeaf 1) (computeMerkleRoot_tailedLeaf 2) rfl⟩

/-! ## Proofs of a tree -/

section Tree

variable {nodes : List (Bytes 32)} {tree : Tree} {node : Bytes 32}

theorem buildTree_of_ne_nil (hne : nodes ≠ []) :
    buildTree C nodes = .ok { levels := C.tree.layers nodes, root := rootOfLeaves C nodes } :=
  buildTree_eq (rootOf_eq_rootOfLeaves (List.length_pos_iff.mpr hne))

theorem length_merkleProof (hne : nodes ≠ []) (root : Bytes 32) (i : ℕ) :
    (merkleProof { levels := C.tree.layers nodes, root } i).length =
      20 * Nat.clog 2 nodes.length := by
  obtain ⟨hle, hlt⟩ := TreeHash.hasLevels_clog hne
  rw [merkleProof_layers, length_flatten_bytes, pathOf, TreeHash.length_path hle hlt]

/-- **Every proof of a tree is an opening of its root**, whatever the number of
nodes. -/
theorem computeMerkleRoot_merkleProof (htree : buildTree C nodes = .ok tree)
    (hnode : nodes[i]? = some node) :
    computeMerkleRoot C i node (merkleProof tree i) = .ok tree.root := by
  have hlt : i < nodes.length := (List.getElem?_eq_some_iff.mp hnode).1
  have hne : nodes ≠ [] := List.ne_nil_of_length_pos (Nat.zero_lt_of_lt hlt)
  rw [buildTree_of_ne_nil hne, Exec.ok.injEq] at htree
  subst htree
  rw [computeMerkleRoot_eq_ok, length_merkleProof hne, Nat.mul_div_cancel_left _ (by decide)]
  refine ⟨Nat.dvd_mul_right 20 _, ?_, ?_⟩
  · exact hlt.trans_le (TreeHash.hasLevels_clog hne).1
  · rw [merkleProof_layers, chunksExact_flatten (by decide), climb_pathOf hnode]

end Tree

end Lattica.Shred
