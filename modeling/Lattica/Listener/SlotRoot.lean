import Lattica.Foundation.MerkleCompletion
import Lattica.Listener.Steps
import Lattica.Reedsol.ReferenceCrates
import Lattica.Shred.Openings

/-!
# What a slot root commits to

The roots of a slot are hashed without a leaf prefix, and the last odd node of a
layer is paired with itself. The slot root therefore binds the list of roots up
to completion, and up to the layer at which two trees have as many levels left:
a list may have the slot root of a longer one. Lists of one length are bound
entry by entry.

The route is through `Foundation.complete`: `aggregate_root` is the root of the
tree over the list, hence of the full tree over its completion, and full trees
of one height bind their entries. The tree a FEC set is built with is the same
one, so its root and its proofs agree with the ladder at every size.
-/

namespace Lattica.Listener

open Foundation Shred Reedsol

variable {C : Crates} {xs ys : List (Bytes 32)}

/-- How often the loop of `aggregate_root` runs. -/
def levels (roots : List (Bytes 32)) : ℕ := Nat.clog 2 roots.length

theorem levels_mono (hle : xs.length ≤ ys.length) : levels xs ≤ levels ys :=
  Nat.clog_mono_right 2 hle

theorem rootOf_of_aggregateRoot {root : Bytes 32} (hne : xs ≠ [])
    (h : aggregateRoot C xs = .ok root) : C.tree.rootOf xs = some root := by
  unfold aggregateRoot at h
  rw [if_neg (by rwa [List.isEmpty_iff]), aggregateLoop_head] at h
  cases hr : C.tree.rootOf xs with
  | none =>
      rw [hr] at h
      cases h
  | some r =>
      rw [hr] at h
      injection h with h
      rw [h]

theorem rootOf_eq_iff (hxs : xs ≠ []) (hys : ys ≠ []) :
    C.tree.rootOf xs = C.tree.rootOf ys ↔ aggregateRoot C xs = aggregateRoot C ys := by
  have hx := rootOf_of_aggregateRoot hxs (aggregateRoot_eq C xs)
  have hy := rootOf_of_aggregateRoot hys (aggregateRoot_eq C ys)
  rw [hx, hy, aggregateRoot_eq, aggregateRoot_eq, Option.some.injEq, Exec.ok.injEq]

/-! ## Tree and ladder -/

theorem aggregateRoot_eq_rootOfLeaves (hne : xs ≠ []) :
    aggregateRoot C xs = .ok (rootOfLeaves C xs) := by
  have hroot := rootOf_of_aggregateRoot hne (aggregateRoot_eq C xs)
  rw [rootOf_eq_rootOfLeaves (List.length_pos_iff.mpr hne), Option.some.injEq] at hroot
  rw [hroot]
  exact aggregateRoot_eq C xs

/-- **Builder, proofs, verifier and ladder agree**, for any number of nodes. -/
theorem tree_and_ladder_agree (C : Crates) (nodes : List (Bytes 32)) (hne : nodes ≠ []) :
    ∃ tree : Shred.Tree, buildTree C nodes = .ok tree ∧ aggregateRoot C nodes = .ok tree.root ∧
      ∀ (i : ℕ) (node : Bytes 32), nodes[i]? = some node →
        computeMerkleRoot C i node (merkleProof tree i) = .ok tree.root := by
  have htree := buildTree_of_ne_nil (C := C) hne
  refine ⟨_, htree, aggregateRoot_eq_rootOfLeaves hne, ?_⟩
  intro i node hnode
  exact computeMerkleRoot_merkleProof htree hnode

/-! ## Lists that meet -/

/-- One root is its own slot root. -/
theorem aggregateRoot_singleton (root : Bytes 32) : aggregateRoot C [root] = .ok root := by
  have hone : ¬ 1 < [root].length := Nat.lt_irrefl 1
  rw [aggregateRoot, if_neg (by simp), aggregateLoop, if_neg hone]
  rfl

/-- Lists of two or more roots whose completions agree have one slot root. -/
theorem slot_root_of_complete {h : ℕ} (hx : TreeHash.HasLevels (h + 1) xs)
    (hy : TreeHash.HasLevels (h + 1) ys) (heq : (complete (h + 1) xs).map proofEntry =
      (complete (h + 1) ys).map proofEntry) : aggregateRoot C xs = aggregateRoot C ys :=
  (rootOf_eq_iff (List.ne_nil_of_length_pos hx.pos) (List.ne_nil_of_length_pos hy.pos)).mp
    (TreeHash.rootOf_eq_of_complete hx hy heq)

theorem length_evenRoot (b : UInt8) : (List.replicate 32 b).length = 32 := List.length_replicate

/-- A root with every byte `b`. -/
def evenRoot (b : UInt8) : Bytes 32 := ⟨List.replicate 32 b, length_evenRoot b⟩

def twoRoots : List (Bytes 32) := [evenRoot 1, evenRoot 2]

def threeRoots : List (Bytes 32) := [evenRoot 1, evenRoot 2, evenRoot 3]

/-- Three roots with the last one given twice. -/
def fourRoots : List (Bytes 32) := [evenRoot 1, evenRoot 2, evenRoot 3, evenRoot 3]

theorem tree_and_ladder_agree_three :
    threeRoots ≠ [] ∧
    ∃ tree : Shred.Tree, buildTree (referenceCrates sha256) threeRoots = .ok tree ∧
      aggregateRoot (referenceCrates sha256) threeRoots = .ok tree.root ∧
      ∀ (i : ℕ) (node : Bytes 32), threeRoots[i]? = some node →
        computeMerkleRoot (referenceCrates sha256) i node (merkleProof tree i) = .ok tree.root :=
  ⟨by decide, tree_and_ladder_agree _ threeRoots (by decide)⟩

theorem aggregateRoot_fourRoots : aggregateRoot C threeRoots = aggregateRoot C fourRoots :=
  slot_root_of_complete (h := 1) (by decide) (by decide) rfl

/-! ## Binding -/

/-- **The slot root binds the completed list of roots**, and a list with more
levels by the layer that has as many above it; lists of one length it binds
entry by entry. -/
theorem slot_root_binds (hxs : xs ≠ []) (hle : xs.length ≤ ys.length)
    (hroot : aggregateRoot C xs = aggregateRoot C ys) :
    ((complete (levels xs) xs).map proofEntry =
        (complete (levels xs) (C.tree.layer (levels ys - levels xs) ys)).map proofEntry ∧
      (xs.length = ys.length → xs.map proofEntry = ys.map proofEntry)) ∨
    C.tree.Collision (C.tree.built xs ++ C.tree.built ys) := by
  have hys : ys ≠ [] := List.ne_nil_of_length_pos ((List.length_pos_iff.mpr hxs).trans_le hle)
  have hx : TreeHash.HasLevels (levels xs) xs := TreeHash.hasLevels_clog hxs
  have hy : TreeHash.HasLevels (levels xs + (levels ys - levels xs)) ys := by
    rw [Nat.add_sub_cancel' (levels_mono hle)]
    exact TreeHash.hasLevels_clog hys
  have hlayer : C.tree.rootOf xs = C.tree.rootOf (C.tree.layer (levels ys - levels xs) ys) := by
    rw [TreeHash.rootOf_layer hy]
    exact (rootOf_eq_iff hxs hys).mpr hroot
  -- the first list and the layer have trees of one height
  rcases TreeHash.complete_eq_or_collision hx (TreeHash.hasLevels_layer hy) hlayer
    with heq | hcol
  · refine Or.inl ⟨heq, fun hlen => ?_⟩
    have hsame : levels ys = levels xs := by
      unfold levels
      rw [hlen]
    -- of one length, the layer is the list itself and a completion has one prefix
    rw [hsame, Nat.sub_self, TreeHash.layer, ← complete_map, ← complete_map] at heq
    refine eq_of_complete_eq ?_ ?_ heq
    · rw [List.length_map, List.length_map, hlen]
    · rw [List.length_map]
      exact hx.1
  · refine Or.inr (hcol.mono fun m hm => ?_)
    rw [List.mem_append] at hm ⊢
    exact hm.imp id (TreeHash.built_layer hy m)

/-- A list and the same with the last root given twice. -/
theorem slot_root_binds_three :
    threeRoots ≠ [] ∧ threeRoots.length ≤ fourRoots.length ∧
      aggregateRoot (referenceCrates sha256) threeRoots =
        aggregateRoot (referenceCrates sha256) fourRoots ∧
    (((complete (levels threeRoots) threeRoots).map proofEntry =
        (complete (levels threeRoots) ((referenceCrates sha256).tree.layer
          (levels fourRoots - levels threeRoots) fourRoots)).map proofEntry ∧
      (threeRoots.length = fourRoots.length →
        threeRoots.map proofEntry = fourRoots.map proofEntry)) ∨
    (referenceCrates sha256).tree.Collision
      ((referenceCrates sha256).tree.built threeRoots ++
        (referenceCrates sha256).tree.built fourRoots)) :=
  ⟨by decide, by decide, aggregateRoot_fourRoots,
    slot_root_binds (by decide) (by decide) aggregateRoot_fourRoots⟩

/-- The messages hashed over `threeRoots` are the ones hashed over `fourRoots`. -/
theorem built_fourRoots : C.tree.built threeRoots = C.tree.builtOf 2 (fourRoots.map proofEntry) ∧
    C.tree.built fourRoots = C.tree.builtOf 2 (fourRoots.map proofEntry) := by
  refine ⟨?_, TreeHash.built_eq_builtOf (k := 2) (by decide) (by decide)⟩
  rw [TreeHash.built_eq_builtOf (k := 2) (by decide) (by decide)]
  rfl

theorem fourRoots_free : ¬ (referenceCrates sha256).tree.Collision
    ((referenceCrates sha256).tree.built threeRoots ++
      (referenceCrates sha256).tree.built fourRoots) := by
  have hnodup : ¬ (referenceCrates sha256).tree.Collision
      ((referenceCrates sha256).tree.builtOf 2 (fourRoots.map proofEntry)) := by
    refine TreeHash.not_collision_of_nodup ?_
    decide +kernel
  refine fun hcol => hnodup (hcol.mono fun m hm => ?_)
  rwa [built_fourRoots.1, built_fourRoots.2, List.mem_append, or_self] at hm

/-- One hashed message cannot collide with itself. -/
theorem twoRoots_free {root : Bytes 32} :
    ¬ C.tree.Collision (C.tree.built [root] ++ C.tree.built twoRoots) := by
  have hone : C.tree.built [root] = [] := by
    rw [TreeHash.built, if_neg (by rw [List.length_singleton]; exact Nat.lt_irrefl 1)]
  have htwo : C.tree.built twoRoots =
      [nodeMessage (proofEntry (evenRoot 1)) (proofEntry (evenRoot 2))] :=
    TreeHash.built_eq_builtOf (k := 1) (by decide) (by decide)
  rw [hone, htwo, List.nil_append]
  refine TreeHash.not_collision_of_nodup ?_
  rw [List.map_singleton]
  exact List.nodup_singleton _

/-- Lists of different lengths with one slot root: a last root given twice, and
the slot root of two roots as a list of its own. -/
theorem slot_root_meets :
    (aggregateRoot (referenceCrates sha256) threeRoots =
        aggregateRoot (referenceCrates sha256) fourRoots ∧
      threeRoots.length ≠ fourRoots.length ∧
      ¬ (referenceCrates sha256).tree.Collision
        ((referenceCrates sha256).tree.built threeRoots ++
          (referenceCrates sha256).tree.built fourRoots)) ∧
    ∃ root : Bytes 32, aggregateRoot (referenceCrates sha256) twoRoots = .ok root ∧
      aggregateRoot (referenceCrates sha256) [root] =
        aggregateRoot (referenceCrates sha256) twoRoots ∧
      [root].length ≠ twoRoots.length ∧
      ¬ (referenceCrates sha256).tree.Collision
        ((referenceCrates sha256).tree.built [root] ++
          (referenceCrates sha256).tree.built twoRoots) := by
  refine ⟨⟨?_, by decide, fourRoots_free⟩, _, aggregateRoot_eq _ twoRoots, ?_, ?_, twoRoots_free⟩
  · exact aggregateRoot_fourRoots
  · rw [aggregateRoot_singleton, aggregateRoot_eq]
  · exact fun h => absurd h (by decide)

end Lattica.Listener
