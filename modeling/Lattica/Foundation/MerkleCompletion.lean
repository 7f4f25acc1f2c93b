import Mathlib.Data.Nat.Log
import Lattica.Foundation.MerkleOpening

/-!
# Trees over lists of any length

A tree that pairs the last node of an odd layer with itself is the full tree
over a longer list: `complete h` repeats the end of the list until there are
`2 ^ h` entries. Completion commutes with building a layer, so it keeps the
root, and full trees of one height bind their entries. A list is a prefix of its
completion, so lists of one length are bound entry by entry; lists of different
lengths are bound up to completion, and a tree with more levels by the layer
that has as many above it.
-/

namespace Lattica.Foundation

/-! ## Completion -/

/-- The list as a tree of `h` levels repeats it, for up to `2 ^ h` entries. -/
def complete {α : Type*} : ℕ → List α → List α
  | 0, xs => xs.take 1
  | h + 1, xs =>
      -- a list that fits below the left child has no right child but itself
      if xs.length ≤ 2 ^ h then complete h xs ++ complete h xs
      else complete h (xs.take (2 ^ h)) ++ complete h (xs.drop (2 ^ h))

section Complete

variable {α β : Type*}

theorem complete_single {xs : List α} (hle : xs.length ≤ 2 ^ 0) : complete 0 xs = xs := by
  rw [pow_zero] at hle
  rw [complete, List.take_of_length_le hle]

theorem complete_small {h : ℕ} {xs : List α} (hle : xs.length ≤ 2 ^ h) :
    complete (h + 1) xs = complete h xs ++ complete h xs := by
  rw [complete, if_pos hle]

theorem complete_large {h : ℕ} {xs : List α} (hlt : 2 ^ h < xs.length) :
    complete (h + 1) xs = complete h (xs.take (2 ^ h)) ++ complete h (xs.drop (2 ^ h)) := by
  rw [complete, if_neg (Nat.not_le_of_lt hlt)]

theorem length_take_pow {h : ℕ} {xs : List α} (hlt : 2 ^ h < xs.length) :
    (xs.take (2 ^ h)).length = 2 ^ h := by
  rw [List.length_take, Nat.min_eq_left hlt.le]

theorem length_drop_pow_pos {h : ℕ} {xs : List α} (hlt : 2 ^ h < xs.length) :
    0 < (xs.drop (2 ^ h)).length := by
  rw [List.length_drop]
  exact Nat.sub_pos_of_lt hlt

theorem length_drop_pow_le {h : ℕ} {xs : List α} (hle : xs.length ≤ 2 ^ (h + 1)) :
    (xs.drop (2 ^ h)).length ≤ 2 ^ h := by
  rw [List.length_drop, Nat.sub_le_iff_le_add, ← Nat.two_mul, ← pow_succ']
  exact hle

theorem length_complete : ∀ {h : ℕ} {xs : List α}, 0 < xs.length → xs.length ≤ 2 ^ h →
    (complete h xs).length = 2 ^ h
  | 0, xs, hpos, _ => by
      rw [complete, List.length_take, pow_zero]
      exact Nat.min_eq_left hpos
  | h + 1, xs, hpos, hle => by
      rw [pow_succ', Nat.two_mul]
      by_cases hsmall : xs.length ≤ 2 ^ h
      · rw [complete_small hsmall, List.length_append, length_complete hpos hsmall]
      · have hlt := Nat.lt_of_not_le hsmall
        rw [complete_large hlt, List.length_append,
          length_complete (by rw [length_take_pow hlt]; exact Nat.two_pow_pos h)
            (length_take_pow hlt).le,
          length_complete (length_drop_pow_pos hlt) (length_drop_pow_le hle)]

/-- Completion only repeats. -/
theorem mem_of_mem_complete : ∀ {h : ℕ} {xs : List α} {x : α}, x ∈ complete h xs → x ∈ xs
  | 0, xs, x, hx => List.mem_of_mem_take hx
  | h + 1, xs, x, hx => by
      by_cases hsmall : xs.length ≤ 2 ^ h
      · rw [complete_small hsmall, List.mem_append, or_self] at hx
        exact mem_of_mem_complete hx
      · rw [complete_large (Nat.lt_of_not_le hsmall), List.mem_append] at hx
        rcases hx with hx | hx
        · exact List.mem_of_mem_take (mem_of_mem_complete hx)
        · exact List.mem_of_mem_drop (mem_of_mem_complete hx)

/-- Completion adds at the end. -/
theorem prefix_complete : ∀ {h : ℕ} {xs : List α}, xs.length ≤ 2 ^ h → xs <+: complete h xs
  | 0, xs, hle => ⟨[], by rw [List.append_nil, complete_single hle]⟩
  | h + 1, xs, hle => by
      by_cases hsmall : xs.length ≤ 2 ^ h
      · rw [complete_small hsmall]
        exact (prefix_complete hsmall).trans (List.prefix_append _ _)
      · have hlt := Nat.lt_of_not_le hsmall
        -- the left half is full, so completion leaves it as it is
        have htake := prefix_complete (length_take_pow hlt).le
        have hfull : complete h (xs.take (2 ^ h)) = xs.take (2 ^ h) := by
          refine (htake.eq_of_length ?_).symm
          rw [length_complete (by rw [length_take_pow hlt]; exact Nat.two_pow_pos h)
            (length_take_pow hlt).le, length_take_pow hlt]
        obtain ⟨zs, hzs⟩ := prefix_complete (length_drop_pow_le hle)
        refine ⟨zs, ?_⟩
        rw [complete_large hlt, hfull, ← hzs, ← List.append_assoc, List.take_append_drop]

/-- Lists of one length with one completion are equal. -/
theorem eq_of_complete_eq {h : ℕ} {us vs : List α} (hlen : us.length = vs.length)
    (hle : us.length ≤ 2 ^ h) (heq : complete h us = complete h vs) : us = vs := by
  have hu : us <+: complete h us := prefix_complete hle
  have hv : vs <+: complete h us := by
    rw [heq]
    exact prefix_complete (hlen ▸ hle)
  exact (List.prefix_of_prefix_length_le hu hv hlen.le).eq_of_length hlen

theorem complete_map (f : α → β) : ∀ (h : ℕ) (xs : List α),
    complete h (xs.map f) = (complete h xs).map f
  | 0, xs => by rw [complete, complete, List.map_take]
  | h + 1, xs => by
      by_cases hsmall : xs.length ≤ 2 ^ h
      · rw [complete_small hsmall, complete_small (by rwa [List.length_map]), complete_map f h,
          List.map_append]
      · have hlt := Nat.lt_of_not_le hsmall
        rw [complete_large hlt, complete_large (by rwa [List.length_map]), ← List.map_take,
          ← List.map_drop, complete_map f h, complete_map f h, List.map_append]

end Complete

namespace TreeHash

variable {M D T : Type*} {S : TreeHash M D T}

/-! ## Completion and layers -/

theorem pairs_append : ∀ {xs ys : List D}, xs.length % 2 = 0 →
    S.pairs (xs ++ ys) = S.pairs xs ++ S.pairs ys
  | [], ys, _ => rfl
  | [x], ys, h => absurd h (by simp)
  | a :: b :: xs, ys, h => by
      have hxs : xs.length % 2 = 0 := by
        rw [List.length_cons, List.length_cons, Nat.add_assoc, Nat.add_mod_right] at h
        exact h
      rw [List.cons_append, List.cons_append, pairs, pairs, pairs_append hxs, List.cons_append]

/-- The layer above the first `2 * m` entries, and above the others. -/
theorem pairs_take_drop {xs : List D} {m : ℕ} (hle : 2 * m ≤ xs.length) :
    S.pairs (xs.take (2 * m)) = (S.pairs xs).take m ∧
      S.pairs (xs.drop (2 * m)) = (S.pairs xs).drop m := by
  have hlen : (xs.take (2 * m)).length = 2 * m := by rw [List.length_take, Nat.min_eq_left hle]
  have hpairs : (S.pairs (xs.take (2 * m))).length = m := by
    rw [length_pairs, hlen]
    omega
  have hsplit : S.pairs xs = S.pairs (xs.take (2 * m)) ++ S.pairs (xs.drop (2 * m)) := by
    rw [← pairs_append (by rw [hlen, Nat.mul_mod_right]), List.take_append_drop]
  rw [hsplit, List.take_left' hpairs, List.drop_left' hpairs]
  exact ⟨rfl, rfl⟩

/-- **Building a layer commutes with completion.** By induction on the levels:
below `2 ^ h` both sides repeat, above they split at the same place. -/
theorem pairs_complete : ∀ {h : ℕ} {xs : List D}, 0 < xs.length → xs.length ≤ 2 ^ (h + 1) →
    S.pairs (complete (h + 1) xs) = complete h (S.pairs xs)
  | 0, [x], _, _ => rfl
  | 0, [x, y], _, _ => rfl
  | 0, _ :: _ :: _ :: _, _, hle => absurd hle (by simp)
  | h + 1, xs, hpos, hle => by
      have heven : ∀ {zs : List D}, 0 < zs.length → zs.length ≤ 2 ^ (h + 1) →
          (complete (h + 1) zs).length % 2 = 0 := by
        intro zs hz hz'
        rw [length_complete hz hz', pow_succ, Nat.mul_mod_left]
      by_cases hsmall : xs.length ≤ 2 ^ (h + 1)
      · have hup : (S.pairs xs).length ≤ 2 ^ h := by
          rw [length_pairs]
          rw [pow_succ] at hsmall
          omega
        rw [complete_small hsmall, complete_small hup, pairs_append (heven hpos hsmall),
          pairs_complete hpos hsmall]
      · -- both lists split, the layer at half the place
        have hlt := Nat.lt_of_not_le hsmall
        have hup : 2 ^ h < (S.pairs xs).length := by
          rw [length_pairs]
          rw [pow_succ] at hlt
          omega
        have htake := length_take_pow hlt
        have htpos : 0 < (xs.take (2 ^ (h + 1))).length := by
          rw [htake]
          exact Nat.two_pow_pos _
        have hhalf : 2 * 2 ^ h ≤ xs.length := by
          rw [← pow_succ']
          exact hlt.le
        obtain ⟨hleft, hright⟩ := pairs_take_drop (S := S) hhalf
        rw [← pow_succ'] at hleft hright
        rw [complete_large hlt, complete_large hup, pairs_append (heven htpos htake.le),
          pairs_complete htpos htake.le,
          pairs_complete (length_drop_pow_pos hlt) (length_drop_pow_le hle), hleft, hright]

theorem pairUp_complete {h : ℕ} {xs : List D} (hpos : 0 < xs.length)
    (hle : xs.length ≤ 2 ^ (h + 1)) :
    S.pairUp (complete (h + 1) xs) = complete h (S.pairUp xs) := by
  rw [pairUp, pairs_complete hpos hle, ← complete_map, pairUp]

/-- A tree of `h` levels. -/
def HasLevels (h : ℕ) (xs : List D) : Prop := xs.length ≤ 2 ^ h ∧ 2 ^ h < 2 * xs.length

instance {h : ℕ} {xs : List D} : Decidable (HasLevels h xs) :=
  inferInstanceAs (Decidable (_ ∧ _))

theorem hasLevels_clog {xs : List D} (hne : xs ≠ []) : HasLevels (Nat.clog 2 xs.length) xs := by
  have hpos : 0 < xs.length := List.length_pos_iff.mpr hne
  refine ⟨Nat.le_pow_clog (by decide) _, ?_⟩
  by_cases hone : xs.length ≤ 1
  · rw [Nat.clog_of_right_le_one hone]
    omega
  · have hlt := Nat.pow_pred_clog_lt_self (b := 2) (x := xs.length) (by decide)
      (Nat.lt_of_not_le hone)
    have hclog : 0 < Nat.clog 2 xs.length := Nat.clog_pos (by decide) (Nat.lt_of_not_le hone)
    rw [← Nat.succ_pred_eq_of_pos hclog, pow_succ']
    exact Nat.mul_lt_mul_of_pos_left hlt (by decide)

theorem HasLevels.pos {h : ℕ} {xs : List D} (hl : HasLevels h xs) : 0 < xs.length :=
  Nat.pos_of_mul_pos_left ((Nat.two_pow_pos h).trans hl.2)

theorem HasLevels.many {h : ℕ} {xs : List D} (hl : HasLevels (h + 1) xs) : 1 < xs.length := by
  have hpow := Nat.two_pow_pos h
  obtain ⟨_, hlt⟩ := hl
  rw [pow_succ'] at hlt
  omega

theorem HasLevels.pairUp {h : ℕ} {xs : List D} (hl : HasLevels (h + 1) xs) :
    HasLevels h (S.pairUp xs) := by
  obtain ⟨hle, hlt⟩ := hl
  rw [pow_succ'] at hle hlt
  unfold HasLevels
  rw [length_pairUp]
  omega

theorem HasLevels.complete {h : ℕ} {xs : List D} (hl : HasLevels h xs) :
    HasLevels h (complete h xs) := by
  unfold HasLevels
  rw [length_complete hl.pos hl.1]
  exact ⟨le_rfl, by rw [Nat.two_mul]; exact Nat.lt_add_of_pos_left (Nat.two_pow_pos h)⟩

/-- **A tree has the root of the full tree over the completion.** -/
theorem rootOf_complete : ∀ {h : ℕ} {xs : List D}, HasLevels h xs →
    S.rootOf (Foundation.complete h xs) = S.rootOf xs
  | 0, xs, hl => by rw [complete_single hl.1]
  | h + 1, xs, hl => by
      rw [rootOf_of_one_lt_length hl.complete.many, rootOf_of_one_lt_length hl.many,
        pairUp_complete hl.pos hl.1, rootOf_complete hl.pairUp]

/-- The full tree hashes nothing else. -/
theorem built_complete : ∀ {h : ℕ} {xs : List D}, HasLevels h xs →
    ∀ m ∈ S.built (Foundation.complete h xs), m ∈ S.built xs
  | 0, xs, hl, m, hm => by
      rwa [complete_single hl.1] at hm
  | h + 1, xs, hl, m, hm => by
      rw [built, if_pos hl.complete.many, List.mem_append, pairs_complete hl.pos hl.1,
        pairUp_complete hl.pos hl.1] at hm
      rw [built, if_pos hl.many, List.mem_append]
      rcases hm with hm | hm
      · exact Or.inl (mem_of_mem_complete hm)
      · exact Or.inr (built_complete hl.pairUp m hm)

/-! ## Binding -/

/-- Trees of one height bind the entries at every position both have. -/
theorem trunc_eq_or_collision {h : ℕ} {xs ys : List D} (hx : HasLevels h xs)
    (hy : HasLevels h ys) (hroot : S.rootOf xs = S.rootOf ys) {i : ℕ} {x y : D}
    (hxi : xs[i]? = some x) (hyi : ys[i]? = some y) :
    S.trunc x = S.trunc y ∨ S.Collision (S.built xs ++ S.built ys) := by
  -- the openings of position `i` are equally long, so they can be compared
  have hlen : (S.path (S.layers xs) i).length = (S.path (S.layers ys) i).length := by
    rw [length_path hx.1 hx.2, length_path hy.1 hy.2]
  have hclimb := (climb_path hxi).symm.trans (hroot.trans (climb_path hyi))
  rcases climb_binding hlen (congrArg S.trunc (Option.some.inj hclimb)) with ⟨heq, _⟩ | hcol
  · exact Or.inl heq
  · refine Or.inr (hcol.mono fun m hm => ?_)
    rw [List.mem_append] at hm ⊢
    exact hm.imp (climbed_path_subset hxi m) (climbed_path_subset hyi m)

/-- **Trees of one height bind their completions.** -/
theorem complete_eq_or_collision {h : ℕ} {xs ys : List D} (hx : HasLevels h xs)
    (hy : HasLevels h ys) (hroot : S.rootOf xs = S.rootOf ys) :
    (Foundation.complete h xs).map S.trunc = (Foundation.complete h ys).map S.trunc ∨
      S.Collision (S.built xs ++ S.built ys) := by
  by_cases hcol : S.Collision (S.built xs ++ S.built ys)
  · exact Or.inr hcol
  · refine Or.inl (List.ext_getElem ?_ fun i hi hi' => ?_)
    · rw [List.length_map, List.length_map, length_complete hx.pos hx.1,
        length_complete hy.pos hy.1]
    · rw [List.getElem_map, List.getElem_map]
      have hfull : S.rootOf (Foundation.complete h xs) = S.rootOf (Foundation.complete h ys) := by
        rw [rootOf_complete hx, rootOf_complete hy, hroot]
      rcases trunc_eq_or_collision hx.complete hy.complete hfull
        (List.getElem?_eq_getElem (by rwa [List.length_map] at hi))
        (List.getElem?_eq_getElem (by rwa [List.length_map] at hi')) with heq | hc
      · exact heq
      · refine absurd (hc.mono fun m hm => ?_) hcol
        rw [List.mem_append] at hm ⊢
        exact hm.imp (built_complete hx m) (built_complete hy m)

/-- Equal completions make equal roots, above the leaves. -/
theorem rootOf_eq_of_complete {h : ℕ} {xs ys : List D} (hx : HasLevels (h + 1) xs)
    (hy : HasLevels (h + 1) ys) (heq : (Foundation.complete (h + 1) xs).map S.trunc =
      (Foundation.complete (h + 1) ys).map S.trunc) : S.rootOf xs = S.rootOf ys := by
  have hup : S.pairUp (Foundation.complete (h + 1) xs) =
      S.pairUp (Foundation.complete (h + 1) ys) := by
    rw [pairUp, pairUp, pairs_eq_pairsOf, pairs_eq_pairsOf, heq]
  rw [← rootOf_complete hx, ← rootOf_complete hy, rootOf_of_one_lt_length hx.complete.many,
    rootOf_of_one_lt_length hy.complete.many, hup]

/-! ## Higher layers -/

/-- The layer `k` levels up. -/
def layer (S : TreeHash M D T) : ℕ → List D → List D
  | 0, xs => xs
  | k + 1, xs => layer S k (S.pairUp xs)

theorem hasLevels_layer {h : ℕ} : ∀ {k : ℕ} {xs : List D}, HasLevels (h + k) xs →
    HasLevels h (S.layer k xs)
  | 0, _, hl => hl
  | k + 1, xs, hl => by
      show HasLevels h (S.layer k (S.pairUp xs))
      exact hasLevels_layer hl.pairUp

/-- A layer has the root of the tree it is of. -/
theorem rootOf_layer {h : ℕ} : ∀ {k : ℕ} {xs : List D}, HasLevels (h + k) xs →
    S.rootOf (S.layer k xs) = S.rootOf xs
  | 0, _, _ => rfl
  | k + 1, xs, hl => by
      rw [layer, rootOf_layer hl.pairUp, ← rootOf_of_one_lt_length hl.many]

theorem built_layer {h : ℕ} : ∀ {k : ℕ} {xs : List D}, HasLevels (h + k) xs →
    ∀ m ∈ S.built (S.layer k xs), m ∈ S.built xs
  | 0, _, _, _, hm => hm
  | k + 1, xs, hl, m, hm => by
      rw [built, if_pos hl.many, List.mem_append]
      exact Or.inr (built_layer hl.pairUp m hm)

end TreeHash

end Lattica.Foundation
