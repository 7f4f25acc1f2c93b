import Mathlib.Data.Finmap
import Mathlib.Data.Finset.Sort

/-!
# Evicting the smallest keys

A finite map with a bound on its entries. When it has outgrown the bound, its
keys are sorted and the smallest are dropped until the bound holds again. What
survives is decided by one count: a key is kept if and only if at most `cap` of
the keys, itself included, are not below it.
-/

namespace Lattica.Foundation.Eviction

section Sorted

variable {K : Type*} [LinearOrder K]

/-- A member of a strictly increasing list is among the first `n` when fewer
than `n` members are below it. -/
theorem mem_take_iff {k : K} : ∀ {l : List K} {n : ℕ}, l.Pairwise (· < ·) →
    (k ∈ l.take n ↔ k ∈ l ∧ (l.filter fun j => j < k).length < n)
  | [], n, _ => by simp
  | a :: l, 0, _ => by simp
  | a :: l, n + 1, h => by
      obtain ⟨ha, hl⟩ := List.pairwise_cons.mp h
      rw [List.take_succ_cons, List.mem_cons, List.mem_cons, mem_take_iff hl]
      by_cases hk : k = a
      · subst hk
        -- nothing in the list is below its head
        have hnone : (k :: l).filter (fun j => j < k) = [] := by
          rw [List.filter_eq_nil_iff]
          intro j hj
          rcases List.mem_cons.mp hj with rfl | hj
          · simp
          · simpa using le_of_lt (ha j hj)
        rw [hnone]
        simp
      · constructor
        · rintro (rfl | ⟨hmem, hlt⟩)
          · exact absurd rfl hk
          · refine ⟨Or.inr hmem, ?_⟩
            rw [List.filter_cons_of_pos (by simpa using ha k hmem), List.length_cons]
            exact Nat.succ_lt_succ hlt
        · rintro ⟨rfl | hmem, hlt⟩
          · exact absurd rfl hk
          · rw [List.filter_cons_of_pos (by simpa using ha k hmem), List.length_cons] at hlt
            exact Or.inr ⟨hmem, Nat.lt_of_succ_lt_succ hlt⟩

theorem length_filter_sort (s : Finset K) (p : K → Prop) [DecidablePred p] :
    (s.sort.filter fun j => p j).length = (s.filter p).card := by
  rw [← List.toFinset_card_of_nodup ((Finset.sort_nodup s _).filter _), List.toFinset_filter,
    Finset.sort_toFinset]
  congr 1
  ext j
  simp

end Sorted

section Map

variable {K : Type*} [LinearOrder K] {β : K → Type*}

/-- The `n` smallest keys removed one after another. -/
def dropSmallest (n : ℕ) (m : Finmap β) : Finmap β :=
  (m.keys.sort.take n).foldl (fun m k => m.erase k) m

/-- At most `cap` entries: those over the bound go, smallest keys first. -/
def evict (cap : ℕ) (m : Finmap β) : Finmap β :=
  if cap < m.keys.card then dropSmallest (m.keys.card - cap) m else m

theorem keys_foldl_erase (ks : List K) (m : Finmap β) :
    (ks.foldl (fun m k => m.erase k) m).keys = m.keys \ ks.toFinset := by
  induction ks generalizing m with
  | nil => simp
  | cons k ks ih =>
      rw [List.foldl_cons, ih, Finmap.keys_erase, List.toFinset_cons]
      ext j
      simp only [Finset.mem_sdiff, Finset.mem_erase, Finset.mem_insert, List.mem_toFinset]
      tauto

theorem lookup_foldl_erase {ks : List K} {m : Finmap β} {k : K} (h : k ∉ ks) :
    (ks.foldl (fun m k => m.erase k) m).lookup k = m.lookup k := by
  induction ks generalizing m with
  | nil => rfl
  | cons j ks ih =>
      obtain ⟨hne, h⟩ := List.ne_and_not_mem_of_not_mem_cons h
      rw [List.foldl_cons, ih h, Finmap.lookup_erase_ne hne]

theorem mem_keys_dropSmallest {n : ℕ} {m : Finmap β} {k : K} :
    k ∈ (dropSmallest n m).keys ↔
      k ∈ m.keys ∧ n ≤ (m.keys.filter fun j => j < k).card := by
  have hsorted : m.keys.sort.Pairwise (· < ·) := (Finset.sortedLT_sort m.keys).pairwise
  rw [dropSmallest, keys_foldl_erase, Finset.mem_sdiff, List.mem_toFinset, mem_take_iff hsorted,
    Finset.mem_sort, length_filter_sort, not_and, not_lt]
  constructor
  · rintro ⟨hk, h⟩
    exact ⟨hk, h hk⟩
  · rintro ⟨hk, h⟩
    exact ⟨hk, fun _ => h⟩

theorem lookup_dropSmallest {n : ℕ} {m : Finmap β} {k : K} (h : k ∈ (dropSmallest n m).keys) :
    (dropSmallest n m).lookup k = m.lookup k := by
  apply lookup_foldl_erase
  intro hk
  rw [dropSmallest, keys_foldl_erase, Finset.mem_sdiff, List.mem_toFinset] at h
  exact h.2 hk

theorem card_dropSmallest (n : ℕ) (m : Finmap β) :
    (dropSmallest n m).keys.card = m.keys.card - n := by
  have hsub : (m.keys.sort.take n).toFinset ⊆ m.keys := by
    intro k hk
    exact (Finset.mem_sort _).mp (List.mem_of_mem_take (List.mem_toFinset.mp hk))
  have hnodup : (m.keys.sort.take n).Nodup :=
    (Finset.sort_nodup m.keys _).sublist (List.take_sublist n _)
  rw [dropSmallest, keys_foldl_erase, Finset.card_sdiff_of_subset hsub,
    List.toFinset_card_of_nodup hnodup, List.length_take, Finset.length_sort]
  omega

theorem evict_of_card_le {cap : ℕ} {m : Finmap β} (h : m.keys.card ≤ cap) : evict cap m = m := by
  rw [evict, if_neg (not_lt.mpr h)]

/-- The bound holds afterwards. -/
theorem card_evict_le (cap : ℕ) (m : Finmap β) : (evict cap m).keys.card ≤ cap := by
  unfold evict
  split
  · rename_i h
    rw [card_dropSmallest]
    omega
  · rename_i h
    exact not_lt.mp h

/-- **What survives.** The keys from `k` on, `k` included, fit the bound. -/
theorem mem_keys_evict {cap : ℕ} {m : Finmap β} {k : K} :
    k ∈ (evict cap m).keys ↔ k ∈ m.keys ∧ (m.keys.filter fun j => k ≤ j).card ≤ cap := by
  have hsplit := Finset.card_filter_add_card_filter_not (s := m.keys) fun j => j < k
  have hnot : (m.keys.filter fun j => ¬ j < k) = m.keys.filter fun j => k ≤ j := by
    ext j
    simp
  rw [hnot] at hsplit
  unfold evict
  split
  · rename_i h
    rw [mem_keys_dropSmallest]
    refine and_congr_right fun _ => ?_
    omega
  · rename_i h
    have hle : (m.keys.filter fun j => k ≤ j).card ≤ cap := by omega
    exact ⟨fun hk => ⟨hk, hle⟩, fun hk => hk.1⟩

/-- Eviction changes no value it keeps. -/
theorem lookup_evict {cap : ℕ} {m : Finmap β} {k : K} (h : k ∈ (evict cap m).keys) :
    (evict cap m).lookup k = m.lookup k := by
  unfold evict at h ⊢
  split at h
  · rename_i hcap
    rw [if_pos hcap, lookup_dropSmallest h]
  · rename_i hcap
    rw [if_neg hcap]

/-- What is found after an eviction was there before it. -/
theorem lookup_of_lookup_evict {cap : ℕ} {m : Finmap β} {k : K} {b : β k}
    (h : (evict cap m).lookup k = some b) : m.lookup k = some b := by
  have hk : k ∈ (evict cap m).keys := by
    rw [Finmap.mem_keys]
    exact Finmap.mem_of_lookup_eq_some h
  rw [← lookup_evict hk, h]

end Map

end Lattica.Foundation.Eviction
