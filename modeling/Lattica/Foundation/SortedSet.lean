import Mathlib.Order.Lattice
import Mathlib.Data.List.Basic
import Mathlib.Data.List.Pairwise

/-!
# Sorted sets

A `BTreeSet` as the list its iterator yields: strictly increasing in a key, so
no two elements share one. Order and equality look at the key alone, and an
element whose key is present is not inserted again, as with a hand-written
`Ord` that ignores part of the element.
-/

namespace Lattica.Foundation

structure SortedSet {α κ : Type*} [LinearOrder κ] (key : α → κ) where
  elems : List α
  sorted : elems.Pairwise fun a b => key a < key b

namespace SortedSet

variable {α κ : Type*} [LinearOrder κ] {key : α → κ}

theorem ext_elems {s t : SortedSet key} (h : s.elems = t.elems) : s = t := by
  cases s
  cases t
  cases h
  rfl

def empty : SortedSet key := ⟨[], List.Pairwise.nil⟩

instance : Inhabited (SortedSet key) := ⟨empty⟩

instance : Membership α (SortedSet key) := ⟨fun s x => x ∈ s.elems⟩

@[simp] theorem mem_elems {s : SortedSet key} {x : α} : x ∈ s.elems ↔ x ∈ s := Iff.rfl

@[simp] theorem not_mem_empty (x : α) : ¬ x ∈ (empty : SortedSet key) := by
  simp [← mem_elems, empty]

/-- `contains`. -/
def contains (s : SortedSet key) (x : α) : Bool :=
  s.elems.any fun y => decide (key y = key x)

def insertList (key : α → κ) (x : α) : List α → List α
  | [] => [x]
  | y :: ys =>
      if key x < key y then x :: y :: ys
      else if key x = key y then y :: ys
      else y :: insertList key x ys

theorem mem_insertList_of_mem {x y : α} : ∀ {l : List α}, y ∈ l → y ∈ insertList key x l
  | z :: zs, h => by
      rw [insertList]
      split
      · exact List.mem_cons_of_mem x h
      · split
        · exact h
        · rcases List.mem_cons.mp h with rfl | h
          · exact List.mem_cons_self
          · exact List.mem_cons_of_mem z (mem_insertList_of_mem h)

theorem eq_or_mem_of_mem_insertList {x y : α} :
    ∀ {l : List α}, y ∈ insertList key x l → y = x ∨ y ∈ l
  | [], h => by
      rw [insertList] at h
      exact Or.inl (List.mem_singleton.mp h)
  | z :: zs, h => by
      rw [insertList] at h
      split at h
      · exact List.mem_cons.mp h
      · split at h
        · exact Or.inr h
        · rcases List.mem_cons.mp h with rfl | h
          · exact Or.inr List.mem_cons_self
          · rcases eq_or_mem_of_mem_insertList h with rfl | h
            · exact Or.inl rfl
            · exact Or.inr (List.mem_cons_of_mem z h)

theorem pairwise_insertList {x : α} : ∀ {l : List α}, l.Pairwise (fun a b => key a < key b) →
    (insertList key x l).Pairwise fun a b => key a < key b
  | [], _ => List.pairwise_singleton _ _
  | y :: ys, h => by
      obtain ⟨hy, hys⟩ := List.pairwise_cons.mp h
      rw [insertList]
      split
      · rename_i hlt
        refine List.pairwise_cons.mpr ⟨?_, h⟩
        intro z hz
        rcases List.mem_cons.mp hz with rfl | hz
        · exact hlt
        · exact lt_trans hlt (hy z hz)
      · rename_i hnlt
        split
        · exact h
        · rename_i hne
          refine List.pairwise_cons.mpr ⟨?_, pairwise_insertList hys⟩
          intro z hz
          rcases eq_or_mem_of_mem_insertList hz with rfl | hz
          · exact lt_of_le_of_ne (not_lt.mp hnlt) (Ne.symm hne)
          · exact hy z hz

/-- `insert`. -/
def insert (s : SortedSet key) (x : α) : SortedSet key :=
  ⟨insertList key x s.elems, pairwise_insertList s.sorted⟩

theorem exists_key_mem_insertList (x : α) : ∀ l : List α, ∃ y ∈ insertList key x l, key y = key x
  | [] => ⟨x, by simp [insertList], rfl⟩
  | y :: ys => by
      rw [insertList]
      split
      · exact ⟨x, List.mem_cons_self, rfl⟩
      · split
        · rename_i heq
          exact ⟨y, List.mem_cons_self, heq.symm⟩
        · obtain ⟨z, hz, heq⟩ := exists_key_mem_insertList x ys
          exact ⟨z, List.mem_cons_of_mem y hz, heq⟩

section Injective

variable (hkey : Function.Injective key)

include hkey

/-- Where the key is the whole element, insertion is set insertion. -/
theorem mem_insert {s : SortedSet key} {x y : α} : y ∈ s.insert x ↔ y = x ∨ y ∈ s := by
  constructor
  · exact eq_or_mem_of_mem_insertList
  · rintro (rfl | h)
    · obtain ⟨z, hz, heq⟩ : ∃ z ∈ s.insert y, key z = key y := exists_key_mem_insertList y s.elems
      exact hkey heq ▸ hz
    · exact mem_insertList_of_mem h

theorem contains_iff {s : SortedSet key} {x : α} : s.contains x = true ↔ x ∈ s := by
  rw [contains, List.any_eq_true]
  constructor
  · rintro ⟨y, hy, heq⟩
    exact hkey (of_decide_eq_true heq) ▸ hy
  · intro h
    exact ⟨x, h, decide_eq_true rfl⟩

end Injective

/-- One element to a key. -/
theorem eq_of_key_eq {s : SortedSet key} {x y : α} (hx : x ∈ s) (hy : y ∈ s)
    (h : key x = key y) : x = y := by
  have hne : s.elems.Pairwise fun a b => key a ≠ key b := s.sorted.imp fun hlt => ne_of_lt hlt
  have hsymm : Std.Symm fun a b => key a ≠ key b := ⟨fun _ _ hab => Ne.symm hab⟩
  by_contra hxy
  exact hne.forall hx hy hxy h

/-! ## Many insertions -/

/-- The elements of a list inserted one after another. -/
def insertAll (s : SortedSet key) (xs : List α) : SortedSet key :=
  xs.foldl insert s

theorem insertAll_cons (s : SortedSet key) (x : α) (xs : List α) :
    s.insertAll (x :: xs) = (s.insert x).insertAll xs := rfl

theorem insertAll_append (s : SortedSet key) (xs ys : List α) :
    s.insertAll (xs ++ ys) = (s.insertAll xs).insertAll ys := List.foldl_append

/-- What is in the set stays, whatever is inserted under its key. -/
theorem mem_insertAll_of_mem {s : SortedSet key} {x : α} {xs : List α} (h : x ∈ s) :
    x ∈ s.insertAll xs := by
  induction xs generalizing s with
  | nil => exact h
  | cons y ys ih => exact ih (mem_insertList_of_mem h)

theorem mem_or_mem_of_mem_insertAll {s : SortedSet key} {x : α} {xs : List α}
    (h : x ∈ s.insertAll xs) : x ∈ s ∨ x ∈ xs := by
  induction xs generalizing s with
  | nil => exact Or.inl h
  | cons y ys ih =>
      rcases ih h with hins | hys
      · rcases eq_or_mem_of_mem_insertList hins with rfl | hs
        · exact Or.inr List.mem_cons_self
        · exact Or.inl hs
      · exact Or.inr (List.mem_cons_of_mem y hys)

/-- The key of every inserted element is present. -/
theorem exists_key_mem_insertAll {s : SortedSet key} {x : α} {xs : List α} (h : x ∈ xs) :
    ∃ y ∈ s.insertAll xs, key y = key x := by
  induction xs generalizing s with
  | nil => cases h
  | cons z zs ih =>
      rw [insertAll_cons]
      rcases List.mem_cons.mp h with rfl | h
      · obtain ⟨y, hy, hkey⟩ : ∃ y ∈ s.insert x, key y = key x :=
          exists_key_mem_insertList x s.elems
        exact ⟨y, mem_insertAll_of_mem hy, hkey⟩
      · exact ih h

/-- Where `c` never decreases, the elements of one class come before the later ones. -/
theorem filter_class_append {c : α → ℕ} (n : ℕ) : ∀ {l : List α},
    l.Pairwise (fun a b => c a ≤ c b) →
      (l.filter fun a => c a = n) ++ (l.filter fun a => n + 1 ≤ c a) = l.filter fun a => n ≤ c a
  | [], _ => rfl
  | a :: l, h => by
      obtain ⟨ha, hl⟩ := List.pairwise_cons.mp h
      have ih := filter_class_append n hl
      rcases Nat.lt_trichotomy (c a) n with hlt | heq | hgt
      · rw [List.filter_cons_of_neg (by simpa using Nat.ne_of_lt hlt),
          List.filter_cons_of_neg (by simpa using Nat.lt_succ_of_lt hlt),
          List.filter_cons_of_neg (by simpa using hlt), ih]
      · rw [List.filter_cons_of_pos (by simpa using heq),
          List.filter_cons_of_neg (by simpa using Nat.lt_succ_of_le (Nat.le_of_eq heq)),
          List.filter_cons_of_pos (by simpa using Nat.le_of_eq heq.symm), List.cons_append, ih]
      · -- all that follows is above the class
        have hnil : (l.filter fun b => c b = n) = [] := by
          rw [List.filter_eq_nil_iff]
          intro b hb
          have hlt := Nat.lt_of_lt_of_le hgt (ha b hb)
          simpa using Nat.ne_of_gt hlt
        rw [hnil, List.nil_append] at ih
        rw [List.filter_cons_of_neg (by simpa using Nat.ne_of_gt hgt),
          List.filter_cons_of_pos (by simpa using Nat.succ_le_of_lt hgt), hnil, List.nil_append, ih,
          List.filter_cons_of_pos (by simpa using Nat.le_of_lt hgt)]

theorem nodup (s : SortedSet key) : s.elems.Nodup :=
  s.sorted.imp fun h heq => absurd (congrArg key heq) (ne_of_lt h)

/-- The list is determined by its members. -/
theorem ext_mem {s t : SortedSet key} (h : ∀ x, x ∈ s ↔ x ∈ t) : s = t := by
  apply ext_elems
  have hperm : s.elems.Perm t.elems :=
    (List.perm_ext_iff_of_nodup s.nodup t.nodup).mpr h
  exact hperm.eq_of_pairwise (fun a b _ _ hab hba => absurd hab (lt_asymm hba)) s.sorted t.sorted

theorem insertList_of_mem {x : α} : ∀ {l : List α}, l.Pairwise (fun a b => key a < key b) →
    x ∈ l → insertList key x l = l
  | y :: ys, h, hx => by
      obtain ⟨hy, hys⟩ := List.pairwise_cons.mp h
      rw [insertList]
      rcases List.mem_cons.mp hx with rfl | hx
      · rw [if_neg (lt_irrefl _), if_pos rfl]
      · have hlt := hy x hx
        rw [if_neg (lt_asymm hlt), if_neg (ne_of_gt hlt), insertList_of_mem hys hx]

/-- Inserting a member changes nothing. -/
theorem insert_of_mem {s : SortedSet key} {x : α} (h : x ∈ s) : s.insert x = s :=
  ext_elems (insertList_of_mem s.sorted h)

end SortedSet

end Lattica.Foundation
