import Mathlib.LinearAlgebra.Lagrange

/-!
# MDS codes

A code of length `n` and dimension `k` is MDS when any `k` positions are free
and decide the word: every assignment of symbols to `k` positions extends to
exactly one codeword. Codes are lifted to vectors of symbols position by
position, transported along a bijection of the symbols, and obtained from
polynomials of degree below `k` at `n` points of a field (Reed-Solomon).
-/

namespace Lattica.Foundation

structure MdsCode (n k : ℕ) (α : Type*) where
  words : Set (Fin n → α)
  extends_uniquely : ∀ s : Finset (Fin n), s.card = k → ∀ f : Fin n → α,
    ∃! w, w ∈ words ∧ ∀ i ∈ s, w i = f i

namespace MdsCode

variable {n k : ℕ} {α β : Type*}

/-- Two codewords that agree on `k` or more positions are equal. -/
theorem eq_of_agree (c : MdsCode n k α) {w w' : Fin n → α} (hw : w ∈ c.words)
    (hw' : w' ∈ c.words) {s : Finset (Fin n)} (hs : k ≤ s.card)
    (h : ∀ i ∈ s, w i = w' i) : w = w' := by
  obtain ⟨t, hts, ht⟩ := Finset.exists_subset_card_eq hs
  obtain ⟨u, _, huniq⟩ := c.extends_uniquely t ht w'
  rw [huniq w ⟨hw, fun i hi => h i (hts hi)⟩, huniq w' ⟨hw', fun _ _ => rfl⟩]

/-- The word through `k` given symbols. -/
theorem exists_word (c : MdsCode n k α) {s : Finset (Fin n)} (hs : s.card = k)
    (f : Fin n → α) : ∃ w ∈ c.words, ∀ i ∈ s, w i = f i := by
  obtain ⟨w, ⟨hw, hf⟩, _⟩ := c.extends_uniquely s hs f
  exact ⟨w, hw, hf⟩

/-- The codeword through the symbols of `f` at the positions of `s`. -/
noncomputable def complete (c : MdsCode n k α) {s : Finset (Fin n)} (hs : s.card = k)
    (f : Fin n → α) : Fin n → α :=
  Classical.choose (c.exists_word hs f)

theorem complete_mem (c : MdsCode n k α) {s : Finset (Fin n)} (hs : s.card = k) (f : Fin n → α) :
    c.complete hs f ∈ c.words :=
  (Classical.choose_spec (c.exists_word hs f)).1

theorem complete_at (c : MdsCode n k α) {s : Finset (Fin n)} (hs : s.card = k) (f : Fin n → α)
    {i : Fin n} (hi : i ∈ s) : c.complete hs f i = f i :=
  (Classical.choose_spec (c.exists_word hs f)).2 i hi

/-- Symbols that are vectors: every coordinate is a codeword. -/
def pi (c : MdsCode n k α) (ι : Type*) : MdsCode n k (ι → α) where
  words := { w | ∀ j, (fun i => w i j) ∈ c.words }
  extends_uniquely s hs f := by
    choose w hw huniq using fun j => c.extends_uniquely s hs fun i => f i j
    refine ⟨fun i j => w j i, ⟨fun j => (hw j).1, fun i hi => ?_⟩, ?_⟩
    · funext j
      exact (hw j).2 i hi
    · rintro u ⟨hu, hagree⟩
      funext i j
      have hj : (fun i => u i j) = w j := huniq j _ ⟨hu j, fun i hi => congrFun (hagree i hi) j⟩
      exact congrFun hj i

/-- Symbols under another name. -/
def map (c : MdsCode n k α) (e : α ≃ β) : MdsCode n k β where
  words := { w | (fun i => e.symm (w i)) ∈ c.words }
  extends_uniquely s hs f := by
    obtain ⟨w, ⟨hw, hagree⟩, huniq⟩ := c.extends_uniquely s hs fun i => e.symm (f i)
    refine ⟨fun i => e (w i), ⟨?_, fun i hi => ?_⟩, ?_⟩
    · simpa using hw
    · simp [hagree i hi]
    · rintro u ⟨hu, hu'⟩
      funext i
      have hi : e.symm (u i) = w i :=
        congrFun (huniq (fun i => e.symm (u i)) ⟨hu, fun i hi => congrArg e.symm (hu' i hi)⟩) i
      rw [← hi, Equiv.apply_symm_apply]

/-! ## Reed-Solomon -/

section ReedSolomon

open Polynomial

variable {F : Type*} [Field F]

/-- Evaluations at `n` points of the polynomials of degree below `k`. -/
def reedSolomon (k : ℕ) (x : Fin n → F) (hx : Function.Injective x) : MdsCode n k F where
  words := { w | ∃ p : F[X], p.degree < k ∧ ∀ i, w i = p.eval (x i) }
  extends_uniquely s hs f := by
    have hinj : Set.InjOn x s := hx.injOn
    refine ⟨fun i => (Lagrange.interpolate s x f).eval (x i),
      ⟨⟨Lagrange.interpolate s x f, ?_, fun _ => rfl⟩, ?_⟩, ?_⟩
    · rw [← hs]
      exact Lagrange.degree_interpolate_lt f hinj
    · intro i hi
      exact Lagrange.eval_interpolate_at_node f hinj hi
    · rintro w ⟨⟨p, hp, hwp⟩, hagree⟩
      funext i
      have hpoly : p = Lagrange.interpolate s x f := by
        apply eq_of_degrees_lt_of_eval_index_eq s hinj
        · rwa [hs]
        · exact Lagrange.degree_interpolate_lt f hinj
        · intro j hj
          rw [Lagrange.eval_interpolate_at_node f hinj hj, ← hwp, hagree j hj]
      rw [hwp, hpoly]

theorem zero_mem_reedSolomon {x : Fin n → F} {hx : Function.Injective x} :
    (fun _ => 0) ∈ (reedSolomon k x hx).words :=
  ⟨0, by simp, fun i => by simp⟩

end ReedSolomon

end MdsCode

end Lattica.Foundation
