import Mathlib.Algebra.Order.Field.Basic
import Mathlib.Data.Finset.Powerset
import Mathlib.Data.Fintype.Card
import Mathlib.Data.Nat.Choose.Basic
import Mathlib.Data.Nat.Cast.Order.Field
import Mathlib.Tactic.Positivity
import Mathlib.Tactic.Ring

/-!
# Sampling without replacement

A sampler draws `n` different elements of a finite type, each sample as likely
as any other, of which only those in some set are there. It notices when it
draws one that is not. The probability is a ratio of binomial coefficients, and
so a running product.
-/

namespace Lattica.Foundation.Sampling

variable {α : Type} [Fintype α] [DecidableEq α]

/-- The share of the samples of `n` elements that are not all available. -/
def detection (available : Finset α) (n : ℕ) : ℚ :=
  (((Finset.univ : Finset α).powersetCard n).filter fun s => ¬ s ⊆ available).card /
    ((Finset.univ : Finset α).powersetCard n).card

theorem card_undetected (available : Finset α) (n : ℕ) :
    (((Finset.univ : Finset α).powersetCard n).filter fun s => s ⊆ available).card =
      available.card.choose n := by
  rw [← Finset.card_powersetCard]
  congr 1
  ext s
  rw [Finset.mem_filter, Finset.mem_powersetCard, Finset.mem_powersetCard]
  constructor
  · rintro ⟨⟨_, hcard⟩, hsub⟩
    exact ⟨hsub, hcard⟩
  · rintro ⟨hsub, hcard⟩
    exact ⟨⟨Finset.subset_univ s, hcard⟩, hsub⟩

/-- A sample is noticed unless it is one of the samples of what is available. -/
theorem detection_eq (available : Finset α) {n : ℕ} (hn : n ≤ Fintype.card α) :
    detection available n = 1 - (available.card.choose n : ℚ) / (Fintype.card α).choose n := by
  have hpos : ((Fintype.card α).choose n : ℚ) ≠ 0 := by
    exact_mod_cast (Nat.choose_pos hn).ne'
  have hsplit := Finset.card_filter_add_card_filter_not
    (s := (Finset.univ : Finset α).powersetCard n) (fun s => s ⊆ available)
  rw [card_undetected, Finset.card_powersetCard, Finset.card_univ] at hsplit
  unfold detection
  rw [Finset.card_powersetCard, Finset.card_univ, eq_sub_iff_add_eq, ← add_div, div_eq_one_iff_eq hpos]
  rw [← hsplit]
  push_cast
  ring

/-- Fewer elements are noticed sooner. -/
theorem detection_anti {available available' : Finset α} {n : ℕ} (hn : n ≤ Fintype.card α)
    (hle : available.card ≤ available'.card) :
    detection available' n ≤ detection available n := by
  rw [detection_eq _ hn, detection_eq _ hn]
  apply sub_le_sub_left
  apply div_le_div_of_nonneg_right _ (Nat.cast_nonneg _)
  exact_mod_cast Nat.choose_le_choose n hle

/-- One factor of the product. -/
theorem choose_div_choose_succ {m N n : ℕ} (h : n < N) :
    (m.choose (n + 1) : ℚ) / N.choose (n + 1) =
      m.choose n / N.choose n * ((m - n : ℚ) / (N - n : ℚ)) := by
  have hN : (N.choose (n + 1) : ℚ) * (n + 1) = N.choose n * (N - n : ℚ) := by
    rw [← Nat.cast_sub h.le]
    exact_mod_cast Nat.choose_succ_right_eq N n
  have hm : (m.choose (n + 1) : ℚ) * (n + 1) = m.choose n * (m - n : ℚ) := by
    rcases Nat.lt_or_ge m n with hlt | hge
    · rw [Nat.choose_eq_zero_of_lt hlt, Nat.choose_eq_zero_of_lt (hlt.trans n.lt_succ_self)]
      simp
    · rw [← Nat.cast_sub hge]
      exact_mod_cast Nat.choose_succ_right_eq m n
  have hsucc : (n + 1 : ℚ) ≠ 0 := by positivity
  rw [div_mul_div_comm, ← hm, ← hN, mul_div_mul_right _ _ hsucc]

end Lattica.Foundation.Sampling
