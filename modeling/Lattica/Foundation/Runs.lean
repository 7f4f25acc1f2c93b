import Mathlib.Data.List.Basic
import Mathlib.Data.List.Chain

/-!
# Maximal runs

A list written as its runs: where each begins, where it ends, and the value it
repeats. Reading a list from the left either extends the last run or opens the
next one.
-/

namespace Lattica.Foundation

structure Run (α : Type) where
  first : ℕ
  last : ℕ
  value : α
deriving DecidableEq

namespace Run

variable {α : Type}

/-- The positions of the run, each with its value. -/
def expand (r : Run α) : List (ℕ × α) :=
  (List.range' r.first (r.last + 1 - r.first)).map fun k => (k, r.value)

theorem expand_snoc {f l : ℕ} {x : α} (h : f ≤ l) :
    (Run.mk f (l + 1) x).expand = (Run.mk f l x).expand ++ [(l + 1, x)] := by
  have hlen : l + 1 + 1 - f = l + 1 - f + 1 := Nat.succ_sub (h.trans (Nat.le_succ l))
  have hlast : f + (l + 1 - f) = l + 1 := Nat.add_sub_cancel' (h.trans (Nat.le_succ l))
  unfold expand
  dsimp only
  rw [hlen, List.range'_concat, Nat.one_mul, hlast, List.map_append]
  rfl

theorem expand_single {k : ℕ} {x : α} : (Run.mk k k x).expand = [(k, x)] := by
  unfold expand
  dsimp only
  rw [Nat.add_sub_cancel_left]
  rfl

end Run

/-- The list from position `start` on, with its positions. -/
def numbered {α : Type} (start : ℕ) (xs : List α) : List (ℕ × α) :=
  (List.range' start xs.length).zip xs

/-- The list from position `start` on, divided into its maximal runs. -/
structure Runs {α : Type} (start : ℕ) (xs : List α) (runs : List (Run α)) : Prop where
  covers : runs.flatMap Run.expand = numbered start xs
  nonempty : ∀ r ∈ runs, r.first ≤ r.last
  maximal : runs.IsChain fun r r' => r.value ≠ r'.value

namespace Runs

variable {α : Type} {start : ℕ} {xs : List α} {runs : List (Run α)} {r : Run α} {x : α}

theorem numbered_snoc : numbered start (xs ++ [x]) =
    numbered start xs ++ [(start + xs.length, x)] := by
  unfold numbered
  rw [List.length_append, List.length_singleton, List.range'_concat, Nat.one_mul,
    List.zip_append List.length_range']
  rfl

theorem nil : Runs start ([] : List α) [] where
  covers := rfl
  nonempty := nofun
  maximal := List.isChain_nil

theorem single : Runs start [x] [⟨start, start, x⟩] where
  covers := by
    rw [List.flatMap_singleton, Run.expand_single]
    rfl
  nonempty := by
    intro r hr
    rw [List.mem_singleton.mp hr]
  maximal := List.isChain_singleton _

/-- The same value again makes the last run longer. -/
theorem extend {f l : ℕ} (h : Runs start xs (runs ++ [⟨f, l, x⟩]))
    (hl : l + 1 = start + xs.length) : Runs start (xs ++ [x]) (runs ++ [⟨f, l + 1, x⟩]) := by
  have hfl : f ≤ l := h.nonempty ⟨f, l, x⟩ (List.mem_append_right _ List.mem_cons_self)
  refine ⟨?_, ?_, ?_⟩
  · have hcovers := h.covers
    rw [List.flatMap_append, List.flatMap_singleton] at hcovers ⊢
    rw [Run.expand_snoc hfl, ← List.append_assoc, hcovers, numbered_snoc, hl]
  · intro r hr
    rcases List.mem_append.mp hr with hr | hr
    · exact h.nonempty r (List.mem_append_left _ hr)
    · rw [List.mem_singleton.mp hr]
      exact hfl.trans (Nat.le_succ l)
  · have hchain := h.maximal
    rw [List.isChain_append] at hchain ⊢
    refine ⟨hchain.1, List.isChain_singleton _, ?_⟩
    intro a ha b hb
    have hb' : (⟨f, l + 1, x⟩ : Run α) = b := Option.some.inj hb
    rw [← hb']
    exact hchain.2.2 a ha ⟨f, l, x⟩ rfl

/-- Another value opens the next run. -/
theorem opens (h : Runs start xs (runs ++ [r])) (hne : r.value ≠ x) :
    Runs start (xs ++ [x]) (runs ++ [r] ++ [⟨start + xs.length, start + xs.length, x⟩]) := by
  refine ⟨?_, ?_, ?_⟩
  · rw [List.flatMap_append, h.covers, List.flatMap_singleton, Run.expand_single, numbered_snoc]
  · intro r' hr'
    rcases List.mem_append.mp hr' with hr' | hr'
    · exact h.nonempty r' hr'
    · rw [List.mem_singleton.mp hr']
  · rw [List.isChain_append]
    refine ⟨h.maximal, List.isChain_singleton _, ?_⟩
    intro a ha b hb
    rw [List.getLast?_concat] at ha
    have ha' : r = a := Option.some.inj ha
    have hb' : (⟨start + xs.length, start + xs.length, x⟩ : Run α) = b := Option.some.inj hb
    rw [← ha', ← hb']
    exact hne

end Runs

end Lattica.Foundation
