import Mathlib.Algebra.BigOperators.Group.List.Basic
import Mathlib.Algebra.BigOperators.Group.Multiset.Basic
import Mathlib.Data.Finmap
import Mathlib.Tactic.Abel

/-!
# Sums over finite maps

Every value of a finite map contributes an element of a commutative group.
Writing one key moves the total by what comes minus what goes, so the total
after a run of writes is the first one plus the sum of these differences, in
any order. Runs are chains of a step relation, which may be runs themselves.
-/

namespace Lattica.Foundation

/-! ## Chains -/

/-- The steps `as` lead from one state to the other. -/
inductive Chain {σ α : Type*} (Step : σ → α → σ → Prop) : σ → List α → σ → Prop
  | nil (s : σ) : Chain Step s [] s
  | cons {s t u : σ} {a : α} {as : List α} :
      Step s a t → Chain Step t as u → Chain Step s (a :: as) u

section Chain

variable {σ α G : Type*} [AddCommGroup G] {Step : σ → α → σ → Prop} {value : σ → G} {gain : α → G}

/-- If every step moves the value by its gain, a chain moves it by the sum. -/
theorem Chain.value_eq (hstep : ∀ {s a t}, Step s a t → value t = value s + gain a)
    {s t : σ} {as : List α} (h : Chain Step s as t) :
    value t = value s + (as.map gain).sum := by
  induction h with
  | nil s => rw [List.map_nil, List.sum_nil, add_zero]
  | cons hst _ ih => rw [ih, hstep hst, List.map_cons, List.sum_cons, add_assoc]

end Chain

/-! ## Totals -/

namespace KeyedSum

variable {K V G : Type*} [AddCommGroup G]

/-- What an entry contributes; nothing where there is none. -/
def weight (f : V → G) : Option V → G
  | none => 0
  | some v => f v

@[simp] theorem weight_none (f : V → G) : weight f none = 0 := rfl

@[simp] theorem weight_some (f : V → G) (v : V) : weight f (some v) = f v := rfl

/-- What all entries contribute. -/
def total (f : V → G) (m : Finmap fun _ : K => V) : G :=
  (m.entries.map fun e => f e.2).sum

variable [DecidableEq K]

/-- Write or remove a key. -/
def put (m : Finmap fun _ : K => V) (k : K) : Option V → Finmap fun _ : K => V
  | none => m.erase k
  | some v => m.insert k v

theorem lookup_put_self (m : Finmap fun _ : K => V) (k : K) : ∀ w : Option V,
    (put m k w).lookup k = w
  | none => Finmap.lookup_erase k m
  | some _ => Finmap.lookup_insert m

theorem lookup_put_ne (m : Finmap fun _ : K => V) {k k' : K} (h : k' ≠ k) : ∀ w : Option V,
    (put m k w).lookup k' = m.lookup k'
  | none => Finmap.lookup_erase_ne h
  | some _ => Finmap.lookup_insert_of_ne m h

/-- The last write of a key is the one that counts. -/
theorem put_put (m : Finmap fun _ : K => V) (k : K) (w w' : Option V) :
    put (put m k w) k w' = put m k w' := by
  refine Finmap.ext_lookup fun k' => ?_
  by_cases hk : k' = k
  · subst hk
    rw [lookup_put_self, lookup_put_self]
  · rw [lookup_put_ne _ hk, lookup_put_ne _ hk, lookup_put_ne _ hk]

/-- Writing what is there changes nothing. -/
theorem put_lookup (m : Finmap fun _ : K => V) (k : K) : put m k (m.lookup k) = m := by
  refine Finmap.ext_lookup fun k' => ?_
  by_cases hk : k' = k
  · subst hk
    rw [lookup_put_self]
  · rw [lookup_put_ne _ hk]

variable {m : Finmap fun _ : K => V} {k : K} (f : V → G)

theorem total_insert_new {v : V} (h : k ∉ m) : total f (m.insert k v) = f v + total f m := by
  rw [total, Finmap.entries_insert_of_notMem h, Multiset.map_cons, Multiset.sum_cons, total]

/-- What a key contributes comes on top of the rest. -/
theorem total_put_removed (m : Finmap fun _ : K => V) (k : K) : ∀ w : Option V,
    total f (put m k w) = weight f w + total f (put m k none)
  | none => by rw [weight_none, zero_add]
  | some v => by
      have hnew : k ∉ put m k none := Finmap.notMem_erase_self
      rw [weight_some, ← total_insert_new f hnew, ← put_put m k none]
      rfl

/-- **A write moves the total by what comes minus what goes.** -/
theorem total_put (m : Finmap fun _ : K => V) (k : K) (w : Option V) :
    total f (put m k w) = total f m + (weight f w - weight f (m.lookup k)) := by
  -- writing what is there gives the map back: the old total over the same rest
  have hold := total_put_removed f m k (m.lookup k)
  rw [put_lookup] at hold
  rw [total_put_removed, hold]
  abel

end KeyedSum

end Lattica.Foundation
