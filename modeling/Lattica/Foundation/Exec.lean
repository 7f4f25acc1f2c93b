import Mathlib.Data.Int.Basic
import Mathlib.Data.List.Basic
import Mathlib.Data.List.Forall2
import Mathlib.Tactic.Linarith

/-!
# Rust calls as values

A call of a Rust function ends in one of three ways: it returns `Ok`, it
returns `Err`, or it panics. `Exec ε α` keeps the three apart, so that "never
panics" is a statement about the value of a model function and not a side
condition kept next to it. Functions that do not return a `Result` have
`ε := Empty`.

Integer arithmetic is stated once, in `arith`: the exact result is computed in
`ℤ`, and what happens when it leaves the type is the cargo profile's choice.
-/

namespace Lattica.Foundation

/-- What made a call panic. -/
inductive Panic where
  | sliceRange      -- `xs[a..b]` with `a > b` or `b > xs.len()`
  | index           -- `xs[i]` with `i >= xs.len()`
  | lengthMismatch  -- `copy_from_slice` or `try_into().unwrap()` on a wrong length
  | unwrap          -- `unwrap()` of `None`
  | overflow        -- an integer result outside its type, checks on
deriving DecidableEq, Repr

inductive Exec (ε α : Type) where
  | ok (a : α)
  | err (e : ε)
  | panic (p : Panic)
deriving Repr

namespace Exec

variable {ε ε' α β : Type}

def bind : Exec ε α → (α → Exec ε β) → Exec ε β
  | ok a, f => f a
  | err e, _ => err e
  | panic p, _ => panic p

instance : Monad (Exec ε) where
  pure := ok
  bind := bind

@[simp] theorem pure_eq (a : α) : (pure a : Exec ε α) = ok a := rfl

@[simp] theorem ok_bind (a : α) (f : α → Exec ε β) : (ok a >>= f) = f a := rfl

@[simp] theorem err_bind (e : ε) (f : α → Exec ε β) : (err e >>= f) = err e := rfl

@[simp] theorem panic_bind (p : Panic) (f : α → Exec ε β) :
    (panic p >>= f) = panic p := rfl

theorem bind_eq_ok {x : Exec ε α} {f : α → Exec ε β} {b : β} :
    (x >>= f) = ok b ↔ ∃ a, x = ok a ∧ f a = ok b := by
  cases x with
  | ok a => simp
  | err e => simp
  | panic p => simp

instance : LawfulMonad (Exec ε) := LawfulMonad.mk' _
  (by
    intro α x
    cases x <;> rfl)
  (by
    intro α β a f
    rfl)
  (by
    intro α β γ x f g
    cases x <;> rfl)

/-- `match f() { Ok(a) => .., Err(e) => .. }`: the caller sees the `Result`,
a panic passes through. -/
def attempt : Exec ε α → Exec ε' (Except ε α)
  | ok a => ok (.ok a)
  | err e => ok (.error e)
  | panic p => panic p

@[simp] theorem attempt_ok (a : α) : (ok a : Exec ε α).attempt = (ok (.ok a) : Exec ε' _) := rfl

@[simp] theorem attempt_err (e : ε) :
    (err e : Exec ε α).attempt = (ok (.error e) : Exec ε' _) := rfl

@[simp] theorem attempt_panic (p : Panic) :
    (panic p : Exec ε α).attempt = (panic p : Exec ε' (Except ε α)) := rfl

/-- A third-party `Result`, once its error is mapped. -/
def ofExcept : Except ε α → Exec ε α
  | .ok a => ok a
  | .error e => err e

def IsPanic (x : Exec ε α) : Prop := ∃ p, x = panic p

@[simp] theorem not_isPanic_ok (a : α) : ¬ (ok a : Exec ε α).IsPanic := by
  simp [IsPanic]

@[simp] theorem not_isPanic_err (e : ε) : ¬ (err e : Exec ε α).IsPanic := by
  simp [IsPanic]

@[simp] theorem isPanic_panic (p : Panic) : (panic p : Exec ε α).IsPanic := ⟨p, rfl⟩

theorem attempt_isPanic_iff {x : Exec ε α} :
    (x.attempt : Exec ε' (Except ε α)).IsPanic ↔ x.IsPanic := by
  cases x with
  | ok a => simp
  | err e => simp
  | panic p => simp

theorem attempt_eq_ok_ok {x : Exec ε α} {a : α} :
    (x.attempt : Exec ε' (Except ε α)) = ok (.ok a) ↔ x = ok a := by
  cases x with
  | ok b => simp
  | err e => simp
  | panic p => simp

theorem bind_isPanic_iff {x : Exec ε α} {f : α → Exec ε β} :
    (x >>= f).IsPanic ↔ x.IsPanic ∨ ∃ a, x = ok a ∧ (f a).IsPanic := by
  cases x with
  | ok a => simp
  | err e => simp
  | panic p => simp

section OfExcept

variable {x : Except ε α} {a : α} {e : ε}

@[simp] theorem mapError_eq_ok {f : ε → ε'} : x.mapError f = .ok a ↔ x = .ok a := by
  cases x with
  | ok b => simp [Except.mapError]
  | error e => simp [Except.mapError]

@[simp] theorem mapError_eq_error {f : ε → ε'} {e' : ε'} :
    x.mapError f = .error e' ↔ ∃ e, x = .error e ∧ f e = e' := by
  cases x with
  | ok b => simp [Except.mapError]
  | error e => simp [Except.mapError]

/-- `collect` into a `Result`: every element is mapped, in its place. -/
theorem exceptMapM_eq_ok {f : α → Except ε β} : ∀ {xs : List α} {ys : List β},
    xs.mapM f = .ok ys ↔ List.Forall₂ (fun x y => f x = .ok y) xs ys := by
  intro xs
  induction xs with
  | nil =>
      intro ys
      rw [List.forall₂_nil_left_iff]
      constructor
      · intro h
        cases h
        rfl
      · rintro rfl
        rfl
  | cons x xs ih =>
      intro ys
      rw [List.mapM_cons, List.forall₂_cons_left_iff]
      constructor
      · intro h
        cases hx : f x with
        | error e =>
            rw [hx] at h
            cases h
        | ok y =>
            cases hxs : xs.mapM f with
            | error e =>
                rw [hx, hxs] at h
                cases h
            | ok ys' =>
                rw [hx, hxs] at h
                cases h
                exact ⟨y, ys', rfl, ih.mp hxs, rfl⟩
      · rintro ⟨y, ys', hx, hxs, rfl⟩
        rw [hx, ih.mpr hxs]
        rfl

end OfExcept

section Infallible

variable {x : Exec Empty α} {a : α} {e : ε}

end Infallible

/-- Without an error to return, a call that does not panic returns. -/
theorem not_isPanic_iff {x : Exec Empty α} : ¬ x.IsPanic ↔ ∃ a, x = ok a := by
  cases x with
  | ok a => simp
  | err e => exact e.elim
  | panic p => simp

/-! ## Loops -/

/-- A loop that returns has returned from its body at every element. -/
theorem foldlM_mem_ok {f : β → α → Exec ε β} : ∀ {xs : List α} {s s' : β},
    xs.foldlM f s = ok s' → ∀ x ∈ xs, ∃ t t', f t x = ok t' := by
  intro xs
  induction xs with
  | nil =>
      intro _ _ _ x hx
      cases hx
  | cons y ys ih =>
      intro s s' h x hx
      rw [List.foldlM_cons] at h
      obtain ⟨t, hy, hys⟩ := bind_eq_ok.mp h
      rcases List.mem_cons.mp hx with rfl | hx
      · exact ⟨s, t, hy⟩
      · exact ih hys x hx

/-! ## Loops that fill a vector -/

theorem mapM_eq_ok {f : α → Exec ε β} {g : α → β} :
    ∀ {xs : List α}, (∀ x ∈ xs, f x = ok (g x)) → xs.mapM f = ok (xs.map g)
  | [], _ => rfl
  | x :: xs, h => by
      rw [List.mapM_cons, h x List.mem_cons_self,
        mapM_eq_ok fun y hy => h y (List.mem_cons_of_mem x hy)]
      rfl

theorem mapM_length {f : α → Exec ε β} :
    ∀ {xs : List α} {ys : List β}, xs.mapM f = ok ys → ys.length = xs.length
  | [], ys, h => by
      rw [List.mapM_nil] at h
      cases h
      rfl
  | x :: xs, ys, h => by
      rw [List.mapM_cons] at h
      obtain ⟨y, _, h⟩ := bind_eq_ok.mp h
      obtain ⟨ys', hys, h⟩ := bind_eq_ok.mp h
      cases h
      simp [mapM_length hys]

/-- Element `i` of a filled vector is what the loop body made of element `i`. -/
theorem mapM_getElem {f : α → Exec ε β} :
    ∀ {xs : List α} {ys : List β}, xs.mapM f = ok ys →
      ∀ (i : ℕ) (hx : i < xs.length) (hy : i < ys.length), f xs[i] = ok ys[i]
  | [], _, _, i, hx, _ => absurd hx (by simp)
  | x :: xs, ys, h, i, hx, hy => by
      rw [List.mapM_cons] at h
      obtain ⟨y, hfy, h⟩ := bind_eq_ok.mp h
      obtain ⟨ys', hys, h⟩ := bind_eq_ok.mp h
      cases h
      cases i with
      | zero => exact hfy
      | succ i => exact mapM_getElem hys i (by simpa using hx) (by simpa using hy)

end Exec

/-! ## Machine integers -/

/-- The part of a cargo profile that decides what an overflow does. -/
structure Profile where
  overflowChecks : Bool
deriving DecidableEq, Repr

/-- A `w`-bit unsigned operation with exact result `z`. -/
def arith {ε : Type} (P : Profile) (w : ℕ) (z : ℤ) : Exec ε ℕ :=
  if 0 ≤ z ∧ z < 2 ^ w then .ok z.toNat
  else if P.overflowChecks then .panic .overflow
  else .ok (z % 2 ^ w).toNat

theorem arith_fits {ε : Type} {P : Profile} {w : ℕ} {z : ℤ} (h₀ : 0 ≤ z) (h : z < 2 ^ w) :
    (arith P w z : Exec ε ℕ) = .ok z.toNat := by
  rw [arith, if_pos ⟨h₀, h⟩]

theorem arith_natCast {ε : Type} {P : Profile} {w n : ℕ} (h : n < 2 ^ w) :
    (arith P w (n : ℤ) : Exec ε ℕ) = .ok n := by
  rw [arith_fits (Int.natCast_nonneg n) (by exact_mod_cast h), Int.toNat_natCast]

theorem arith_checked {ε : Type} {P : Profile} {w : ℕ} {z : ℤ} (hP : P.overflowChecks = true)
    (h : ¬ (0 ≤ z ∧ z < 2 ^ w)) : (arith P w z : Exec ε ℕ) = .panic .overflow := by
  rw [arith, if_neg h, if_pos hP]

theorem arith_wraps {ε : Type} {P : Profile} {w : ℕ} {z : ℤ} (hP : P.overflowChecks = false)
    (h : ¬ (0 ≤ z ∧ z < 2 ^ w)) :
    (arith P w z : Exec ε ℕ) = .ok (z % 2 ^ w).toNat := by
  rw [arith, if_neg h, if_neg (by simp [hP])]

theorem arith_isPanic_iff {ε : Type} {P : Profile} {w : ℕ} {z : ℤ} :
    (arith P w z : Exec ε ℕ).IsPanic ↔ P.overflowChecks = true ∧ ¬ (0 ≤ z ∧ z < 2 ^ w) := by
  by_cases h : 0 ≤ z ∧ z < 2 ^ w
  · rw [arith, if_pos h]
    simp [h]
  · cases hP : P.overflowChecks with
    | true =>
        rw [arith_checked hP h]
        simp [h]
    | false =>
        rw [arith_wraps hP h]
        simp

/-! The operators at width `w`, with the side condition under which each is exact. -/

section Operators

variable {ε : Type} {P : Profile} {w a b : ℕ}

def addU (P : Profile) (w a b : ℕ) : Exec ε ℕ := arith P w ((a : ℤ) + b)

def subU (P : Profile) (w a b : ℕ) : Exec ε ℕ := arith P w ((a : ℤ) - b)

def mulU (P : Profile) (w a b : ℕ) : Exec ε ℕ := arith P w ((a : ℤ) * b)

theorem addU_eq (h : a + b < 2 ^ w) : (addU P w a b : Exec ε ℕ) = .ok (a + b) := by
  rw [addU, ← Nat.cast_add, arith_natCast h]

theorem addU_isPanic_iff : (addU P w a b : Exec ε ℕ).IsPanic ↔
    P.overflowChecks = true ∧ 2 ^ w ≤ a + b := by
  rw [addU, arith_isPanic_iff, ← Nat.not_lt]
  apply and_congr_right'
  rw [not_iff_not]
  constructor
  · rintro ⟨_, hlt⟩
    exact_mod_cast hlt
  · intro hlt
    exact ⟨Int.add_nonneg (Int.natCast_nonneg a) (Int.natCast_nonneg b), by exact_mod_cast hlt⟩

theorem mulU_isPanic_iff : (mulU P w a b : Exec ε ℕ).IsPanic ↔
    P.overflowChecks = true ∧ 2 ^ w ≤ a * b := by
  rw [mulU, arith_isPanic_iff, ← Nat.not_lt]
  apply and_congr_right'
  rw [not_iff_not]
  constructor
  · rintro ⟨_, hlt⟩
    exact_mod_cast hlt
  · intro hlt
    exact ⟨Int.mul_nonneg (Int.natCast_nonneg a) (Int.natCast_nonneg b), by exact_mod_cast hlt⟩

/-- Whatever the profile, a sum that is returned is the sum modulo the width. -/
theorem addU_eq_ok {c : ℕ} (h : (addU P w a b : Exec ε ℕ) = .ok c) : c = (a + b) % 2 ^ w := by
  by_cases hfit : a + b < 2 ^ w
  · rw [addU_eq hfit] at h
    cases h
    exact (Nat.mod_eq_of_lt hfit).symm
  · have hout : ¬ (0 ≤ (a : ℤ) + b ∧ (a : ℤ) + b < 2 ^ w) := by
      rintro ⟨_, hlt⟩
      exact hfit (by exact_mod_cast hlt)
    cases hP : P.overflowChecks with
    | true =>
        rw [addU, arith_checked hP hout] at h
        cases h
    | false =>
        rw [addU, arith_wraps hP hout] at h
        cases h
        have hcast : ((a : ℤ) + b) % 2 ^ w = ((a + b) % 2 ^ w : ℕ) := by push_cast; rfl
        rw [hcast, Int.toNat_natCast]

theorem subU_eq (h : b ≤ a) (ha : a < 2 ^ w) : (subU P w a b : Exec ε ℕ) = .ok (a - b) := by
  rw [subU, ← Nat.cast_sub h, arith_natCast (by omega)]

theorem mulU_eq (h : a * b < 2 ^ w) : (mulU P w a b : Exec ε ℕ) = .ok (a * b) := by
  rw [mulU, ← Nat.cast_mul, arith_natCast h]

/-- A subtraction below zero panics where overflow is checked. -/
theorem subU_checked (hP : P.overflowChecks = true) (h : a < b) :
    (subU P w a b : Exec ε ℕ) = .panic .overflow :=
  arith_checked hP (by omega)

/-- A subtraction below zero wraps where it is not. -/
theorem subU_wraps (hP : P.overflowChecks = false) (h : a < b) (hb : b < 2 ^ w) :
    (subU P w a b : Exec ε ℕ) = .ok (a + 2 ^ w - b) := by
  rw [subU, arith_wraps hP (by omega)]
  congr 1
  have hcast : ((2 ^ w : ℕ) : ℤ) = 2 ^ w := by push_cast; rfl
  have hmod : ((a : ℤ) - b) % 2 ^ w = (a : ℤ) - b + 2 ^ w := by
    rw [← Int.add_emod_right]
    exact Int.emod_eq_of_lt (by omega) (by omega)
  omega

end Operators

end Lattica.Foundation
