import Mathlib.Algebra.Field.Basic
import Mathlib.Algebra.Field.IsField
import Mathlib.Data.Fintype.Basic
import Mathlib.Data.List.Iterate
import Mathlib.Logic.Function.Iterate

/-!
# The field of 256 elements

Bytes with exclusive or as addition and multiplication modulo the polynomial
`x^8 + x^4 + x^3 + x^2 + 1`, whose root `x` generates the 255 non-zero
elements. A product is computed through the discrete logarithm of one factor:
`a * b` doubles `b` as often as it takes to double 1 into `a`. Doubling is
additive, which gives distributivity, and doublings commute with one another,
which gives the rest.
-/

namespace Lattica.Foundation

/-- A byte as a field element. -/
def GF256 : Type := UInt8

namespace GF256

instance : DecidableEq GF256 := inferInstanceAs (DecidableEq UInt8)

instance : Zero GF256 := ⟨(0 : UInt8)⟩
instance : One GF256 := ⟨(1 : UInt8)⟩

def add (a b : UInt8) : UInt8 := a ^^^ b

instance : Add GF256 := ⟨add⟩

/-- Multiplication by `x`: a shift, and the polynomial's low terms where the
top bit falls out. -/
def double (b : UInt8) : UInt8 :=
  let top := b >>> 7
  (b <<< 1) ^^^ (top ^^^ (top <<< 2) ^^^ (top <<< 3) ^^^ (top <<< 4))

theorem double_xor (a b : UInt8) : double (a ^^^ b) = double a ^^^ double b := by
  simp only [double, UInt8.shiftRight_xor, UInt8.shiftLeft_xor]
  ac_rfl

/-- The powers of `x` in order. -/
def powers : List UInt8 := List.iterate double 1 255

/-- The discrete logarithm. -/
def log (a : UInt8) : ℕ := powers.idxOf a

def mul (a b : UInt8) : UInt8 := if a = 0 then 0 else double^[log a] b

instance : Mul GF256 := ⟨mul⟩

instance : Neg GF256 := ⟨id⟩

/-- The bytes of a list as the bits of a number. -/
def mask : List UInt8 → ℕ
  | [] => 0
  | b :: bs => mask bs ||| 2 ^ b.toNat

theorem mem_of_testBit_mask {a : UInt8} : ∀ {bs : List UInt8},
    (mask bs).testBit a.toNat = true → a ∈ bs
  | [], h => by
      rw [mask, Nat.zero_testBit] at h
      cases h
  | b :: bs, h => by
      rw [mask, Nat.testBit_or, Bool.or_eq_true, Nat.testBit_two_pow, decide_eq_true_eq] at h
      rcases h with h | h
      · exact List.mem_cons_of_mem b (mem_of_testBit_mask h)
      · rw [UInt8.toNat_inj.mp h]
        exact List.mem_cons_self

theorem mask_powers : mask powers = 2 ^ 256 - 2 := by
  decide +kernel

/-- The powers are all the non-zero bytes. -/
theorem mem_powers_of_ne_zero : ∀ n : Fin 256, n ≠ 0 → UInt8.ofFin n ∈ powers := by
  have hbits : ∀ n : Fin 256, n ≠ 0 → (2 ^ 256 - 2).testBit n.1 = true := by
    decide +kernel
  intro n hn
  refine mem_of_testBit_mask ?_
  rw [mask_powers]
  exact hbits n hn

theorem double_iterate_255 : double^[255] 1 = 1 := by
  decide +kernel

theorem log_lt {a : UInt8} (ha : a ≠ 0) : log a < 255 := by
  have hmem : a ∈ powers := mem_powers_of_ne_zero a.toFin fun h => ha (by
    rw [← UInt8.ofFin_toFin a, h]
    rfl)
  have hlt := List.idxOf_lt_length_of_mem hmem
  rwa [powers, List.length_iterate] at hlt

/-- Doubling 1 `log a` times gives `a`. -/
theorem double_log {a : UInt8} (ha : a ≠ 0) : double^[log a] 1 = a := by
  have hlt := log_lt ha
  have hlt' : log a < powers.length := by rwa [powers, List.length_iterate]
  have hget : powers[log a] = a := List.getElem_idxOf hlt'
  simp only [powers, List.getElem_iterate] at hget
  exact hget

theorem iterate_xor (n : ℕ) (a b : UInt8) :
    double^[n] (a ^^^ b) = double^[n] a ^^^ double^[n] b := by
  induction n with
  | zero => rfl
  | succ n ih => rw [Function.iterate_succ_apply', ih, double_xor,
      ← Function.iterate_succ_apply' double, ← Function.iterate_succ_apply' double]

theorem iterate_zero (n : ℕ) : double^[n] 0 = 0 := by
  induction n with
  | zero => rfl
  | succ n ih =>
      rw [Function.iterate_succ_apply', ih]
      rfl

theorem mul_zero' (a : UInt8) : mul a 0 = 0 := by
  unfold mul
  split
  · rfl
  · exact iterate_zero _

theorem zero_mul' (b : UInt8) : mul 0 b = 0 := if_pos rfl

theorem mul_eq_iterate {a : UInt8} (ha : a ≠ 0) (b : UInt8) : mul a b = double^[log a] b :=
  if_neg ha

theorem mul_comm' (a b : UInt8) : mul a b = mul b a := by
  by_cases ha : a = 0
  · rw [ha, mul_zero', mul, if_pos rfl]
  by_cases hb : b = 0
  · rw [hb, mul_zero', mul, if_pos rfl]
  calc mul a b = double^[log a] (double^[log b] 1) := by rw [mul_eq_iterate ha, double_log hb]
    _ = double^[log b] (double^[log a] 1) := (Function.Commute.iterate_iterate_self double _ _) 1
    _ = mul b a := by rw [mul_eq_iterate hb, double_log ha]

/-- Products are products of the second factor with a run of doublings. -/
theorem mul_assoc' (a b c : UInt8) : mul (mul a b) c = mul a (mul b c) := by
  by_cases ha : a = 0
  · simp [mul, ha]
  by_cases hc : c = 0
  · rw [hc, mul_zero', mul_zero', mul_zero']
  calc mul (mul a b) c = double^[log c] (double^[log a] b) := by
        rw [mul_comm', mul_eq_iterate hc, mul_eq_iterate ha]
    _ = double^[log a] (double^[log c] b) := (Function.Commute.iterate_iterate_self double _ _) b
    _ = mul a (mul b c) := by rw [mul_comm' b c, mul_eq_iterate hc, mul_eq_iterate ha]

theorem mul_add' (a b c : UInt8) : mul a (b ^^^ c) = mul a b ^^^ mul a c := by
  by_cases ha : a = 0
  · simp [mul, ha]
  · rw [mul_eq_iterate ha, mul_eq_iterate ha, mul_eq_iterate ha, iterate_xor]

theorem add_mul' (a b c : UInt8) : mul (a ^^^ b) c = mul a c ^^^ mul b c := by
  rw [mul_comm', mul_add', mul_comm' c a, mul_comm' c b]

theorem one_mul' (b : UInt8) : mul 1 b = b := by
  have hlog : log 1 = 0 := by decide +kernel
  rw [mul_eq_iterate (by decide), hlog]
  rfl

theorem exists_inv {a : UInt8} (ha : a ≠ 0) : ∃ b, mul a b = 1 := by
  refine ⟨double^[255 - log a] 1, ?_⟩
  have hlt := log_lt ha
  rw [mul_eq_iterate ha, ← Function.iterate_add_apply,
    show log a + (255 - log a) = 255 by omega, double_iterate_255]

instance : CommRing GF256 where
  add_assoc a b c := UInt8.xor_assoc (a := a) (b := b) (c := c)
  zero_add a := UInt8.zero_xor (a := a)
  add_zero a := UInt8.xor_zero (a := a)
  add_comm a b := UInt8.xor_comm a b
  nsmul := nsmulRec
  zsmul := zsmulRec
  neg_add_cancel a := UInt8.xor_self (a := a)
  left_distrib := mul_add'
  right_distrib := add_mul'
  zero_mul := zero_mul'
  mul_zero := mul_zero'
  mul_assoc := mul_assoc'
  one_mul := one_mul'
  mul_one a := (mul_comm' a 1).trans (one_mul' a)
  mul_comm := mul_comm'

theorem isField : IsField GF256 where
  exists_pair_ne := ⟨(0 : UInt8), (1 : UInt8), show (0 : UInt8) ≠ 1 by decide⟩
  mul_comm := mul_comm'
  mul_inv_cancel := exists_inv

noncomputable instance : Field GF256 := isField.toField

end GF256

end Lattica.Foundation
