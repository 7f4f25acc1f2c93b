import Lattica.Foundation.Bytes
import Mathlib.Data.List.TakeWhile
import Mathlib.Data.Nat.Digits.Lemmas

/-!
# Numbers with leading zeros

A list of digits, most significant first, is a number and the count of its
leading zeros. Writing the number in another base and keeping the count loses
nothing. Base 58 text is the bytes written in base 58, under its alphabet.
-/

namespace Lattica.Foundation

/-! ## Changing the base -/

/-- The leading zeros of a list of digits. -/
def leadingZeros (ds : List ℕ) : ℕ := (ds.takeWhile (· = 0)).length

/-- The same number in base `c`, behind as many zeros. -/
def rebase (b c : ℕ) (ds : List ℕ) : List ℕ :=
  List.replicate (leadingZeros ds) 0 ++ (Nat.digits c (Nat.ofDigits b ds.reverse)).reverse

/-- A list is its leading zeros and the rest. -/
theorem replicate_leadingZeros (ds : List ℕ) :
    List.replicate (leadingZeros ds) 0 ++ ds.dropWhile (· = 0) = ds := by
  have hzeros : ds.takeWhile (· = 0) = List.replicate (leadingZeros ds) 0 := by
    rw [List.eq_replicate_iff]
    refine ⟨rfl, ?_⟩
    intro d hd
    simpa using List.mem_takeWhile_imp hd
  rw [← hzeros, List.takeWhile_append_dropWhile]

theorem leadingZeros_append {z : ℕ} {ds : List ℕ} (h : ∀ hne : ds ≠ [], ds.head hne ≠ 0) :
    leadingZeros (List.replicate z 0 ++ ds) = z := by
  unfold leadingZeros
  rw [List.takeWhile_append_of_pos]
  · cases ds with
    | nil => simp
    | cons d ds =>
        have hd : d ≠ 0 := h (List.cons_ne_nil d ds)
        simp [hd]
  · intro d hd
    simpa using List.eq_of_mem_replicate hd

theorem ofDigits_reverse_append {b z : ℕ} {ds : List ℕ} :
    Nat.ofDigits b (List.replicate z 0 ++ ds).reverse = Nat.ofDigits b ds.reverse := by
  rw [List.reverse_append, List.reverse_replicate, Nat.ofDigits_append_replicate_zero]

theorem head_dropWhile {ds : List ℕ} :
    ∀ hne : ds.dropWhile (· = 0) ≠ [], (ds.dropWhile (· = 0)).head hne ≠ 0 := by
  intro hne
  simpa using List.head_dropWhile_not (fun d : ℕ => decide (d = 0)) hne

theorem head_reverse_digits {c n : ℕ} :
    ∀ hne : (Nat.digits c n).reverse ≠ [], (Nat.digits c n).reverse.head hne ≠ 0 := by
  intro hne
  rw [List.head_reverse]
  apply Nat.getLast_digit_ne_zero
  rintro rfl
  exact hne (by rw [Nat.digits_zero, List.reverse_nil])

/-- The number is that of the digits behind the zeros. -/
theorem ofDigits_reverse_eq {b : ℕ} {ds : List ℕ} :
    Nat.ofDigits b ds.reverse = Nat.ofDigits b (ds.dropWhile (· = 0)).reverse := by
  conv_lhs => rw [← replicate_leadingZeros ds]
  rw [ofDigits_reverse_append]

/-- Going to another base and back is the identity. -/
theorem rebase_rebase {b c : ℕ} (hb : 1 < b) {ds : List ℕ} (h : ∀ d ∈ ds, d < b) :
    rebase c b (rebase b c ds) = ds := by
  have hnumber : Nat.ofDigits c (rebase b c ds).reverse = Nat.ofDigits b ds.reverse := by
    unfold rebase
    rw [ofDigits_reverse_append, List.reverse_reverse, Nat.ofDigits_digits]
  have hzeros : leadingZeros (rebase b c ds) = leadingZeros ds :=
    leadingZeros_append head_reverse_digits
  have hdigits : Nat.digits b (Nat.ofDigits b (ds.dropWhile (· = 0)).reverse) =
      (ds.dropWhile (· = 0)).reverse := by
    apply Nat.digits_ofDigits b hb
    · intro d hd
      apply h
      exact (List.dropWhile_sublist _).subset (List.mem_reverse.mp hd)
    · intro hne
      rw [List.getLast_reverse]
      exact head_dropWhile _
  unfold rebase at hnumber hzeros ⊢
  rw [hnumber, hzeros, ofDigits_reverse_eq, hdigits, List.reverse_reverse, replicate_leadingZeros]

theorem length_rebase (b c : ℕ) (ds : List ℕ) : (rebase b c ds).length =
    leadingZeros ds + (Nat.digits c (Nat.ofDigits b ds.reverse)).length := by
  rw [rebase, List.length_append, List.length_replicate, List.length_reverse]

theorem leadingZeros_le (ds : List ℕ) : leadingZeros ds ≤ ds.length :=
  (List.takeWhile_sublist _).length_le

/-- Leading zeros leave fewer digits for the number. -/
theorem ofDigits_lt {b : ℕ} (hb : 1 < b) {ds : List ℕ} (h : ∀ d ∈ ds, d < b) :
    Nat.ofDigits b ds.reverse < b ^ (ds.length - leadingZeros ds) := by
  have hlength : (ds.dropWhile (· = 0)).reverse.length = ds.length - leadingZeros ds := by
    conv_rhs => rw [← replicate_leadingZeros ds]
    rw [List.length_append, List.length_replicate, leadingZeros_append head_dropWhile,
      Nat.add_sub_cancel_left, List.length_reverse]
  rw [← hlength, ofDigits_reverse_eq]
  apply Nat.ofDigits_lt_base_pow_length hb
  intro d hd
  exact h d ((List.dropWhile_sublist _).subset (List.mem_reverse.mp hd))

theorem lt_of_mem_rebase {b c : ℕ} (hc : 1 < c) {ds : List ℕ} : ∀ d ∈ rebase b c ds, d < c := by
  intro d hd
  rcases List.mem_append.mp hd with hd | hd
  · rw [List.eq_of_mem_replicate hd]
    exact Nat.lt_of_succ_lt hc
  · exact Nat.digits_lt_base hc (List.mem_reverse.mp hd)

/-! ## The text -/

namespace Base58

def alphabet : List Char :=
  "123456789ABCDEFGHJKLMNPQRSTUVWXYZabcdefghijkmnopqrstuvwxyz".toList

def digit (n : ℕ) : Char := alphabet.getD n '1'

def value (c : Char) : ℕ := alphabet.idxOf c

def encode (bs : List UInt8) : List Char :=
  (rebase 256 58 (bs.map UInt8.toNat)).map digit

/-- It is refused if some character is not of the alphabet. -/
def decode (cs : List Char) : Option (List UInt8) :=
  if cs.all alphabet.contains then some ((rebase 58 256 (cs.map value)).map UInt8.ofNat) else none

theorem digit_mem {n : ℕ} (h : n < 58) : digit n ∈ alphabet := by
  revert n
  decide

theorem value_digit {n : ℕ} (h : n < 58) : value (digit n) = n := by
  revert n
  decide

theorem mem_alphabet_of_mem_encode {bs : List UInt8} : ∀ c ∈ encode bs, c ∈ alphabet := by
  intro c hc
  obtain ⟨d, hd, rfl⟩ := List.mem_map.mp hc
  exact digit_mem (lt_of_mem_rebase (by decide) d hd)

theorem digit_value {c : Char} (h : c ∈ alphabet) : digit (value c) = c := by
  unfold digit value
  rw [List.getD_eq_getElem?_getD, List.getElem?_idxOf h, Option.getD_some]

theorem value_lt {c : Char} (h : c ∈ alphabet) : value c < 58 := List.idxOf_lt_length_iff.mpr h

theorem byte_lt (bs : List UInt8) : ∀ d ∈ bs.map UInt8.toNat, d < 256 := by
  intro d hd
  obtain ⟨x, _, rfl⟩ := List.mem_map.mp hd
  exact UInt8.toNat_lt x

/-- Decoding inverts encoding. -/
theorem decode_encode (bs : List UInt8) : decode (encode bs) = some bs := by
  have hvalues : (encode bs).map value = rebase 256 58 (bs.map UInt8.toNat) := by
    unfold encode
    rw [List.map_map]
    have hdigit : ∀ d ∈ rebase 256 58 (bs.map UInt8.toNat), (value ∘ digit) d = id d := by
      intro d hd
      exact value_digit (lt_of_mem_rebase (by decide) d hd)
    rw [List.map_congr_left hdigit, List.map_id]
  have hbytes : (bs.map UInt8.toNat).map UInt8.ofNat = bs := by
    rw [List.map_map]
    have hbyte : ∀ x ∈ bs, (UInt8.ofNat ∘ UInt8.toNat) x = id x := by
      intro x _
      exact UInt8.ofNat_toNat
    rw [List.map_congr_left hbyte, List.map_id]
  have halphabet : (encode bs).all alphabet.contains = true := by
    rw [List.all_eq_true]
    intro c hc
    exact List.contains_iff_mem.mpr (mem_alphabet_of_mem_encode c hc)
  unfold decode
  rw [if_pos halphabet, hvalues, rebase_rebase (by decide) (byte_lt bs), hbytes]

/-- Encoding inverts decoding, so bytes have one text. -/
theorem encode_of_decode {cs : List Char} {bs : List UInt8} (h : decode cs = some bs) :
    encode bs = cs := by
  unfold decode at h
  split at h
  · rename_i hall
    cases h
    rw [List.all_eq_true] at hall
    have hmem : ∀ c ∈ cs, c ∈ alphabet := fun c hc => List.contains_iff_mem.mp (hall c hc)
    have hlt : ∀ d ∈ cs.map value, d < 58 := by
      intro d hd
      obtain ⟨c, hc, rfl⟩ := List.mem_map.mp hd
      exact value_lt (hmem c hc)
    have hbytes : ∀ d ∈ rebase 58 256 (cs.map value), (UInt8.toNat ∘ UInt8.ofNat) d = id d := by
      intro d hd
      exact UInt8.toNat_ofNat_of_lt' (lt_of_mem_rebase (by decide) d hd)
    have hchars : ∀ c ∈ cs, (digit ∘ value) c = id c := fun c hc => digit_value (hmem c hc)
    unfold encode
    rw [List.map_map, List.map_congr_left hbytes, List.map_id, rebase_rebase (by decide) hlt,
      List.map_map, List.map_congr_left hchars, List.map_id]
  · cases h

/-- The bytes as one number, the first the most significant. -/
def number (bs : List UInt8) : ℕ := Nat.ofDigits 256 (bs.map UInt8.toNat).reverse

/-- The zero bytes in front. -/
def zeros (bs : List UInt8) : ℕ := leadingZeros (bs.map UInt8.toNat)

/-- The text of 32 bytes has at most 44 characters, and as many exactly for the
large numbers. -/
theorem length_encode_eq_iff {bs : List UInt8} (h : bs.length = 32) :
    (encode bs).length = 44 ↔ 58 ^ (43 - zeros bs) ≤ number bs := by
  have hzeros : zeros bs ≤ 32 := by
    have hle := leadingZeros_le (bs.map UInt8.toNat)
    rwa [List.length_map, h] at hle
  have hnumber : number bs < 58 ^ (44 - zeros bs) := by
    have hlt := ofDigits_lt (b := 256) (by decide) (byte_lt bs)
    rw [List.length_map, h] at hlt
    have hpow : ∀ z ≤ 32, 256 ^ (32 - z) ≤ 58 ^ (44 - z) := by decide +kernel
    exact hlt.trans_le (hpow (zeros bs) hzeros)
  have hle := (Nat.digits_length_le_iff (by decide : 1 < 58) (number bs)).mpr hnumber
  rw [← Nat.lt_digits_length_iff (by decide : 1 < 58)]
  unfold encode
  rw [List.length_map, length_rebase]
  change zeros bs + (Nat.digits 58 (number bs)).length = 44 ↔ _
  omega

end Base58

end Lattica.Foundation
