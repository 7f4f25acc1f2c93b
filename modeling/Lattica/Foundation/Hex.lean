import Lattica.Foundation.Bytes

/-!
# Hexadecimal and decimal text

What is written in hexadecimal has two lower-case digits for each byte; what is
read may use either case. Reading inverts writing, up to case, and succeeds on
exactly the texts of an even number of digits. Decimal numbers are read as
`u64::from_str` reads them: a leading plus and leading zeros are accepted.
-/

namespace Lattica.Foundation

/-! ## Pieces of a text -/

namespace Text

theorem append_injective {s s' t t' : String} (hlen : s.toList.length = s'.toList.length)
    (h : s ++ t = s' ++ t') : s = s' ∧ t = t' := by
  have hlist := congrArg String.toList h
  rw [String.toList_append, String.toList_append] at hlist
  obtain ⟨hs, ht⟩ := List.append_inj hlist hlen
  exact ⟨String.toList_inj.mp hs, String.toList_inj.mp ht⟩

theorem append_left_injective {s t t' : String} (h : s ++ t = s ++ t') : t = t' :=
  (append_injective rfl h).2

end Text

/-! ## Hexadecimal digits -/

namespace Hex

/-- `char::is_ascii_hexdigit`. -/
def isDigit (c : Char) : Bool :=
  c.isDigit || (97 ≤ c.toNat && c.toNat ≤ 102) || (65 ≤ c.toNat && c.toNat ≤ 70)

def value (c : Char) : ℕ :=
  if c.isDigit then c.toNat - 48
  else if 97 ≤ c.toNat then c.toNat - 87
  else c.toNat - 55

/-- `hex::encode`. -/
def encode (bs : List UInt8) : List Char :=
  bs.flatMap fun b => [(b.toNat / 16).digitChar, (b.toNat % 16).digitChar]

/-- `hex::decode`, without the reason of a failure. -/
def decode : List Char → Option (List UInt8)
  | [] => some []
  | [_] => none
  | c :: d :: cs =>
      if isDigit c && isDigit d then
        (decode cs).map (.ofNat (16 * value c + value d) :: ·)
      else none

theorem isDigit_digitChar {n : ℕ} (h : n < 16) : isDigit n.digitChar = true := by
  revert n
  decide

theorem value_digitChar {n : ℕ} (h : n < 16) : value n.digitChar = n := by
  revert n
  decide

theorem encode_cons (b : UInt8) (bs : List UInt8) :
    encode (b :: bs) = (b.toNat / 16).digitChar :: (b.toNat % 16).digitChar :: encode bs := rfl

@[simp] theorem length_encode (bs : List UInt8) : (encode bs).length = 2 * bs.length := by
  induction bs with
  | nil => rfl
  | cons b bs ih =>
      rw [encode_cons, List.length_cons, List.length_cons, ih, List.length_cons]
      ring

section Halves

variable (b : UInt8)

theorem high_lt : b.toNat / 16 < 16 := by
  apply Nat.div_lt_of_lt_mul
  exact UInt8.toNat_lt b

theorem low_lt : b.toNat % 16 < 16 := Nat.mod_lt _ (by decide)

end Halves

theorem isDigit_of_mem_encode {bs : List UInt8} : ∀ c ∈ encode bs, isDigit c = true := by
  intro c hc
  obtain ⟨b, _, hc⟩ := List.mem_flatMap.mp hc
  simp only [List.mem_cons, List.not_mem_nil, or_false] at hc
  rcases hc with rfl | rfl
  · exact isDigit_digitChar (high_lt b)
  · exact isDigit_digitChar (low_lt b)

/-- Reading inverts writing. -/
@[simp] theorem decode_encode (bs : List UInt8) : decode (encode bs) = some bs := by
  induction bs with
  | nil => rfl
  | cons b bs ih =>
      rw [encode_cons, decode, isDigit_digitChar (high_lt b), isDigit_digitChar (low_lt b),
        value_digitChar (high_lt b), value_digitChar (low_lt b), ih, Nat.div_add_mod]
      show some (UInt8.ofNat b.toNat :: bs) = _
      rw [UInt8.ofNat_toNat]

theorem encode_injective {bs bs' : List UInt8} (h : encode bs = encode bs') : bs = bs' := by
  have hread := decode_encode bs
  rw [h, decode_encode] at hread
  exact (Option.some.inj hread).symm

/-- What is read is an even number of digits, and two of them make a byte. -/
theorem exists_decode_iff : ∀ {cs : List Char},
    (∃ bs, decode cs = some bs) ↔ Even cs.length ∧ ∀ c ∈ cs, isDigit c = true
  | [] => by simp [decode]
  | [c] => by simp [decode]
  | c :: d :: cs => by
      have ih := @exists_decode_iff cs
      have heven : Even (c :: d :: cs).length ↔ Even cs.length := by
        show Even (cs.length + 2) ↔ _
        rw [Nat.even_add]
        simp
      rw [heven, List.forall_mem_cons, List.forall_mem_cons, decode]
      cases hc : isDigit c && isDigit d with
      | false =>
          rw [Bool.and_eq_false_iff] at hc
          constructor
          · rintro ⟨bs, h⟩
            cases h
          · rintro ⟨_, hc', hd', _⟩
            rw [hc', hd'] at hc
            simp at hc
      | true =>
          rw [Bool.and_eq_true] at hc
          constructor
          · rintro ⟨bs, h⟩
            obtain ⟨rest, hrest, _⟩ := Option.map_eq_some_iff.mp h
            obtain ⟨hlen, hdigits⟩ := ih.mp ⟨rest, hrest⟩
            exact ⟨hlen, hc.1, hc.2, hdigits⟩
          · rintro ⟨hlen, _, _, hdigits⟩
            obtain ⟨rest, hrest⟩ := ih.mpr ⟨hlen, hdigits⟩
            refine ⟨.ofNat (16 * value c + value d) :: rest, ?_⟩
            rw [if_pos rfl, hrest]
            rfl

theorem toLower_of_isDigit {c : Char} (h : isDigit c = true) :
    c.toLower = (value c).digitChar ∧ value c < 16 := by
  have hsmall : ∀ n < 128, isDigit (Char.ofNat n) = true →
      (Char.ofNat n).toLower = (value (Char.ofNat n)).digitChar ∧ value (Char.ofNat n) < 16 := by
    decide +kernel
  have hlt : c.toNat < 128 := by
    simp only [isDigit, Char.isDigit, Bool.or_eq_true, Bool.and_eq_true, decide_eq_true_iff] at h
    rcases h with (⟨_, h⟩ | ⟨_, h⟩) | ⟨_, h⟩
    · have hle : c.toNat ≤ 57 := h
      exact hle.trans_lt (by decide)
    · exact h.trans_lt (by decide)
    · exact h.trans_lt (by decide)
  rw [← Char.ofNat_toNat c] at h ⊢
  exact hsmall c.toNat hlt h

theorem isDigit_of_toLower {c : Char} (h : isDigit c.toLower = true) : isDigit c = true := by
  have hsmall : ∀ n < 128, isDigit (Char.ofNat n).toLower = true →
      isDigit (Char.ofNat n) = true := by
    decide +kernel
  by_cases hlt : c.toNat < 128
  · rw [← Char.ofNat_toNat c] at h ⊢
    exact hsmall c.toNat hlt h
  · have hsame : c.toLower = c := by
      apply dif_neg
      rintro ⟨_, hle⟩
      have hle' : c.toNat ≤ 90 := hle
      exact hlt (hle'.trans_lt (by decide))
    rw [← hsame]
    exact h

/-- Read is what is written, in lower case. -/
theorem decode_eq_some_iff : ∀ {cs : List Char} {bs : List UInt8},
    decode cs = some bs ↔ cs.map Char.toLower = encode bs
  | [], [] => by simp [decode, encode]
  | [], b :: bs => by simp [decode, encode_cons]
  | [c], [] => by simp [decode, encode]
  | [c], b :: bs => by simp [decode, encode_cons]
  | c :: d :: cs, [] => by
      constructor
      · intro h
        rw [decode] at h
        split at h
        · obtain ⟨_, _, hcons⟩ := Option.map_eq_some_iff.mp h
          cases hcons
        · cases h
      · intro h
        cases h
  | c :: d :: cs, b :: bs => by
      rw [decode, encode_cons, List.map_cons, List.map_cons]
      constructor
      · intro h
        split at h
        · next hdigits =>
            rw [Bool.and_eq_true] at hdigits
            obtain ⟨rest, hrest, hcons⟩ := Option.map_eq_some_iff.mp h
            injection hcons with hb hbs
            subst hbs
            obtain ⟨hc, hhigh⟩ := toLower_of_isDigit hdigits.1
            obtain ⟨hd, hlow⟩ := toLower_of_isDigit hdigits.2
            have hsum : b.toNat = 16 * value c + value d := by
              rw [← hb]
              apply UInt8.toNat_ofNat_of_lt'
              show 16 * value c + value d < 256
              omega
            rw [hsum, hc, hd, decode_eq_some_iff.mp hrest, Nat.mul_add_div (by decide),
              Nat.div_eq_of_lt hlow, Nat.add_zero, Nat.mul_add_mod, Nat.mod_eq_of_lt hlow]
        · cases h
      · intro h
        injection h with hc h
        injection h with hd hcs
        have hdigit : isDigit c = true := by
          apply isDigit_of_toLower
          rw [hc]
          exact isDigit_digitChar (high_lt b)
        have hdigit' : isDigit d = true := by
          apply isDigit_of_toLower
          rw [hd]
          exact isDigit_digitChar (low_lt b)
        have hvalue : value c = b.toNat / 16 := by
          obtain ⟨hlower, hlt⟩ := toLower_of_isDigit hdigit
          rw [← value_digitChar hlt, ← hlower, hc, value_digitChar (high_lt b)]
        have hvalue' : value d = b.toNat % 16 := by
          obtain ⟨hlower, hlt⟩ := toLower_of_isDigit hdigit'
          rw [← value_digitChar hlt, ← hlower, hd, value_digitChar (low_lt b)]
        rw [hdigit, hdigit', decode_eq_some_iff.mpr hcs, hvalue, hvalue', Nat.div_add_mod,
          UInt8.ofNat_toNat]
        rfl

/-- `hex::encode` as the text that is printed. -/
def text (bs : List UInt8) : String := String.ofList (encode bs)

theorem length_text (bs : List UInt8) : (text bs).toList.length = 2 * bs.length := by
  rw [text, String.toList_ofList, length_encode]

theorem text_injective {bs bs' : List UInt8} (h : text bs = text bs') : bs = bs' :=
  encode_injective (String.ofList_injective h)

end Hex

/-! ## Decimal numbers -/

namespace Decimal

/-- The digits after an optional plus. -/
def digitsOf : List Char → List Char
  | '+' :: cs => cs
  | cs => cs

/-- `str::parse::<u64>`, without the reason of a failure. -/
def parseU64 (s : String) : Option UInt64 :=
  let cs := digitsOf s.toList
  if cs ≠ [] ∧ cs.all Char.isDigit = true ∧ Nat.ofDigitChars 10 cs 0 < 2 ^ 64 then
    some (.ofNat (Nat.ofDigitChars 10 cs 0))
  else none

theorem digitsOf_of_isDigit {cs : List Char} (h : ∀ c ∈ cs, c.isDigit = true) :
    digitsOf cs = cs := by
  unfold digitsOf
  split
  · next cs' =>
      exact absurd (h '+' List.mem_cons_self) (by decide)
  · rfl

/-- What is printed is read back. -/
theorem parseU64_repr (n : UInt64) : parseU64 n.toNat.repr = some n := by
  have hdigits : ∀ c ∈ Nat.toDigits 10 n.toNat, c.isDigit = true := by
    intro c hc
    exact Nat.isDigit_of_mem_toDigits (by decide) (by decide) hc
  unfold parseU64
  dsimp only
  rw [Nat.toList_repr, digitsOf_of_isDigit hdigits,
    Nat.ofDigitChars_toDigits (by decide) (by decide),
    if_pos ⟨Nat.toDigits_ne_nil, List.all_eq_true.mpr hdigits, UInt64.toNat_lt n⟩,
    UInt64.ofNat_toNat]

theorem repr_injective {m n : ℕ} (h : m.repr = n.repr) : m = n := by
  have hread : ∀ k : ℕ, Nat.ofDigitChars 10 k.repr.toList 0 = k := by
    intro k
    rw [Nat.toList_repr]
    exact Nat.ofDigitChars_toDigits (by decide) (by decide)
  rw [← hread m, h, hread n]

theorem parseU64_eq_some_iff {s : String} {n : UInt64} : parseU64 s = some n ↔
    digitsOf s.toList ≠ [] ∧ (∀ c ∈ digitsOf s.toList, c.isDigit = true) ∧
      Nat.ofDigitChars 10 (digitsOf s.toList) 0 = n.toNat := by
  unfold parseU64
  dsimp only
  split
  · next h =>
      obtain ⟨hne, hall, hlt⟩ := h
      have hdigits := List.all_eq_true.mp hall
      rw [Option.some.injEq]
      constructor
      · rintro rfl
        exact ⟨hne, hdigits, (UInt64.toNat_ofNat_of_lt' hlt).symm⟩
      · rintro ⟨_, _, heq⟩
        rw [heq, UInt64.ofNat_toNat]
  · next h =>
      constructor
      · intro hnone
        cases hnone
      · rintro ⟨hne, hdigits, heq⟩
        refine absurd ⟨hne, List.all_eq_true.mpr hdigits, ?_⟩ h
        rw [heq]
        exact UInt64.toNat_lt n

end Decimal

end Lattica.Foundation
