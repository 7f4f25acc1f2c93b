import Lattica.Foundation.Bytes

/-!
# SHA-256

The hash function of FIPS 180-4 on byte strings. Nothing is assumed or proved
about it; it is one function a hashing scheme can be instantiated with.
-/

namespace Lattica.Foundation

namespace Sha256

/-- 32-bit words are natural numbers below `2 ^ 32`; sums are reduced explicitly.
The operations are the plain functions on `ℕ`, which evaluate fastest. -/
abbrev Word : Type := ℕ

def wrap (n : ℕ) : Word := n.mod 4294967296

def xor3 (a b c : ℕ) : ℕ := (a.xor b).xor c

/-- The word written twice: its shifts to the right end in its rotations. -/
def twice (x : Word) : ℕ := x.mul 4294967297

def bigSigma0 (x : Word) : Word :=
  wrap (xor3 ((twice x).shiftRight 2) ((twice x).shiftRight 13) ((twice x).shiftRight 22))

def bigSigma1 (x : Word) : Word :=
  wrap (xor3 ((twice x).shiftRight 6) ((twice x).shiftRight 11) ((twice x).shiftRight 25))

def sigma0 (x : Word) : Word :=
  wrap (xor3 ((twice x).shiftRight 7) ((twice x).shiftRight 18) (x.shiftRight 3))

def sigma1 (x : Word) : Word :=
  wrap (xor3 ((twice x).shiftRight 17) ((twice x).shiftRight 19) (x.shiftRight 10))

def choose (e f g : Word) : Word := (e.land f).xor ((e.xor 0xffffffff).land g)

def majority (a b c : Word) : Word := xor3 (a.land b) (a.land c) (b.land c)

/-- `K`: the cube roots of the first 64 primes. -/
def roundConstants : List Word :=
  [0x428a2f98, 0x71374491, 0xb5c0fbcf, 0xe9b5dba5, 0x3956c25b, 0x59f111f1, 0x923f82a4, 0xab1c5ed5,
   0xd807aa98, 0x12835b01, 0x243185be, 0x550c7dc3, 0x72be5d74, 0x80deb1fe, 0x9bdc06a7, 0xc19bf174,
   0xe49b69c1, 0xefbe4786, 0x0fc19dc6, 0x240ca1cc, 0x2de92c6f, 0x4a7484aa, 0x5cb0a9dc, 0x76f988da,
   0x983e5152, 0xa831c66d, 0xb00327c8, 0xbf597fc7, 0xc6e00bf3, 0xd5a79147, 0x06ca6351, 0x14292967,
   0x27b70a85, 0x2e1b2138, 0x4d2c6dfc, 0x53380d13, 0x650a7354, 0x766a0abb, 0x81c2c92e, 0x92722c85,
   0xa2bfe8a1, 0xa81a664b, 0xc24b8b70, 0xc76c51a3, 0xd192e819, 0xd6990624, 0xf40e3585, 0x106aa070,
   0x19a4c116, 0x1e376c08, 0x2748774c, 0x34b0bcb5, 0x391c0cb3, 0x4ed8aa4a, 0x5b9cca4f, 0x682e6ff3,
   0x748f82ee, 0x78a5636f, 0x84c87814, 0x8cc70208, 0x90befffa, 0xa4506ceb, 0xbef9a3f7, 0xc67178f2]

structure Working where
  (a b c d e f g h : Word)

def initial : Working :=
  ⟨0x6a09e667, 0xbb67ae85, 0x3c6ef372, 0xa54ff53a, 0x510e527f, 0x9b05688c, 0x1f83d9ab, 0x5be0cd19⟩

def Working.add (s t : Working) : Working :=
  ⟨wrap (s.a + t.a), wrap (s.b + t.b), wrap (s.c + t.c), wrap (s.d + t.d),
    wrap (s.e + t.e), wrap (s.f + t.f), wrap (s.g + t.g), wrap (s.h + t.h)⟩

def Working.words (s : Working) : List Word := [s.a, s.b, s.c, s.d, s.e, s.f, s.g, s.h]

/-- Sixteen consecutive words of the message schedule. -/
structure Window where
  (w₀ w₁ w₂ w₃ w₄ w₅ w₆ w₇ w₈ w₉ w₁₀ w₁₁ w₁₂ w₁₃ w₁₄ w₁₅ : Word)

/-- The rounds, one constant each; the window moves on by one word. -/
def rounds : List Word → Window → (a b c d e f g h : Word) → Working
  | k :: ks, ⟨w₀, w₁, w₂, w₃, w₄, w₅, w₆, w₇, w₈, w₉, w₁₀, w₁₁, w₁₂, w₁₃, w₁₄, w₁₅⟩,
      a, b, c, d, e, f, g, h =>
      let t₁ := (((h.add (bigSigma1 e)).add (choose e f g)).add k).add w₀
      let t₂ := (bigSigma0 a).add (majority a b c)
      let w := wrap ((((sigma1 w₁₄).add w₉).add (sigma0 w₁)).add w₀)
      rounds ks ⟨w₁, w₂, w₃, w₄, w₅, w₆, w₇, w₈, w₉, w₁₀, w₁₁, w₁₂, w₁₃, w₁₄, w₁₅, w⟩
        (wrap (t₁.add t₂)) a b c (wrap (d.add t₁)) e f g
  | [], _, a, b, c, d, e, f, g, h => ⟨a, b, c, d, e, f, g, h⟩

def compress (s : Working) (block : Window) : Working :=
  s.add (rounds roundConstants block s.a s.b s.c s.d s.e s.f s.g s.h)

/-- Big-endian words. -/
def words : List UInt8 → List Word
  | a :: b :: c :: d :: bs =>
      (256 * (256 * (256 * a.toNat + b.toNat) + c.toNat) + d.toNat) :: words bs
  | _ => []

/-- `k n`, with `n` evaluated first: a word of the message is used many times. -/
def force {α : Type} (n : ℕ) (k : ℕ → α) : α :=
  match n with
  | 0 => k 0
  | m + 1 => k (m + 1)

def padded (msg : List UInt8) : List UInt8 :=
  msg ++ 0x80 :: List.replicate ((119 - msg.length % 64) % 64) 0 ++
    (toLe 8 (8 * msg.length)).reverse

/-- The state after `n` blocks of sixteen words. -/
def absorb : ℕ → List Word → Working → Working
  | n + 1, w₀ :: w₁ :: w₂ :: w₃ :: w₄ :: w₅ :: w₆ :: w₇ :: w₈ :: w₉ :: w₁₀ :: w₁₁ :: w₁₂ :: w₁₃ ::
      w₁₄ :: w₁₅ :: ws, s =>
      absorb n ws <| force w₀ fun w₀ => force w₁ fun w₁ => force w₂ fun w₂ => force w₃ fun w₃ =>
        force w₄ fun w₄ => force w₅ fun w₅ => force w₆ fun w₆ => force w₇ fun w₇ =>
        force w₈ fun w₈ => force w₉ fun w₉ => force w₁₀ fun w₁₀ => force w₁₁ fun w₁₁ =>
        force w₁₂ fun w₁₂ => force w₁₃ fun w₁₃ => force w₁₄ fun w₁₄ => force w₁₅ fun w₁₅ =>
        compress s ⟨w₀, w₁, w₂, w₃, w₄, w₅, w₆, w₇, w₈, w₉, w₁₀, w₁₁, w₁₂, w₁₃, w₁₄, w₁₅⟩
  | _, _, s => s

def final (msg : List UInt8) : Working :=
  absorb ((msg.length + 72) / 64) (words (padded msg)) initial

end Sha256

open Sha256 in
@[irreducible] def sha256 (msg : List UInt8) : Bytes 32 :=
  ⟨(final msg).words.flatMap fun w => (toLe 4 w).reverse, by simp [Working.words]⟩

-- the digest of "abc"
example : (sha256 [0x61, 0x62, 0x63]).1 =
    [0xba, 0x78, 0x16, 0xbf, 0x8f, 0x01, 0xcf, 0xea, 0x41, 0x41, 0x40, 0xde, 0x5d, 0xae, 0x22, 0x23,
     0xb0, 0x03, 0x61, 0xa3, 0x96, 0x17, 0x7a, 0x9c, 0xb4, 0x10, 0xff, 0x61, 0xf2, 0x00, 0x15,
     0xad] := by
  decide +kernel

end Lattica.Foundation
