import Lattica.Foundation.Sha256
import Mathlib.Data.Nat.Log

/-!
# BLAKE3

The hash function BLAKE3 on byte strings, with its extended output. As for
SHA-256, nothing is assumed or proved about it. Its chaining values start from
the SHA-256 initial words; words are natural numbers below `2 ^ 32` again.
-/

namespace Lattica.Foundation

namespace Blake3

open Sha256 (Word wrap twice force)

/-- Eight words: a chaining value. -/
structure Chaining where
  (c₀ c₁ c₂ c₃ c₄ c₅ c₆ c₇ : Word)

def initial : Chaining :=
  ⟨0x6a09e667, 0xbb67ae85, 0x3c6ef372, 0xa54ff53a, 0x510e527f, 0x9b05688c, 0x1f83d9ab, 0x5be0cd19⟩

/-- Sixteen words: a message block, or the state of a compression. -/
structure Block where
  (w₀ w₁ w₂ w₃ w₄ w₅ w₆ w₇ w₈ w₉ w₁₀ w₁₁ w₁₂ w₁₃ w₁₄ w₁₅ : Word)

def Block.words (b : Block) : List Word :=
  [b.w₀, b.w₁, b.w₂, b.w₃, b.w₄, b.w₅, b.w₆, b.w₇, b.w₈, b.w₉, b.w₁₀, b.w₁₁, b.w₁₂, b.w₁₃, b.w₁₄,
    b.w₁₅]

def rotate (x : Word) (n : ℕ) : Word := wrap ((twice x).shiftRight n)

/-- The quarter round `G`; its results go to `k`. -/
def quarter {α : Type} (a b c d x y : Word) (k : (a b c d : Word) → α) : α :=
  force (wrap ((a.add b).add x)) fun a =>
  force (rotate (d.xor a) 16) fun d =>
  force (wrap (c.add d)) fun c =>
  force (rotate (b.xor c) 12) fun b =>
  force (wrap ((a.add b).add y)) fun a =>
  force (rotate (d.xor a) 8) fun d =>
  force (wrap (c.add d)) fun c =>
  force (rotate (b.xor c) 7) fun b =>
  k a b c d

/-- The rounds: columns, then diagonals; the message is permuted in between. -/
def rounds : ℕ → Block → Block → Block
  | 0, _, v => v
  | n + 1, ⟨m₀, m₁, m₂, m₃, m₄, m₅, m₆, m₇, m₈, m₉, m₁₀, m₁₁, m₁₂, m₁₃, m₁₄, m₁₅⟩,
      ⟨v₀, v₁, v₂, v₃, v₄, v₅, v₆, v₇, v₈, v₉, v₁₀, v₁₁, v₁₂, v₁₃, v₁₄, v₁₅⟩ =>
      quarter v₀ v₄ v₈ v₁₂ m₀ m₁ fun v₀ v₄ v₈ v₁₂ =>
      quarter v₁ v₅ v₉ v₁₃ m₂ m₃ fun v₁ v₅ v₉ v₁₃ =>
      quarter v₂ v₆ v₁₀ v₁₄ m₄ m₅ fun v₂ v₆ v₁₀ v₁₄ =>
      quarter v₃ v₇ v₁₁ v₁₅ m₆ m₇ fun v₃ v₇ v₁₁ v₁₅ =>
      quarter v₀ v₅ v₁₀ v₁₅ m₈ m₉ fun v₀ v₅ v₁₀ v₁₅ =>
      quarter v₁ v₆ v₁₁ v₁₂ m₁₀ m₁₁ fun v₁ v₆ v₁₁ v₁₂ =>
      quarter v₂ v₇ v₈ v₁₃ m₁₂ m₁₃ fun v₂ v₇ v₈ v₁₃ =>
      quarter v₃ v₄ v₉ v₁₄ m₁₄ m₁₅ fun v₃ v₄ v₉ v₁₄ =>
      rounds n ⟨m₂, m₆, m₃, m₁₀, m₇, m₀, m₄, m₁₃, m₁, m₁₁, m₁₂, m₅, m₉, m₁₄, m₁₅, m₈⟩
        ⟨v₀, v₁, v₂, v₃, v₄, v₅, v₆, v₇, v₈, v₉, v₁₀, v₁₁, v₁₂, v₁₃, v₁₄, v₁₅⟩

/-- What a compression takes: it is kept until it is known to be the root's. -/
structure Node where
  chaining : Chaining
  block : Block
  counter : ℕ
  len : ℕ
  flags : ℕ

def chunkStart : ℕ := 1
def chunkEnd : ℕ := 2
def parent : ℕ := 4
def root : ℕ := 8

def Node.compress (n : Node) : Block :=
  let c := n.chaining
  let v := rounds 7 n.block ⟨c.c₀, c.c₁, c.c₂, c.c₃, c.c₄, c.c₅, c.c₆, c.c₇, initial.c₀, initial.c₁,
    initial.c₂, initial.c₃, wrap n.counter, wrap (n.counter.shiftRight 32), n.len, n.flags⟩
  ⟨v.w₀.xor v.w₈, v.w₁.xor v.w₉, v.w₂.xor v.w₁₀, v.w₃.xor v.w₁₁, v.w₄.xor v.w₁₂, v.w₅.xor v.w₁₃,
    v.w₆.xor v.w₁₄, v.w₇.xor v.w₁₅, v.w₈.xor c.c₀, v.w₉.xor c.c₁, v.w₁₀.xor c.c₂, v.w₁₁.xor c.c₃,
    v.w₁₂.xor c.c₄, v.w₁₃.xor c.c₅, v.w₁₄.xor c.c₆, v.w₁₅.xor c.c₇⟩

def Node.output (n : Node) : Chaining :=
  let b := n.compress
  ⟨b.w₀, b.w₁, b.w₂, b.w₃, b.w₄, b.w₅, b.w₆, b.w₇⟩

/-- Little-endian words of the first 64 bytes, with zeros for missing ones. -/
def blockOf (bytes : List UInt8) : Block :=
  let w := fun i => fromLe ((bytes.drop (4 * i)).take 4)
  force (w 0) fun w₀ => force (w 1) fun w₁ => force (w 2) fun w₂ => force (w 3) fun w₃ =>
  force (w 4) fun w₄ => force (w 5) fun w₅ => force (w 6) fun w₆ => force (w 7) fun w₇ =>
  force (w 8) fun w₈ => force (w 9) fun w₉ => force (w 10) fun w₁₀ => force (w 11) fun w₁₁ =>
  force (w 12) fun w₁₂ => force (w 13) fun w₁₃ => force (w 14) fun w₁₄ => force (w 15) fun w₁₅ =>
  ⟨w₀, w₁, w₂, w₃, w₄, w₅, w₆, w₇, w₈, w₉, w₁₀, w₁₁, w₁₂, w₁₃, w₁₄, w₁₅⟩

/-- The blocks of a chunk from the `n + 1`st last on; the last one is the node. -/
def chunkFrom (counter : ℕ) : ℕ → (flags : ℕ) → Chaining → List UInt8 → Node
  | 0, flags, c, bytes => ⟨c, blockOf bytes, counter, bytes.length, flags + chunkEnd⟩
  | n + 1, flags, c, bytes =>
      chunkFrom counter n 0 (Node.output ⟨c, blockOf bytes, counter, 64, flags⟩) (bytes.drop 64)

def chunk (counter : ℕ) (bytes : List UInt8) : Node :=
  chunkFrom counter ((bytes.length - 1) / 64) chunkStart initial bytes

def parentOf (l r : Chaining) : Node :=
  ⟨initial, ⟨l.c₀, l.c₁, l.c₂, l.c₃, l.c₄, l.c₅, l.c₆, l.c₇, r.c₀, r.c₁, r.c₂, r.c₃, r.c₄, r.c₅,
    r.c₆, r.c₇⟩, 0, 64, parent⟩

/-- The tree over up to `2 ^ h` chunks: a left subtree is full. -/
def tree : ℕ → (counter : ℕ) → List UInt8 → Node
  | 0, counter, bytes => chunk counter bytes
  | h + 1, counter, bytes =>
      if bytes.length ≤ 1024 * 2 ^ h then tree h counter bytes
      else parentOf (tree h counter (bytes.take (1024 * 2 ^ h))).output
        (tree h (counter + 2 ^ h) (bytes.drop (1024 * 2 ^ h))).output

def treeOf (msg : List UInt8) : Node :=
  tree (Nat.clog 2 ((msg.length + 1023) / 1024)) 0 msg

/-- Block `i` of the extended output. -/
def Node.rootBlock (n : Node) (i : ℕ) : List UInt8 :=
  (Node.compress { n with counter := i, flags := n.flags + root }).words.flatMap (toLe 4)

theorem length_flatMap_toLe (ws : List Word) : (ws.flatMap (toLe 4)).length = 4 * ws.length := by
  induction ws with
  | nil => rfl
  | cons w ws ih =>
      rw [List.flatMap_cons, List.length_append, ih, length_toLe, List.length_cons, Nat.mul_succ,
        Nat.add_comm]

theorem length_rootBlock (n : Node) (i : ℕ) : (n.rootBlock i).length = 64 := by
  rw [Node.rootBlock, length_flatMap_toLe]
  rfl

def rootBlocks (n : Node) (count : ℕ) : List UInt8 :=
  (List.range count).flatMap n.rootBlock

theorem length_rootBlocks (n : Node) (count : ℕ) : (rootBlocks n count).length = 64 * count := by
  induction count with
  | zero => rfl
  | succ count ih =>
      rw [rootBlocks, List.range_succ, List.flatMap_append, List.length_append, ← rootBlocks, ih,
        List.flatMap_singleton, length_rootBlock, Nat.mul_succ]

end Blake3

/-- The first `64 * count` bytes of the extended output. -/
@[irreducible] def blake3Xof (count : ℕ) (msg : List UInt8) : Bytes (64 * count) :=
  ⟨Blake3.rootBlocks (Blake3.treeOf msg) count, Blake3.length_rootBlocks _ _⟩

def blake3 (msg : List UInt8) : Bytes 32 :=
  (blake3Xof 1 msg).truncate 32 (by decide)

-- the digest of "abc"
example : (blake3 [0x61, 0x62, 0x63]).1 =
    [0x64, 0x37, 0xb3, 0xac, 0x38, 0x46, 0x51, 0x33, 0xff, 0xb6, 0x3b, 0x75, 0x27, 0x3a, 0x8d, 0xb5,
     0x48, 0xc5, 0x58, 0x46, 0x5d, 0x79, 0xdb, 0x03, 0xfd, 0x35, 0x9c, 0x6c, 0xd5, 0xbd, 0x9d,
     0x85] := by
  decide +kernel

end Lattica.Foundation
