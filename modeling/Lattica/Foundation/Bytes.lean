import Lattica.Foundation.Exec
import Mathlib.Data.Nat.ModEq
import Mathlib.Tactic.Ring

/-!
# Byte strings, slices and little-endian fields

A `&[u8]` is a `List UInt8`; an array `[u8; n]` is a list that carries its
length. Reads and writes of a buffer come in two forms: `slice`, `getByte`,
`copyFromSlice` and `setByte` are the Rust operations, which panic out of
range; `cut` and `splice` are what they compute in range. The frame lemmas say
that a read sees the last write over it and no other.
-/

namespace Lattica.Foundation

variable {ε : Type}

/-- `[u8; n]`. -/
abbrev Bytes (n : ℕ) : Type := { bs : List UInt8 // bs.length = n }

namespace Bytes

def zero (n : ℕ) : Bytes n := ⟨List.replicate n 0, List.length_replicate⟩

/-- `&xs[..m]` of a longer array. -/
def truncate {n : ℕ} (m : ℕ) (h : m ≤ n) (bs : Bytes n) : Bytes m :=
  ⟨bs.1.take m, by rw [List.length_take, bs.2, Nat.min_eq_left h]⟩

end Bytes

/-! ## Reads -/

/-- Bytes `[a, b)` of a buffer. -/
def cut (bs : List UInt8) (a b : ℕ) : List UInt8 :=
  (bs.drop a).take (b - a)

/-- `&bs[a..b]`. -/
def slice (bs : List UInt8) (a b : ℕ) : Exec ε (List UInt8) :=
  if a ≤ b ∧ b ≤ bs.length then .ok (cut bs a b) else .panic .sliceRange

/-- `bs[i]`. -/
def getByte (bs : List UInt8) (i : ℕ) : Exec ε UInt8 :=
  if i < bs.length then .ok (bs.getD i 0) else .panic .index

/-- `<[u8; n]>::try_from(bs).unwrap()`, and `copy_from_slice` into a fresh `[u8; n]`. -/
def toArray (n : ℕ) (bs : List UInt8) : Exec ε (Bytes n) :=
  if h : bs.length = n then .ok ⟨bs, h⟩ else .panic .lengthMismatch

theorem slice_eq {bs : List UInt8} {a b : ℕ} (h : a ≤ b) (hb : b ≤ bs.length) :
    (slice bs a b : Exec ε _) = .ok (cut bs a b) := by
  rw [slice, if_pos ⟨h, hb⟩]

theorem getByte_eq {bs : List UInt8} {i : ℕ} (h : i < bs.length) :
    (getByte bs i : Exec ε _) = .ok (bs.getD i 0) := by
  rw [getByte, if_pos h]

/-- The array a list of the right length is; zeros for any other. -/
def asArray (n : ℕ) (bs : List UInt8) : Bytes n :=
  if h : bs.length = n then ⟨bs, h⟩ else Bytes.zero n

theorem asArray_val {n : ℕ} {bs : List UInt8} (h : bs.length = n) : (asArray n bs).1 = bs := by
  rw [asArray, dif_pos h]

theorem asArray_self {n : ℕ} (bs : Bytes n) : asArray n bs.1 = bs := by
  rw [asArray, dif_pos bs.2]

theorem toArray_eq_asArray {n : ℕ} {bs : List UInt8} (h : bs.length = n) :
    (toArray n bs : Exec ε _) = .ok (asArray n bs) := by
  rw [toArray, asArray, dif_pos h, dif_pos h]

theorem length_cut {bs : List UInt8} {a b : ℕ} (hb : b ≤ bs.length) :
    (cut bs a b).length = b - a := by
  simp only [cut, List.length_take, List.length_drop]
  omega

theorem cut_cut (bs : List UInt8) {a b c d : ℕ} (hd : a + d ≤ b) :
    cut (cut bs a b) c d = cut bs (a + c) (a + d) := by
  simp only [cut, List.drop_take, List.drop_drop, List.take_take]
  congr 1
  omega

/-- A byte of a slice is a byte of the buffer. -/
theorem getD_cut (bs : List UInt8) {a b i : ℕ} (hi : a + i < b) :
    (cut bs a b).getD i 0 = bs.getD (a + i) 0 := by
  simp only [cut, List.getD_eq_getElem?_getD]
  rw [List.getElem?_take_of_lt (by omega), List.getElem?_drop]

/-! ## Writes -/

/-- The buffer with `src` written over it from offset `off` on. -/
def splice (bs : List UInt8) (off : ℕ) (src : List UInt8) : List UInt8 :=
  bs.take off ++ src ++ bs.drop (off + src.length)

/-- `bs[a..b].copy_from_slice(src)`. -/
def copyFromSlice (bs : List UInt8) (a b : ℕ) (src : List UInt8) : Exec ε (List UInt8) :=
  if a ≤ b ∧ b ≤ bs.length then
    if src.length = b - a then .ok (splice bs a src) else .panic .lengthMismatch
  else .panic .sliceRange

/-- `bs[i] = x`. -/
def setByte (bs : List UInt8) (i : ℕ) (x : UInt8) : Exec ε (List UInt8) :=
  if i < bs.length then .ok (splice bs i [x]) else .panic .index

theorem copyFromSlice_eq {bs src : List UInt8} {a b : ℕ} (h : a ≤ b) (hb : b ≤ bs.length)
    (hs : src.length = b - a) : (copyFromSlice bs a b src : Exec ε _) = .ok (splice bs a src) := by
  rw [copyFromSlice, if_pos ⟨h, hb⟩, if_pos hs]

theorem setByte_eq {bs : List UInt8} {i : ℕ} {x : UInt8} (h : i < bs.length) :
    (setByte bs i x : Exec ε _) = .ok (splice bs i [x]) := by
  rw [setByte, if_pos h]

theorem length_splice {bs src : List UInt8} {off : ℕ} (h : off + src.length ≤ bs.length) :
    (splice bs off src).length = bs.length := by
  simp only [splice, List.length_append, List.length_take, List.length_drop]
  omega

/-- Every byte of a written buffer, by position. -/
theorem getElem?_splice {bs src : List UInt8} {off : ℕ} (h : off + src.length ≤ bs.length)
    (i : ℕ) :
    (splice bs off src)[i]? =
      if off ≤ i ∧ i < off + src.length then src[i - off]? else bs[i]? := by
  have hoff : (bs.take off).length = off := by
    rw [List.length_take]
    omega
  simp only [splice, List.append_assoc]
  by_cases hlo : i < off
  · rw [List.getElem?_append_left (by omega), List.getElem?_take_of_lt hlo,
      if_neg (by omega)]
  · rw [List.getElem?_append_right (by omega), hoff]
    by_cases hhi : i < off + src.length
    · rw [List.getElem?_append_left (by omega), if_pos (by omega)]
    · rw [List.getElem?_append_right (by omega), List.getElem?_drop, if_neg (by omega)]
      congr 1
      omega

theorem cut_ext {xs ys : List UInt8} {a b : ℕ} (h : ∀ i, a ≤ i → i < b → xs[i]? = ys[i]?) :
    cut xs a b = cut ys a b := by
  apply List.ext_getElem?
  intro i
  by_cases hi : i < b - a
  · simp only [cut, List.getElem?_take_of_lt hi, List.getElem?_drop]
    exact h _ (by omega) (by omega)
  · simp only [cut, List.getElem?_take, if_neg hi]

section Prefix

variable {xs ys : List UInt8} {n : ℕ} (h : xs.take n = ys.take n)

include h

theorem getElem?_of_take_eq {i : ℕ} (hi : i < n) : xs[i]? = ys[i]? := by
  rw [← List.getElem?_take_of_lt hi, h, List.getElem?_take_of_lt hi]

/-- Reads below `n` see the first `n` bytes alone. -/
theorem cut_of_take_eq (a : ℕ) {b : ℕ} (hb : b ≤ n) : cut xs a b = cut ys a b :=
  cut_ext fun _ _ hi => getElem?_of_take_eq h (hi.trans_le hb)

theorem getD_of_take_eq {i : ℕ} (hi : i < n) : xs.getD i 0 = ys.getD i 0 := by
  rw [List.getD_eq_getElem?_getD, List.getD_eq_getElem?_getD, getElem?_of_take_eq h hi]

end Prefix

/-- A read that misses the write sees the old bytes. -/
theorem cut_splice_disjoint {bs src : List UInt8} {off a b : ℕ}
    (h : off + src.length ≤ bs.length) (hd : b ≤ off ∨ off + src.length ≤ a) :
    cut (splice bs off src) a b = cut bs a b := by
  apply cut_ext
  intro i ha hb
  rw [getElem?_splice h, if_neg (by omega)]

theorem getD_splice_disjoint {bs src : List UInt8} {off i : ℕ}
    (h : off + src.length ≤ bs.length) (hd : i < off ∨ off + src.length ≤ i) :
    (splice bs off src).getD i 0 = bs.getD i 0 := by
  rw [List.getD_eq_getElem?_getD, getElem?_splice h, if_neg (by omega),
    List.getD_eq_getElem?_getD]

/-- A read of the written range sees what was written. -/
theorem cut_splice_self {bs src : List UInt8} {off b : ℕ}
    (h : off + src.length ≤ bs.length) (hb : b = off + src.length) :
    cut (splice bs off src) off b = src := by
  subst hb
  have hoff : (bs.take off).length = off := by
    rw [List.length_take]
    omega
  simp only [cut, splice, List.append_assoc]
  rw [List.drop_left' hoff, Nat.add_sub_cancel_left, List.take_left' rfl]

/-! ## Runs of writes -/

/-- The buffer after a run of writes, each an offset and the bytes written there. -/
def writeAll : List UInt8 → List (ℕ × List UInt8) → List UInt8
  | bs, [] => bs
  | bs, w :: ws => writeAll (splice bs w.1 w.2) ws

/-- Two writes that touch no common byte. -/
def Apart (w w' : ℕ × List UInt8) : Prop :=
  w.1 + w.2.length ≤ w'.1 ∨ w'.1 + w'.2.length ≤ w.1

/-- A run of writes into `n` bytes. -/
def Fits (n : ℕ) (ws : List (ℕ × List UInt8)) : Prop :=
  ∀ w ∈ ws, w.1 + w.2.length ≤ n

theorem length_writeAll : ∀ {bs : List UInt8} {ws : List (ℕ × List UInt8)},
    Fits bs.length ws → (writeAll bs ws).length = bs.length
  | _, [], _ => rfl
  | bs, w :: ws, h => by
      have hw := length_splice (h w List.mem_cons_self)
      rw [writeAll, length_writeAll (by rw [hw]; exact fun u hu => h u (List.mem_cons_of_mem w hu)),
        hw]

theorem cut_writeAll_disjoint {a b : ℕ} : ∀ {bs : List UInt8} {ws : List (ℕ × List UInt8)},
    Fits bs.length ws → (∀ w ∈ ws, b ≤ w.1 ∨ w.1 + w.2.length ≤ a) →
      cut (writeAll bs ws) a b = cut bs a b
  | _, [], _, _ => rfl
  | bs, w :: ws, h, hd => by
      have hw := length_splice (h w List.mem_cons_self)
      rw [writeAll, cut_writeAll_disjoint
          (by rw [hw]; exact fun u hu => h u (List.mem_cons_of_mem w hu))
          (fun u hu => hd u (List.mem_cons_of_mem w hu)),
        cut_splice_disjoint (h w List.mem_cons_self) (hd w List.mem_cons_self)]

/-- Each write of a run of disjoint writes can be read back. -/
theorem cut_writeAll {off : ℕ} {src : List UInt8} :
    ∀ {bs : List UInt8} {ws : List (ℕ × List UInt8)}, Fits bs.length ws → ws.Pairwise Apart →
      (off, src) ∈ ws → cut (writeAll bs ws) off (off + src.length) = src
  | bs, w :: ws, h, hp, hmem => by
      have hw := length_splice (h w List.mem_cons_self)
      have hrest : Fits (splice bs w.1 w.2).length ws := by
        rw [hw]
        exact fun u hu => h u (List.mem_cons_of_mem w hu)
      obtain ⟨hfst, hp⟩ := List.pairwise_cons.mp hp
      rw [writeAll]
      rcases List.mem_cons.mp hmem with heq | hmem
      · subst heq
        rw [cut_writeAll_disjoint hrest fun u hu => hfst u hu,
          cut_splice_self (h _ List.mem_cons_self) rfl]
      · exact cut_writeAll hrest hp hmem

/-- The single byte of a write. -/
theorem getD_writeAll {bs : List UInt8} {ws : List (ℕ × List UInt8)} {i : ℕ} {x : UInt8}
    (h : Fits bs.length ws) (hp : ws.Pairwise Apart) (hmem : (i, [x]) ∈ ws) :
    (writeAll bs ws).getD i 0 = x := by
  have hcut := cut_writeAll h hp hmem
  have hget := getD_cut (writeAll bs ws) (a := i) (b := i + [x].length) (i := 0) (by simp)
  rw [hcut] at hget
  simpa using hget.symm

/-- One step of a chain of writes into a buffer of `n` bytes. -/
theorem copyFromSlice_step {n a b : ℕ} {l s : List UInt8} (hn : l.length = n) (h : a ≤ b)
    (hb : b ≤ n) (hs : s.length = b - a) :
    (copyFromSlice l a b s : Exec ε _) = .ok (splice l a s) ∧ (splice l a s).length = n :=
  ⟨copyFromSlice_eq h (by omega) hs, by rw [length_splice (by omega), hn]⟩

theorem setByte_step {n i : ℕ} {l : List UInt8} {x : UInt8} (hn : l.length = n) (h : i < n) :
    (setByte l i x : Exec ε _) = .ok (splice l i [x]) ∧ (splice l i [x]).length = n :=
  ⟨setByte_eq (by omega), by rw [length_splice (by simp; omega), hn]⟩

/-! ## Little-endian fields -/

/-- `uN::from_le_bytes`. -/
def fromLe : List UInt8 → ℕ
  | [] => 0
  | b :: bs => b.toNat + 256 * fromLe bs

/-- `x.to_le_bytes()` of an `n`-byte integer. -/
def toLe : ℕ → ℕ → List UInt8
  | 0, _ => []
  | n + 1, x => UInt8.ofNat x :: toLe n (x / 256)

@[simp] theorem length_toLe : ∀ n x : ℕ, (toLe n x).length = n
  | 0, _ => rfl
  | n + 1, x => by rw [toLe, List.length_cons, length_toLe n]

theorem fromLe_lt : ∀ bs : List UInt8, fromLe bs < 256 ^ bs.length
  | [] => by simp [fromLe]
  | b :: bs => by
      have ih := fromLe_lt bs
      have hb : b.toNat < 256 := b.toNat_lt
      rw [fromLe, List.length_cons, pow_succ]
      omega

theorem fromLe_toLe : ∀ n x : ℕ, x < 256 ^ n → fromLe (toLe n x) = x
  | 0, x, h => by
      have hx : x = 0 := by simpa using h
      simp [toLe, fromLe, hx]
  | n + 1, x, h => by
      have hq : x / 256 < 256 ^ n := by
        rw [pow_succ] at h
        omega
      rw [toLe, fromLe, fromLe_toLe n _ hq, UInt8.toNat_ofNat']
      omega

/-- Little-endian decoding loses nothing at a known length. -/
theorem fromLe_inj : ∀ {xs ys : List UInt8}, xs.length = ys.length → fromLe xs = fromLe ys →
    xs = ys
  | [], [], _, _ => rfl
  | [], _ :: _, hlen, _ => absurd hlen (by simp)
  | _ :: _, [], hlen, _ => absurd hlen (by simp)
  | x :: xs, y :: ys, hlen, h => by
      have hx : x.toNat < 256 := x.toNat_lt
      have hy : y.toNat < 256 := y.toNat_lt
      rw [fromLe, fromLe] at h
      have hhead : x.toNat = y.toNat := by omega
      have htail : fromLe xs = fromLe ys := by omega
      rw [UInt8.toNat_inj.mp hhead, fromLe_inj (Nat.succ_inj.mp hlen) htail]

/-- `uN::from_le_bytes(bs[a..a + n].try_into().unwrap())`. -/
def readLe (n : ℕ) (bs : List UInt8) (a : ℕ) : Exec ε ℕ := do
  let field ← toArray n (← slice bs a (a + n))
  return fromLe field.1

theorem readLe_eq {n a : ℕ} {bs : List UInt8} (h : a + n ≤ bs.length) :
    (readLe n bs a : Exec ε _) = .ok (fromLe (cut bs a (a + n))) := by
  have hlen : (cut bs a (a + n)).length = n := by
    rw [length_cut h]
    omega
  rw [readLe, slice_eq (Nat.le_add_right a n) h, Exec.ok_bind, toArray_eq_asArray hlen,
    Exec.ok_bind, Exec.pure_eq, asArray_val hlen]

theorem fromLe_cut_lt {n a : ℕ} {l : List UInt8} (h : a + n ≤ l.length) :
    fromLe (cut l a (a + n)) < 256 ^ n := by
  have hlt := fromLe_lt (cut l a (a + n))
  rwa [length_cut h, Nat.add_sub_cancel_left] at hlt

/-! ## Chunks -/

/-- The first `k` chunks of `n` bytes. -/
def chunksFrom (n : ℕ) : ℕ → List UInt8 → List (Bytes n)
  | 0, _ => []
  | k + 1, bs =>
      if h : n ≤ bs.length then
        ⟨bs.take n, by rw [List.length_take, Nat.min_eq_left h]⟩ :: chunksFrom n k (bs.drop n)
      else []

/-- `bs.chunks_exact(n)`. -/
def chunksExact (n : ℕ) (bs : List UInt8) : List (Bytes n) :=
  chunksFrom n (bs.length / n) bs

theorem length_chunksFrom {n : ℕ} :
    ∀ (k : ℕ) (bs : List UInt8), n * k ≤ bs.length → (chunksFrom n k bs).length = k
  | 0, _, _ => rfl
  | k + 1, bs, h => by
      rw [Nat.mul_succ] at h
      rw [chunksFrom, dif_pos (by omega), List.length_cons,
        length_chunksFrom k _ (by rw [List.length_drop]; omega)]

theorem length_chunksExact (n : ℕ) (bs : List UInt8) :
    (chunksExact n bs).length = bs.length / n :=
  length_chunksFrom _ _ (Nat.mul_div_le _ _)

/-- Chunking a concatenation of `n`-byte strings gives them back. -/
theorem chunksFrom_flatten {n : ℕ} :
    ∀ xs : List (Bytes n), chunksFrom n xs.length (xs.map Subtype.val).flatten = xs
  | [] => rfl
  | x :: xs => by
      rw [List.length_cons, List.map_cons, List.flatten_cons, chunksFrom,
        dif_pos (by rw [List.length_append, x.2]; omega)]
      congr 1
      · exact Subtype.ext (List.take_left' x.2)
      · rw [List.drop_left' x.2, chunksFrom_flatten xs]

theorem length_flatten_bytes {n : ℕ} :
    ∀ xs : List (Bytes n), (xs.map Subtype.val).flatten.length = n * xs.length
  | [] => rfl
  | x :: xs => by
      rw [List.map_cons, List.flatten_cons, List.length_append, x.2,
        length_flatten_bytes xs, List.length_cons]
      ring

theorem chunksExact_flatten {n : ℕ} (hn : 0 < n) (xs : List (Bytes n)) :
    chunksExact n (xs.map Subtype.val).flatten = xs := by
  rw [chunksExact, length_flatten_bytes, Nat.mul_div_cancel_left _ hn, chunksFrom_flatten]

theorem flatten_chunksFrom {n : ℕ} : ∀ (k : ℕ) (bs : List UInt8), bs.length = n * k →
    ((chunksFrom n k bs).map Subtype.val).flatten = bs
  | 0, bs, h => (List.eq_nil_of_length_eq_zero h).symm
  | k + 1, bs, h => by
      rw [Nat.mul_succ] at h
      have hn : n ≤ bs.length := h ▸ Nat.le_add_left n (n * k)
      have hrest : (bs.drop n).length = n * k := by
        rw [List.length_drop, h, Nat.add_sub_cancel]
      rw [chunksFrom, dif_pos hn, List.map_cons, List.flatten_cons, flatten_chunksFrom k _ hrest]
      exact List.take_append_drop n bs

/-- Whole chunks hold every byte. -/
theorem flatten_chunksExact {n : ℕ} {bs : List UInt8} (h : n ∣ bs.length) :
    ((chunksExact n bs).map Subtype.val).flatten = bs :=
  flatten_chunksFrom _ bs (Nat.mul_div_cancel' h).symm

end Lattica.Foundation
