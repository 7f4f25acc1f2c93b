import Mathlib.Data.List.Nodup
import Mathlib.Data.Nat.Bitwise

/-!
# Merkle trees with truncated digests

A node does not hash its children's digests but a truncation of them, and the
last node of an odd layer is paired with itself. Two facts are developed.

Binding: two openings that climb the same index through the same number of
levels to digests with equal truncations have equal siblings and starting
digests with equal truncations, unless two of the hashed messages collide. An
opening that starts at a leaf message never meets a longer one at an inner
node, again up to a collision.

Completeness: the path read off the layers of a tree climbs from every entry
of its first layer to the root, for every number of entries.

No assumption is made on the hash: a `Collision` is always one of the listed
messages, so a caller can say which strings it was that collided.
-/

namespace Lattica.Foundation

/-- A hashing scheme for trees: messages `M`, digests `D`, and the truncated
digests `T` that a node message is made of. -/
structure TreeHash (M D T : Type*) where
  hash : M → D
  trunc : D → T
  node : T → T → M
  node_inj : ∀ {l r l' r' : T}, node l r = node l' r' → l = l' ∧ r = r'

namespace TreeHash

variable {M D T : Type*} (S : TreeHash M D T)

/-! ## Openings -/

/-- The message one level up: the index bit says on which side the digest goes. -/
def join (i : ℕ) (d : D) (s : T) : M :=
  if i % 2 = 0 then S.node (S.trunc d) s else S.node s (S.trunc d)

/-- The digest reached from `d` at index `i` through the given siblings. -/
def climb : ℕ → D → List T → D
  | _, d, [] => d
  | i, d, s :: ss => climb (i / 2) (S.hash (S.join i d s)) ss

/-- The messages hashed on the way. -/
def climbed : ℕ → D → List T → List M
  | _, _, [] => []
  | i, d, s :: ss => S.join i d s :: climbed (i / 2) (S.hash (S.join i d s)) ss

/-- Two different messages of the list have digests with one truncation. -/
def Collision (ms : List M) : Prop :=
  ∃ m ∈ ms, ∃ m' ∈ ms, m ≠ m' ∧ S.trunc (S.hash m) = S.trunc (S.hash m')

variable {S}

theorem Collision.mono {ms ms' : List M} (h : S.Collision ms) (hsub : ∀ m ∈ ms, m ∈ ms') :
    S.Collision ms' := by
  obtain ⟨m, hm, m', hm', hne, heq⟩ := h
  exact ⟨m, hsub m hm, m', hsub m' hm', hne, heq⟩

/-- Without a collision the truncated digest determines the message. -/
theorem eq_or_collision (ms : List M) {m m' : M} (hm : m ∈ ms) (hm' : m' ∈ ms)
    (h : S.trunc (S.hash m) = S.trunc (S.hash m')) : m = m' ∨ S.Collision ms := by
  by_cases hne : m = m'
  · exact Or.inl hne
  · exact Or.inr ⟨m, hm, m', hm', hne, h⟩

theorem not_collision_of_nodup {ms : List M} (h : (ms.map fun m => S.trunc (S.hash m)).Nodup) :
    ¬ S.Collision ms := by
  rintro ⟨m, hm, m', hm', hne, heq⟩
  exact hne (List.inj_on_of_nodup_map h hm hm' heq)

theorem join_inj {i : ℕ} {d d' : D} {s s' : T} (h : S.join i d s = S.join i d' s') :
    S.trunc d = S.trunc d' ∧ s = s' := by
  unfold join at h
  by_cases hi : i % 2 = 0
  · rw [if_pos hi, if_pos hi] at h
    exact S.node_inj h
  · rw [if_neg hi, if_neg hi] at h
    exact (S.node_inj h).symm

theorem join_eq_node (i : ℕ) (d : D) (s : T) : ∃ l r, S.join i d s = S.node l r := by
  unfold join
  split
  · exact ⟨_, _, rfl⟩
  · exact ⟨_, _, rfl⟩

theorem climb_append : ∀ (i : ℕ) (d : D) (xs ys : List T),
    S.climb i d (xs ++ ys) = S.climb (i / 2 ^ xs.length) (S.climb i d xs) ys
  | i, d, [], ys => by simp [climb]
  | i, d, x :: xs, ys => by
      rw [List.cons_append, climb, climb_append, climb, List.length_cons,
        Nat.div_div_eq_div_mul, pow_succ']

theorem climbed_append : ∀ (i : ℕ) (d : D) (xs ys : List T),
    S.climbed i d (xs ++ ys) =
      S.climbed i d xs ++ S.climbed (i / 2 ^ xs.length) (S.climb i d xs) ys
  | i, d, [], ys => by simp [climb, climbed]
  | i, d, x :: xs, ys => by
      rw [List.cons_append, climbed, climbed_append, climbed, climb, List.cons_append,
        List.length_cons, Nat.div_div_eq_div_mul, pow_succ']

/-- A climb of at least one level ends at the digest of a node message. -/
theorem climb_eq_hash_node : ∀ {i : ℕ} {d : D} {xs : List T}, xs ≠ [] →
    ∃ l r, S.node l r ∈ S.climbed i d xs ∧ S.climb i d xs = S.hash (S.node l r)
  | _, _, [], h => absurd rfl h
  | i, d, [x], _ => by
      obtain ⟨l, r, hlr⟩ := S.join_eq_node i d x
      refine ⟨l, r, ?_, ?_⟩
      · rw [climbed, ← hlr]
        exact List.mem_cons_self
      · rw [climb, climb, hlr]
  | i, d, x :: y :: xs, _ => by
      obtain ⟨l, r, hmem, heq⟩ :=
        climb_eq_hash_node (i := i / 2) (d := S.hash (S.join i d x)) (List.cons_ne_nil y xs)
      exact ⟨l, r, List.mem_cons_of_mem _ hmem, heq⟩

/-- **Binding at equal depth.** By induction on the siblings: the digests one
level up have equal truncations, so the messages they hash are equal. -/
theorem climb_binding : ∀ {i : ℕ} {d d' : D} {xs ys : List T}, xs.length = ys.length →
    S.trunc (S.climb i d xs) = S.trunc (S.climb i d' ys) →
    (S.trunc d = S.trunc d' ∧ xs = ys) ∨ S.Collision (S.climbed i d xs ++ S.climbed i d' ys)
  | _, _, _, [], [], _, h => Or.inl ⟨h, rfl⟩
  | _, _, _, [], _ :: _, hlen, _ => absurd hlen (by simp)
  | _, _, _, _ :: _, [], hlen, _ => absurd hlen (by simp)
  | i, d, d', x :: xs, y :: ys, hlen, h => by
      rw [climb, climb] at h
      rw [climbed, climbed]
      rcases climb_binding (Nat.succ_inj.mp hlen) h with ⟨htr, hss⟩ | hcol
      · rcases eq_or_collision (S.join i d x :: S.climbed (i / 2) (S.hash (S.join i d x)) xs
            ++ S.join i d' y :: S.climbed (i / 2) (S.hash (S.join i d' y)) ys)
            (by simp) (by simp) htr with hmsg | hcol
        · obtain ⟨hd, hs⟩ := S.join_inj hmsg
          exact Or.inl ⟨hd, by rw [hs, hss]⟩
        · exact Or.inr hcol
      · refine Or.inr (hcol.mono ?_)
        intro m hm
        rw [List.mem_append] at hm
        rw [List.mem_append, List.mem_cons, List.mem_cons]
        tauto

/-- **A leaf is not an inner node.** An opening that starts at the digest of a
message `m` that is no node message, and one that climbs through more levels
to the same place, cannot end at digests with one truncation. -/
theorem leaf_ne_inner {m : M} (hm : ∀ l r, m ≠ S.node l r) {i j : ℕ} {e : D}
    {xs ys : List T} (hlen : xs.length < ys.length)
    (hidx : j / 2 ^ (ys.length - xs.length) = i)
    (h : S.trunc (S.climb i (S.hash m) xs) = S.trunc (S.climb j e ys)) :
    S.Collision (m :: S.climbed i (S.hash m) xs ++ S.climbed j e ys) := by
  -- the last levels of the longer climb start at one of its inner nodes
  obtain ⟨ys₁, ys₂, rfl, hlen₂⟩ : ∃ ys₁ ys₂, ys = ys₁ ++ ys₂ ∧ ys₂.length = xs.length :=
    ⟨ys.take (ys.length - xs.length), ys.drop (ys.length - xs.length),
      (List.take_append_drop _ _).symm, by rw [List.length_drop]; omega⟩
  have hlen₁ : (ys₁ ++ ys₂).length - xs.length = ys₁.length := by
    rw [List.length_append]
    omega
  have hne : ys₁ ≠ [] := by
    rintro rfl
    simp [hlen₂] at hlen
  rw [hlen₁] at hidx
  rw [climb_append, hidx] at h
  rw [climbed_append, hidx]
  obtain ⟨l, r, hmem, hinner⟩ := climb_eq_hash_node (S := S) (i := j) (d := e) hne
  rcases climb_binding hlen₂.symm h with ⟨htr, _⟩ | hcol
  · rw [hinner] at htr
    refine ⟨m, by simp, S.node l r, ?_, hm l r, htr⟩
    simp [hmem]
  · refine hcol.mono ?_
    intro x hx
    rw [List.mem_append] at hx
    rcases hx with hx | hx
    · simp [hx]
    · simp [hx]

/-! ## Layers -/

/-- The messages of the layer above: neighbours are paired, a last odd node
with itself. -/
def pairs (S : TreeHash M D T) : List D → List M
  | a :: b :: rest => S.node (S.trunc a) (S.trunc b) :: pairs S rest
  | [a] => [S.node (S.trunc a) (S.trunc a)]
  | [] => []

/-- The layer above. -/
def pairUp (S : TreeHash M D T) (L : List D) : List D :=
  (S.pairs L).map S.hash

theorem length_pairs : ∀ L : List D, (S.pairs L).length = (L.length + 1) / 2
  | a :: b :: rest => by
      rw [pairs, List.length_cons, length_pairs rest, List.length_cons, List.length_cons]
      omega
  | [a] => by simp [pairs]
  | [] => by simp [pairs]

theorem length_pairUp (L : List D) : (S.pairUp L).length = (L.length + 1) / 2 := by
  rw [pairUp, List.length_map, length_pairs]

/-- The node an entry of a layer is paired with. -/
def sibling (L : List D) (i : ℕ) (h : L ≠ []) : D :=
  (L[i ^^^ 1]?).getD (L.getLast h)

theorem xor_one_add_two (k : ℕ) : (k + 2) ^^^ 1 = (k ^^^ 1) + 2 := by
  rcases Nat.even_or_odd k with hk | hk
  · rw [Nat.xor_one_of_even hk, Nat.xor_one_of_even (hk.add even_two)]
  · rw [Nat.xor_one_of_odd hk, Nat.xor_one_of_odd (hk.add_even even_two)]
    obtain ⟨m, rfl⟩ := hk
    omega

/-- Entry `i` and its sibling make message `i / 2` of the layer above. -/
theorem getElem?_pairs : ∀ {L : List D} {i : ℕ} {d : D} (hne : L ≠ []), L[i]? = some d →
    (S.pairs L)[i / 2]? = some (S.join i d (S.trunc (sibling L i hne)))
  | [], _, _, hne, _ => absurd rfl hne
  | [a], 0, d, _, h => by
      have hd : a = d := by simpa using h
      subst hd
      simp [pairs, join, sibling]
  | [a], i + 1, d, _, h => by simp at h
  | a :: b :: rest, 0, d, _, h => by
      have hd : a = d := by simpa using h
      subst hd
      simp [pairs, join, sibling]
  | a :: b :: rest, 1, d, _, h => by
      have hd : b = d := by simpa using h
      subst hd
      simp [pairs, join, sibling]
  | a :: b :: rest, k + 2, d, _, h => by
      have h' : rest[k]? = some d := by simpa using h
      have hne : rest ≠ [] := by
        rintro rfl
        simp at h'
      have ih := getElem?_pairs hne h'
      have hsib : sibling (a :: b :: rest) (k + 2) (List.cons_ne_nil _ _) = sibling rest k hne := by
        rw [sibling, sibling, xor_one_add_two, List.getElem?_cons_succ, List.getElem?_cons_succ,
          List.getLast_cons (List.cons_ne_nil b rest), List.getLast_cons hne]
      have hjoin : S.join (k + 2) d (S.trunc (sibling rest k hne)) =
          S.join k d (S.trunc (sibling rest k hne)) := by
        simp [join]
      rw [show (k + 2) / 2 = k / 2 + 1 by omega, pairs, List.getElem?_cons_succ, hsib, hjoin, ih]

theorem getElem?_pairUp {L : List D} {i : ℕ} {d : D} (hne : L ≠ []) (h : L[i]? = some d) :
    (S.pairUp L)[i / 2]? = some (S.hash (S.join i d (S.trunc (sibling L i hne)))) := by
  rw [pairUp, List.getElem?_map, getElem?_pairs hne h, Option.map_some]

/-- All layers, from `L` up to the layer of one node. -/
def layers (S : TreeHash M D T) (L : List D) : List (List D) :=
  if 1 < L.length then L :: layers S (S.pairUp L) else [L]
termination_by L.length
decreasing_by
  rw [length_pairUp]
  omega

/-- The siblings met from index `i` of the first layer on. -/
def path (S : TreeHash M D T) : List (List D) → ℕ → List T
  | [], _ => []
  | L :: Ls, i =>
      if h : 1 < L.length then
        S.trunc (sibling L i (List.ne_nil_of_length_pos (by omega))) :: path S Ls (i / 2)
      else []

/-- The last layer's only node. -/
def rootOf (S : TreeHash M D T) (L : List D) : Option D :=
  (S.layers L).getLast?.bind List.head?

theorem rootOf_of_length_le_one {L : List D} (h : L.length ≤ 1) : S.rootOf L = L.head? := by
  rw [rootOf, layers, if_neg (by omega)]
  rfl

theorem layers_ne_nil (L : List D) : S.layers L ≠ [] := by
  rw [layers]
  split <;> simp

theorem rootOf_of_one_lt_length {L : List D} (h : 1 < L.length) :
    S.rootOf L = S.rootOf (S.pairUp L) := by
  rw [rootOf, layers, if_pos h, List.getLast?_cons, rootOf,
    List.getLast?_eq_some_getLast (S.layers_ne_nil _)]
  rfl

/-- **Openings of a tree climb to its root.** By induction on the layers. -/
theorem climb_path {L : List D} {i : ℕ} {d : D} (h : L[i]? = some d) :
    S.rootOf L = some (S.climb i d (S.path (S.layers L) i)) := by
  induction hn : L.length using Nat.strong_induction_on generalizing L i d with
  | _ n ih =>
      subst hn
      have hi : i < L.length := (List.getElem?_eq_some_iff.mp h).1
      by_cases hlen : 1 < L.length
      · have hne : L ≠ [] := List.ne_nil_of_length_pos (by omega)
        rw [rootOf_of_one_lt_length hlen, layers, if_pos hlen, path, dif_pos hlen, climb]
        exact ih _ (by rw [length_pairUp]; omega) (getElem?_pairUp hne h) rfl
      · have hi0 : i = 0 := by omega
        subst hi0
        rw [rootOf_of_length_le_one (by omega), layers, if_neg hlen, path, dif_neg hlen, climb,
          List.head?_eq_getElem?, h]

/-- How many levels a tree has: the least `k` such that `2 ^ k` entries are enough. -/
theorem length_path {k : ℕ} : ∀ {L : List D} {i : ℕ}, L.length ≤ 2 ^ k → 2 ^ k < 2 * L.length →
    (S.path (S.layers L) i).length = k := by
  induction k with
  | zero =>
      intro L i hle _
      rw [layers, if_neg (by omega), path, dif_neg (by omega)]
      rfl
  | succ k ih =>
      intro L i hle hlt
      have hpow := Nat.two_pow_pos k
      rw [pow_succ] at hle hlt
      have hlen : 1 < L.length := by omega
      rw [layers, if_pos hlen, path, dif_pos hlen, List.length_cons,
        ih (by rw [length_pairUp]; omega) (by rw [length_pairUp]; omega)]

/-- The node messages hashed while the layers are built. -/
def built (S : TreeHash M D T) (L : List D) : List M :=
  if 1 < L.length then S.pairs L ++ built S (S.pairUp L) else []
termination_by L.length
decreasing_by
  rw [length_pairUp]
  omega

/-! The messages of a layer depend on the truncated digests below it alone, so
a tree can be evaluated level by level. -/

/-- The messages over a layer of truncated digests. -/
def pairsOf (S : TreeHash M D T) : List T → List M
  | a :: b :: rest => S.node a b :: pairsOf S rest
  | [a] => [S.node a a]
  | [] => []

/-- The node messages of `k` levels over a layer of truncated digests. -/
def builtOf (S : TreeHash M D T) : ℕ → List T → List M
  | 0, _ => []
  | k + 1, ts => S.pairsOf ts ++ builtOf S k ((S.pairsOf ts).map fun m => S.trunc (S.hash m))

theorem pairs_eq_pairsOf : ∀ L : List D, S.pairs L = S.pairsOf (L.map S.trunc)
  | a :: b :: rest => by
      rw [pairs, pairs_eq_pairsOf rest, List.map_cons, List.map_cons, pairsOf]
  | [a] => rfl
  | [] => rfl

theorem built_eq_builtOf {k : ℕ} : ∀ {L : List D}, L.length ≤ 2 ^ k → 2 ^ k < 2 * L.length →
    S.built L = S.builtOf k (L.map S.trunc) := by
  induction k with
  | zero =>
      intro L hle _
      rw [built, if_neg (by omega), builtOf]
  | succ k ih =>
      intro L hle hlt
      have hpow := Nat.two_pow_pos k
      rw [pow_succ] at hle hlt
      rw [built, if_pos (by omega), ih (by rw [length_pairUp]; omega)
        (by rw [length_pairUp]; omega),
        builtOf, pairUp, List.map_map, pairs_eq_pairsOf]
      rfl

/-- What an opening of a tree hashes was hashed when the tree was built. -/
theorem climbed_path_subset {L : List D} {i : ℕ} {d : D} (h : L[i]? = some d) :
    ∀ m ∈ S.climbed i d (S.path (S.layers L) i), m ∈ S.built L := by
  induction hn : L.length using Nat.strong_induction_on generalizing L i d with
  | _ n ih =>
      subst hn
      by_cases hlen : 1 < L.length
      · have hne : L ≠ [] := List.ne_nil_of_length_pos (by omega)
        rw [layers, if_pos hlen, path, dif_pos hlen, climbed, built, if_pos hlen]
        intro m hm
        rw [List.mem_append]
        rcases List.mem_cons.mp hm with rfl | hm
        · exact Or.inl (List.mem_of_getElem? (getElem?_pairs hne h))
        · exact Or.inr (ih _ (by rw [length_pairUp]; omega) (getElem?_pairUp hne h) rfl m hm)
      · rw [layers, if_neg hlen, path, dif_neg hlen, climbed]
        simp

end TreeHash

end Lattica.Foundation
