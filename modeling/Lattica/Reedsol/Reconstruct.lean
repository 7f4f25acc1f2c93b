import Lattica.Foundation.MdsCode
import Lattica.Shred.Wire
import Lattica.Shred.Crates

/-!
# Reconstruction

`reconstruct` of `crates/reedsol/src/lib.rs`, and what the results need of the
Reed-Solomon crate beyond succeeding: that it decodes, and for constructed
sets also encodes, some MDS code of length 64 and dimension 32.
-/

namespace Lattica.Reedsol

open Foundation Shred

/-- The variants no function constructs are left out. -/
inductive ReedSolError where
  | inner (text : String)
deriving DecidableEq, Repr

instance : ToString ReedSolError where
  toString
    | .inner text => s!"reed-solomon: {text}"

/-- `reconstruct`: the entries afterwards. The crate repeats the shard counts of the
shred crate. -/
def reconstruct (C : Crates) (shards : List (Option (List UInt8))) :
    Except ReedSolError { out : List (Option (List UInt8)) // out.length = shards.length } := do
  let r ← (C.newReedSolomon dataShredsPerFec codingShredsPerFec).mapError .inner
  (C.reconstruct r shards).mapError .inner

/-! ## Codewords -/

/-- The codes the 64 shards of `n` bytes belong to, for every `n`. -/
abbrev ShardCode : Type := ∀ n : ℕ, MdsCode 64 32 (Bytes n)

/-- The word that 64 shards of `n` bytes are. -/
def wordOf (n : ℕ) (shards : List (List UInt8)) : Fin 64 → Bytes n :=
  fun i => asArray n (shards.getD i [])

/-- The word has the given bytes wherever a shard is present. -/
def Agrees {n : ℕ} (w : Fin 64 → Bytes n) (shards : List (Option (List UInt8))) : Prop :=
  ∀ (i : Fin 64) (s : List UInt8), shards[i.1]? = some (some s) → s = (w i).1

/-- All entries of a word, present. -/
def filled {n : ℕ} (w : Fin 64 → Bytes n) : List (Option (List UInt8)) :=
  List.ofFn fun i => some (w i).1

/-- The positions at which a shard is present. -/
def presentAt (shards : List (Option (List UInt8))) : Finset (Fin 64) :=
  Finset.univ.filter fun i => shards[i.1]?.join.isSome

theorem mem_presentAt {shards : List (Option (List UInt8))} {i : Fin 64} :
    i ∈ presentAt shards ↔ ∃ s, shards[i.1]? = some (some s) := by
  simp [presentAt, Option.isSome_iff_exists, Option.join_eq_some_iff]

theorem card_presentAt {shards : List (Option (List UInt8))} (h : shards.length = 64) :
    (presentAt shards).card = Crates.present shards := by
  have hlist : shards = (List.finRange 64).map fun i => shards[i.1]?.join := by
    apply List.ext_getElem
    · simp [h]
    · intro i hi _
      simp [hi]
  calc (presentAt shards).card
      = (List.finRange 64).countP fun i => shards[i.1]?.join.isSome := by
        rw [presentAt, ← List.toFinset_finRange]
        simpa using (List.nodup_finRange 64).card_eq_countP
          (P := fun i : Fin 64 => shards[i.1]?.join.isSome = true)
    _ = ((List.finRange 64).map fun i => shards[i.1]?.join).countP Option.isSome :=
        (List.countP_map (p := Option.isSome) (f := fun i : Fin 64 => shards[i.1]?.join)).symm
    _ = Crates.present shards := by rw [← hlist, Crates.present]

/-- 64 entries, at least 32 of them present, all of one positive length. -/
structure Recoverable (n : ℕ) (shards : List (Option (List UInt8))) : Prop where
  pos : 0 < n
  length : shards.length = 64
  equal : ∀ s, some s ∈ shards → s.length = n
  enough : 32 ≤ Crates.present shards

/-- The word that the present shards are, zeros elsewhere. -/
def wordOfPresent (n : ℕ) (shards : List (Option (List UInt8))) : Fin 64 → Bytes n :=
  fun i => asArray n (shards[i.1]?.join.getD [])

/-- Exactly 32 shards are on one codeword, whatever they are. -/
theorem Recoverable.exists_codeword {n : ℕ} {shards : List (Option (List UInt8))}
    (h : Recoverable n shards) (h32 : Crates.present shards = 32) (code : ShardCode) :
    ∃ w ∈ (code n).words, Agrees w shards := by
  have hcard : (presentAt shards).card = 32 := by rw [card_presentAt h.length, h32]
  obtain ⟨w, hw, hat⟩ := (code n).exists_word hcard (wordOfPresent n shards)
  refine ⟨w, hw, fun i s hs => ?_⟩
  rw [hat i (mem_presentAt.mpr ⟨s, hs⟩), wordOfPresent, hs, Option.join_some, Option.getD_some,
    asArray_val (h.equal s (List.mem_of_getElem? hs))]

theorem filled_injective {n : ℕ} {w w' : Fin 64 → Bytes n} (h : filled w = filled w') : w = w' := by
  funext i
  have hi := congrFun (List.ofFn_injective h) i
  exact Subtype.ext (Option.some.inj hi)

/-- Reconstruction succeeds on recoverable shards, and where a codeword agrees
with every shard present it returns that codeword. -/
def DecodesMds (C : Crates) (code : ShardCode) : Prop :=
  ∃ rs, C.newReedSolomon 32 32 = .ok rs ∧
    ∀ {n : ℕ} {shards : List (Option (List UInt8))}, Recoverable n shards →
      ∃ out, C.reconstruct rs shards = .ok out ∧
        ∀ w ∈ (code n).words, Agrees w shards → out.1 = filled w

/-- Encoding 32 equal-length shards completes them to a codeword. -/
def EncodesMds (C : Crates) (code : ShardCode) : Prop :=
  ∃ rs, C.newReedSolomon 32 32 = .ok rs ∧
    ∀ (n : ℕ) (data parity : List (List UInt8)), 0 < n → data.length = 32 →
      parity.length = 32 → (∀ s ∈ data, s.length = n) → (∀ s ∈ parity, s.length = n) →
      ∃ out, C.encodeSep rs data parity = .ok out ∧ wordOf n (data ++ out.1) ∈ (code n).words

variable {C : Crates} {code : ShardCode}

theorem EncodesMds.encodesEqualLengths (h : EncodesMds C code) : C.EncodesEqualLengths := by
  obtain ⟨rs, hnew, henc⟩ := h
  refine ⟨rs, hnew, fun n data parity hn hd hp hdl hpl => ?_⟩
  obtain ⟨out, hout, _⟩ := henc n data parity hn hd hp hdl hpl
  exact ⟨out, hout⟩

theorem DecodesMds.reconstructsEqualLengths (h : DecodesMds C code) :
    C.ReconstructsEqualLengths := by
  obtain ⟨rs, hnew, hdec⟩ := h
  refine ⟨rs, hnew, fun n shards hn hl hs he => ?_⟩
  obtain ⟨out, hout, _⟩ := hdec ⟨hn, hl, hs, he⟩
  exact ⟨out, hout⟩

theorem reconstruct_succeeds (h : C.ReconstructsEqualLengths) {n : ℕ}
    {shards : List (Option (List UInt8))} (hs : Recoverable n shards) :
    ∃ out, reconstruct C shards = .ok out := by
  obtain ⟨rs, hnew, hrec⟩ := h
  obtain ⟨out, hout⟩ := hrec n shards hs.pos hs.length hs.equal hs.enough
  refine ⟨out, ?_⟩
  rw [reconstruct, hnew]
  change (C.reconstruct rs shards).mapError _ = _
  rw [hout]
  rfl

/-- The codeword the shards come from is what is returned. -/
theorem reconstruct_eq_codeword (h : DecodesMds C code) {n : ℕ}
    {shards : List (Option (List UInt8))} (hs : Recoverable n shards)
    {out : { out : List (Option (List UInt8)) // out.length = shards.length }}
    (hout : reconstruct C shards = .ok out) {w : Fin 64 → Bytes n}
    (hw : w ∈ (code n).words) (hag : Agrees w shards) : out.1 = filled w := by
  obtain ⟨rs, hnew, hdec⟩ := h
  obtain ⟨out', hout', heq⟩ := hdec hs
  rw [reconstruct, hnew] at hout
  change (C.reconstruct rs shards).mapError _ = _ at hout
  rw [hout'] at hout
  cases hout
  exact heq w hw hag

end Lattica.Reedsol
