import Mathlib.Data.List.GetD
import Lattica.Foundation.GF256
import Lattica.Foundation.Sha256
import Lattica.Reedsol.Reconstruct

/-!
# Reference crates

One instance of the third-party functions for which every assumption of the
development holds: the hash is free, Reed-Solomon is evaluation of polynomials
over the field of 256 elements at the points 0 to 63, and a signature is the
digest of the message followed by the key. The signatures are no more than
honest ones being accepted; nothing is concluded from a rejected one.
-/

namespace Lattica.Reedsol

open Foundation Shred

/-! ## The code -/

/-- The evaluation points 0, 1, .., 63. -/
def point (i : Fin 64) : GF256 := UInt8.ofNat i.1

theorem point_injective : Function.Injective point := by
  intro i j h
  have hn : (UInt8.ofNat i.1).toNat = (UInt8.ofNat j.1).toNat := congrArg UInt8.toNat h
  rw [UInt8.toNat_ofNat', UInt8.toNat_ofNat'] at hn
  omega

/-- Vectors of bytes as vectors of field elements. -/
def bytesEquiv (n : ℕ) : (Fin n → GF256) ≃ Bytes n :=
  (Equiv.vectorEquivFin UInt8 n).symm

/-- Reed-Solomon on shards of `n` bytes, byte column by byte column. -/
noncomputable def shardCode : ShardCode := fun n =>
  ((MdsCode.reedSolomon 32 point point_injective).pi (Fin n)).map (bytesEquiv n)

/-- The first 32 positions. -/
def dataPositions : Finset (Fin 64) := Finset.univ.filter fun i => i.1 < 32

theorem card_dataPositions : dataPositions.card = 32 := by decide

/-- Parity shards `32..64` of the codeword through the data shards. -/
noncomputable def parityOf (n : ℕ) (data : List (List UInt8)) : List (List UInt8) :=
  (List.finRange 32).map fun j =>
    ((shardCode n).complete card_dataPositions (wordOf n data) (Fin.natAdd 32 j)).1

/-- `n` is the length of all the shards. -/
def Uniform (n : ℕ) (shards : List (List UInt8)) : Prop :=
  0 < n ∧ shards.length = 32 ∧ ∀ s ∈ shards, s.length = n

theorem map_length_parityOf {n : ℕ} {data parity : List (List UInt8)} (h : Uniform n parity) :
    (parityOf n data).map List.length = parity.map List.length := by
  have hp : parity.map List.length = List.replicate 32 n := by
    rw [List.eq_replicate_iff]
    refine ⟨by rw [List.length_map, h.2.1], fun l hl => ?_⟩
    obtain ⟨s, hs, rfl⟩ := List.mem_map.mp hl
    exact h.2.2 s hs
  rw [hp, List.eq_replicate_iff]
  refine ⟨by simp [parityOf], fun l hl => ?_⟩
  obtain ⟨s, hs, rfl⟩ := List.mem_map.mp hl
  obtain ⟨j, _, rfl⟩ := List.mem_map.mp hs
  exact ((shardCode n).complete card_dataPositions (wordOf n data) (Fin.natAdd 32 j)).2

/-- Some 32 of the positions present. -/
noncomputable def basis {n : ℕ} {shards : List (Option (List UInt8))} (h : Recoverable n shards) :
    { s : Finset (Fin 64) // s ⊆ presentAt shards ∧ s.card = 32 } :=
  ⟨_, Classical.choose_spec
    (Finset.exists_subset_card_eq (s := presentAt shards)
      (by rw [card_presentAt h.length]; exact h.enough))⟩

/-- The codeword through 32 of the shards present. -/
noncomputable def decoded {n : ℕ} {shards : List (Option (List UInt8))} (h : Recoverable n shards) :
    Fin 64 → Bytes n :=
  (shardCode n).complete (basis h).2.2 (wordOfPresent n shards)

theorem decoded_eq {n : ℕ} {shards : List (Option (List UInt8))} (h : Recoverable n shards)
    {w : Fin 64 → Bytes n} (hw : w ∈ (shardCode n).words) (hag : Agrees w shards) :
    decoded h = w := by
  refine (shardCode n).eq_of_agree (MdsCode.complete_mem _ _ _) hw (basis h).2.2.ge ?_
  intro i hi
  obtain ⟨s, hs⟩ := mem_presentAt.mp ((basis h).2.1 hi)
  rw [decoded, MdsCode.complete_at _ _ _ hi, wordOfPresent, hs]
  change asArray n s = w i
  rw [hag i s hs, asArray_self]

/-! ## The crates -/

open Classical in
/-- The crates over a hash. -/
noncomputable def referenceCrates (sha256 : List UInt8 → Bytes 32) : Crates where
  sha256 := sha256
  SigningKey := Bytes 32
  VerifyingKey := Bytes 32
  Signature := Bytes 64
  verifyingKeyFromBytes := some
  signatureFromSlice := some
  sign sk msg := ⟨(sha256 msg).1 ++ sk.1, by rw [List.length_append, (sha256 msg).2, sk.2]⟩
  verify pk msg sig := decide (sig.1 = (sha256 msg).1 ++ pk.1)
  verifyingKey := id
  ReedSolomon := Unit
  newReedSolomon data parity :=
    if data = 32 ∧ parity = 32 then .ok () else .error "shard counts other than 32 and 32"
  encodeSep _ data parity :=
    if h : ∃ n, Uniform n data ∧ Uniform n parity then
      .ok ⟨parityOf (Classical.choose h) data, map_length_parityOf (Classical.choose_spec h).2⟩
    else .error "shards of unequal lengths"
  reconstruct _ shards :=
    if h : ∃ n, Recoverable n shards then
      .ok ⟨List.ofFn fun i =>
          some ((shards[i.1]?.join).getD (decoded (Classical.choose_spec h) i).1),
        by rw [List.length_ofFn, (Classical.choose_spec h).length]⟩
    else .error "fewer than 32 shards, or of unequal lengths"

variable {sha256 : List UInt8 → Bytes 32}

/-- Some key. -/
def sampleKey (sha256 : List UInt8 → Bytes 32) : (referenceCrates sha256).SigningKey :=
  Bytes.zero 32

theorem referenceCrates_acceptsHonestSignatures :
    (referenceCrates sha256).AcceptsHonestSignatures :=
  fun sk msg => ⟨sk, (referenceCrates sha256).sign sk msg, rfl, rfl, decide_eq_true rfl⟩

theorem Uniform.unique {m n : ℕ} {shards : List (List UInt8)} (h : Uniform m shards)
    (h' : Uniform n shards) : m = n := by
  obtain ⟨s, hs⟩ := List.exists_mem_of_length_pos (l := shards) (by rw [h.2.1]; decide)
  rw [← h.2.2 s hs, h'.2.2 s hs]

theorem Recoverable.unique {m n : ℕ} {shards : List (Option (List UInt8))}
    (h : Recoverable m shards) (h' : Recoverable n shards) : m = n := by
  have hpos : 0 < Crates.present shards := Nat.lt_of_lt_of_le (by decide) h.enough
  obtain ⟨o, ho, hs⟩ := List.countP_pos_iff.mp hpos
  obtain ⟨s, rfl⟩ := Option.isSome_iff_exists.mp hs
  rw [← h.equal s ho, h'.equal s ho]

theorem referenceCrates_encodesMds : EncodesMds (referenceCrates sha256) shardCode := by
  refine ⟨(), rfl, fun n data parity hn hd hp hdl hpl => ?_⟩
  have huni : Uniform n data ∧ Uniform n parity := ⟨⟨hn, hd, hdl⟩, ⟨hn, hp, hpl⟩⟩
  have hex : ∃ n, Uniform n data ∧ Uniform n parity := ⟨n, huni⟩
  have hval : Classical.choose hex = n := (Classical.choose_spec hex).1.unique huni.1
  refine ⟨_, dif_pos hex, ?_⟩
  change wordOf n (data ++ parityOf (Classical.choose hex) data) ∈ (shardCode n).words
  rw [hval]
  -- the word is the codeword the parity was read off
  have hword : wordOf n (data ++ parityOf n data) =
      (shardCode n).complete card_dataPositions (wordOf n data) := by
    funext i
    by_cases hi : i.1 < 32
    · rw [MdsCode.complete_at _ _ _ (by simpa [dataPositions] using hi), wordOf, wordOf,
        List.getD_append _ _ _ _ (by omega)]
    · obtain ⟨j, rfl⟩ : ∃ j : Fin 32, i = Fin.natAdd 32 j :=
        ⟨⟨i.1 - 32, by omega⟩, Fin.ext (by simp; omega)⟩
      rw [wordOf, List.getD_append_right _ _ _ _ (by simp [hd])]
      simp only [Fin.val_natAdd, hd, Nat.add_sub_cancel_left, parityOf]
      rw [List.getD_eq_getElem _ _ (by simp), List.getElem_map, List.getElem_finRange]
      exact asArray_self _
  rw [hword]
  exact MdsCode.complete_mem _ _ _

theorem referenceCrates_decodesMds : DecodesMds (referenceCrates sha256) shardCode := by
  refine ⟨(), rfl, fun {n shards} h => ?_⟩
  have hex : ∃ n, Recoverable n shards := ⟨n, h⟩
  refine ⟨_, dif_pos hex, fun w hw hag => ?_⟩
  have hval : Classical.choose hex = n := Recoverable.unique (Classical.choose_spec hex) h
  have hdec : ∀ (m : ℕ) (hm : Recoverable m shards), m = n →
      ∀ i, (decoded hm i).1 = (w i).1 := by
    rintro _ hm rfl i
    rw [decoded_eq hm hw hag]
  refine congrArg List.ofFn (funext fun i => ?_)
  rw [hdec _ (Classical.choose_spec hex) hval i]
  cases hs : shards[i.1]?.join with
  | none => rfl
  | some s => rw [Option.getD_some, hag i s (Option.join_eq_some_iff.mp hs)]

/-- A byte column of a codeword that is zero at 32 positions is zero at all. -/
theorem column_zero {n : ℕ} {w : Fin 64 → Bytes n} (hw : w ∈ (shardCode n).words) {j : ℕ}
    (hj : j < n) {s : Finset (Fin 64)} (hs : 32 ≤ s.card) (hzero : ∀ i ∈ s, (w i).1.getD j 0 = 0)
    (i : Fin 64) : (w i).1.getD j 0 = 0 := by
  have hcol : ∀ i, (bytesEquiv n).symm (w i) ⟨j, hj⟩ = (w i).1.getD j 0 := by
    intro i
    rw [List.getD_eq_getElem _ _ (by rw [(w i).2]; exact hj)]
    exact List.Vector.get_eq_get_toList (w i) ⟨j, hj⟩
  have heq := MdsCode.eq_of_agree _ (hw ⟨j, hj⟩) MdsCode.zero_mem_reedSolomon hs
    fun i hi => (hcol i).trans (hzero i hi)
  rw [← hcol]
  exact congrFun heq i

end Lattica.Reedsol
