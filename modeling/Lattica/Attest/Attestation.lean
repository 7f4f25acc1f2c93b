import Lattica.Lthash.LtHash
import Mathlib.Data.List.GetD

/-!
# Attestations and the slot verifier

An attestation publishes the delta of a slot as a list of limbs. The verifier
refuses a list of the wrong length, then folds the claimed transitions and
refuses one without sides, then compares. Its fold is the builder's: both give
the sum of the gains, so neither the result nor an error depends on the order
of the transitions.
-/

namespace Lattica.Attest

open Foundation KeyedSum Lthash

/-! ## The packet -/

structure Attestation where
  slot : UInt64
  fecSetIndex : UInt32
  leaderPubkey : Bytes 32
  fecMerkleRoot : Bytes 32
  leaderSig : List UInt8
  deltaLthash : List UInt16

namespace Attestation

/-- `Attestation::from_delta`; its assertion holds of every `LtHash`. -/
def fromDelta (slot : UInt64) (fecSetIndex : UInt32) (leaderPubkey fecMerkleRoot : Bytes 32)
    (leaderSig : Bytes 64) (delta : LtHash) : Attestation where
  slot := slot
  fecSetIndex := fecSetIndex
  leaderPubkey := leaderPubkey
  fecMerkleRoot := fecMerkleRoot
  leaderSig := leaderSig.1
  deltaLthash := List.ofFn delta.limbs

/-- `delta_as_lthash`. -/
def deltaAsLthash (self : Attestation) : Option LtHash :=
  if self.deltaLthash.length ≠ nLimbs then none
  else some ⟨fun i => self.deltaLthash.getD i 0⟩

theorem deltaAsLthash_eq_none_iff {att : Attestation} :
    att.deltaAsLthash = none ↔ att.deltaLthash.length ≠ nLimbs := by
  unfold deltaAsLthash
  by_cases h : att.deltaLthash.length ≠ nLimbs
  · rw [if_pos h]
    exact ⟨fun _ => h, fun _ => rfl⟩
  · rw [if_neg h]
    exact ⟨fun hn => absurd hn (Option.some_ne_none _), fun hne => absurd hne h⟩

theorem deltaAsLthash_eq_some_iff {att : Attestation} {h : LtHash} :
    att.deltaAsLthash = some h ↔ att.deltaLthash = List.ofFn h.limbs := by
  unfold deltaAsLthash
  constructor
  · intro heq
    by_cases hlen : att.deltaLthash.length ≠ nLimbs
    · rw [if_pos hlen] at heq
      cases heq
    · rw [if_neg hlen, Option.some.injEq] at heq
      subst heq
      refine List.ext_getElem ?_ fun i hi _ => ?_
      · rw [List.length_ofFn]
        exact not_not.mp hlen
      · rw [List.getElem_ofFn]
        exact (List.getD_eq_getElem _ _ hi).symm
  · intro heq
    have hlen : ¬ att.deltaLthash.length ≠ nLimbs := by
      rw [heq, List.length_ofFn]
      exact fun hne => hne rfl
    rw [if_neg hlen, Option.some.injEq]
    refine LtHash.ext (funext fun i => ?_)
    have hi : i.1 < (List.ofFn h.limbs).length := by
      rw [List.length_ofFn]
      exact i.2
    show att.deltaLthash.getD i 0 = h.limbs i
    rw [heq, List.getD_eq_getElem _ _ hi, List.getElem_ofFn]

theorem deltaAsLthash_fromDelta (slot : UInt64) (fecSetIndex : UInt32)
    (leaderPubkey fecMerkleRoot : Bytes 32) (leaderSig : Bytes 64) (delta : LtHash) :
    (fromDelta slot fecSetIndex leaderPubkey fecMerkleRoot leaderSig delta).deltaAsLthash =
      some delta := by
  rw [deltaAsLthash_eq_some_iff, fromDelta]

end Attestation

/-! ## The verifier -/

structure AccountTransition where
  old : Option AccountForHash
  new : Option AccountForHash

namespace AccountTransition

/-- Neither side is there. -/
def Empty (t : AccountTransition) : Prop := t.old = none ∧ t.new = none

instance (t : AccountTransition) : Decidable t.Empty := inferInstanceAs (Decidable (_ ∧ _))

def change (t : AccountTransition) : Change := (t.old, t.new)

end AccountTransition

inductive VerifyError
  | emptyTransition
  | malformedDelta
  | deltaMismatch (attested recomputed : Bytes 32)

variable {B : Blake3}

/-- The loop over the transitions. -/
def recompute (B : Blake3) : LtHash → List AccountTransition → Except VerifyError LtHash
  | recomputed, [] => .ok recomputed
  | recomputed, t :: ts =>
      match t.old, t.new with
      | none, none => .error .emptyTransition
      | some o, some n =>
          recompute B ((recomputed.mixOut (hashAccount B o)).mixIn (hashAccount B n)) ts
      | some o, none => recompute B (recomputed.mixOut (hashAccount B o)) ts
      | none, some n => recompute B (recomputed.mixIn (hashAccount B n)) ts

/-- `verify_slot_delta`. -/
def verifySlotDelta (B : Blake3) (attestation : Attestation)
    (transitions : List AccountTransition) : Except VerifyError Unit :=
  match attestation.deltaAsLthash with
  | none => .error .malformedDelta
  | some attested => do
      -- an empty transition is refused before anything is compared
      let recomputed ← recompute B LtHash.identity transitions
      if recomputed.limbs = attested.limbs then .ok ()
      else .error (.deltaMismatch (attested.checksum B) (recomputed.checksum B))

theorem recompute_cons_empty {t : AccountTransition} (h : t.Empty) (acc : LtHash)
    (ts : List AccountTransition) : recompute B acc (t :: ts) = .error .emptyTransition := by
  obtain ⟨old, new⟩ := t
  obtain ⟨rfl, rfl⟩ := h
  rfl

theorem recompute_cons {t : AccountTransition} (h : ¬ t.Empty) (acc : LtHash)
    (ts : List AccountTransition) :
    recompute B acc (t :: ts) = recompute B (acc + gain B t.change) ts := by
  rcases t with ⟨_ | o, _ | n⟩
  · exact absurd ⟨rfl, rfl⟩ h
  · simp [recompute, AccountTransition.change, gain]
  · simp [recompute, AccountTransition.change, gain, sub_eq_add_neg]
  · have hgain : acc - hashAccount B o + hashAccount B n =
        acc + gain B (some o, some n) := by
      simp only [gain, weight_some]
      abel
    rw [AccountTransition.change, ← hgain]
    rfl

/-- An element without sides is met wherever it stands. -/
theorem recompute_of_empty {ts : List AccountTransition} (h : ∃ t ∈ ts, t.Empty)
    (acc : LtHash) : recompute B acc ts = .error .emptyTransition := by
  induction ts generalizing acc with
  | nil =>
      obtain ⟨t, ht, _⟩ := h
      cases ht
  | cons t ts ih =>
      by_cases ht : t.Empty
      · exact recompute_cons_empty ht acc ts
      · obtain ⟨u, hu, hempty⟩ := h
        rw [recompute_cons ht]
        rcases List.mem_cons.mp hu with rfl | hu
        · exact absurd hempty ht
        · exact ih ⟨u, hu, hempty⟩ _

theorem recompute_of_full {ts : List AccountTransition} (h : ∀ t ∈ ts, ¬ t.Empty)
    (acc : LtHash) :
    recompute B acc ts = .ok (acc + ((ts.map AccountTransition.change).map (gain B)).sum) := by
  induction ts generalizing acc with
  | nil => rw [recompute, List.map_nil, List.map_nil, List.sum_nil, add_zero]
  | cons t ts ih =>
      rw [recompute_cons (h t List.mem_cons_self), ih fun u hu => h u (List.mem_cons_of_mem t hu),
        List.map_cons, List.map_cons, List.sum_cons, add_assoc]

/-- The delta a builder makes of the transitions. -/
def builtDelta (B : Blake3) (ts : List AccountTransition) : LtHash :=
  (slotDelta B (ts.map AccountTransition.change)).delta

theorem builtDelta_eq (ts : List AccountTransition) :
    builtDelta B ts = ((ts.map AccountTransition.change).map (gain B)).sum := by
  rw [builtDelta, slotDelta_delta]

theorem builtDelta_perm {ts ts' : List AccountTransition} (h : ts.Perm ts') :
    builtDelta B ts = builtDelta B ts' := by
  rw [builtDelta, builtDelta, slotDelta_perm (h.map AccountTransition.change)]

/-- **The verifier's fold is the builder's.** -/
theorem recompute_eq_builtDelta {ts : List AccountTransition} (h : ∀ t ∈ ts, ¬ t.Empty) :
    recompute B LtHash.identity ts = .ok (builtDelta B ts) := by
  rw [recompute_of_full h, builtDelta_eq, LtHash.identity_eq, zero_add]

/-! ## The verdict -/

variable {att : Attestation} {ts ts' : List AccountTransition}

theorem exists_attested (h : att.deltaLthash.length = nLimbs) :
    ∃ attested, att.deltaAsLthash = some attested := by
  cases hatt : att.deltaAsLthash with
  | none => exact absurd h (Attestation.deltaAsLthash_eq_none_iff.mp hatt)
  | some attested => exact ⟨attested, rfl⟩

theorem verify_malformed (h : att.deltaLthash.length ≠ nLimbs) :
    verifySlotDelta B att ts = .error .malformedDelta := by
  rw [verifySlotDelta, Attestation.deltaAsLthash_eq_none_iff.mpr h]

theorem verify_empty {attested : LtHash} (hatt : att.deltaAsLthash = some attested)
    (h : ∃ t ∈ ts, t.Empty) : verifySlotDelta B att ts = .error .emptyTransition := by
  rw [verifySlotDelta, hatt]
  simp only [recompute_of_empty h]
  rfl

theorem verify_full {attested : LtHash} (hatt : att.deltaAsLthash = some attested)
    (h : ∀ t ∈ ts, ¬ t.Empty) : verifySlotDelta B att ts =
      if builtDelta B ts = attested then .ok ()
      else .error (.deltaMismatch (attested.checksum B) ((builtDelta B ts).checksum B)) := by
  rw [verifySlotDelta, hatt]
  simp only [recompute_eq_builtDelta h, bind, Except.bind]
  by_cases heq : builtDelta B ts = attested
  · rw [if_pos heq, if_pos (congrArg LtHash.limbs heq)]
  · rw [if_neg heq, if_neg fun hl => heq (LtHash.ext hl)]

/-- Accepted transitions have sides and the attested delta. -/
theorem verify_ok_iff : verifySlotDelta B att ts = .ok () ↔
    (∀ t ∈ ts, ¬ t.Empty) ∧ att.deltaAsLthash = some (builtDelta B ts) := by
  cases hatt : att.deltaAsLthash with
  | none =>
      rw [verify_malformed (Attestation.deltaAsLthash_eq_none_iff.mp hatt)]
      exact ⟨fun h => absurd h (by simp), fun h => absurd h.2 (by simp)⟩
  | some attested =>
      by_cases hempty : ∃ t ∈ ts, t.Empty
      · rw [verify_empty hatt hempty]
        obtain ⟨t, ht, he⟩ := hempty
        exact ⟨fun h => absurd h (by simp), fun h => absurd he (h.1 t ht)⟩
      · have hfull : ∀ t ∈ ts, ¬ t.Empty := fun t ht he => hempty ⟨t, ht, he⟩
        rw [verify_full hatt hfull, Option.some.injEq]
        by_cases heq : builtDelta B ts = attested
        · rw [if_pos heq]
          exact ⟨fun _ => ⟨hfull, heq.symm⟩, fun _ => rfl⟩
        · rw [if_neg heq]
          exact ⟨fun h => absurd h (by simp), fun h => absurd h.2.symm heq⟩

theorem verify_malformed_iff :
    verifySlotDelta B att ts = .error .malformedDelta ↔ att.deltaLthash.length ≠ nLimbs := by
  refine ⟨fun h hlen => ?_, verify_malformed⟩
  obtain ⟨attested, hatt⟩ := exists_attested hlen
  by_cases hempty : ∃ t ∈ ts, t.Empty
  · rw [verify_empty hatt hempty] at h
    cases h
  · rw [verify_full hatt fun t ht he => hempty ⟨t, ht, he⟩] at h
    split at h
    · cases h
    · cases h

theorem verify_empty_iff (hlen : att.deltaLthash.length = nLimbs) :
    verifySlotDelta B att ts = .error .emptyTransition ↔ ∃ t ∈ ts, t.Empty := by
  obtain ⟨attested, hatt⟩ := exists_attested hlen
  refine ⟨fun h => ?_, verify_empty hatt⟩
  by_contra hempty
  rw [verify_full hatt fun t ht he => hempty ⟨t, ht, he⟩] at h
  split at h
  · cases h
  · cases h

theorem verify_mismatch (hlen : att.deltaLthash.length = nLimbs) (hfull : ∀ t ∈ ts, ¬ t.Empty)
    (hne : att.deltaLthash ≠ List.ofFn (builtDelta B ts).limbs) :
    ∃ attested : LtHash, att.deltaLthash = List.ofFn attested.limbs ∧
      verifySlotDelta B att ts =
        .error (.deltaMismatch (attested.checksum B) ((builtDelta B ts).checksum B)) := by
  obtain ⟨attested, hatt⟩ := exists_attested hlen
  have hlimbs := Attestation.deltaAsLthash_eq_some_iff.mp hatt
  refine ⟨attested, hlimbs, ?_⟩
  rw [verify_full hatt hfull, if_neg]
  rintro rfl
  exact hne hlimbs

/-- The verdict does not depend on the order. -/
theorem verify_perm (h : ts'.Perm ts) : verifySlotDelta B att ts' = verifySlotDelta B att ts := by
  cases hatt : att.deltaAsLthash with
  | none =>
      have hlen := Attestation.deltaAsLthash_eq_none_iff.mp hatt
      rw [verify_malformed hlen, verify_malformed hlen]
  | some attested =>
      by_cases hempty : ∃ t ∈ ts, t.Empty
      · obtain ⟨t, ht, he⟩ := hempty
        rw [verify_empty hatt ⟨t, ht, he⟩, verify_empty hatt ⟨t, h.mem_iff.mpr ht, he⟩]
      · have hfull : ∀ t ∈ ts, ¬ t.Empty := fun t ht he => hempty ⟨t, ht, he⟩
        rw [verify_full hatt hfull, verify_full hatt fun t ht => hfull t (h.mem_iff.mp ht),
          builtDelta_perm h]

/-- **Verifier and builder agree**, in the verdict and in every error, whatever
the order. -/
theorem verifier_agrees (B : Blake3) (att : Attestation) (ts : List AccountTransition) :
    (verifySlotDelta B att ts = .error .malformedDelta ↔ att.deltaLthash.length ≠ nLimbs) ∧
    (att.deltaLthash.length = nLimbs →
      (verifySlotDelta B att ts = .error .emptyTransition ↔
        ∃ t ∈ ts, t.old = none ∧ t.new = none) ∧
      ((∀ t ∈ ts, ¬ (t.old = none ∧ t.new = none)) → ∀ order, order.Perm ts →
        (verifySlotDelta B att ts = .ok () ↔
          att.deltaLthash = List.ofFn (builtDelta B order).limbs) ∧
        (att.deltaLthash ≠ List.ofFn (builtDelta B order).limbs →
          ∃ attested : LtHash, att.deltaLthash = List.ofFn attested.limbs ∧
            verifySlotDelta B att ts = .error (.deltaMismatch (attested.checksum B)
              ((builtDelta B order).checksum B))))) ∧
    (∀ ts', ts'.Perm ts → verifySlotDelta B att ts' = verifySlotDelta B att ts) ∧
    ((∀ t ∈ ts, ¬ (t.old = none ∧ t.new = none)) →
      ∀ slot fecSetIndex leaderPubkey fecMerkleRoot leaderSig, ∀ ts', ts'.Perm ts →
        verifySlotDelta B (.fromDelta slot fecSetIndex leaderPubkey fecMerkleRoot leaderSig
          (builtDelta B ts)) ts' = .ok ()) := by
  refine ⟨verify_malformed_iff, fun hlen => ⟨verify_empty_iff hlen, ?_⟩, fun ts' => verify_perm, ?_⟩
  · intro hfull order horder
    rw [builtDelta_perm horder]
    refine ⟨?_, verify_mismatch hlen hfull⟩
    rw [verify_ok_iff, Attestation.deltaAsLthash_eq_some_iff]
    exact ⟨fun h => h.2, fun h => ⟨hfull, h⟩⟩
  · intro hfull slot fecSetIndex leaderPubkey fecMerkleRoot leaderSig ts' hperm
    rw [verify_ok_iff, Attestation.deltaAsLthash_fromDelta, builtDelta_perm hperm]
    exact ⟨fun t ht => hfull t (hperm.mem_iff.mp ht), rfl⟩

end Lattica.Attest
