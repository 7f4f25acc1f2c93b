import Lattica.Listener.History
import Lattica.Reedsol.ReferenceCrates
import Lattica.Shred.LeaderShreds

/-!
# Rejections

What is left behind by a call that emits `Rejected`. At the gate nothing is. An
accepted shred that is rejected later has been booked in its slot, and may have
given its set a root or even a shard; no other entry of the two maps changes.
-/

namespace Lattica.Listener

open Foundation Shred Reedsol

variable {C : Crates} {P : Profile} {a a' : FecAssembler} {x : Admitted} {st : FecState}
  {ss : SlotState} {es : List FecEvent} {raw : List UInt8} {leaders : Leaders}

/-- The set an accepted shred `w` was rejected from, before and after: pending, and
with the root of `w` or none unless the root is what `w` was rejected for. The
crate is only asked, and so only fails, with 32 distinct shreds. -/
inductive RejectedFrom (C : Crates) (w : VerifiedShred) (raw : List UInt8) :
    FecState → FecState → Prop
  | diverging {st : FecState} {r : Bytes 32} (hpending : st.reconstructed = false)
      (hroot : st.merkleRoot = some r) (hne : r ≠ w.merkleRoot) :
      RejectedFrom C w raw st st
  | outOfRange {st : FecState} (hpending : st.reconstructed = false)
      (hroot : ∀ r, st.merkleRoot = some r → r = w.merkleRoot)
      (hidx : 64 ≤ w.erasureShardIndex) :
      RejectedFrom C w raw st { st with merkleRoot := some w.merkleRoot }
  | failed {st : FecState} {e : ReedSolError} (hpending : st.reconstructed = false)
      (hroot : ∀ r, st.merkleRoot = some r → r = w.merkleRoot)
      (hfree : st.shards[w.erasureShardIndex]? = some none) (hmany : 32 ≤ st.distinctSeen + 1)
      (hrs : reconstruct C (st.shards.set w.erasureShardIndex
        (some (cut raw (regionOffset w.kind)
          (regionOffset w.kind + erasureShardSize)))) = .error e) :
      RejectedFrom C w raw st
        { st with
          merkleRoot := some w.merkleRoot
          shards := st.shards.set w.erasureShardIndex
            (some (cut raw (regionOffset w.kind) (regionOffset w.kind + erasureShardSize)))
          distinctSeen := st.distinctSeen + 1 }

/-- The slot an accepted shred was booked in, before and after; what a marker
shred does to the marker is left open. -/
structure BookedOnly (w : VerifiedShred) (ss ss' : SlotState) : Prop where
  seen : ss'.seenFecIndices = ss.seenFecIndices.insert w.fecSetIndex
  done : ss'.reconstructedFecIndices = ss.reconstructedFecIndices
  finalized : ss'.finalized = ss.finalized
  unmarked : w.isLastInSlot = false →
    ss'.lastShredSeen = ss.lastShredSeen ∧ ss'.lastFecSetIndex = ss.lastFecSetIndex

/-- What a call that rejects the accepted shred `w` changes. -/
structure RejectedEffect (C : Crates) (w : VerifiedShred) (raw : List UInt8)
    (a a' : FecAssembler) : Prop where
  states : ∀ key, key ≠ ⟨w.slot, w.fecSetIndex⟩ → a'.states key = a.states key
  slots : ∀ slot, slot ≠ w.slot → a'.slots slot = a.slots slot
  set : RejectedFrom C w raw (a.stateOf ⟨w.slot, w.fecSetIndex⟩)
    (a'.stateOf ⟨w.slot, w.fecSetIndex⟩)
  slot : BookedOnly w (a.slotOf w.slot) (a'.slotOf w.slot)

/-- A shred that passes the root check out of range is rejected. -/
theorem Exit.rejected_of_outOfRange (hexit : Exit C a x st ss es) (h : WellFormed a)
    (hopen : Open a x) (hidx : 64 ≤ x.idx) :
    .rejected s!"erasure_shard_index out of range: {x.idx}" ∈ es := by
  have hlen := h.stateOf_length x.key
  have hnone : (a.stateOf x.key).shards[x.idx]? = none := by
    rw [List.getElem?_eq_none_iff, hlen]
    exact hidx
  have hfull : ¬ Free a x := by
    rw [Free, hnone]
    simp
  cases hexit with
  | outOfRange _ _ => exact List.mem_append_right _ (List.mem_singleton.mpr rfl)
  | settled hrec _ => exact absurd (hopen.pending.symm.trans hrec) (by decide)
  | diverges _ hroot hne => exact absurd (hopen.root _ hroot) hne
  | duplicate _ hdup => simp [hnone] at hdup
  | accepted _ hfree _ => exact absurd hfree hfull
  | failed _ hfree _ _ => exact absurd hfree hfull
  | recovered _ hfree _ _ _ => exact absurd hfree hfull

theorem open_new : Open .new x where
  pending := rfl
  root r h := by cases h

/-! ## The exits that reject -/

theorem bookedOnly_booked (a : FecAssembler) (x : Admitted) :
    BookedOnly x.shred (a.slotOf x.key.slot) (booked a x) where
  seen := by
    rw [booked, bookkeep]
    split <;> rfl
  done := booked_reconstructed
  finalized := booked_finalized
  unmarked hlast := by
    rw [booked, bookkeep, if_neg (by simp [hlast])]
    exact ⟨rfl, rfl⟩

/-- The exits that reject. -/
theorem Exit.rejects (hexit : Exit C a x st ss es) (raw : List UInt8)
    (hrej : es.filter FecEvent.isRejected ≠ [])
    (hbytes : x.bytes = cut raw (regionOffset x.shred.kind)
      (regionOffset x.shred.kind + erasureShardSize)) :
    ss = booked a x ∧ RejectedFrom C x.shred raw (a.stateOf x.key) st := by
  obtain ⟨hstart, haccept⟩ := filter_acceptEvents (a := a) (x := x)
    (p := FecEvent.isRejected) (fun _ _ => rfl) (fun _ _ _ => rfl)
  cases hexit with
  | settled _ hc => exact absurd (hc.events fun _ _ _ _ _ => rfl) hrej
  | duplicate _ _ => exact absurd hstart hrej
  | accepted _ _ _ => exact absurd haccept hrej
  | recovered _ _ _ _ hc =>
      refine absurd ?_ hrej
      rw [List.filter_append, List.filter_append, haccept, hc.events fun _ _ _ _ _ => rfl]
      rfl
  | diverges hpending hr hne => exact ⟨rfl, .diverging hpending hr hne⟩
  | outOfRange hopen hidx => exact ⟨rfl, .outOfRange hopen.pending hopen.root hidx⟩
  | failed hopen hfree hmany hrs =>
      refine ⟨rfl, ?_⟩
      rw [stored, hbytes] at hrs ⊢
      exact .failed hopen.pending hopen.root hfree hmany hrs

theorem rejectedEffect_put (hset : RejectedFrom C x.shred raw (a.stateOf x.key) st) :
    RejectedEffect C x.shred raw a (a.put x.key st (booked a x)) where
  states _ hne := FecAssembler.put_states_ne a hne
  slots _ hne := FecAssembler.put_slots_ne a hne
  set := by
    change RejectedFrom C x.shred raw (a.stateOf x.key) ((a.put x.key st _).stateOf x.key)
    rw [FecAssembler.stateOf_put_self]
    exact hset
  slot := by
    change BookedOnly x.shred (a.slotOf x.key.slot) ((a.put x.key st _).slotOf x.key.slot)
    rw [FecAssembler.slotOf_put_self]
    exact bookedOnly_booked a x

/-! ## A stray shred

A lone data shred with a proof of seven entries, at position 64. -/

def strayVariant : ShredVariant := ⟨.data, 7, true, false⟩

def strayProof : List (Bytes 20) := List.replicate 7 (Bytes.zero 20)

theorem stray_layout : Layout strayVariant (bareAuth 0x97 64 0 977) strayProof [] where
  decodes := rfl
  auth := length_bareAuth
  proof := rfl
  rest := rfl

noncomputable def stray : List UInt8 :=
  signedBy (referenceCrates sha256) (sampleKey sha256)
    (laidOut (bareAuth 0x97 64 0 977) strayProof []) strayVariant 64

theorem verified_stray : Verified (referenceCrates sha256) ⟨true⟩ stray
    ((referenceCrates sha256).verifyingKey (sampleKey sha256)) strayVariant 64 := by
  rw [stray]
  exact stray_layout.verified referenceCrates_acceptsHonestSignatures (sampleKey sha256) rfl
    (by rw [bareAuth_fecSetIndex]; exact Nat.zero_le _)
    (by rw [bareAuth_fecSetIndex, bareAuth_index]; rfl) (by decide)

/-- The listener of the key's holder. -/
noncomputable def sampleLeaders : Leaders :=
  fun _ => some ((referenceCrates sha256).verifyingKey (sampleKey sha256))

theorem ingest_stray : ∃ a es, ingest (referenceCrates sha256) ⟨true⟩ sampleLeaders .new stray =
      .ok (a, es) ∧ (∃ reason, .rejected reason ∈ es) ∧ ∃ key st, a.states key = some st := by
  have hgate : gate _ ⟨true⟩ sampleLeaders stray = _ := Verified.gate_eq verified_stray rfl
  obtain ⟨st, ss, es, heq, hexit⟩ := ingest_admitted (a := .new) wellFormed_new hgate
  exact ⟨_, es, heq, ⟨_, hexit.rejected_of_outOfRange wellFormed_new open_new (Nat.le_refl 64)⟩,
    _, st, FecAssembler.put_states_self _⟩

/-! ## What is left behind -/

/-- **What a rejected datagram changes**: nothing unless it is an accepted shred
of the slot's leader, and then only its own set and slot. -/
theorem rejected_effect (C : Crates) (P : Profile) (leaders : Leaders) (a : FecAssembler)
    (hreach : Reachable C P a) (raw : List UInt8) (a' : FecAssembler) (es : List FecEvent)
    (h : ingest C P leaders a raw = .ok (a', es)) (hrej : ∃ reason, .rejected reason ∈ es) :
    (¬ (∃ pk w, leaders w.slot = some pk ∧ verifyShred C P raw pk = .ok w) → a' = a) ∧
      ∀ pk w, leaders w.slot = some pk → verifyShred C P raw pk = .ok w →
        RejectedEffect C w raw a a' := by
  have hfilter : es.filter FecEvent.isRejected ≠ [] := by
    obtain ⟨reason, hmem⟩ := hrej
    exact List.ne_nil_of_mem (List.mem_filter.mpr ⟨hmem, rfl⟩)
  rcases ingest_cases hreach.wellFormed h with ⟨reason, hgate, rfl, _⟩ |
    ⟨x, st, ss, hgate, rfl, hexit⟩
  · refine ⟨fun _ => rfl, fun pk w hl hw => ?_⟩
    obtain ⟨v, i, hv, rfl⟩ := verifyShred_eq_ok hw
    rw [Verified.gate_eq hv hl] at hgate
    cases hgate
  · obtain ⟨v, i, pk, hl, hv, rfl⟩ := gate_eq_admitted hgate
    refine ⟨fun hnot => absurd ⟨pk, _, hl, hv.verifyShred_eq⟩ hnot, fun pk' w hl' hw => ?_⟩
    obtain ⟨v', i', hv', rfl⟩ := verifyShred_eq_ok hw
    have hsame : gate C P leaders raw = _ := Verified.gate_eq hv' hl'
    rw [hgate] at hsame
    have hw' : verifiedOf C raw v i = verifiedOf C raw v' i' :=
      congrArg Admitted.shred (Except.ok.inj (Exec.ok.inj hsame))
    rw [← hw']
    obtain ⟨rfl, hset⟩ := hexit.rejects raw hfilter rfl
    exact rejectedEffect_put hset

/-- The stray shred, rejected by a fresh assembler. -/
theorem rejected_effect_stray :
    ∃ a es, ingest (referenceCrates sha256) ⟨true⟩ sampleLeaders .new stray = .ok (a, es) ∧
      RejectedEffect (referenceCrates sha256) (verifiedOf (referenceCrates sha256) stray
        strayVariant 64) stray .new a := by
  obtain ⟨a, es, heq, hrej, _⟩ := ingest_stray
  exact ⟨a, es, heq, (rejected_effect _ ⟨true⟩ sampleLeaders .new reachable_new stray a es heq
    hrej).2 _ _ rfl verified_stray.verifyShred_eq⟩

/-- The stray shred is rejected by a fresh assembler, which has an entry for its
set afterwards. -/
theorem rejected_leaves_entry :
    ∃ leaders raw a es, ingest (referenceCrates sha256) ⟨true⟩ leaders .new raw = .ok (a, es) ∧
      (∃ reason, .rejected reason ∈ es) ∧ a.states ≠ FecAssembler.new.states := by
  obtain ⟨a, es, heq, hrej, key, st, hst⟩ := ingest_stray
  refine ⟨sampleLeaders, stray, a, es, heq, hrej, fun hsame => ?_⟩
  rw [hsame] at hst
  cases hst

end Lattica.Listener
